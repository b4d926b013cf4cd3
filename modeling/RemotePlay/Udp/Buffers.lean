import RemotePlay.Udp.Uncompressed
import RemotePlay.Work.Adaptive
import Mathlib.Tactic.IntervalCases

/-! # The buffers of the encoder threads

Without the reliable stream every encoder thread writes its part of a frame into a buffer of its
own.  `init_nwm_infos` divides the memory of a work slot evenly among the threads, while the rows of
a frame are divided adaptively; `rp_send_buffer` moves the writes back to the last place of the
buffer when they would leave it, but `pos` moves on.  For uncompressed frames this is needed just
when the last thread's share of a double-width top screen has become too small
(`buffersSuffice_iff`). -/

namespace RemotePlay.Udp

open RemotePlay.Encode RemotePlay.Work

/-! ### The layout -/

/-- `ROUND_UP`. -/
def roundUp (n d : ℕ) : ℕ := (n + d - 1) / d * d

/-- `sizeof(void *)`. -/
def WORD_SIZE : ℕ := 4

/-- The room for a packet with its headers. -/
def NWM_PACKET_SIZE : ℕ := roundUp (PACKET_SIZE + NWM_HDR_SIZE) WORD_SIZE
/-- The bytes of `send_bufs`. -/
def SEND_BUFS_SIZE : ℕ := SEND_BUFS_DATA_COUNT * NWM_PACKET_SIZE
/-- A work slot's share of them. -/
def NWM_BUFFER_SIZE : ℕ := SEND_BUFS_SIZE / WORK_COUNT / WORD_SIZE * WORD_SIZE
/-- The room for headers before a thread's bytes. -/
def RP_CB_HDR_SIZE : ℕ := roundUp (NWM_HDR_SIZE + DATA_HDR_SIZE) WORD_SIZE

/-- A thread's buffer: where its bytes start, and the last place where a packet fits, both counted
from the start of `send_bufs`. -/
structure NwmThreadInfo where
  buf : ℕ
  buf_packet_last : ℕ
  deriving DecidableEq, Repr

section

variable (lossless : Bool) (core_count : CoreCount) (w t : ℕ)

/-- `packet_size`. -/
def packetSize : ℕ :=
  (packetDataSize lossless false).val + if lossless then RP_LOSSLESS_HDR_SIZE else 0

/-- `buf_size`. -/
def bufSize : ℕ :=
  (NWM_BUFFER_SIZE / core_count.get - RP_CB_HDR_SIZE) / packetSize lossless * packetSize lossless +
    RP_CB_HDR_SIZE

/-- The start of the memory that thread `t` has for work slot `w`. -/
def bufStart : ℕ := NWM_BUFFER_SIZE * w + t * bufSize lossless core_count

/-- `init_nwm_infos`. -/
def initNwmInfos : NwmThreadInfo where
  buf := bufStart lossless core_count w t + RP_CB_HDR_SIZE +
    if lossless then RP_LOSSLESS_HDR_SIZE else 0
  buf_packet_last :=
    bufStart lossless core_count w t + bufSize lossless core_count -
      (packetDataSize lossless false).val

end

theorem bufSize_le (lossless : Bool) (core_count : CoreCount) :
    core_count.get * bufSize lossless core_count ≤ NWM_BUFFER_SIZE := by
  cases lossless <;> cases core_count <;> decide

/-- **The buffers do not overlap** and lie within `send_bufs`. -/
theorem bufStart_disjoint (lossless : Bool) {core_count : CoreCount} {w t w' t' : ℕ}
    (hw : w < WORK_COUNT) (ht : t < core_count.get) (hw' : w' < WORK_COUNT)
    (ht' : t' < core_count.get) :
    bufStart lossless core_count w t + bufSize lossless core_count ≤ SEND_BUFS_SIZE ∧
      ((w, t) ≠ (w', t') →
        bufStart lossless core_count w t + bufSize lossless core_count ≤
            bufStart lossless core_count w' t' ∨
          bufStart lossless core_count w' t' + bufSize lossless core_count ≤
            bufStart lossless core_count w t) := by
  have hfit : ∀ {k}, k < core_count.get → k * bufSize lossless core_count +
      bufSize lossless core_count ≤ NWM_BUFFER_SIZE := fun hk => by
    rw [← Nat.succ_mul]
    exact (Nat.mul_le_mul_right _ hk).trans (bufSize_le lossless core_count)
  have hmul : ∀ {k l}, k < l → k * bufSize lossless core_count + bufSize lossless core_count ≤
      l * bufSize lossless core_count := fun hk => by
    rw [← Nat.succ_mul]
    exact Nat.mul_le_mul_right _ hk
  have hsize : NWM_BUFFER_SIZE * 2 = SEND_BUFS_SIZE := by decide
  have h1 := hfit ht
  have h2 := hfit ht'
  unfold WORK_COUNT at hw hw'
  unfold bufStart
  interval_cases w <;> interval_cases w' <;> refine ⟨by omega, fun hne => ?_⟩
  · rcases lt_or_gt_of_ne (fun h => hne (congrArg _ h) : t ≠ t') with h | h
    · exact Or.inl (by have := hmul h; omega)
    · exact Or.inr (by have := hmul h; omega)
  · omega
  · omega
  · rcases lt_or_gt_of_ne (fun h => hne (congrArg _ h) : t ≠ t') with h | h
    · exact Or.inl (by have := hmul h; omega)
    · exact Or.inr (by have := hmul h; omega)

/-! ### Sending -/

/-- One call of `rp_send_buffer`: what was written, `size` bytes from `dst`, where `pos` stands
after it, and whether the writes were moved back. -/
structure Sent where
  dst : ℕ
  size : ℕ
  pos : ℕ
  overflow : Bool
  deriving DecidableEq, Repr

/-- `rp_send_buffer` without the reliable stream: the new `pos`, the place of the next packet, and
whether it was moved back. -/
def rpSendBuffer (ninfo : NwmThreadInfo) (pos size : ℕ) (term : Bool) : ℕ × ℕ × Bool :=
  let pos_next := pos + size
  if !term ∧ pos_next > ninfo.buf_packet_last then (pos_next, ninfo.buf_packet_last, true)
  else (pos_next, pos_next, false)

/-- The calls a thread makes for its packets, of these sizes; the last is `term`. -/
def sends (ninfo : NwmThreadInfo) : ℕ → ℕ → List ℕ → List Sent
  | _, _, [] => []
  | pos, dst, size :: sizes =>
    let (pos', dst', overflow) := rpSendBuffer ninfo pos size sizes.isEmpty
    ⟨dst, size, pos', overflow⟩ :: sends ninfo pos' dst' sizes

theorem rpSendBuffer_ok {ninfo : NwmThreadInfo} {pos size : ℕ} {term : Bool}
    (h : term = true ∨ pos + size ≤ ninfo.buf_packet_last) :
    rpSendBuffer ninfo pos size term = (pos + size, pos + size, false) := by
  refine if_neg fun hc => ?_
  rcases h with rfl | h
  · exact absurd hc.1 (by decide)
  · exact absurd hc.2 (by omega)

theorem rpSendBuffer_overflow {ninfo : NwmThreadInfo} {pos size : ℕ}
    (h : ninfo.buf_packet_last < pos + size) :
    rpSendBuffer ninfo pos size false = (pos + size, ninfo.buf_packet_last, true) :=
  if_pos ⟨rfl, h⟩

theorem sends_ok {ninfo : NwmThreadInfo} {P r : ℕ} (hr : r ≤ P) {pos K : ℕ}
    (hroom : pos + K * P ≤ ninfo.buf_packet_last) :
    ∀ s ∈ sends ninfo pos pos (List.replicate K P ++ [r]), s.overflow = false ∧ pos ≤ s.dst ∧
      s.dst + s.size ≤ ninfo.buf_packet_last + P ∧ s.pos ≤ ninfo.buf_packet_last + P := by
  induction K generalizing pos with
  | zero =>
    intro s hs
    have hterm : rpSendBuffer ninfo pos r ([] : List ℕ).isEmpty = (pos + r, pos + r, false) :=
      rpSendBuffer_ok (Or.inl rfl)
    rw [List.replicate_zero, List.nil_append, sends, hterm] at hs
    obtain rfl := List.mem_singleton.mp hs
    exact ⟨rfl, le_rfl, by show pos + r ≤ _; omega, by show pos + r ≤ _; omega⟩
  | succ K ih =>
    rw [Nat.succ_mul] at hroom
    intro s hs
    rw [List.replicate_succ, List.cons_append, sends, rpSendBuffer_ok (Or.inr (by omega))] at hs
    rcases List.mem_cons.mp hs with rfl | hs
    · exact ⟨rfl, le_rfl, by show pos + P ≤ _; omega, by show pos + P ≤ _; omega⟩
    · obtain ⟨h1, h2, h3⟩ := ih (by omega) s hs
      exact ⟨h1, by omega, h3⟩

theorem sends_overflow {ninfo : NwmThreadInfo} {P r : ℕ} {pos dst K : ℕ} (hK : 0 < K)
    (hroom : ninfo.buf_packet_last < pos + K * P) :
    ∃ s ∈ sends ninfo pos dst (List.replicate K P ++ [r]), s.overflow = true := by
  induction K generalizing pos dst with
  | zero => exact absurd hK (lt_irrefl 0)
  | succ K ih =>
    have hterm : (List.replicate K P ++ [r]).isEmpty = false := by simp
    rw [List.replicate_succ, List.cons_append, sends, hterm]
    by_cases hlast : ninfo.buf_packet_last < pos + P
    · rw [rpSendBuffer_overflow hlast]
      exact ⟨_, List.mem_cons_self, rfl⟩
    · rw [rpSendBuffer_ok (Or.inr (not_lt.mp hlast))]
      rw [Nat.succ_mul] at hroom
      have hpos : 0 < K := by
        by_contra h0
        obtain rfl : K = 0 := by omega
        omega
      obtain ⟨s, hs, h⟩ := ih hpos (by omega : ninfo.buf_packet_last < pos + P + K * P)
      exact ⟨s, List.mem_cons_of_mem _ hs, h⟩

/-! ### A frame -/

/-- `LAST_ROW_LAST_N` leaves the last thread a large share. -/
def LargeShare (core_count : CoreCount) (curr : ℕ) (t_last : Bool) : Prop :=
  match core_count with
  | .one => True
  | .two => curr = 0 ∨ (if t_last then 29 else 31) ≤ curr
  | .three => curr = 0 ∨ (if t_last then 27 else 30) ≤ curr

/-- A frame sent uncompressed, and whether the last thread has already finished the frame before it
when its rows are divided. -/
structure UdpFrame where
  is_top : Bool
  width : TopScreenWidth
  downsample : Downsample
  even_odd : Bool
  data : ℕ → SliceData
  t_last : Bool
  not_checker : downsample ≠ .checker

namespace UdpFrame

variable (f : UdpFrame)

/-- The lines of the screen. -/
def height : ℕ := rpScreenHeight f.is_top f.width

/-- `mcu_rows` of a lossless frame. -/
def mcuRows : ℕ := f.height / LOSSLESS_BLOCK_SIZE

/-- The lines of a thread's slice. -/
def sliceLines (p : RowPartition f.mcuRows) (t : ℕ) : ℕ :=
  min (LOSSLESS_BLOCK_SIZE * p.iStart t + LOSSLESS_BLOCK_SIZE * p.iCount t) f.height -
    LOSSLESS_BLOCK_SIZE * p.iStart t

/-- What the threads write of a frame in work slot `w` stays in their buffers: no write is moved
back, `pos` never leaves the thread's memory, and no byte is written into another's. -/
def BuffersSuffice (w : ℕ) (p : RowPartition f.mcuRows) : Prop :=
  ∀ t < p.core_count.get, ∃ d,
    losslessEncode (packetDataSize true false) f.downsample f.even_odd (f.data t) (f.sliceLines p t)
      (freshStart (packetDataSize true false)).dst = some d ∧
    ∀ s ∈ sends (initNwmInfos true p.core_count w t) (initNwmInfos true p.core_count w t).buf
        (initNwmInfos true p.core_count w t).buf (d.sent.map List.length),
      s.overflow = false ∧ s.pos ≤ bufStart true p.core_count w t + bufSize true p.core_count ∧
        ∀ w' < WORK_COUNT, ∀ t' < p.core_count.get, (w', t') ≠ (w, t) →
          s.dst + s.size ≤ bufStart true p.core_count w' t' ∨
            bufStart true p.core_count w' t' + bufSize true p.core_count ≤ s.dst

/-- The share of the last thread is large enough, as far as that matters: only the double-width top
screen in full makes more bytes than a thread has room for, when another thread's share is large. -/
def Balanced (core_count : CoreCount) (curr : ℕ) : Prop :=
  f.is_top = true → f.width = .both → f.downsample = .none → LargeShare core_count curr f.t_last

theorem height_eq : f.height = LOSSLESS_BLOCK_SIZE * f.mcuRows := by
  unfold mcuRows height rpScreenHeight
  split_ifs <;> decide

theorem mcuRows_cases : f.mcuRows = 50 ∧ f.is_top = true ∧ f.width = .both ∨
    f.mcuRows ≤ 25 ∧ ¬(f.is_top = true ∧ f.width = .both) := by
  unfold mcuRows height rpScreenHeight
  split_ifs with h1 h2
  · exact Or.inl ⟨rfl, h1, h2⟩
  · exact Or.inr ⟨by decide, fun h => h2 h.2⟩
  · exact Or.inr ⟨by decide, fun h => h1 h.1⟩

theorem enough (core_count : CoreCount) : Enough core_count f.mcuRows := by
  unfold mcuRows height rpScreenHeight
  split_ifs <;> cases core_count <;> decide

theorem sliceLines_eq {f : UdpFrame} (p : RowPartition f.mcuRows) {t : ℕ}
    (ht : t < p.core_count.get) : f.sliceLines p t = LOSSLESS_BLOCK_SIZE * p.iCount t := by
  have hle := Nat.mul_le_mul_left LOSSLESS_BLOCK_SIZE (p.iStart_add_iCount_le ht)
  rw [sliceLines, height_eq, ← Nat.mul_add, min_eq_left hle, Nat.mul_add, Nat.add_sub_cancel_left]

/-- The full packets a buffer has room for. -/
def maxPackets : CoreCount → ℕ
  | .one => 424
  | .two => 211
  | .three => 140

theorem room_iff (core_count : CoreCount) (w t K : ℕ) :
    (initNwmInfos true core_count w t).buf + K * (packetDataSize true false).val ≤
      (initNwmInfos true core_count w t).buf_packet_last ↔ K ≤ maxPackets core_count := by
  have hP : (packetDataSize true false).val = 1442 := by decide
  have hhdr : RP_CB_HDR_SIZE = 56 := by decide
  have hsize : bufSize true core_count =
      match core_count with | .one => 613756 | .two => 306184 | .three => 203660 := by
    cases core_count <;> decide
  simp only [initNwmInfos, hP, hhdr, hsize, RP_LOSSLESS_HDR_SIZE, if_true]
  generalize bufStart true core_count w t = base
  cases core_count <;> simp only [maxPackets] <;> omega

/-- **Buffers suffice when the full packets of every thread have room.** -/
theorem buffersSuffice_iff_packets {f : UdpFrame} {w : ℕ} (hw : w < WORK_COUNT)
    (p : RowPartition f.mcuRows) : f.BuffersSuffice w p ↔ ∀ t < p.core_count.get,
      sliceBytes f.downsample (LOSSLESS_BLOCK_SIZE * p.iCount t) /
        (packetDataSize true false).val ≤ maxPackets p.core_count := by
  have hP := (packetDataSize true false).pos
  refine forall₂_congr fun t ht => ?_
  obtain ⟨d, hd, hsizes⟩ := losslessEncode_spec (packetDataSize true false) f.downsample f.even_odd
    (f.data t) (LOSSLESS_BLOCK_SIZE * p.iCount t)
  rw [sliceLines_eq p ht, hd]
  simp only [Option.some.injEq, exists_eq_left', hsizes]
  constructor
  · intro h
    by_contra hroom
    have hK := (Nat.zero_le _).trans_lt (not_le.mp hroom)
    rw [← room_iff p.core_count w t] at hroom
    obtain ⟨s, hs, hover⟩ := sends_overflow hK (not_le.mp hroom)
    rw [(h s hs).1] at hover
    exact absurd hover (by decide)
  · intro hroom s hs
    have hr := Nat.mod_lt (sliceBytes f.downsample (LOSSLESS_BLOCK_SIZE * p.iCount t)) hP
    obtain ⟨h1, h2, h3, h4⟩ := sends_ok hr.le ((room_iff p.core_count w t _).mpr hroom) s hs
    have hstart : bufStart true p.core_count w t ≤ (initNwmInfos true p.core_count w t).buf := by
      show bufStart true p.core_count w t ≤ bufStart true p.core_count w t + RP_CB_HDR_SIZE + _
      omega
    have hend : (initNwmInfos true p.core_count w t).buf_packet_last +
        (packetDataSize true false).val =
          bufStart true p.core_count w t + bufSize true p.core_count := by
      refine Nat.sub_add_cancel (le_trans ?_ (Nat.le_add_left _ _))
      cases p.core_count <;> decide
    refine ⟨h1, hend ▸ h4, fun w' hw' t' ht' hne => ?_⟩
    rcases (bufStart_disjoint true hw' ht' hw ht).2 hne with h | h
    · exact Or.inr (by omega)
    · exact Or.inl (by omega)

theorem iCount_cases {f : UdpFrame} {core_count : CoreCount} {v v_last : ℕ}
    (h : RowsOk core_count f.mcuRows v v_last) {t : ℕ} (ht : t < core_count.get) :
    h.partition.iCount t = v_last ∨ h.partition.iCount t = v ∧ core_count ≠ .one := by
  show (if t = core_count.get - 1 then v_last else v) = v_last ∨
    (if t = core_count.get - 1 then v_last else v) = v ∧ core_count ≠ .one
  split_ifs with hlast
  · exact Or.inl rfl
  · refine Or.inr ⟨rfl, fun hone => hlast ?_⟩
    subst hone
    simp only [CoreCount.get] at ht ⊢
    omega

/-- All but the double-width top screen in full have room, and with one core that has too. -/
theorem packets_le {f : UdpFrame} {core_count : CoreCount} {v v_last : ℕ}
    (h : RowsOk core_count f.mcuRows v v_last)
    (hrows : core_count = .one ∨ f.downsample ≠ .none ∨ f.mcuRows ≤ 25) {t : ℕ}
    (ht : t < core_count.get) :
    sliceBytes f.downsample (LOSSLESS_BLOCK_SIZE * h.partition.iCount t) /
      (packetDataSize true false).val ≤ maxPackets core_count := by
  have hP : (packetDataSize true false).val = 1442 := by decide
  have hcount := iCount_cases h ht
  obtain ⟨hpos, hlpos, hle, htotal⟩ := h
  have hmax : f.mcuRows ≤ 50 := by rcases f.mcuRows_cases with h | h <;> omega
  have hchecker := f.not_checker
  rw [hP]
  generalize RowPartition.iCount _ t = n at hcount ⊢
  cases core_count <;> cases hds : f.downsample <;>
    simp only [sliceBytes, maxPackets, LOSSLESS_BLOCK_SIZE, GSP_SCREEN_WIDTH, CoreCount.get, hds,
      reduceCtorEq, ne_eq, not_true_eq_false, not_false_eq_true, false_or, true_or, or_false,
      and_true, and_false] at * <;> omega

/-- The double-width top screen in full. -/
theorem packets_le_iff {f : UdpFrame} {core_count : CoreCount} {v v_last : ℕ}
    (h : RowsOk core_count f.mcuRows v v_last) (hcore : core_count ≠ .one)
    (hds : f.downsample = .none) : (∀ t < core_count.get,
      sliceBytes f.downsample (LOSSLESS_BLOCK_SIZE * h.partition.iCount t) /
        (packetDataSize true false).val ≤ maxPackets core_count) ↔
      v ≤ if core_count = .two then 26 else 17 := by
  have hP : (packetDataSize true false).val = 1442 := by decide
  have hbytes : ∀ n, sliceBytes f.downsample (LOSSLESS_BLOCK_SIZE * n) /
      (packetDataSize true false).val ≤ maxPackets core_count ↔
        n ≤ if core_count = .two then 26 else 17 := by
    intro n
    rw [hP, hds]
    cases core_count <;>
      simp only [sliceBytes, maxPackets, LOSSLESS_BLOCK_SIZE, GSP_SCREEN_WIDTH, if_true,
        reduceCtorEq, if_false, ne_eq, not_true_eq_false] at hcore ⊢ <;> omega
  simp only [hbytes]
  constructor
  · intro hall
    have hone : 1 < core_count.get := by
      cases core_count
      · exact absurd rfl hcore
      · decide
      · decide
    have h0 : h.partition.iCount 0 = v := if_neg (by show 0 ≠ core_count.get - 1; omega)
    exact h0 ▸ hall 0 (by omega)
  · intro hv t ht
    have hle := h.last_le
    rcases iCount_cases h ht with heq | ⟨heq, -⟩
    · omega
    · omega

end UdpFrame

/-! ### A run of frames -/

/-- What `init_work` finds. -/
def UdpFrame.obs (f : UdpFrame) (core_count : CoreCount) : FrameObs core_count :=
  ⟨f.mcuRows, f.t_last, f.enough core_count⟩

/-- The buffers suffice for the frame `f` after the frames `fs`, as `init_work` divides it. -/
def FitsAfter (core_count : CoreCount) (w : ℕ) (fs : List UdpFrame) (f : UdpFrame) : Prop :=
  ∃ curr next v v_last, ∃ h : RowsOk core_count f.mcuRows v v_last,
    lastRowLastN (lastRestartRange false) (fs.map fun f => f.obs core_count) = some curr ∧
    initWorkRows f.mcuRows core_count (lastRestartRange false) curr f.t_last =
      some (next, v, v_last) ∧
    f.BuffersSuffice w h.partition

theorem share_two : ∀ curr : Fin 33, ∀ t_last,
    (initWorkRows 50 .two (lastRestartRange false) curr t_last).any (fun r =>
      decide (r.2.1 ≤ 26) == decide (curr.val = 0 ∨ (if t_last then 29 else 31) ≤ curr.val)) =
        true := by
  decide

theorem share_three : ∀ curr : Fin 33, ∀ t_last,
    (initWorkRows 50 .three (lastRestartRange false) curr t_last).any (fun r =>
      decide (r.2.1 ≤ 17) == decide (curr.val = 0 ∨ (if t_last then 27 else 30) ≤ curr.val)) =
        true := by
  decide

/-- **How `init_work` divides the double-width top screen.** -/
theorem share_iff {core_count : CoreCount} (hcore : core_count ≠ .one) {curr next v v_last : ℕ}
    (hcurr : curr ≤ 32) {f : UdpFrame} (hf : f.is_top = true ∧ f.width = .both)
    (hds : f.downsample = .none)
    (h : initWorkRows 50 core_count (lastRestartRange false) curr f.t_last =
      some (next, v, v_last)) :
    (v ≤ if core_count = .two then 26 else 17) ↔ f.Balanced core_count curr := by
  have hiff : f.Balanced core_count curr ↔ LargeShare core_count curr f.t_last :=
    ⟨fun hb => hb hf.1 hf.2 hds, fun hb _ _ _ => hb⟩
  rw [hiff]
  cases core_count
  · exact absurd rfl hcore
  · have htbl := share_two ⟨curr, by omega⟩ f.t_last
    rw [h] at htbl
    exact decide_eq_decide.mp (eq_of_beq htbl)
  · have htbl := share_three ⟨curr, by omega⟩ f.t_last
    rw [h] at htbl
    exact decide_eq_decide.mp (eq_of_beq htbl)

theorem buffersSuffice_iff {core_count : CoreCount} {w curr next v v_last : ℕ} {f : UdpFrame}
    (hw : w < WORK_COUNT) (hcurr : curr ≤ 32) (h : RowsOk core_count f.mcuRows v v_last)
    (hinit : initWorkRows f.mcuRows core_count (lastRestartRange false) curr f.t_last =
      some (next, v, v_last)) :
    f.BuffersSuffice w h.partition ↔ f.Balanced core_count curr := by
  rw [UdpFrame.buffersSuffice_iff_packets hw]
  by_cases hall : core_count = .one ∨ f.downsample ≠ .none ∨ f.mcuRows ≤ 25
  · refine iff_of_true (fun t ht => UdpFrame.packets_le h hall ht) fun h1 h2 h3 => ?_
    rcases hall with rfl | hds | hrows
    · trivial
    · exact absurd h3 hds
    · rcases f.mcuRows_cases with ⟨heq, -⟩ | ⟨-, hne⟩
      · omega
      · exact absurd ⟨h1, h2⟩ hne
  · simp only [not_or, not_not, not_le] at hall
    obtain ⟨hcore, hds, hrows⟩ := hall
    rcases f.mcuRows_cases with ⟨heq, htop⟩ | ⟨hle, -⟩
    · rw [heq] at hinit
      exact (UdpFrame.packets_le_iff h hcore hds).trans (share_iff hcore hcurr htop hds hinit)
    · omega

/-- **The buffers suffice just when the last thread's share is large enough**, for every frame of
every run. -/
theorem fitsAfter_iff (core_count : CoreCount) (w : Fin WORK_COUNT) (fs : List UdpFrame)
    (f : UdpFrame) : FitsAfter core_count w fs f ↔
      ∃ curr, lastRowLastN (lastRestartRange false) (fs.map fun f => f.obs core_count) = some curr ∧
        f.Balanced core_count curr := by
  obtain ⟨curr, hcurr, hle⟩ := lastRowLastN_spec (lastRestartRange_pos core_count false)
    (fs.map fun f => f.obs core_count)
  constructor
  · rintro ⟨curr', next, v, v_last, hrows, hcurr', hinit, hfits⟩
    rw [hcurr] at hcurr'
    cases hcurr'
    exact ⟨curr, hcurr, (buffersSuffice_iff w.isLt hle hrows hinit).mp hfits⟩
  · rintro ⟨curr', hcurr', hbal⟩
    rw [hcurr] at hcurr'
    cases hcurr'
    obtain ⟨next, v, v_last, hinit, -, hrows⟩ :=
      initWorkRows_spec (f.enough core_count) (lastRestartRange_pos core_count false) hle f.t_last
    exact ⟨curr, next, v, v_last, hrows, hcurr, hinit,
      (buffersSuffice_iff w.isLt hle hrows hinit).mpr hbal⟩

/-- A frame of the double-width top screen, divided while the last thread is at the frame before. -/
def wideFrame : UdpFrame where
  is_top := true
  width := .both
  downsample := .none
  even_odd := false
  data _ := ⟨fun _ _ => 0, fun _ _ _ => 0⟩
  t_last := false
  not_checker := Downsample.noConfusion

/-- **With two threads the fourth such frame overflows a buffer.** -/
theorem fourth_wideFrame_overflows :
    ¬FitsAfter .two 0 [wideFrame, wideFrame, wideFrame] wideFrame := by
  rintro ⟨curr, next, v, v_last, hrows, hcurr, hinit, hfits⟩
  have hvalue : lastRowLastN (lastRestartRange false)
      ([wideFrame, wideFrame, wideFrame].map fun f => f.obs .two) = some 30 := by decide
  rw [hvalue] at hcurr
  cases hcurr
  have hbal := (buffersSuffice_iff (by decide) (by decide) hrows hinit).mp hfits rfl rfl rfl
  exact absurd hbal (by show ¬(30 = 0 ∨ 31 ≤ 30); decide)

end RemotePlay.Udp
