import RemotePlay.Udp.PacketSend
import RemotePlay.Work.Adaptive

/-! # What the lossless header says

Each packet of a lossless frame carries two bytes with the chroma mode, the colour bias, the block
rows of thread 0 and the thread whose buffer the packet was sent from.  The rows have four bits, so
they come back when there are fewer than 16 (`LosslessDataHdr.decode_init`); and when the sending
thread is still at a buffer that it has emptied, the packet starts with bytes of a following thread.
In a run whose sends meet neither, every header says the truth, and only then
(`lossless_hdr_iff`). -/

namespace RemotePlay.Udp

open RemotePlay.Encode RemotePlay.Work Lib.Pieces Lib.Threads

open Function (update)

/-! ### The two bytes -/

/-- What a lossless header says. -/
structure LosslessInfo where
  chroma_ss : ℕ
  color_bias : ℕ
  rows : ℕ
  thread : ℕ
  deriving DecidableEq, Repr

/-- The fields of the header's layout. -/
def LosslessDataHdr.decode (h : LosslessDataHdr) : LosslessInfo where
  chroma_ss := (h.b0 >>> 4 &&& 0x3).toNat
  color_bias := (h.b0 >>> 6).toNat
  rows := (h.b1 >>> 2).toNat
  thread := (h.b1 &&& 0x3).toNat

theorem rows_toNat (r : UInt8) {t : ℕ} (ht : t < 3) :
    ((((r &&& 0xf) <<< 2) ||| (UInt8.ofNat t &&& 0x3)) >>> 2).toNat = r.toNat % 16 ∧
      ((((r &&& 0xf) <<< 2) ||| (UInt8.ofNat t &&& 0x3)) &&& 0x3).toNat = t := by
  have hall : ∀ n < 256, ∀ t < 3,
      ((((UInt8.ofNat n &&& 0xf) <<< 2) ||| (UInt8.ofNat t &&& 0x3)) >>> 2).toNat = n % 16 ∧
        ((((UInt8.ofNat n &&& 0xf) <<< 2) ||| (UInt8.ofNat t &&& 0x3)) &&& 0x3).toNat = t := by
    decide +kernel
  have h := hall r.toNat r.toNat_lt t ht
  rwa [UInt8.ofNat_toNat] at h

/-- **Everything comes back but the upper bits of the rows.** -/
theorem LosslessDataHdr.decode_init (ss : ChromaSs) (bias : ColorBias) {n t : ℕ} (hn : n < 256)
    (ht : t < 3) :
    LosslessDataHdr.decode { LosslessDataHdr.init 0 (UInt8.ofNat ss.val) (UInt8.ofNat bias.val)
        (UInt8.ofNat n) with
      b1 := (LosslessDataHdr.init 0 (UInt8.ofNat ss.val) (UInt8.ofNat bias.val)
        (UInt8.ofNat n)).b1 ||| (UInt8.ofNat t &&& 0x3) } = ⟨ss.val, bias.val, n % 16, t⟩ := by
  obtain ⟨hrows, hthread⟩ := rows_toNat (UInt8.ofNat n) ht
  have hb0 : ((LosslessDataHdr.init 0 (UInt8.ofNat ss.val) (UInt8.ofNat bias.val)
      (UInt8.ofNat n)).b0 >>> 4 &&& 0x3).toNat = ss.val ∧
      ((LosslessDataHdr.init 0 (UInt8.ofNat ss.val) (UInt8.ofNat bias.val)
        (UInt8.ofNat n)).b0 >>> 6).toNat = bias.val := by
    simp only [LosslessDataHdr.init]
    cases ss <;> cases bias <;> decide
  rw [UInt8.toNat_ofNat', Nat.mod_eq_of_lt hn] at hrows
  rw [LosslessDataHdr.decode, hb0.1, hb0.2]
  exact congrArg₂ (LosslessInfo.mk ss.val bias.val) hrows hthread

/-! ### Lossless frames -/

/-- A frame as it comes to `frame_release`, and whether the last thread has already finished the
frame before it when its rows are divided. -/
structure LosslessJob (L : Link) where
  frame_id : UInt8
  is_top : Bool
  downsample : Downsample
  both_eyes : Bool
  chroma_ss : ChromaSs
  color_bias : ColorBias
  t_last : Bool
  stream : ℕ → List UInt8
  fits : ∀ w, ∀ t < L.n, (L.ninfo w t).buf + (stream t).length ≤ (L.ninfo w t).buf_packet_last

namespace LosslessJob

variable {L : Link} (j : LosslessJob L)

/-- `mcu_rows`. -/
def mcuRows : ℕ := rpScreenHeight j.is_top L.top_screen_width / LOSSLESS_BLOCK_SIZE

theorem mcuRows_le : j.mcuRows ≤ 50 := by
  unfold mcuRows rpScreenHeight
  split_ifs <;> decide

theorem enough : Enough L.core_count j.mcuRows := by
  unfold mcuRows rpScreenHeight
  split_ifs <;> cases L.core_count <;> decide

/-- `frame_release` with the rows that `init_work` gave thread 0. -/
def frame (i_count : ℕ) : Frame L where
  frame_id := j.frame_id
  is_top := j.is_top
  downsample := UInt8.ofNat j.downsample.val
  both_eyes := j.both_eyes
  chroma_ss := UInt8.ofNat j.chroma_ss.val
  color_bias := UInt8.ofNat j.color_bias.val
  rest_int := UInt8.ofNat i_count
  stream := j.stream
  fits := j.fits

end LosslessJob

/-- Lossless frames one after another, with the partitions that `init_work` makes for them. -/
structure LosslessRun (L : Link) where
  lossless : L.lossless = true
  delta_prog : Bool
  job : ℕ → LosslessJob L
  last_row_last_n : ℕ → ℕ
  rows : ∀ k, RowPartition (job k).mcuRows
  start : last_row_last_n 0 = 0
  core_count : ∀ k, (rows k).core_count = L.core_count
  init_work : ∀ k, initWorkRows (job k).mcuRows L.core_count (lastRestartRange delta_prog)
    (last_row_last_n k) (job k).t_last =
      some (last_row_last_n (k + 1), (rows k).v_adjusted, (rows k).v_last_adjusted)

/-- **Any frames make a run.** -/
theorem exists_losslessRun {L : Link} (hl : L.lossless = true) (delta_prog : Bool)
    (job : ℕ → LosslessJob L) :
    ∃ r : LosslessRun L, r.job = job ∧ r.delta_prog = delta_prog := by
  have hrange := lastRestartRange_pos L.core_count delta_prog
  have hstep : ∀ k curr, curr ≤ lastRestartRange delta_prog →
      ∃ r : ℕ × RowPartition (job k).mcuRows,
      r.1 ≤ lastRestartRange delta_prog ∧ r.2.core_count = L.core_count ∧
      initWorkRows (job k).mcuRows L.core_count (lastRestartRange delta_prog) curr (job k).t_last =
        some (r.1, r.2.v_adjusted, r.2.v_last_adjusted) := by
    intro k curr hcurr
    obtain ⟨next, v, v_last, hinit, ⟨-, hle⟩, hrows⟩ :=
      initWorkRows_spec (job k).enough hrange hcurr (job k).t_last
    exact ⟨(next, hrows.partition), hle, rfl, hinit⟩
  choose step hle hcore hinit using hstep
  let lastN : ∀ _ : ℕ, {curr // curr ≤ lastRestartRange delta_prog} := fun k =>
    Nat.rec ⟨0, Nat.zero_le _⟩ (fun k curr => ⟨(step k curr.1 curr.2).1, hle k _ curr.2⟩) k
  exact ⟨⟨hl, delta_prog, job, fun k => (lastN k).1, fun k => (step k _ (lastN k).2).2, rfl,
    fun k => hcore k _ (lastN k).2, fun k => hinit k _ (lastN k).2⟩, rfl, rfl⟩

namespace LosslessRun

variable {L : Link} (r : LosslessRun L)

/-- `i_count` of thread 0. -/
def iCount (k : ℕ) : ℕ := (r.rows k).iCount 0

/-- The frames that are sent. -/
def frames (k : ℕ) : Frame L := (r.job k).frame (r.iCount k)

theorem n_eq (k : ℕ) : L.n = (r.rows k).core_count.get := by rw [r.core_count, Link.n]

theorem iCount_le (k : ℕ) : r.iCount k ≤ 50 := by
  have hle := (r.rows k).iStart_add_iCount_le (r.rows k).core_count.get_pos
  rw [RowPartition.iStart_zero, Nat.zero_add] at hle
  exact hle.trans (r.job k).mcuRows_le

theorem iStart_eq (k : ℕ) {t : ℕ} (ht : t < L.n) : (r.rows k).iStart t = r.iCount k * t := by
  rw [RowPartition.iStart, iCount, RowPartition.iCount]
  rw [r.n_eq k] at ht
  split_ifs with h
  · obtain rfl : t = 0 := by omega
    rfl
  · rfl

end LosslessRun

namespace NwmState

variable {L : Link} {frames : ℕ → Frame L} {st st' : NwmState} {w t : ℕ}

/-! ### Where packets start -/

/-- How many bytes of the frame went before a packet. -/
def packetStart (ps : List Packet) (i : ℕ) : ℕ := ((ps.take i).map Packet.payload).flatten.length

/-- The bytes of thread `t` start the packet. -/
def StartsWith (f : Frame L) (ps : List Packet) (i t : ℕ) : Prop :=
  t < L.n ∧ offset f.stream t ≤ packetStart ps i ∧ packetStart ps i < offset f.stream (t + 1)

/-- The lossless header of a packet of frame `k` says what it should: the chroma mode, the colour
bias, the rows of thread 0, with which every thread's first row comes out, and the thread whose
bytes start the packet, if it has any. -/
structure HdrRight (r : LosslessRun L) (k : ℕ) (ps : List Packet) (i : ℕ) (p : Packet)
    (lh : LosslessDataHdr) : Prop where
  lossless_hdr : p.lossless_hdr = some lh
  chroma_ss : lh.decode.chroma_ss = (r.job k).chroma_ss.val
  color_bias : lh.decode.color_bias = (r.job k).color_bias.val
  rows : lh.decode.rows = (r.rows k).iCount 0
  first_rows : ∀ t < L.n, (r.rows k).iStart t = lh.decode.rows * t
  thread : p.payload ≠ [] → StartsWith (r.frames k) ps i lh.decode.thread

/-- There are bytes in a thread's buffer that have not been sent. -/
def Unsent (st : NwmState) (w t : ℕ) : Prop := (st.info w t).send_pos < (st.info w t).pos

instance (st : NwmState) (w t : ℕ) : Decidable (Unsent st w t) :=
  inferInstanceAs (Decidable (_ < _))

/-- If the sending thread is about to send, thread 0 has fewer than 16 rows, and the thread it is at
has unsent bytes, or no thread from there on has. -/
def MeetsAt (r : LosslessRun L) (st : NwmState) : NwmPc → Prop
  | .send a => (r.rows st.released).iCount 0 < 16 ∧
      (Unsent st a.w a.t ∨ ∀ t < L.n, a.t ≤ t → ¬Unsent st a.w t)
  | _ => True

instance (r : LosslessRun L) (st : NwmState) : ∀ pc, Decidable (MeetsAt r st pc)
  | .send _ => inferInstanceAs (Decidable (_ ∧ (_ ∨ ∀ t < L.n, _ → ¬_)))
  | .top | .acquire _ _ | .readFlag _ _ | .readPos _ _ _ | .attempt _ _ _ _ | .nextFlag _
  | .nextPos _ _ | .copy _ _ _ | .finish _ => .isTrue trivial

/-- The condition on a state. -/
def SendMeets (r : LosslessRun L) (st : NwmState) : Prop := MeetsAt r st st.pc

instance (r : LosslessRun L) (st : NwmState) : Decidable (SendMeets r st) :=
  inferInstanceAs (Decidable (MeetsAt r st st.pc))

theorem offset_succ_of_ended (hi : Inv L frames st) (hc : Current st w t) {u : ℕ} (hu : u < L.n)
    (he : Ended st st.released u) (hno : ¬Unsent st (slot st) u) :
    offset (frames st.released).stream (u + 1) = offset (frames st.released).stream u +
      ((st.info (slot st) u).send_pos - (L.ninfo (slot st) u).buf) := by
  have hth := hi.thread hc hu
  have hpos := hth.ended_pos he
  have hsend := hth.send_le
  rw [Unsent] at hno
  rw [offset_succ]
  unfold slot at hno ⊢
  omega

theorem offset_eq_reached (hi : Inv L frames st) (hc : Current st w t) {e : ℕ}
    (hlt : st.thread_index < e) (hle : e ≤ L.n)
    (hended : ∀ t, st.thread_index ≤ t → t < e → Ended st st.released t)
    (hno : ∀ t, st.thread_index ≤ t → t < e → ¬Unsent st (slot st) t) :
    offset (frames st.released).stream e = reached L frames st := by
  induction e, Nat.succ_le_of_lt hlt using Nat.le_induction with
  | base =>
    exact offset_succ_of_ended hi hc hi.thread_lt (hended _ le_rfl (Nat.lt_succ_self _))
      (hno _ le_rfl (Nat.lt_succ_self _))
  | succ e he ih =>
    have hT : st.thread_index ≤ e := (Nat.le_succ _).trans he
    have hahead := hi.ahead st.released e le_rfl (hi.running_lt hc) hle fun _ => he
    rw [offset_succ_of_ended hi hc hle (hended e hT (Nat.lt_succ_self e))
      (hno e hT (Nat.lt_succ_self e)), ih he (Nat.le_of_succ_le hle)
      (fun t h1 h2 => hended t h1 (h2.trans (Nat.lt_succ_self e)))
      (fun t h1 h2 => hno t h1 (h2.trans (Nat.lt_succ_self e)))]
    unfold slot
    omega

/-- The thread that the sending thread is at has ended, if nothing of it is unsent. -/
theorem ended_of_send (hi : Inv L frames st) {a : Attempt} (hc : Current st a.w a.t)
    (hr : Last L frames st a ∨ Full L frames st a) (hno : ¬Unsent st (slot st) st.thread_index) :
    Ended st st.released st.thread_index := by
  rcases hr with hl | hf
  · exact hl.ended _ hi.thread_lt
  · rcases hf.index_le.lt_or_eq with hlt | heq
    · exact hf.ended _ le_rfl hlt
    · have hbuf := (hi.thread hc hi.thread_lt).buf_le
      have hP := L.packet_data_size_pos
      have h1 := hf.reached
      have h2 := hf.pos_le
      have h3 := hf.total_eq
      rw [← heq, reached] at h1
      rw [← heq] at h2
      rw [Unsent] at hno
      unfold slot at h1 h2 hno
      omega

theorem reached_of_none (hi : Inv L frames st) {a : Attempt} (hc : Current st a.w a.t)
    (hr : Last L frames st a ∨ Full L frames st a)
    (hno : ∀ t < L.n, st.thread_index ≤ t → ¬Unsent st (slot st) t) :
    reached L frames st = (frames st.released).bytes.length := by
  rcases hr with hl | hf
  · exact (offset_eq_reached hi hc hi.thread_lt le_rfl (fun t _ => hl.ended t)
      fun t h1 h2 => hno t h2 h1).symm
  · have hP := L.packet_data_size_pos
    have h1 := hf.reached
    have h2 := hf.pos_le
    have h3 := hf.total_eq
    have hnoe := hno _ hf.index_lt hf.index_le
    have hbuf := (hi.thread hc hf.index_lt).buf_le
    rw [Unsent] at hnoe
    rcases hf.index_le.lt_or_eq with hlt | heq
    · have hahead := hi.ahead st.released a.end_index le_rfl (hi.running_lt hc) hf.index_lt
        fun _ => hlt
      have hoff := offset_eq_reached hi hc hlt hf.index_lt.le hf.ended
        fun t h1 h2 => hno t (h2.trans hf.index_lt) h1
      unfold slot at h1 h2 hnoe
      omega
    · rw [← heq] at h1 h2 hnoe
      rw [reached] at h1
      unfold slot at h1 h2 hnoe
      omega

/-! ### A packet is sent -/

/-- The header of a packet sent from thread `t`'s buffer. -/
def hdrFrom (f : Frame L) (t : ℕ) : LosslessDataHdr :=
  { f.losslessHdr with b1 := f.losslessHdr.b1 ||| (UInt8.ofNat t &&& 0x3) }

theorem decode_hdrFrom (r : LosslessRun L) (k : ℕ) (ht : t < L.n) :
    (hdrFrom (r.frames k) t).decode =
      ⟨(r.job k).chroma_ss.val, (r.job k).color_bias.val, (r.rows k).iCount 0 % 16, t⟩ :=
  LosslessDataHdr.decode_init _ _ ((r.iCount_le k).trans_lt (by decide))
    (ht.trans_le L.core_count.get_le)

theorem exists_packet (hi : Inv L frames st) (hl : L.lossless = true) {a : Attempt}
    (hp : st.pc = .send a) (h : nwm L st = some st') :
    ∃ p, st'.sent = update st.sent st.released (st.sent st.released ++ [p]) ∧
      p.lossless_hdr = some (hdrFrom (frames st.released) st.thread_index) ∧
      p.payload = ((frames st.released).bytes.drop
        ((st.sent st.released).length * L.packet_data_size)).take L.packet_data_size := by
  have hpc := hi.pc
  rw [hp] at hpc
  obtain ⟨hc, hr, -⟩ := hpc
  have hloss : st.lossless_hdr (slot st) = (frames st.released).losslessHdr :=
    hi.lossless_hdr _ le_rfl (hi.begun_of_ready hc hr)
  have hi' := inv_nwm hi h
  have hst' := h
  simp only [nwm, hp, Option.some.injEq] at hst'
  obtain ⟨p, hsent, hlh⟩ : ∃ p, st'.sent = update st.sent st.released (st.sent st.released ++ [p]) ∧
      p.lossless_hdr = some (hdrFrom (frames st.released) st.thread_index) := by
    subst hst'
    refine ⟨_, rfl, ?_⟩
    simp only [hl, if_true, hc.1, hc.2.1, hloss, hdrFrom]
  have hpc' : st'.pc = .finish a := by
    rw [← hst']
  have hrel : st'.released = st.released := by
    rw [← hst']
  refine ⟨p, hsent, hlh, ?_⟩
  have hs' := hi'.sent
  rw [hpc', CurrentSent, hsent, hrel, Function.update_self] at hs'
  split_ifs at hs' with hd
  · obtain ⟨qs, q, heq, -, hat, -⟩ := hs'
    obtain ⟨rfl, hq⟩ := List.append_inj' heq rfl
    obtain rfl := List.singleton_inj.mp hq
    exact hat.payload
  · have hat := hs'.1 (st.sent st.released).length (by simp)
    rw [List.getElem_append_right le_rfl] at hat
    simpa only [Nat.sub_self, List.getElem_cons_zero] using hat.payload

theorem packetStart_append (ps : List Packet) {qs : List Packet} {i : ℕ} (hi : i ≤ ps.length) :
    packetStart (ps ++ qs) i = packetStart ps i := by
  rw [packetStart, packetStart, List.take_append_of_le_length hi]

theorem packetStart_sent (hi : Inv L frames st) {a : Attempt} (hp : st.pc = .send a) :
    (st.sent st.released).length * L.packet_data_size = reached L frames st ∧
      packetStart (st.sent st.released) (st.sent st.released).length = reached L frames st := by
  have hpc := hi.pc
  rw [hp] at hpc
  have hfrom : ∀ a, st.pc ≠ .finish a := by
    rw [hp]
    nofun
  have hpart : Partial (frames st.released) (st.sent st.released) (reached L frames st) := by
    have hs := (currentSent_iff hfrom).mp hi.sent
    rwa [if_pos (hi.running_lt hpc.1)] at hs
  refine ⟨hpart.2, ?_⟩
  rw [packetStart, List.take_length, hpart.delivered.1, List.length_take]
  refine min_eq_left ((reached_le hi hpc.1).trans ?_)
  exact offset_mono _ (Nat.succ_le_of_lt hi.thread_lt)

/-- The thread the sending thread is at starts the packet just when it has unsent bytes, unless
the packet is empty. -/
theorem startsWith_iff (hi : Inv L frames st) {a : Attempt} (hc : Current st a.w a.t)
    (hr : Last L frames st a ∨ Full L frames st a) :
    (reached L frames st < (frames st.released).bytes.length →
      reached L frames st < offset (frames st.released).stream (st.thread_index + 1)) ↔
    (Unsent st (slot st) st.thread_index ∨
      ∀ t < L.n, st.thread_index ≤ t → ¬Unsent st (slot st) t) := by
  have hth := hi.thread hc hi.thread_lt
  constructor
  · intro h
    by_contra hne
    obtain ⟨hno, hlater⟩ := not_or.mp hne
    push Not at hlater
    obtain ⟨u, hu, hTu, hun⟩ := hlater
    have hlt : st.thread_index < u := hTu.lt_of_ne fun he => hno (he ▸ hun)
    have hpass : offset (frames st.released).stream (st.thread_index + 1) = reached L frames st :=
      offset_eq_reached hi hc (Nat.lt_succ_self _) hi.thread_lt (fun t h1 h2 => by
        obtain rfl : t = st.thread_index := by omega
        exact ended_of_send hi hc hr hno)
      (fun t h1 h2 => by
        obtain rfl : t = st.thread_index := by omega
        exact hno)
    -- the later thread's unsent bytes are bytes of the frame
    have hthu := hi.thread hc hu
    have hsome : 0 < ((frames st.released).stream u).length := by
      have h1 := hthu.buf_le
      have h2 := hthu.pos_le
      have h3 := hthu.written_le
      rw [Unsent] at hun
      unfold slot at hun
      omega
    have h1 : offset (frames st.released).stream (st.thread_index + 1) ≤
        offset (frames st.released).stream u := offset_mono _ hlt
    have h2 : offset (frames st.released).stream u + _ ≤ (frames st.released).bytes.length :=
      offset_add_le (frames st.released).stream hu
    have h3 := h (by omega)
    omega
  · rintro (hun | hno) hlt
    · have h2 := hth.pos_le
      have h3 := hth.written_le
      have h4 := hth.buf_le
      rw [Unsent] at hun
      rw [offset_succ, reached]
      unfold slot at hun ⊢
      omega
    · exact absurd (reached_of_none hi hc hr hno) hlt.ne

/-- **The header of the next packet is right just when the send meets the condition.** -/
theorem hdrRight_iff {r : LosslessRun L} (hi : Inv L r.frames st) {a : Attempt}
    (hp : st.pc = .send a) (h : nwm L st = some st') :
    ∃ p, st'.sent = update st.sent st.released (st.sent st.released ++ [p]) ∧
      ((∃ lh,
        HdrRight r st.released (st.sent st.released ++ [p]) (st.sent st.released).length p lh) ↔
        SendMeets r st) := by
  have hpc := hi.pc
  rw [hp] at hpc
  obtain ⟨hc, hr, -⟩ := hpc
  obtain ⟨p, hsent, hlh, hpay⟩ := exists_packet hi r.lossless hp h
  obtain ⟨hlen, hpre⟩ := packetStart_sent hi hp
  refine ⟨p, hsent, ?_⟩
  have hdec := decode_hdrFrom r st.released hi.thread_lt
  have hstart : packetStart (st.sent st.released ++ [p]) (st.sent st.released).length =
      reached L r.frames st := (packetStart_append _ le_rfl).trans hpre
  have hnil : p.payload ≠ [] ↔ reached L r.frames st < (r.frames st.released).bytes.length := by
    rw [hpay, hlen, Ne, List.take_eq_nil_iff, List.drop_eq_nil_iff, not_or, not_le]
    exact and_iff_right (Nat.ne_of_gt L.packet_data_size_pos)
  have hmeets : SendMeets r st ↔ (r.rows st.released).iCount 0 < 16 ∧
      (Unsent st (slot st) st.thread_index ∨
        ∀ t < L.n, st.thread_index ≤ t → ¬Unsent st (slot st) t) := by
    rw [SendMeets, hp, MeetsAt, ← hc.1, ← hc.2.1]
  rw [hmeets, ← startsWith_iff hi hc hr]
  have hrows : (r.rows st.released).iCount 0 % 16 = (r.rows st.released).iCount 0 ↔
      (r.rows st.released).iCount 0 < 16 := Nat.mod_eq_iff_lt (by decide)
  constructor
  · rintro ⟨lh, hright⟩
    obtain rfl := Option.some.inj (hlh.symm.trans hright.lossless_hdr)
    refine ⟨?_, fun hlt => ?_⟩
    · have hr := hright.rows
      rw [hdec] at hr
      exact hrows.mp hr
    · have hs := (hright.thread (hnil.mpr hlt)).2.2
      rwa [hdec, hstart] at hs
  · rintro ⟨hlt, hun⟩
    refine ⟨_, hlh, ?_, ?_, ?_, fun t ht => ?_, fun hne => ?_⟩
    · rw [hdec]
    · rw [hdec]
    · rw [hdec]
      exact hrows.mpr hlt
    · rw [hdec, r.iStart_eq _ ht, hrows.mpr hlt]
      rfl
    · rw [hdec, StartsWith, hstart]
      exact ⟨hi.thread_lt, Nat.le_add_right _ _, hun (hnil.mp hne)⟩

/-! ### Runs -/

/-- A step; if the sending thread's, it meets the condition. -/
def MeetingStep (r : LosslessRun L) (st st' : NwmState) : Prop :=
  ∃ act, step L r.frames st act = some st' ∧ (act = .nwm → SendMeets r st)

theorem sent_of_nwm (h : nwm L st = some st') (hno : ∀ a, st.pc ≠ .send a) :
    st'.sent = st.sent := by
  rcases hp : st.pc with _ | ⟨w, t⟩ | ⟨w, t⟩ | ⟨w, t, flag⟩ | ⟨w, t, flag, pos⟩ | a | ⟨a, flag⟩ |
    ⟨a, size, done⟩ | a | a
  on_goal 9 => exact absurd hp (hno a)
  all_goals
    simp only [nwm, hp] at h
    first
    | (cases h; rfl)
    | (split_ifs at h <;> cases h <;> rfl)

theorem sent_of_step {act : Act} (h : step L frames st act = some st')
    (hno : act = .nwm → ∀ a, st.pc ≠ .send a) : st'.sent = st.sent := by
  rcases act with _ | _ | _ | ⟨k, t⟩ | ⟨k, t⟩ | ⟨k, t⟩ | ⟨k, t⟩ | _
  on_goal 8 => exact sent_of_nwm h (hno rfl)
  on_goal 4 =>
    simp only [step, write, Option.ite_none_right_eq_some, Option.map_eq_some_iff] at h
    obtain ⟨-, b, -, rfl⟩ := h
    rfl
  all_goals
    simp only [step, acquire, ready, begin, flush, term, flag, Option.ite_none_right_eq_some,
      Option.some.injEq] at h
    obtain ⟨-, rfl⟩ := h
    rfl

theorem HdrRight.append {r : LosslessRun L} {k i : ℕ} {ps : List Packet} {p q : Packet}
    {lh : LosslessDataHdr} (h : HdrRight r k ps i p lh) (hi : i ≤ ps.length) :
    HdrRight r k (ps ++ [q]) i p lh :=
  { h with
    thread := fun hne => by
      rw [StartsWith, packetStart_append ps hi]
      exact h.thread hne }

/-- **The lossless headers.**  In every run whose sends meet the condition, the header of every
packet of every frame is right; and a send that does not meet it, in whatever state a run has
reached, sends a packet whose header is wrong. -/
theorem lossless_hdr_iff (r : LosslessRun L) :
    (∀ st, Reachable (fun s => s = NwmState.start L) (MeetingStep r) st →
      ∀ k i p, (st.sent k)[i]? = some p → ∃ lh, HdrRight r k (st.sent k) i p lh) ∧
    (∀ st st', Reachable (fun s => s = NwmState.start L) (Step L r.frames) st →
      nwm L st = some st' → ¬SendMeets r st →
      ∃ i p, (st'.sent st.released)[i]? = some p ∧
        ¬∃ lh, HdrRight r st.released (st'.sent st.released) i p lh) := by
  constructor
  · intro st h
    induction h with
    | start h =>
      subst h
      exact fun k i p hp => absurd hp (by simp [NwmState.start])
    | @step st st' h hstep ih =>
      have hi := reachable_inv (h.mono fun s s' ⟨act, hact, _⟩ => ⟨act, hact⟩ :
        Reachable (fun s => s = NwmState.start L) (Step L r.frames) st)
      obtain ⟨act, hact, hmeets⟩ := hstep
      by_cases hsend : act = .nwm ∧ ∃ a, st.pc = .send a
      · obtain ⟨rfl, a, hp⟩ := hsend
        obtain ⟨p, hsent, hiff⟩ := hdrRight_iff hi hp hact
        intro k i q hq
        rw [hsent] at hq ⊢
        rcases eq_or_ne k st.released with rfl | hne
        · rw [Function.update_self] at hq ⊢
          rcases Nat.lt_or_ge i (st.sent st.released).length with hlt | hge
          · rw [List.getElem?_append_left hlt] at hq
            obtain ⟨lh, hlh⟩ := ih _ _ _ hq
            exact ⟨lh, hlh.append hlt.le⟩
          · obtain ⟨hi0, rfl⟩ : i = (st.sent st.released).length ∧ q = p := by
              rw [List.getElem?_append_right hge, List.getElem?_singleton] at hq
              split_ifs at hq with h0
              exact ⟨by omega, (Option.some.inj hq).symm⟩
            rw [hi0]
            exact hiff.mpr (hmeets rfl)
        · rw [Function.update_of_ne hne] at hq ⊢
          exact ih _ _ _ hq
      · rw [sent_of_step hact fun hn a hp => hsend ⟨hn, a, hp⟩]
        exact ih
  · intro st st' h hn hno
    have hi := reachable_inv h
    obtain ⟨a, hp⟩ : ∃ a, st.pc = .send a := by
      by_contra hne
      refine hno ?_
      rw [SendMeets]
      rcases hp : st.pc with _ | _ | _ | _ | _ | _ | _ | _ | a | _
      on_goal 9 => exact absurd ⟨a, hp⟩ hne
      all_goals trivial
    obtain ⟨p, hsent, hiff⟩ := hdrRight_iff hi hp hn
    refine ⟨(st.sent st.released).length, p, ?_, ?_⟩
    · rw [hsent, Function.update_self, List.getElem?_append_right le_rfl, Nat.sub_self]
      rfl
    · rw [hsent, Function.update_self, hiff]
      exact hno

/-! ### Two threads on a wide screen -/

/-- Two threads. -/
def twoLink : Link where
  lossless := true
  core_count := .two
  top_screen_width := .both
  nwm_hdr _ := List.replicate NWM_HDR_SIZE 0
  length_nwm_hdr _ := List.length_replicate

/-- A frame with one byte, thread 0's. -/
def twoJob (is_top : Bool) : LosslessJob twoLink where
  frame_id := 0
  is_top := is_top
  downsample := .none
  both_eyes := false
  chroma_ss := .ss444
  color_bias := .bias1
  t_last := true
  stream t := if t = 0 then [7] else []
  fits w t _ := by
    have hroom : RP_CB_HDR_SIZE + 2 + 1 + (packetDataSize true false).val ≤ bufSize true .two := by
      decide
    have hlen : (if t = 0 then [7] else [] : List UInt8).length ≤ 1 := by
      split_ifs <;> decide
    show bufStart true .two w t + RP_CB_HDR_SIZE + 2 + _ ≤
      bufStart true .two w t + bufSize true .two - (packetDataSize true false).val
    omega

/-- Such frames, each half the rows for each thread. -/
def twoRun (is_top : Bool) : LosslessRun twoLink where
  lossless := rfl
  delta_prog := false
  job _ := twoJob is_top
  last_row_last_n
    | 0 => 0
    | _ + 1 => 32
  rows _ := ⟨.two, if is_top then 25 else 10, if is_top then 25 else 10, by
    cases is_top <;> decide⟩
  start := rfl
  core_count _ := rfl
  init_work k := by
    rcases k with _ | k <;> cases is_top
    · rfl
    · rfl
    · show initWorkRows 20 .two 32 32 true = some (32, 10, 10)
      decide
    · show initWorkRows 50 .two 32 32 true = some (32, 25, 25)
      decide

/-- A frame of one byte from two threads is sent. -/
def twoActs : List Act :=
  [.acquire, .ready, .begin, .write 0 0, .term 0 0, .flag 0 0, .term 0 1, .flag 0 1, .nwm, .nwm,
    .nwm, .nwm, .nwm, .nwm, .nwm, .nwm, .nwm]

/-- A run whose sends meet the condition. -/
theorem lossless_hdr_bottom : ∃ st : NwmState, (st.sent 0).length = 1 ∧
    ∀ i p, (st.sent 0)[i]? = some p → ∃ lh, HdrRight (twoRun false) 0 (st.sent 0) i p lh := by
  have hrun : (twoActs.foldlM (fun s act => if act = .nwm → SendMeets (twoRun false) s then
      step twoLink (twoRun false).frames s act else none) (.start twoLink)).map
        (fun st => (st.sent 0).length) = some 1 := by rfl
  obtain ⟨st, hst, hlen⟩ := Option.map_eq_some_iff.mp hrun
  have hstart : Reachable (fun s => s = NwmState.start twoLink) (MeetingStep (twoRun false))
      (.start twoLink) := .start rfl
  have hreach := hstart.foldlM (fun s act s' hact => by
    obtain ⟨hmeets, hact⟩ := Option.ite_none_right_eq_some.mp hact
    exact ⟨act, hact, hmeets⟩) hst
  exact ⟨st, hlen, (lossless_hdr_iff (twoRun false)).1 st hreach 0⟩

/-- **The rows of the double-width top screen do not fit.** -/
theorem lossless_hdr_top : ¬∀ (L : Link) (r : LosslessRun L) (st : NwmState),
    Reachable (fun s => s = NwmState.start L) (Step L r.frames) st →
      ∀ k i p, (st.sent k)[i]? = some p → ∃ lh, HdrRight r k (st.sent k) i p lh := by
  intro hall
  have hrun : (twoActs.foldlM (fun s act => step twoLink (twoRun true).frames s act)
      (.start twoLink)).map (fun st => (st.sent 0).map fun p => p.lossless_hdr.map fun lh =>
        lh.decode) = some [some ⟨2, 1, 9, 0⟩] := by rfl
  obtain ⟨st, hst, hsent⟩ := Option.map_eq_some_iff.mp hrun
  have hstart : Reachable (fun s => s = NwmState.start twoLink) (Step twoLink (twoRun true).frames)
      (.start twoLink) := .start rfl
  have hreach := hstart.foldlM (fun _ act _ hact => ⟨act, hact⟩) hst
  obtain ⟨p, hp, hdec⟩ := List.map_eq_singleton_iff.mp hsent
  obtain ⟨lh, hlh⟩ := hall twoLink (twoRun true) st hreach 0 0 p (by rw [hp]; rfl)
  rw [hlh.lossless_hdr, Option.map_some, Option.some.injEq] at hdec
  have hrows := hlh.rows
  rw [hdec] at hrows
  exact absurd hrows (by decide)

end NwmState

end RemotePlay.Udp
