import RemotePlay.Udp.Packetiser
import RemotePlay.Lib.Threads

/-! # What the packetiser keeps true

Of the frames acquired and not released there are two at most, and the sending thread is in the
first.  `ThreadInv` says of a buffer that it holds the thread's bytes as far as they are written,
from the place where the next packet starts; `PcInv` what the sending thread has found out about its
frame; `Partial` and `Complete` which packets have been sent.  The steps of the encoder threads keep
all of it (`Inv.encoder`). -/

namespace RemotePlay.Udp

open RemotePlay.Encode RemotePlay.Work Lib.Pieces

open Function (update)

variable {L : Link} {frames : ℕ → Frame L} {st st' : NwmState} {k t w : ℕ}

/-- The bytes of a frame. -/
def Frame.bytes (f : Frame L) : List UInt8 := joined f.stream L.n

/-! ### Buffers -/

/-- An address in the memory of a thread's buffer. -/
def InBuffer (L : Link) (w t x : ℕ) : Prop :=
  bufStart L.lossless L.core_count w t ≤ x ∧
    x < bufStart L.lossless L.core_count w t + bufSize L.lossless L.core_count

theorem Link.n_pos (L : Link) : 0 < L.n := L.core_count.get_pos

theorem Link.packet_data_size_pos (L : Link) : 0 < L.packet_data_size := PacketDataSize.pos _

theorem InBuffer.disjoint {w' t' x : ℕ} (h : InBuffer L w t x) (h' : InBuffer L w' t' x)
    (hw : w < WORK_COUNT) (ht : t < L.n) (hw' : w' < WORK_COUNT) (ht' : t' < L.n) :
    w = w' ∧ t = t' := by
  by_contra hne
  obtain ⟨h1, h2⟩ := h
  obtain ⟨h1', h2'⟩ := h'
  have hpair : (w, t) ≠ (w', t') := fun he => hne (Prod.mk.injEq _ _ _ _ ▸ he)
  rcases (bufStart_disjoint L.lossless hw ht hw' ht').2 hpair with h | h <;> omega

theorem Frame.inBuffer (f : Frame L) (ht : t < L.n) {x : ℕ}
    (h1 : (L.ninfo w t).buf ≤ x + RP_CB_HDR_SIZE + if L.lossless then RP_LOSSLESS_HDR_SIZE else 0)
    (h2 : x < (L.ninfo w t).buf + (f.stream t).length + L.packet_data_size) : InBuffer L w t x := by
  have hfits := f.fits w t ht
  have hP : L.packet_data_size ≤ bufSize L.lossless L.core_count := by
    unfold Link.packet_data_size
    cases L.lossless <;> cases L.core_count <;> decide
  have hlast : (L.ninfo w t).buf_packet_last + L.packet_data_size =
      bufStart L.lossless L.core_count w t + bufSize L.lossless L.core_count :=
    Nat.sub_add_cancel (hP.trans (Nat.le_add_left _ _))
  have hbuf : (L.ninfo w t).buf = bufStart L.lossless L.core_count w t + RP_CB_HDR_SIZE +
      if L.lossless then RP_LOSSLESS_HDR_SIZE else 0 := rfl
  exact ⟨by omega, by omega⟩

namespace NwmState

/-! ### The invariants -/

section

variable (L frames st)

/-- The encoder thread as it starts. -/
def freshEncoder (k t : ℕ) : Encoder :=
  ⟨0, (L.ninfo (k % WORK_COUNT) t).buf, L.packet_data_size, .encoding⟩

/-- A thread of a frame that has been acquired, and not released. -/
structure ThreadInv (k t : ℕ) : Prop where
  written_le : (st.enc k t).written ≤ ((frames k).stream t).length
  free_le : (st.enc k t).free_in_bytes ≤ L.packet_data_size
  encoding : (st.enc k t).stage = .encoding →
    (st.enc k t).dst = (L.ninfo (k % WORK_COUNT) t).buf + (st.enc k t).written ∧
    (st.info (k % WORK_COUNT) t).pos + (L.packet_data_size - (st.enc k t).free_in_bytes) =
      (L.ninfo (k % WORK_COUNT) t).buf + (st.enc k t).written
  counted : (st.enc k t).stage ≠ .encoding →
    (st.info (k % WORK_COUNT) t).pos =
      (L.ninfo (k % WORK_COUNT) t).buf + ((frames k).stream t).length ∧
    (st.enc k t).written = ((frames k).stream t).length
  flag : (st.info (k % WORK_COUNT) t).flag = if (st.enc k t).stage = .ended then TERM_FLAG else 0
  buf_le : (L.ninfo (k % WORK_COUNT) t).buf ≤ (st.info (k % WORK_COUNT) t).send_pos
  send_le : (st.info (k % WORK_COUNT) t).send_pos ≤ (st.info (k % WORK_COUNT) t).pos
  mem : ∀ j, (st.info (k % WORK_COUNT) t).send_pos ≤ (L.ninfo (k % WORK_COUNT) t).buf + j →
    j < (st.enc k t).written →
      some (st.mem ((L.ninfo (k % WORK_COUNT) t).buf + j)) = ((frames k).stream t)[j]?

/-- The thread has said that it has no more bytes of the frame. -/
def Ended (k t : ℕ) : Prop := (st.enc k t).stage = .ended

/-- The slot the sending thread is in. -/
def slot : ℕ := st.released % WORK_COUNT

/-- How far into its frame the sending thread is. -/
def reached : ℕ :=
  offset (frames st.released).stream st.thread_index +
    ((st.info (slot st) st.thread_index).send_pos - (L.ninfo (slot st) st.thread_index).buf)

/-- The bytes of the packet in the making are in memory. -/
def Gathered (total : ℕ) : Prop :=
  ∀ j < total, some (st.mem ((st.info (slot st) st.thread_index).send_pos + j)) =
    (frames st.released).bytes[reached L frames st + j]?

/-- The sending thread is in its frame. -/
def Current (w t : ℕ) : Prop :=
  w = slot st ∧ t = st.thread_index ∧ st.need_syn (slot st) = false

/-- The packet ends with the last bytes of a thread that is not the last. -/
structure Joining (a : Attempt) : Prop where
  flag : a.flag = TERM_FLAG
  thread_done : a.thread_done = true
  end_done : a.end_done = true
  index_lt : st.thread_index < a.end_index
  index_le : a.end_index < L.n
  ended : ∀ t, st.thread_index ≤ t → t < a.end_index → Ended st st.released t
  total_le : a.total_size ≤ L.packet_data_size
  reached : reached L frames st + a.total_size = offset (frames st.released).stream a.end_index
  gathered : Gathered L frames st a.total_size

/-- The packet ends the frame. -/
structure Last (a : Attempt) : Prop where
  flag : a.flag = TERM_FLAG
  thread_done : a.thread_done = true
  end_done : a.end_done = true
  end_index : a.end_index = 0
  ended : ∀ t < L.n, Ended st st.released t
  total_le : a.total_size ≤ L.packet_data_size
  reached : NwmState.reached L frames st + a.total_size = (frames st.released).bytes.length

/-- The packet is full, and more of the thread it ends with may come. -/
structure Full (a : Attempt) : Prop where
  end_done : a.end_done = false
  total_eq : a.total_size = L.packet_data_size
  index_le : st.thread_index ≤ a.end_index
  index_lt : a.end_index < L.n
  thread_done : a.thread_done = true ↔ st.thread_index < a.end_index
  ended : ∀ t, st.thread_index ≤ t → t < a.end_index → Ended st st.released t
  reached : NwmState.reached L frames st + a.total_size =
    offset (frames st.released).stream a.end_index +
      ((st.info (slot st) a.end_index).send_pos - (L.ninfo (slot st) a.end_index).buf) + a.end_size
  pos_le : (st.info (slot st) a.end_index).send_pos + a.end_size ≤
    (st.info (slot st) a.end_index).pos

/-- What the sending thread has found out. -/
def PcInv : NwmPc → Prop
  | .top => True
  | .acquire w t => w = slot st ∧ t = st.thread_index
  | .readFlag w t => Current st w t
  | .readPos w t flag => Current st w t ∧ (0 < flag → flag = TERM_FLAG ∧ Ended st st.released t)
  | .attempt w t flag pos =>
    Current st w t ∧
    (0 < flag → flag = TERM_FLAG ∧ Ended st st.released t ∧ pos = (st.info w t).pos) ∧
      (st.info w t).send_pos ≤ pos ∧ pos ≤ (st.info w t).pos
  | .nextFlag a => Current st a.w a.t ∧ Joining L frames st a
  | .nextPos a flag =>
    Current st a.w a.t ∧ Joining L frames st a ∧ (0 < flag → Ended st st.released a.end_index)
  | .copy a size done =>
    Current st a.w a.t ∧ Joining L frames st a ∧ a.total_size + size ≤ L.packet_data_size ∧
      (st.info (slot st) a.end_index).send_pos + size ≤ (st.info (slot st) a.end_index).pos ∧
      (done = true → Ended st st.released a.end_index ∧
        (st.info (slot st) a.end_index).send_pos + size = (st.info (slot st) a.end_index).pos) ∧
      (done = false → a.total_size + size = L.packet_data_size)
  | .send a =>
    Current st a.w a.t ∧ (Last L frames st a ∨ Full L frames st a) ∧
      Gathered L frames st a.total_size
  | .finish a => Current st a.w a.t ∧ (Last L frames st a ∨ Full L frames st a)

end

/-! ### Packets -/

/-- The `i`-th packet of a frame, and whether it is the last. -/
structure PacketAt (f : Frame L) (i : ℕ) (p : Packet) (last : Bool) : Prop where
  payload : p.payload = (f.bytes.drop (i * L.packet_data_size)).take L.packet_data_size
  data_hdr : p.data_hdr = { f.dataHdr with
    b1 := f.dataHdr.b1 ||| (if last then UInt8.ofNat TERM_FLAG else 0), b3 := UInt8.ofNat i }
  lossless_hdr : ∃ t < L.n, offset f.stream t ≤ i * L.packet_data_size ∧
    i * L.packet_data_size ≤ offset f.stream (t + 1) ∧
    p.lossless_hdr = if L.lossless then
      some { f.losslessHdr with b1 := f.losslessHdr.b1 ||| (UInt8.ofNat t &&& 0x3) } else none

/-- Full packets, as far as `x`. -/
def Partial (f : Frame L) (ps : List Packet) (x : ℕ) : Prop :=
  (∀ i (h : i < ps.length), PacketAt f i ps[i] false) ∧ ps.length * L.packet_data_size = x

/-- All the packets of a frame. -/
def Complete (f : Frame L) (ps : List Packet) : Prop :=
  ∃ qs p, ps = qs ++ [p] ∧ (∀ i (h : i < qs.length), PacketAt f i qs[i] false) ∧
    PacketAt f qs.length p true ∧ qs.length * L.packet_data_size ≤ f.bytes.length ∧
    f.bytes.length ≤ (qs.length + 1) * L.packet_data_size

section

variable (L frames st)

/-- The packets of the frame that the sending thread is in. -/
def CurrentSent : NwmPc → Prop
  | .finish a =>
    if a.end_done then Complete (frames st.released) (st.sent st.released)
    else Partial (frames st.released) (st.sent st.released) (reached L frames st + a.total_size)
  | _ => Partial (frames st.released) (st.sent st.released)
      (if st.released < st.acquired then reached L frames st else 0)

/-- What holds in every state reached. -/
structure Inv : Prop where
  begun_le : st.begun ≤ st.readied
  readied_le : st.readied ≤ st.acquired
  acquired_le : st.acquired ≤ st.begun + 1
  acquired_le_released : st.acquired ≤ st.released + 2
  released_le : st.released ≤ st.readied
  nwm_done_le : ∀ w, st.nwm_done w ≤ 1
  nwm_done_zero : ∀ k, st.released ≤ k → k < st.acquired → st.nwm_done (k % WORK_COUNT) = 0
  work_index : st.work_index = slot st
  next_syn : st.need_syn ((st.released + 1) % WORK_COUNT) = true ∧
    st.nwm_ready ((st.released + 1) % WORK_COUNT) = if st.released + 1 < st.readied then 1 else 0
  waiting : st.need_syn (slot st) = true → st.thread_index = 0 ∧
    st.nwm_ready (slot st) = (if st.released < st.readied then 1 else 0)
  running : st.need_syn (slot st) = false →
    st.released < st.readied ∧ st.nwm_ready (slot st) = 0
  thread_lt : st.thread_index < L.n
  ended_before : ∀ k < st.released, ∀ t < L.n, Ended st k t
  fresh : ∀ k t, st.begun ≤ k → st.enc k t = freshEncoder L k t
  threads : ∀ k, st.released ≤ k → k < st.acquired → ∀ t < L.n, ThreadInv L frames st k t
  passed : st.released < st.acquired → ∀ t < st.thread_index, Ended st st.released t
  ahead : ∀ k t, st.released ≤ k → k < st.acquired → t < L.n →
    (k = st.released → st.thread_index < t) →
      (st.info (k % WORK_COUNT) t).send_pos = (L.ninfo (k % WORK_COUNT) t).buf
  data_hdr : ∀ k, st.released ≤ k → k < st.acquired → st.data_hdr (k % WORK_COUNT) =
    { (frames k).dataHdr with b3 := UInt8.ofNat (st.sent k).length }
  lossless_hdr : ∀ k, st.released ≤ k → k < st.begun →
    st.lossless_hdr (k % WORK_COUNT) = (frames k).losslessHdr
  sent_before : ∀ k < st.released, Complete (frames k) (st.sent k)
  sent_after : ∀ k, st.released < k → st.sent k = []
  sent : CurrentSent L frames st st.pc
  pc : PcInv L frames st st.pc

end

/-! ### What the invariants depend on -/

theorem ThreadInv.congr (h : ThreadInv L frames st k t) (he : st'.enc k t = st.enc k t)
    (hi : st'.info (k % WORK_COUNT) t = st.info (k % WORK_COUNT) t)
    (hm : ∀ j, (st.info (k % WORK_COUNT) t).send_pos ≤ (L.ninfo (k % WORK_COUNT) t).buf + j →
      j < (st.enc k t).written → st'.mem ((L.ninfo (k % WORK_COUNT) t).buf + j) =
        st.mem ((L.ninfo (k % WORK_COUNT) t).buf + j)) : ThreadInv L frames st' k t := by
  obtain ⟨h1, h2, h3, h4, h5, h6, h7, h8⟩ := h
  constructor <;> simp only [he, hi]
  · exact h1
  · exact h2
  · exact h3
  · exact h4
  · exact h5
  · exact h6
  · exact h7
  · intro j hj hjw
    rw [hm j hj hjw]
    exact h8 j hj hjw

/-- The states do not differ in what the sending thread's frame is about. -/
structure Same (st st' : NwmState) : Prop where
  mem : st'.mem = st.mem
  info : ∀ t, st'.info (slot st) t = st.info (slot st) t
  enc : st'.enc = st.enc
  released : st'.released = st.released
  thread_index : st'.thread_index = st.thread_index

namespace Same

theorem slot_eq (h : Same st st') : slot st' = slot st := by rw [slot, slot, h.released]

theorem reached_eq (h : Same st st') : reached L frames st' = reached L frames st := by
  rw [reached, reached, h.slot_eq, h.released, h.thread_index, h.info]

theorem ended (h : Same st st') (k t : ℕ) : Ended st' k t ↔ Ended st k t := by
  rw [Ended, Ended, h.enc]

theorem gathered (h : Same st st') {total : ℕ} (hg : Gathered L frames st total) :
    Gathered L frames st' total := by
  intro j hj
  rw [h.reached_eq, h.mem, h.slot_eq, h.thread_index, h.info, h.released]
  exact hg j hj

theorem current (h : Same st st') (hn : st'.need_syn (slot st) = st.need_syn (slot st)) {w t : ℕ}
    (hc : Current st w t) : Current st' w t := by
  rw [Current, h.slot_eq, h.thread_index, hn]
  exact hc

theorem joining (h : Same st st') {a : Attempt} (hj : Joining L frames st a) :
    Joining L frames st' a :=
  { flag := hj.flag
    thread_done := hj.thread_done
    end_done := hj.end_done
    index_lt := h.thread_index ▸ hj.index_lt
    index_le := hj.index_le
    ended := fun t h1 h2 => by
      rw [h.thread_index] at h1
      rw [h.ended, h.released]
      exact hj.ended t h1 h2
    total_le := hj.total_le
    reached := by
      rw [h.reached_eq, h.released]
      exact hj.reached
    gathered := h.gathered hj.gathered }

theorem last (h : Same st st') {a : Attempt} (hl : Last L frames st a) : Last L frames st' a :=
  { hl with
    ended := fun t ht => by
      rw [h.ended, h.released]
      exact hl.ended t ht
    reached := by
      rw [h.reached_eq, h.released]
      exact hl.reached }

theorem full (h : Same st st') {a : Attempt} (hf : Full L frames st a) : Full L frames st' a :=
  { end_done := hf.end_done
    total_eq := hf.total_eq
    index_le := h.thread_index ▸ hf.index_le
    index_lt := hf.index_lt
    thread_done := h.thread_index ▸ hf.thread_done
    ended := fun t h1 h2 => by
      rw [h.thread_index] at h1
      rw [h.ended, h.released]
      exact hf.ended t h1 h2
    reached := by
      rw [h.reached_eq, h.released, h.slot_eq, h.info]
      exact hf.reached
    pos_le := by
      rw [h.slot_eq, h.info]
      exact hf.pos_le }

/-- **What the sending thread has found out is as true in the one as in the other.** -/
theorem pcInv (h : Same st st') (hn : st'.need_syn (slot st) = st.need_syn (slot st)) {pc : NwmPc}
    (hpc : PcInv L frames st pc) : PcInv L frames st' pc := by
  have hready : ∀ a, (Last L frames st a ∨ Full L frames st a) →
      Last L frames st' a ∨ Full L frames st' a := fun a hr => hr.imp h.last h.full
  rcases pc with _ | ⟨w, t⟩ | ⟨w, t⟩ | ⟨w, t, flag⟩ | ⟨w, t, flag, pos⟩ | a | ⟨a, flag⟩ |
    ⟨a, size, done⟩ | a | a
  · trivial
  · rw [PcInv, h.slot_eq, h.thread_index]
    exact hpc
  · exact h.current hn hpc
  · rw [PcInv, h.released, h.ended]
    exact ⟨h.current hn hpc.1, hpc.2⟩
  · obtain ⟨hc, h1, h2⟩ := hpc
    have hw := hc.1
    rw [PcInv, h.released, h.ended, hw, h.info]
    exact ⟨h.current hn (hw ▸ hc), hw ▸ h1, hw ▸ h2⟩
  · exact ⟨h.current hn hpc.1, h.joining hpc.2⟩
  · rw [PcInv, h.released, h.ended]
    exact ⟨h.current hn hpc.1, h.joining hpc.2.1, hpc.2.2⟩
  · rw [PcInv, h.released, h.ended, h.slot_eq, h.info]
    exact ⟨h.current hn hpc.1, h.joining hpc.2.1, hpc.2.2⟩
  · exact ⟨h.current hn hpc.1, hready a hpc.2.1, h.gathered hpc.2.2⟩
  · exact ⟨h.current hn hpc.1, hready a hpc.2⟩

theorem currentSent (h : Same st st')
    (ha : st.released < st'.acquired ↔ st.released < st.acquired) (hs : st'.sent = st.sent)
    {pc : NwmPc} (hc : CurrentSent L frames st pc) : CurrentSent L frames st' pc := by
  rcases pc with _ | _ | _ | _ | _ | _ | _ | _ | _ | a <;>
    simp only [CurrentSent, h.reached_eq, h.released, ha, hs] at hc ⊢ <;> exact hc

end Same

theorem Inv.sent_same (hi : Inv L frames st) (h : Same st st')
    (ha : st.released < st'.acquired ↔ st.released < st.acquired) (hs : st'.sent = st.sent)
    (hp : st'.pc = st.pc) : CurrentSent L frames st' st'.pc :=
  h.currentSent ha hs (hp ▸ hi.sent)

theorem Inv.pc_same (hi : Inv L frames st) (h : Same st st')
    (hn : st'.need_syn (slot st) = st.need_syn (slot st)) (hp : st'.pc = st.pc) :
    PcInv L frames st' st'.pc :=
  h.pcInv hn (hp ▸ hi.pc)

/-! ### Steps of the encoder threads -/

theorem ThreadInv.pos_le (h : ThreadInv L frames st k t) :
    (st.info (k % WORK_COUNT) t).pos ≤
      (L.ninfo (k % WORK_COUNT) t).buf + (st.enc k t).written := by
  by_cases hs : (st.enc k t).stage = .encoding
  · have := (h.encoding hs).2
    omega
  · obtain ⟨h1, h2⟩ := h.counted hs
    omega

theorem Inv.slot_inj (h : Inv L frames st) (h1 : st.released ≤ k) (h2 : k < st.acquired)
    (hk : k % WORK_COUNT = slot st) : k = st.released := by
  have := h.acquired_le_released
  rw [slot, show WORK_COUNT = 2 from rfl] at hk
  omega

/-- Thread `t` of frame `k` has made a step, which leaves `enc`, `info` and `mem`. -/
structure EncMove (L : Link) (frames : ℕ → Frame L) (st : NwmState) (enc : ℕ → ℕ → Encoder)
    (info : ℕ → ℕ → DataInfo) (mem : ℕ → UInt8) (k t : ℕ) : Prop where
  begun : k < st.begun
  lt : t < L.n
  not_ended : ¬ Ended st k t
  enc_ne : ∀ k' t', ¬ (k' = k ∧ t' = t) → enc k' t' = st.enc k' t'
  info_ne : ∀ w' t', ¬ (w' = k % WORK_COUNT ∧ t' = t) → info w' t' = st.info w' t'
  send_pos : (info (k % WORK_COUNT) t).send_pos = (st.info (k % WORK_COUNT) t).send_pos
  pos_le : (st.info (k % WORK_COUNT) t).pos ≤ (info (k % WORK_COUNT) t).pos
  mem_eq : ∀ x, mem x = st.mem x ∨ InBuffer L (k % WORK_COUNT) t x ∧
    (L.ninfo (k % WORK_COUNT) t).buf + (st.enc k t).written ≤ x
  thread : ThreadInv L frames st k t →
    ThreadInv L frames { st with enc := enc, info := info, mem := mem } k t

namespace EncMove

variable {enc : ℕ → ℕ → Encoder} {info : ℕ → ℕ → DataInfo} {mem : ℕ → UInt8}

theorem send_pos_eq (h : EncMove L frames st enc info mem k t) (w' t' : ℕ) :
    (info w' t').send_pos = (st.info w' t').send_pos := by
  by_cases hw : w' = k % WORK_COUNT ∧ t' = t
  · rw [hw.1, hw.2]
    exact h.send_pos
  · rw [h.info_ne _ _ hw]

theorem pos_mono (h : EncMove L frames st enc info mem k t) (w' t' : ℕ) :
    (st.info w' t').pos ≤ (info w' t').pos := by
  by_cases hw : w' = k % WORK_COUNT ∧ t' = t
  · rw [hw.1, hw.2]
    exact h.pos_le
  · rw [h.info_ne _ _ hw]

theorem ended (h : EncMove L frames st enc info mem k t) {k' t' : ℕ} (he : Ended st k' t') :
    (enc k' t').stage = .ended := by
  rw [h.enc_ne _ _]
  · exact he
  · rintro ⟨rfl, rfl⟩
    exact h.not_ended he

theorem in_hand (h : EncMove L frames st enc info mem k t) (hi : Inv L frames st) :
    st.released ≤ k ∧ k < st.acquired := by
  refine ⟨?_, ?_⟩
  · by_contra hk
    exact h.not_ended (hi.ended_before k (not_le.mp hk) t h.lt)
  · have h1 := h.begun
    have h2 := hi.begun_le
    have h3 := hi.readied_le
    omega

theorem info_ended (h : EncMove L frames st enc info mem k t) (hi : Inv L frames st) {t' : ℕ}
    (he : Ended st st.released t') : info (slot st) t' = st.info (slot st) t' := by
  refine h.info_ne _ _ ?_
  rintro ⟨hw, rfl⟩
  obtain ⟨h1, h2⟩ := h.in_hand hi
  obtain rfl := hi.slot_inj h1 h2 hw.symm
  exact h.not_ended he

/-- What the sending thread has gathered is not written over: it is of a thread that has ended, or
is published. -/
theorem gathered (h : EncMove L frames st enc info mem k t) (hi : Inv L frames st) {total : ℕ}
    (hrun : st.released < st.acquired) (hP : total ≤ L.packet_data_size)
    (hg : Gathered L frames st total)
    (hend : Ended st st.released st.thread_index ∨
      (st.info (slot st) st.thread_index).send_pos + total ≤
        (st.info (slot st) st.thread_index).pos) :
    Gathered L frames { st with enc := enc, info := info, mem := mem } total := by
  have hth := hi.threads st.released le_rfl hrun st.thread_index hi.thread_lt
  have hreached : reached L frames { st with enc := enc, info := info, mem := mem } =
      reached L frames st := by
    simp only [reached, slot, h.send_pos_eq]
  intro j hj
  rw [hreached]
  show some (mem ((info (slot st) st.thread_index).send_pos + j)) = _
  rw [h.send_pos_eq, ← hg j hj]
  congr 1
  rcases h.mem_eq ((st.info (slot st) st.thread_index).send_pos + j) with hm | ⟨hin, hge⟩
  · exact hm
  exfalso
  -- the address is in the buffer that the sending thread is in
  have hle := hth.send_le
  have hbuf := hth.buf_le
  have hpos := hth.pos_le
  have hwr := hth.written_le
  obtain ⟨h1, h2⟩ := h.in_hand hi
  have hcur : InBuffer L (slot st) st.thread_index
      ((st.info (slot st) st.thread_index).send_pos + j) :=
    (frames st.released).inBuffer hi.thread_lt
      (by show (L.ninfo (st.released % WORK_COUNT) _).buf ≤ _; unfold slot; omega)
      (by unfold slot; omega)
  obtain ⟨hw, rfl⟩ := hin.disjoint hcur (Nat.mod_lt _ (by decide)) h.lt
    (Nat.mod_lt _ (by decide)) hi.thread_lt
  obtain rfl := hi.slot_inj h1 h2 hw
  rcases hend with hend | hend
  · exact h.not_ended hend
  · unfold slot at hend hge
    omega

theorem threadInv (h : EncMove L frames st enc info mem k t) (hi : Inv L frames st) {k' t' : ℕ}
    (h1 : st.released ≤ k') (h2 : k' < st.acquired) (ht : t' < L.n) :
    ThreadInv L frames { st with enc := enc, info := info, mem := mem } k' t' := by
  have hth := hi.threads k' h1 h2 t' ht
  by_cases hkt : k' = k ∧ t' = t
  · obtain ⟨rfl, rfl⟩ := hkt
    exact h.thread hth
  have hslot : ¬ (k' % WORK_COUNT = k % WORK_COUNT ∧ t' = t) := by
    rintro ⟨hw, rfl⟩
    obtain ⟨h3, h4⟩ := h.in_hand hi
    have hacq := hi.acquired_le_released
    rw [show WORK_COUNT = 2 from rfl] at hw
    exact hkt ⟨by omega, rfl⟩
  have henc := h.enc_ne k' t' hkt
  have hinfo := h.info_ne _ _ hslot
  have hmem : ∀ j < (st.enc k' t').written,
      mem ((L.ninfo (k' % WORK_COUNT) t').buf + j) =
        st.mem ((L.ninfo (k' % WORK_COUNT) t').buf + j) := by
    intro j hj
    refine (h.mem_eq _).resolve_right fun ⟨hin, _⟩ => ?_
    have hwr := hth.written_le
    have hin' : InBuffer L (k' % WORK_COUNT) t' ((L.ninfo (k' % WORK_COUNT) t').buf + j) :=
      (frames k').inBuffer ht (by omega) (by omega)
    obtain ⟨hw, rfl⟩ := hin'.disjoint hin (Nat.mod_lt _ (by decide)) ht
      (Nat.mod_lt _ (by decide)) h.lt
    exact hslot ⟨hw, rfl⟩
  obtain ⟨c1, c2, c3, c4, c5, c6, c7, c8⟩ := hth
  refine ⟨?_, ?_, ?_, ?_, ?_, ?_, ?_, fun j hj hjw => ?_⟩ <;> simp only [henc, hinfo] at *
  · exact c1
  · exact c2
  · exact c3
  · exact c4
  · exact c5
  · exact c6
  · exact c7
  · rw [hmem j hjw]
    exact c8 j hj hjw

theorem pcInv (h : EncMove L frames st enc info mem k t) (hi : Inv L frames st) {pc : NwmPc}
    (hpc : PcInv L frames st pc) :
    PcInv L frames { st with enc := enc, info := info, mem := mem } pc := by
  have hreached : reached L frames { st with enc := enc, info := info, mem := mem } =
      reached L frames st := by
    simp only [reached, slot, h.send_pos_eq]
  have hrun : st.need_syn (slot st) = false → st.released < st.acquired := fun hs =>
    (hi.running hs).1.trans_le hi.readied_le
  have hjoin : ∀ a, Current st a.w a.t → Joining L frames st a →
      Joining L frames { st with enc := enc, info := info, mem := mem } a := by
    rintro a ⟨-, -, hs⟩ hj
    have hT := hj.ended _ le_rfl hj.index_lt
    exact
      { flag := hj.flag
        thread_done := hj.thread_done
        end_done := hj.end_done
        index_lt := hj.index_lt
        index_le := hj.index_le
        ended := fun t' h1 h2 => h.ended (hj.ended t' h1 h2)
        total_le := hj.total_le
        reached := hreached ▸ hj.reached
        gathered := h.gathered hi (hrun hs) hj.total_le hj.gathered (Or.inl hT) }
  have hready : ∀ a, (Last L frames st a ∨ Full L frames st a) →
      Last L frames { st with enc := enc, info := info, mem := mem } a ∨
        Full L frames { st with enc := enc, info := info, mem := mem } a := by
    rintro a (hl | hf)
    · exact Or.inl
        { hl with
          ended := fun t' ht' => h.ended (hl.ended t' ht')
          reached := hreached ▸ hl.reached }
    · exact Or.inr
        { hf with
          ended := fun t' h1 h2 => h.ended (hf.ended t' h1 h2)
          reached := by
            rw [hreached, hf.reached]
            show _ + (_ - _) + _ = _ + ((info (slot st) _).send_pos - _) + _
            rw [h.send_pos_eq]
            rfl
          pos_le := by
            show (info (slot st) _).send_pos + _ ≤ (info (slot st) _).pos
            rw [h.send_pos_eq]
            exact hf.pos_le.trans (h.pos_mono _ _) }
  rcases pc with _ | ⟨w, t'⟩ | ⟨w, t'⟩ | ⟨w, t', flag⟩ | ⟨w, t', flag, pos⟩ | a | ⟨a, flag⟩ |
    ⟨a, size, done⟩ | a | a
  · trivial
  · exact hpc
  · exact hpc
  · exact ⟨hpc.1, fun hf => ⟨(hpc.2 hf).1, h.ended (hpc.2 hf).2⟩⟩
  · obtain ⟨hc, hflag, h1, h2⟩ := hpc
    refine ⟨hc, fun hf => ?_, ?_, h2.trans (h.pos_mono _ _)⟩
    · obtain ⟨hterm, he, hpos⟩ := hflag hf
      refine ⟨hterm, h.ended he, ?_⟩
      obtain ⟨rfl, rfl, -⟩ := hc
      show pos = (info (slot st) st.thread_index).pos
      rw [h.info_ended hi he]
      exact hpos
    · show (info w t').send_pos ≤ pos
      rw [h.send_pos_eq]
      exact h1
  · exact ⟨hpc.1, hjoin a hpc.1 hpc.2⟩
  · exact ⟨hpc.1, hjoin a hpc.1 hpc.2.1, fun hf => h.ended (hpc.2.2 hf)⟩
  · obtain ⟨hc, hj, h1, h2, h3, h4⟩ := hpc
    refine ⟨hc, hjoin a hc hj, h1, ?_, fun hd => ?_, h4⟩
    · show (info (slot st) _).send_pos + size ≤ (info (slot st) _).pos
      rw [h.send_pos_eq]
      exact h2.trans (h.pos_mono _ _)
    · obtain ⟨he, hpos⟩ := h3 hd
      refine ⟨h.ended he, ?_⟩
      show (info (slot st) _).send_pos + size = (info (slot st) _).pos
      rw [h.info_ended hi he]
      exact hpos
  · obtain ⟨hc, hr, hg⟩ := hpc
    refine ⟨hc, hready a hr, ?_⟩
    have hacq := hrun hc.2.2
    rcases hr with hl | hf
    · exact h.gathered hi hacq hl.total_le hg (Or.inl (hl.ended _ hi.thread_lt))
    · refine h.gathered hi hacq hf.total_eq.le hg ?_
      rcases hf.index_le.lt_or_eq with hlt | heq
      · exact Or.inl (hf.ended _ le_rfl hlt)
      · have h1 := hf.reached
        have h2 := hf.pos_le
        rw [← heq] at h1 h2
        rw [reached] at h1
        exact Or.inr (by omega)
  · exact ⟨hpc.1, hready a hpc.2⟩

theorem currentSent (h : EncMove L frames st enc info mem k t) {pc : NwmPc}
    (hs : CurrentSent L frames st pc) :
    CurrentSent L frames { st with enc := enc, info := info, mem := mem } pc := by
  have hreached : reached L frames { st with enc := enc, info := info, mem := mem } =
      reached L frames st := by
    simp only [reached, slot, h.send_pos_eq]
  rcases pc with _ | _ | _ | _ | _ | _ | _ | _ | _ | a <;>
    simp only [CurrentSent, hreached] at hs ⊢ <;> exact hs

end EncMove

/-- **The encoder threads keep the invariant.** -/
theorem Inv.encoder (hi : Inv L frames st) {enc : ℕ → ℕ → Encoder} {info : ℕ → ℕ → DataInfo}
    {mem : ℕ → UInt8} (h : EncMove L frames st enc info mem k t) :
    Inv L frames { st with enc := enc, info := info, mem := mem } :=
  { hi with
    ended_before := fun k' hk' t' ht' => h.ended (hi.ended_before k' hk' t' ht')
    fresh := fun k' t' hk' => by
      show enc k' t' = _
      have hk : st.begun ≤ k' := hk'
      have hlt := h.begun
      rw [h.enc_ne k' t' fun hkt => by omega]
      exact hi.fresh k' t' hk
    threads := fun k' h1 h2 t' ht' => h.threadInv hi h1 h2 ht'
    passed := fun hr t' ht' => h.ended (hi.passed hr t' ht')
    ahead := fun k' t' h1 h2 h3 h4 => by
      show (info _ _).send_pos = _
      rw [h.send_pos_eq]
      exact hi.ahead k' t' h1 h2 h3 h4
    sent := h.currentSent hi.sent
    pc := h.pcInv hi hi.pc }

end NwmState

end RemotePlay.Udp
