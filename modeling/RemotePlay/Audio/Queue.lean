import RemotePlay.Config
import RemotePlay.Lib.Ring
import RemotePlay.Lib.Threads
import Mathlib.Data.List.GetD

/-! # The audio ring

The audio thread hands its packets to the sending thread through a ring of buffers.  `tail` counts
the packets put in and `head` those taken out, both as words of 32 bits that wrap; a packet's slot
is the lower bits of its count.  Each side loads the other's counter at one time and acts on it
later, byte by byte.

A state also remembers the packets put in (`accepted`) and those taken out, with whether they were
sent (`drained`), and for each packet offered how many were pending when the producer loaded `head`
and whether it was accepted (`offers`). -/

namespace RemotePlay.Audio

open Lib.Ring Lib.Threads

open Function (update)

/-- The packets that the ring holds. -/
def AUDIO_Q_LEN : ℕ := 32
/-- The bytes of a frame of the sound processor. -/
def AUDIO_FRAME_BYTES : ℕ := 640
/-- The frames in a packet: the new one and those before it. -/
def AUDIO_REDUNDANCY : ℕ := 2
/-- The bytes of the frames in a packet. -/
def AUDIO_PAYLOAD_BYTES : ℕ := AUDIO_REDUNDANCY * AUDIO_FRAME_BYTES
/-- The bytes of a packet. -/
def AUDIO_PKT_SIZE : ℕ := DATA_HDR_SIZE + AUDIO_PAYLOAD_BYTES

/-- `AudioPkt`, by its bytes. -/
abbrev AudioPkt := Fin AUDIO_PKT_SIZE → UInt8

/-- `audio_enqueue`. -/
inductive ProducerPc
  | idle
  | loadHead (pkt : AudioPkt)
  | loadTail (pkt : AudioPkt) (head : UInt32) (pending : ℕ)
  | copy (pkt : AudioPkt) (tail : UInt32) (i : ℕ)
  | storeTail (pkt : AudioPkt) (tail : UInt32)

/-- A packet that the audio thread had for the ring. -/
structure Offer where
  pkt : AudioPkt
  pending : ℕ
  accepted : Bool

/-- `drain_audio`; a dead session's packets are taken out without being sent. -/
inductive ConsumerPc
  | idle
  | loadTail (ready : Bool)
  | loadHead (ready : Bool) (tail : UInt32)
  | read (head : UInt32) (i : ℕ) (got : AudioPkt)
  | storeHead (ready : Bool) (head : UInt32) (got : AudioPkt)

/-- The ring, where the two threads are, and what has gone in and out. -/
structure AudioQueue where
  head : UInt32
  tail : UInt32
  bufs : ℕ → AudioPkt
  producer : ProducerPc
  consumer : ConsumerPc
  accepted : List AudioPkt
  drained : List (Bool × AudioPkt)
  offers : List Offer

/-- The ring is empty, and both threads are idle. -/
def AudioQueue.start : AudioQueue where
  head := 0
  tail := 0
  bufs _ _ := 0
  producer := .idle
  consumer := .idle
  accepted := []
  drained := []
  offers := []

/-- `tail as usize & (AUDIO_Q_LEN - 1)`. -/
def slotOf (i : UInt32) : ℕ := i.toNat &&& (AUDIO_Q_LEN - 1)

namespace AudioQueue

variable (st : AudioQueue)

/-- How many packets are in the ring. -/
def pending : ℕ := st.accepted.length - st.drained.length

/-- One step of the audio thread, with the next packet to enqueue. -/
def produce (next : AudioPkt) : AudioQueue :=
  match st.producer with
  | .idle => { st with producer := .loadHead next }
  | .loadHead pkt => { st with producer := .loadTail pkt st.head st.pending }
  | .loadTail pkt head pending =>
    if AUDIO_Q_LEN ≤ (st.tail - head).toNat then
      { st with producer := .idle, offers := st.offers ++ [⟨pkt, pending, false⟩] }
    else { st with producer := .copy pkt st.tail 0, offers := st.offers ++ [⟨pkt, pending, true⟩] }
  | .copy pkt tail i =>
    if h : i < AUDIO_PKT_SIZE then
      { st with
        bufs := update st.bufs (slotOf tail) (update (st.bufs (slotOf tail)) ⟨i, h⟩ (pkt ⟨i, h⟩))
        producer := .copy pkt tail (i + 1) }
    else { st with producer := .storeTail pkt tail }
  | .storeTail pkt tail =>
    { st with tail := tail + 1, producer := .idle, accepted := st.accepted ++ [pkt] }

/-- One step of the sending thread; `ready` is what a call of `drain_audio` finds out first. -/
def drain (ready : Bool) : AudioQueue :=
  match st.consumer with
  | .idle => { st with consumer := .loadTail ready }
  | .loadTail ready => { st with consumer := .loadHead ready st.tail }
  | .loadHead ready tail =>
    if st.head = tail then { st with consumer := .idle }
    else if ready then { st with consumer := .read st.head 0 fun _ => 0 }
    else { st with consumer := .storeHead ready st.head (st.bufs (slotOf st.head)) }
  | .read head i got =>
    if h : i < AUDIO_PKT_SIZE then
      { st with consumer := .read head (i + 1) (update got ⟨i, h⟩ (st.bufs (slotOf head) ⟨i, h⟩)) }
    else { st with consumer := .storeHead true head got }
  | .storeHead ready head got =>
    { st with
      head := head + 1, consumer := .loadTail ready, drained := st.drained ++ [(ready, got)] }

/-- A step of one of the two. -/
def Step (st st' : AudioQueue) : Prop :=
  (∃ pkt, st' = st.produce pkt) ∨ ∃ ready, st' = st.drain ready

/-! ### Counters -/

theorem slotOf_ofNat (n : ℕ) : slotOf (UInt32.ofNat n) = n % AUDIO_Q_LEN := by
  rw [slotOf, UInt32.toNat_ofNat', show AUDIO_Q_LEN - 1 = 2 ^ 5 - 1 from rfl,
    Nat.and_two_pow_sub_one_eq_mod, Nat.mod_mod_of_dvd _ (by decide)]
  rfl

theorem ofNat_succ (n : ℕ) : UInt32.ofNat n + 1 = UInt32.ofNat (n + 1) := by
  rw [UInt32.ofNat_add]
  rfl

theorem ofNat_sub {a h p : ℕ} (ha : a = h + p) (hp : p < 2 ^ 32) :
    (UInt32.ofNat a - UInt32.ofNat h).toNat = p := by
  rw [ha, add_comm h, UInt32.ofNat_add, UInt32.add_sub_cancel, UInt32.toNat_ofNat',
    Nat.mod_eq_of_lt hp]

/-! ### The invariant -/

/-- The `j`-th packet put in. -/
def packet (j : ℕ) : AudioPkt := st.accepted.getD j fun _ => 0

/-- What the producer knows at each of its places. -/
def ProducerInv : ProducerPc → Prop
  | .idle | .loadHead _ => True
  | .loadTail _ head pending => ∃ h ≤ st.drained.length, head = UInt32.ofNat h ∧
      st.accepted.length = h + pending ∧ pending ≤ AUDIO_Q_LEN
  | .copy pkt tail i => tail = st.tail ∧ st.accepted.length < st.drained.length + AUDIO_Q_LEN ∧
      i ≤ AUDIO_PKT_SIZE ∧
      ∀ j : Fin AUDIO_PKT_SIZE, j < i → st.bufs (st.accepted.length % AUDIO_Q_LEN) j = pkt j
  | .storeTail pkt tail => tail = st.tail ∧
      st.accepted.length < st.drained.length + AUDIO_Q_LEN ∧
      st.bufs (st.accepted.length % AUDIO_Q_LEN) = pkt

/-- What the consumer knows at each of its places. -/
def ConsumerInv : ConsumerPc → Prop
  | .idle | .loadTail _ => True
  | .loadHead _ tail => ∃ n, tail = UInt32.ofNat n ∧ st.drained.length ≤ n ∧ n ≤ st.accepted.length
  | .read head i got => head = st.head ∧ st.drained.length < st.accepted.length ∧
      ∀ j : Fin AUDIO_PKT_SIZE, j < i → got j = st.packet st.drained.length j
  | .storeHead _ head got => head = st.head ∧ st.drained.length < st.accepted.length ∧
      got = st.packet st.drained.length

/-- The packet that has been accepted but is not in the ring yet. -/
def copying : ProducerPc → List AudioPkt
  | .copy pkt _ _ | .storeTail pkt _ => [pkt]
  | _ => []

/-- The ring holds the packets accepted and not yet drained. -/
structure Inv : Prop where
  head : st.head = UInt32.ofNat st.drained.length
  tail : st.tail = UInt32.ofNat st.accepted.length
  drained_le : st.drained.length ≤ st.accepted.length
  accepted_le : st.accepted.length ≤ st.drained.length + AUDIO_Q_LEN
  holds : Holds AUDIO_Q_LEN st.drained.length st.accepted.length st.packet st.bufs
  drained : st.drained.map Prod.snd = st.accepted.take st.drained.length
  offers : ∀ q ∈ st.offers, q.accepted = false ↔ q.pending = AUDIO_Q_LEN
  accepted : (st.offers.filter Offer.accepted).map Offer.pkt = st.accepted ++ copying st.producer
  producer : ProducerInv st st.producer
  consumer : ConsumerInv st st.consumer

variable {st}

theorem packet_append {pkts : List AudioPkt} {j : ℕ} (hj : j < st.accepted.length) :
    (st.accepted ++ pkts).getD j (fun _ => 0) = st.packet j := by
  rw [packet, List.getD_append _ _ _ _ hj]

theorem Inv.start : Inv .start where
  head := rfl
  tail := rfl
  drained_le := le_rfl
  accepted_le := Nat.zero_le _
  holds := holds_empty
  drained := rfl
  offers q h := by cases h
  accepted := rfl
  producer := trivial
  consumer := trivial

/-! ### The audio thread's steps -/

theorem Inv.slotOf_tail (hi : Inv st) : slotOf st.tail = st.accepted.length % AUDIO_Q_LEN := by
  rw [hi.tail, slotOf_ofNat]

theorem Inv.slotOf_head (hi : Inv st) : slotOf st.head = st.drained.length % AUDIO_Q_LEN := by
  rw [hi.head, slotOf_ofNat]

/-- **The producer's test is right** although the consumer may have gone on since `head` was
loaded. -/
theorem Inv.full_iff (hi : Inv st) {pkt : AudioPkt} {head : UInt32} {pending : ℕ}
    (hp : st.producer = .loadTail pkt head pending) :
    AUDIO_Q_LEN ≤ (st.tail - head).toNat ↔ pending = AUDIO_Q_LEN := by
  have hprod := hi.producer
  rw [hp] at hprod
  obtain ⟨h, -, hhead, hacc, hle⟩ := hprod
  have hlt : pending < 2 ^ 32 := hle.trans_lt (by decide)
  rw [hi.tail, hhead, ofNat_sub hacc hlt]
  omega

theorem Inv.write (hi : Inv st) {pkt : AudioPkt} {tail : UInt32} {i : ℕ}
    (hp : st.producer = .copy pkt tail i) (h : i < AUDIO_PKT_SIZE) :
    Inv { st with
      bufs := update st.bufs (slotOf tail) (update (st.bufs (slotOf tail)) ⟨i, h⟩ (pkt ⟨i, h⟩))
      producer := .copy pkt tail (i + 1) } := by
  have hprod := hi.producer
  rw [hp] at hprod
  obtain ⟨rfl, hroom, -, hcopied⟩ := hprod
  have hoff := hi.accepted
  rw [hp] at hoff
  refine { hi with holds := ?_, accepted := hoff, producer := ⟨rfl, hroom, h, ?_⟩ }
  · rw [hi.slotOf_tail]
    exact hi.holds.update le_rfl hroom _
  · intro j hj
    show update st.bufs (slotOf st.tail) _ (st.accepted.length % AUDIO_Q_LEN) j = pkt j
    rw [hi.slotOf_tail, Function.update_self]
    rcases Nat.lt_succ_iff_lt_or_eq.mp hj with hlt | heq
    · rw [Function.update_of_ne (by rintro rfl; exact hlt.ne rfl)]
      exact hcopied j hlt
    · obtain rfl : j = ⟨i, h⟩ := Fin.ext heq
      exact Function.update_self _ _ _

theorem Inv.push (hi : Inv st) {pkt : AudioPkt}
    (hroom : st.accepted.length < st.drained.length + AUDIO_Q_LEN)
    (hbuf : st.bufs (st.accepted.length % AUDIO_Q_LEN) = pkt)
    (hcopy : copying st.producer = [pkt]) :
    Inv { st with tail := st.tail + 1, producer := .idle, accepted := st.accepted ++ [pkt] } := by
  have hlen : (st.accepted ++ [pkt]).length = st.accepted.length + 1 := List.length_append
  have hle := hi.drained_le
  refine { hi with
    tail := ?_, drained_le := ?_, accepted_le := ?_, holds := ?_, drained := ?_, accepted := ?_
    producer := trivial, consumer := ?_ }
  · show st.tail + 1 = UInt32.ofNat (st.accepted ++ [pkt]).length
    rw [hlen, hi.tail, ofNat_succ]
  · show st.drained.length ≤ (st.accepted ++ [pkt]).length
    omega
  · show (st.accepted ++ [pkt]).length ≤ st.drained.length + AUDIO_Q_LEN
    omega
  · intro j h1 h2
    show st.bufs (j % AUDIO_Q_LEN) = (st.accepted ++ [pkt]).getD j _
    rcases Nat.lt_succ_iff_lt_or_eq.mp (h2.trans_eq hlen) with hlt | rfl
    · rw [packet_append hlt]
      exact hi.holds j h1 hlt
    · rw [hbuf, List.getD_append_right _ _ _ _ le_rfl, Nat.sub_self, List.getD_cons_zero]
  · show _ = (st.accepted ++ [pkt]).take st.drained.length
    rw [List.take_append_of_le_length hle]
    exact hi.drained
  · have hoff := hi.accepted
    rw [hcopy] at hoff
    exact hoff.trans (List.append_nil _).symm
  · have hcons := hi.consumer
    rcases hc : st.consumer with _ | ready | ⟨ready, tail⟩ | ⟨head, i, got⟩ | ⟨ready, head, got⟩ <;>
      rw [hc] at hcons
    · trivial
    · trivial
    · obtain ⟨n, hn, h1, h2⟩ := hcons
      exact ⟨n, hn, h1, h2.trans (hlen ▸ Nat.le_succ _)⟩
    · obtain ⟨hhead, hlt, hgot⟩ := hcons
      refine ⟨hhead, hlt.trans (hlen ▸ Nat.lt_succ_self _), fun j hj => ?_⟩
      rw [hgot j hj]
      exact congrFun (packet_append hlt).symm j
    · obtain ⟨hhead, hlt, hgot⟩ := hcons
      exact ⟨hhead, hlt.trans (hlen ▸ Nat.lt_succ_self _), hgot.trans (packet_append hlt).symm⟩

theorem Inv.produce (hi : Inv st) (next : AudioPkt) : Inv (st.produce next) := by
  have hprod := hi.producer
  have hoff := hi.accepted
  have hle := hi.drained_le
  have hacc := hi.accepted_le
  unfold AudioQueue.produce
  rcases hp : st.producer with _ | pkt | ⟨pkt, head, pending⟩ | ⟨pkt, tail, i⟩ | ⟨pkt, tail⟩ <;>
    rw [hp] at hprod hoff <;> dsimp only
  · exact { hi with accepted := hoff, producer := trivial }
  · refine { hi with accepted := hoff, producer := ⟨_, le_rfl, hi.head, ?_, ?_⟩ }
    · exact (Nat.add_sub_cancel' hle).symm
    · unfold AudioQueue.pending
      omega
  · have hfull := hi.full_iff hp
    obtain ⟨h, hh, -, hlen, hpend⟩ := hprod
    split_ifs with hge
    · refine { hi with offers := ?_, accepted := ?_, producer := trivial }
      · intro q hq
        rcases List.mem_append.mp hq with hq | hq
        · exact hi.offers q hq
        · rw [List.mem_singleton.mp hq]
          exact iff_of_true rfl (hfull.mp hge)
      · show ((st.offers ++ [Offer.mk pkt pending false]).filter Offer.accepted).map Offer.pkt = _
        rw [List.filter_append, List.map_append, hoff]
        exact List.append_nil _
    · have hne : pending ≠ AUDIO_Q_LEN := fun h => hge (hfull.mpr h)
      refine { hi with
        offers := ?_, accepted := ?_, producer := ⟨rfl, ?_, Nat.zero_le _, ?_⟩ }
      · intro q hq
        rcases List.mem_append.mp hq with hq | hq
        · exact hi.offers q hq
        · rw [List.mem_singleton.mp hq]
          exact iff_of_false (by rintro ⟨⟩) hne
      · show ((st.offers ++ [Offer.mk pkt pending true]).filter Offer.accepted).map Offer.pkt = _
        rw [List.filter_append, List.map_append, hoff]
        exact congrArg (· ++ [pkt]) (List.append_nil _)
      · show st.accepted.length < st.drained.length + AUDIO_Q_LEN
        omega
      · intro j hj
        exact absurd hj (Nat.not_lt_zero _)
  · split_ifs with h
    · exact hi.write hp h
    · obtain ⟨htail, hroom, hle, hcopied⟩ := hprod
      refine { hi with accepted := hoff, producer := ⟨htail, hroom, funext fun j => ?_⟩ }
      exact hcopied j (j.isLt.trans_le (not_lt.mp h))
  · obtain ⟨rfl, hroom, hbuf⟩ := hprod
    exact hi.push hroom hbuf (by rw [hp]; rfl)

/-! ### The sending thread's steps -/

theorem Inv.pop (hi : Inv st) {ready : Bool} {got : AudioPkt}
    (hlt : st.drained.length < st.accepted.length) (hgot : got = st.packet st.drained.length) :
    Inv { st with
      head := st.head + 1, consumer := .loadTail ready,
      drained := st.drained ++ [(ready, got)] } := by
  have hlen : (st.drained ++ [(ready, got)]).length = st.drained.length + 1 := List.length_append
  have hacc := hi.accepted_le
  refine { hi with
    head := ?_, drained_le := ?_, accepted_le := ?_, holds := ?_, drained := ?_, producer := ?_
    consumer := trivial }
  · show st.head + 1 = UInt32.ofNat (st.drained ++ [(ready, got)]).length
    rw [hlen, hi.head, ofNat_succ]
  · show (st.drained ++ [(ready, got)]).length ≤ st.accepted.length
    omega
  · show st.accepted.length ≤ (st.drained ++ [(ready, got)]).length + AUDIO_Q_LEN
    omega
  · exact hi.holds.tail (hlen ▸ Nat.le_succ _)
  · show (st.drained ++ [(ready, got)]).map Prod.snd = st.accepted.take _
    rw [hlen, List.take_add_one, List.map_append, hi.drained, List.getElem?_eq_getElem hlt, hgot,
      packet, List.getD_eq_getElem _ _ hlt]
    rfl
  · have hprod := hi.producer
    rcases hp : st.producer with _ | pkt | ⟨pkt, head, pending⟩ | ⟨pkt, tail, i⟩ | ⟨pkt, tail⟩ <;>
      rw [hp] at hprod
    · trivial
    · trivial
    · obtain ⟨h, hh, hrest⟩ := hprod
      exact ⟨h, hh.trans (hlen ▸ Nat.le_succ _), hrest⟩
    · obtain ⟨htail, hroom, hrest⟩ := hprod
      exact ⟨htail, hroom.trans_le (by rw [hlen]; omega), hrest⟩
    · obtain ⟨htail, hroom, hrest⟩ := hprod
      exact ⟨htail, hroom.trans_le (by rw [hlen]; omega), hrest⟩

theorem Inv.drain (hi : Inv st) (ready : Bool) : Inv (st.drain ready) := by
  have hcons := hi.consumer
  unfold AudioQueue.drain
  rcases hc : st.consumer with _ | ready | ⟨ready, tail⟩ | ⟨head, i, got⟩ | ⟨ready, head, got⟩ <;>
    rw [hc] at hcons <;> dsimp only
  · exact { hi with consumer := trivial }
  · exact { hi with consumer := ⟨_, hi.tail, hi.drained_le, le_rfl⟩ }
  · obtain ⟨n, rfl, h1, h2⟩ := hcons
    have hlt : st.head ≠ UInt32.ofNat n → st.drained.length < st.accepted.length := by
      intro hne
      exact (lt_of_le_of_ne h1 fun he => hne (he ▸ hi.head)).trans_le h2
    split_ifs with heq hready
    · exact { hi with consumer := trivial }
    · exact { hi with consumer := ⟨rfl, hlt heq, fun j hj => absurd hj (Nat.not_lt_zero _)⟩ }
    · refine { hi with consumer := ⟨rfl, hlt heq, ?_⟩ }
      rw [hi.slotOf_head, hi.holds _ le_rfl (hlt heq)]
      rfl
  · obtain ⟨rfl, hlt, hgot⟩ := hcons
    split_ifs with h
    · refine { hi with consumer := ⟨rfl, hlt, fun j hj => ?_⟩ }
      rcases Nat.lt_succ_iff_lt_or_eq.mp hj with hji | heq
      · rw [Function.update_of_ne (by rintro rfl; exact hji.ne rfl)]
        exact hgot j hji
      · obtain rfl : j = ⟨i, h⟩ := Fin.ext heq
        rw [Function.update_self, hi.slotOf_head, hi.holds _ le_rfl hlt]
        rfl
    · refine { hi with consumer := ⟨rfl, hlt, funext fun j => ?_⟩ }
      exact hgot j (j.isLt.trans_le (not_lt.mp h))
  · obtain ⟨rfl, hlt, hgot⟩ := hcons
    exact hi.pop hlt hgot

/-! ### Getting on -/

/-- A step of the sending thread. -/
def Consumes (st st' : AudioQueue) : Prop := ∃ ready, st' = st.drain ready

/-- A step of the audio thread. -/
def Produces (st st' : AudioQueue) : Prop := ∃ pkt, st' = st.produce pkt

/-- An iteration of `drain_audio` that has found a packet in the ring. -/
def Draining (ready : Bool) (st : AudioQueue) : Prop :=
  match st.consumer with
  | .loadHead r tail => r = ready ∧ st.head ≠ tail
  | .read _ _ _ => ready = true
  | .storeHead r _ _ => r = ready
  | _ => False

/-- The steps until the iteration, or the next one where it finds the ring empty, has taken a packet
out. -/
def stepsLeft (st : AudioQueue) : ℕ :=
  match st.consumer with
  | .storeHead _ _ _ => 1
  | .read _ i _ => AUDIO_PKT_SIZE - i + 2
  | .loadHead _ tail => if st.head = tail then AUDIO_PKT_SIZE + 6 else AUDIO_PKT_SIZE + 3
  | .loadTail _ => AUDIO_PKT_SIZE + 4
  | .idle => AUDIO_PKT_SIZE + 5

/-- **A step of an iteration that has found a packet** takes it out, or brings that nearer. -/
theorem Inv.drain_draining (hi : Inv st) {ready : Bool} (h : Draining ready st) (next : Bool) :
    st.drained.length < st.accepted.length ∧ (st.drain next).accepted = st.accepted ∧
      ((st.drain next).consumer = .loadTail ready ∧
          (st.drain next).drained = st.drained ++ [(ready, st.packet st.drained.length)] ∨
        Draining ready (st.drain next) ∧ (st.drain next).drained = st.drained ∧
          (st.drain next).stepsLeft < st.stepsLeft) := by
  have hcons := hi.consumer
  unfold Draining at h
  rcases hc : st.consumer with _ | r | ⟨r, tail⟩ | ⟨head, i, got⟩ | ⟨r, head, got⟩ <;>
    rw [hc] at hcons h <;> dsimp only at h
  · obtain ⟨rfl, hne⟩ := h
    obtain ⟨n, rfl, h1, h2⟩ := hcons
    have hlt := (lt_of_le_of_ne h1 fun he => hne (he ▸ hi.head)).trans_le h2
    have hleft : st.stepsLeft = AUDIO_PKT_SIZE + 3 := by
      rw [stepsLeft, hc]
      exact if_neg hne
    cases r with
    | false =>
      have heq : st.drain next =
          { st with consumer := .storeHead false st.head (st.bufs (slotOf st.head)) } := by
        rw [AudioQueue.drain, hc]
        exact (if_neg hne).trans (if_neg Bool.false_ne_true)
      rw [heq]
      exact ⟨hlt, rfl, .inr ⟨rfl, rfl, show 1 < st.stepsLeft by omega⟩⟩
    | true =>
      have heq : st.drain next = { st with consumer := .read st.head 0 fun _ => 0 } := by
        rw [AudioQueue.drain, hc]
        exact (if_neg hne).trans (if_pos rfl)
      rw [heq]
      exact ⟨hlt, rfl, .inr ⟨rfl, rfl, show AUDIO_PKT_SIZE - 0 + 2 < st.stepsLeft by omega⟩⟩
  · obtain ⟨-, hlt, -⟩ := hcons
    have hleft : st.stepsLeft = AUDIO_PKT_SIZE - i + 2 := by rw [stepsLeft, hc]
    by_cases hi' : i < AUDIO_PKT_SIZE
    · have heq : st.drain next = { st with
          consumer :=
            .read head (i + 1) (update got ⟨i, hi'⟩ (st.bufs (slotOf head) ⟨i, hi'⟩)) } := by
        rw [AudioQueue.drain, hc]
        exact dif_pos hi'
      rw [heq]
      exact ⟨hlt, rfl, .inr ⟨h, rfl, show AUDIO_PKT_SIZE - (i + 1) + 2 < st.stepsLeft by omega⟩⟩
    · have heq : st.drain next = { st with consumer := .storeHead true head got } := by
        rw [AudioQueue.drain, hc]
        exact dif_neg hi'
      rw [heq]
      exact ⟨hlt, rfl, .inr ⟨h.symm, rfl, show 1 < st.stepsLeft by omega⟩⟩
  · obtain ⟨-, hlt, rfl⟩ := hcons
    obtain rfl := h
    rw [AudioQueue.drain, hc]
    exact ⟨hlt, rfl, .inl ⟨rfl, rfl⟩⟩

theorem Inv.head_ne_tail (hi : Inv st) (hlt : st.drained.length < st.accepted.length) :
    st.head ≠ st.tail := by
  intro he
  rw [hi.head, hi.tail] at he
  have hle := hi.accepted_le
  have hsub := ofNat_sub (a := st.accepted.length) (h := st.drained.length)
    (p := st.accepted.length - st.drained.length) (by omega) (by unfold AUDIO_Q_LEN at hle; omega)
  rw [← he, UInt32.sub_self] at hsub
  have hzero : (0 : UInt32).toNat = 0 := rfl
  omega

/-- A step outside of such an iteration brings the sending thread nearer to one. -/
theorem Inv.drain_nearer (hi : Inv st) (hlt : st.drained.length < st.accepted.length)
    (h : ∀ ready, ¬Draining ready st) (next : Bool) :
    (st.drain next).accepted = st.accepted ∧ (st.drain next).drained = st.drained ∧
      (st.drain next).stepsLeft < st.stepsLeft := by
  unfold Draining at h
  rcases hc : st.consumer with _ | r | ⟨r, tail⟩ | ⟨head, i, got⟩ | ⟨r, head, got⟩ <;>
    rw [hc] at h <;> dsimp only at h
  · have hleft : st.stepsLeft = AUDIO_PKT_SIZE + 5 := by rw [stepsLeft, hc]
    rw [AudioQueue.drain, hc]
    exact ⟨rfl, rfl, show AUDIO_PKT_SIZE + 4 < st.stepsLeft by omega⟩
  · -- the counter that is loaded now is not the old one
    have hleft : st.stepsLeft = AUDIO_PKT_SIZE + 4 := by rw [stepsLeft, hc]
    have hfresh : ({ st with consumer := .loadHead r st.tail } : AudioQueue).stepsLeft =
        AUDIO_PKT_SIZE + 3 := if_neg (hi.head_ne_tail hlt)
    have heq : st.drain next = { st with consumer := .loadHead r st.tail } := by
      rw [AudioQueue.drain, hc]
    rw [heq, hfresh]
    exact ⟨rfl, rfl, by omega⟩
  · have he : st.head = tail := by
      by_contra hne
      exact h r ⟨rfl, hne⟩
    have heq : st.drain next = { st with consumer := .idle } := by
      rw [AudioQueue.drain, hc]
      exact if_pos he
    have hleft : st.stepsLeft = AUDIO_PKT_SIZE + 6 := by
      rw [stepsLeft, hc]
      exact if_pos he
    rw [heq]
    exact ⟨rfl, rfl, show AUDIO_PKT_SIZE + 5 < st.stepsLeft by omega⟩
  · exact absurd rfl (h true)
  · exact absurd rfl (h r)

theorem stepsLeft_le (st : AudioQueue) : st.stepsLeft ≤ AUDIO_PKT_SIZE + 6 := by
  unfold stepsLeft
  rcases st.consumer with _ | _ | _ | _ | _ <;> dsimp only <;> (try split_ifs) <;> omega

theorem Inv.exists_taken (hi : Inv st) {ready : Bool} (h : Draining ready st) :
    ∃ st', Relation.ReflTransGen Consumes st st' ∧ st'.consumer = .loadTail ready ∧
      st'.drained = st.drained ++ [(ready, st.packet st.drained.length)] ∧
      st'.accepted = st.accepted := by
  refine exists_reached (p := fun s => (Inv s ∧ Draining ready s) ∧ s.drained = st.drained ∧
    s.accepted = st.accepted) stepsLeft (fun s hs => ?_) ⟨⟨hi, h⟩, rfl, rfl⟩
  obtain ⟨⟨hs, hd⟩, hdrained, haccepted⟩ := hs
  refine ⟨s.drain false, ⟨_, rfl⟩, ?_⟩
  obtain ⟨-, hacc, ⟨hc, hnew⟩ | ⟨hd', hsame, hleft⟩⟩ := hs.drain_draining hd false
  · left
    refine ⟨hc, ?_, hacc.trans haccepted⟩
    rw [hnew, hdrained, packet, packet, haccepted]
  · right
    exact ⟨⟨⟨hs.drain false, hd'⟩, hsame.trans hdrained, hacc.trans haccepted⟩, hleft⟩

/-- **The sending thread takes out everything there is.** -/
theorem Inv.exists_drained (hi : Inv st) :
    ∃ st', Relation.ReflTransGen Consumes st st' ∧ st'.accepted = st.accepted ∧
      st'.drained.map Prod.snd = st.accepted := by
  rcases Nat.lt_or_ge st.drained.length st.accepted.length with hlt | hge
  swap
  · exact ⟨st, .refl, rfl, hi.drained.trans (List.take_of_length_le hge)⟩
  refine exists_reached
    (p := fun s => Inv s ∧ s.drained.length < st.accepted.length ∧ s.accepted = st.accepted)
    (fun s => (st.accepted.length - s.drained.length) * (AUDIO_PKT_SIZE + 7) + s.stepsLeft)
    (fun s hs => ?_) ⟨hi, hlt, rfl⟩
  obtain ⟨hs, hlt, haccepted⟩ := hs
  have hs' := hs.drain false
  refine ⟨s.drain false, ⟨_, rfl⟩, ?_⟩
  by_cases hd : ∃ ready, Draining ready s
  · obtain ⟨ready, hd⟩ := hd
    obtain ⟨-, hacc, ⟨-, hnew⟩ | ⟨-, hsame, hless⟩⟩ := hs.drain_draining hd false
    · have hlen : (s.drain false).drained.length = s.drained.length + 1 := by
        rw [hnew, List.length_append]
        rfl
      by_cases hend : (s.drain false).drained.length < st.accepted.length
      · refine .inr ⟨⟨hs', hend, hacc.trans haccepted⟩, ?_⟩
        exact mul_add_lt_mul_add (by omega) (Nat.lt_succ_of_le (s.drain false).stepsLeft_le)
      · refine .inl ⟨hacc.trans haccepted, ?_⟩
        rw [hs'.drained, hacc, haccepted]
        exact List.take_of_length_le (Nat.le_of_not_lt hend)
    · exact .inr ⟨⟨hs', hsame ▸ hlt, hacc.trans haccepted⟩, by rw [hsame]; omega⟩
  · obtain ⟨hacc, hsame, hless⟩ := hs.drain_nearer (haccepted ▸ hlt) (not_exists.mp hd) false
    exact .inr ⟨⟨hs', hsame ▸ hlt, hacc.trans haccepted⟩, by rw [hsame]; omega⟩

theorem exists_pushed {pkt : AudioPkt} {tail : UInt32} {i : ℕ}
    (hp : st.producer = .copy pkt tail i) :
    ∃ st', Relation.ReflTransGen Produces st st' ∧ st'.producer = .idle ∧
      st'.offers = st.offers ∧ st'.accepted = st.accepted ++ [pkt] ∧ st'.drained = st.drained := by
  refine exists_reached (p := fun s => (∃ i, s.producer = .copy pkt tail i ∨
      s.producer = .storeTail pkt tail) ∧ s.offers = st.offers ∧ s.accepted = st.accepted ∧
      s.drained = st.drained)
    (fun s => match s.producer with
      | .copy _ _ i => AUDIO_PKT_SIZE - i + 1
      | _ => 0) (fun s hs => ?_) ⟨⟨i, .inl hp⟩, rfl, rfl, rfl⟩
  obtain ⟨⟨i, hc | hc⟩, hoffers, haccepted, hdrained⟩ := hs
  · refine ⟨s.produce pkt, ⟨_, rfl⟩, .inr ?_⟩
    rw [AudioQueue.produce, hc]
    dsimp only
    split_ifs with h
    · exact ⟨⟨⟨i + 1, .inl rfl⟩, hoffers, haccepted, hdrained⟩, by dsimp only; omega⟩
    · exact ⟨⟨⟨i, .inr rfl⟩, hoffers, haccepted, hdrained⟩, Nat.succ_pos _⟩
  · refine ⟨s.produce pkt, ⟨_, rfl⟩, .inl ?_⟩
    rw [AudioQueue.produce, hc]
    exact ⟨rfl, hoffers, by rw [haccepted], hdrained⟩

/-- **A call of `audio_enqueue`** by itself rejects the packet if the ring is full, and puts it in
otherwise. -/
theorem Inv.exists_enqueued (hi : Inv st) (hp : st.producer = .idle) (pkt : AudioPkt) :
    ∃ st', Relation.ReflTransGen Produces st st' ∧ st'.producer = .idle ∧
      st'.offers = st.offers ++ [⟨pkt, st.pending, st.pending ≠ AUDIO_Q_LEN⟩] ∧
      st'.accepted = (if st.pending = AUDIO_Q_LEN then st.accepted else st.accepted ++ [pkt]) ∧
      st'.drained = st.drained := by
  have h1 : st.produce pkt = { st with producer := .loadHead pkt } := by
    rw [AudioQueue.produce, hp]
  have h2 : (st.produce pkt).produce pkt =
      { st with producer := .loadTail pkt st.head st.pending } := by
    rw [h1]
    rfl
  have hi2 : Inv ((st.produce pkt).produce pkt) := (hi.produce pkt).produce pkt
  have hrun : Relation.ReflTransGen Produces st ((st.produce pkt).produce pkt) :=
    .tail (.single ⟨pkt, rfl⟩) ⟨pkt, rfl⟩
  have hfull := hi2.full_iff (by rw [h2])
  rw [h2] at hfull hrun
  by_cases hfull' : st.pending = AUDIO_Q_LEN
  · refine ⟨_, hrun.tail ⟨pkt, rfl⟩, ?_⟩
    rw [AudioQueue.produce]
    dsimp only at hfull ⊢
    rw [if_pos (hfull.mpr hfull'), if_pos hfull']
    exact ⟨rfl, by simp [hfull'], rfl, rfl⟩
  · have h3 : ({ st with producer := .loadTail pkt st.head st.pending } : AudioQueue).produce pkt =
        { st with
          producer := .copy pkt st.tail 0, offers := st.offers ++ [⟨pkt, st.pending, true⟩] } := by
      rw [AudioQueue.produce]
      dsimp only at hfull ⊢
      exact if_neg fun hge => hfull' (hfull.mp hge)
    have hcopy : ({ st with
        producer := .copy pkt st.tail 0,
        offers := st.offers ++ [⟨pkt, st.pending, true⟩] } : AudioQueue).producer =
          .copy pkt st.tail 0 := rfl
    obtain ⟨st', hrun', hidle, hoffers, haccepted, hdrained⟩ := exists_pushed hcopy
    refine ⟨st', (hrun.tail ⟨pkt, h3.symm⟩).trans hrun', hidle, ?_, ?_, hdrained⟩
    · rw [hoffers, decide_eq_true hfull']
    · rw [if_neg hfull', haccepted]

/-! ### Whole runs -/

theorem Inv.step (hi : Inv st) {st' : AudioQueue} (h : Step st st') : Inv st' := by
  obtain ⟨pkt, rfl⟩ | ⟨ready, rfl⟩ := h
  · exact hi.produce pkt
  · exact hi.drain ready

theorem Inv.bufs_of_step (hi : Inv st) {st' : AudioQueue} (h : Step st st') {j : ℕ}
    (h1 : st.drained.length ≤ j) (h2 : j < st.accepted.length) :
    st'.bufs (j % AUDIO_Q_LEN) = st.bufs (j % AUDIO_Q_LEN) := by
  have hprod := hi.producer
  obtain ⟨pkt, rfl⟩ | ⟨ready, rfl⟩ := h
  · unfold AudioQueue.produce
    rcases hp : st.producer with _ | pkt | ⟨pkt, head, pending⟩ | ⟨pkt, tail, i⟩ | ⟨pkt, tail⟩ <;>
      rw [hp] at hprod <;> dsimp only
    · split_ifs <;> rfl
    · obtain ⟨rfl, hroom, -⟩ := hprod
      split_ifs with h
      · refine Function.update_of_ne (fun he => ?_) _ _
        rw [hi.slotOf_tail] at he
        have := eq_of_mod_eq he (by omega) (by omega)
        omega
      · rfl
  · unfold AudioQueue.drain
    rcases st.consumer with _ | _ | _ | _ | _ <;> dsimp only <;> split_ifs <;> rfl

/-- **The packets drained are the packets accepted, in order and unchanged**, however the two sides
interleave and whatever their counters wrap; the packets accepted are those offered while the ring
was not full, and a packet in the ring is not written.  An iteration of the sending thread that
finds a packet takes out the next one, it can by itself take out all that there are, and a call of
the audio thread by itself offers its packet. -/
theorem drained_in_order (h : Reachable (fun s => s = start) Step st) :
    st.drained.map Prod.snd = st.accepted.take st.drained.length ∧
      (st.offers.filter Offer.accepted).map Offer.pkt = st.accepted ++ copying st.producer ∧
      (∀ q ∈ st.offers, q.accepted = false ↔ q.pending = AUDIO_Q_LEN) ∧
      (∀ st', Step st st' → ∀ j, st.drained.length ≤ j → j < st.accepted.length →
        st'.bufs (j % AUDIO_Q_LEN) = st.bufs (j % AUDIO_Q_LEN)) ∧
      (∀ ready tail, st.consumer = .loadHead ready tail → st.head ≠ tail →
        ∃ pkt st', st.accepted[st.drained.length]? = some pkt ∧
          Relation.ReflTransGen Consumes st st' ∧ st'.consumer = .loadTail ready ∧
          st'.drained = st.drained ++ [(ready, pkt)] ∧ st'.accepted = st.accepted) ∧
      (∃ st', Relation.ReflTransGen Consumes st st' ∧ st'.accepted = st.accepted ∧
        st'.drained.map Prod.snd = st.accepted) ∧
      ∀ pkt, st.producer = .idle → ∃ st', Relation.ReflTransGen Produces st st' ∧
        st'.producer = .idle ∧
        st'.offers = st.offers ++ [⟨pkt, st.pending, st.pending ≠ AUDIO_Q_LEN⟩] ∧
        st'.accepted = (if st.pending = AUDIO_Q_LEN then st.accepted else st.accepted ++ [pkt]) ∧
        st'.drained = st.drained := by
  have hi : Inv st := by
    refine h.invariant ?_ fun s s' hs hstep => hs.step hstep
    rintro s rfl
    exact .start
  refine ⟨hi.drained, hi.accepted, hi.offers, fun st' hstep j h1 h2 => hi.bufs_of_step hstep h1 h2,
    fun ready tail hc hne => ?_, hi.exists_drained, fun pkt hp => hi.exists_enqueued hp pkt⟩
  have hd : Draining ready st := by
    unfold Draining
    rw [hc]
    exact ⟨rfl, hne⟩
  obtain ⟨hlt, -⟩ := hi.drain_draining hd false
  obtain ⟨st', hrun, hrest⟩ := hi.exists_taken hd
  refine ⟨_, st', ?_, hrun, hrest⟩
  rw [packet, List.getD_eq_getElem _ _ hlt, List.getElem?_eq_getElem hlt]

/-- A packet with something in it. -/
def somePkt : AudioPkt := fun i => UInt8.ofNat i

/-- A packet is offered, put in and taken out. -/
theorem drained_in_order_offered : ∃ st st', Reachable (fun s => s = start) Step st ∧
    (st.offers.filter Offer.accepted).map Offer.pkt = [somePkt] ∧
      Relation.ReflTransGen Consumes st st' ∧ st'.drained.map Prod.snd = [somePkt] := by
  have h0 : Reachable (fun s => s = start) Step start := .start rfl
  obtain ⟨-, -, -, -, -, -, henqueue⟩ := drained_in_order h0
  obtain ⟨st, hrun, -, hoffers, haccepted, -⟩ := henqueue somePkt rfl
  have h1 := h0.extend (fun _ _ => Or.inl) hrun
  obtain ⟨-, -, -, -, -, ⟨st', hrun', -, hdrained⟩, -⟩ := drained_in_order h1
  refine ⟨st, st', h1, ?_, hrun', hdrained.trans haccepted⟩
  rw [hoffers]
  rfl

end AudioQueue

end RemotePlay.Audio
