import RemotePlay.Lib.Ring
import RemotePlay.Lib.Threads

/-! # Handing buffers over

Threads hand buffers to a thread that sends them through a ring of pointers (`rp_syn`).  A producer
fills a slot with the mutex held, and releases the semaphore only after it has released the mutex,
so a consumer may be woken by another producer than the one whose slot it reads.  A consumer empties
the slot that it reads.

A state also remembers the pointers filled in (`filled`), how many slots have been emptied
(`cleared`), what the calls of `rp_syn_acq` returned (`acquired`), and whether a release of the
semaphore failed (`relFailed`). -/

namespace RemotePlay.Sync

open Lib.Ring Lib.Threads

open Function (update)

/-- Where a thread is in `rp_syn_rel1`. -/
inductive ProducerPc (α : Type*)
  | idle
  | lockWait (p : α)
  | readHead (p : α)
  | write (p : α) (pos_head : UInt16)
  | advance (pos_head : UInt16)
  | lockRel
  | semRel

namespace ProducerPc

variable {α : Type*}

/-- The mutex is held. -/
def inMutex : ProducerPc α → Prop
  | .readHead _ | .write _ _ | .advance _ | .lockRel => True
  | _ => False

/-- The slot has been filled and the head has not moved on. -/
def advancing : ProducerPc α → Prop
  | .advance _ => True
  | _ => False

/-- The slot has been filled and the semaphore has not been released. -/
def owed : ProducerPc α → ℕ
  | .advance _ | .lockRel | .semRel => 1
  | _ => 0

end ProducerPc

/-- Where the consumer is in `rp_syn_acq`. -/
inductive ConsumerPc (α : Type*)
  | idle
  | semWait
  | readTail
  | read (pos_tail : UInt16)
  | clear (pos_tail : UInt16) (p : Option α)
  | advance (pos_tail : UInt16) (p : Option α)

/-- A permit of the semaphore has been taken and its slot has not been emptied. -/
def ConsumerPc.taking {α : Type*} : ConsumerPc α → ℕ
  | .readTail | .read _ | .clear _ _ => 1
  | _ => 0

/-- `rp_syn_comp_func_t` and the threads that use it; an empty slot is a null pointer. -/
structure RpSyn (ι α : Type*) where
  sem : ℕ
  mutex : Option ι
  pos_head : UInt16
  pos_tail : UInt16
  pos : ℕ → Option α
  producer : ι → ProducerPc α
  consumer : ConsumerPc α
  filled : List α
  cleared : ℕ
  acquired : List (Option α)
  relFailed : Bool

namespace RpSyn

variable {ι α : Type*} [DecidableEq ι] (count : UInt16) (st : RpSyn ι α)

/-- `rp_syn_init1`; `init` are the pointers of the slots when they start out filled. -/
def init1 (init : Option (ℕ → α)) : RpSyn ι α where
  sem := if init.isSome = true then count.toNat else 0
  mutex := none
  pos_head := 0
  pos_tail := 0
  pos i := init.map fun base => base i
  producer _ := .idle
  consumer := .idle
  filled := (init.map fun base => (List.range count.toNat).map base).getD []
  cleared := 0
  acquired := []
  relFailed := false

/-- `(pos + 1) % count`. -/
def nextPos (pos : UInt16) : UInt16 := UInt16.ofNat ((pos.toNat + 1) % count.toNat)

/-- A producer goes on to `pc`. -/
def goto (i : ι) (pc : ProducerPc α) : RpSyn ι α :=
  { st with producer := update st.producer i pc }

/-- A step of `rp_syn_rel1` in a thread, with the pointer it is next called with and whether a wait
for the mutex times out. -/
def rel1 (i : ι) (p : α) (timeout : Bool) : Option (RpSyn ι α) :=
  match st.producer i with
  | .idle => some (st.goto i (.lockWait p))
  | .lockWait p =>
    if timeout = true then some (st.goto i .idle)
    else if st.mutex.isNone = true then some { st.goto i (.readHead p) with mutex := some i }
    else none
  | .readHead p => some (st.goto i (.write p st.pos_head))
  | .write p pos_head =>
    some { st.goto i (.advance pos_head) with
      pos := update st.pos pos_head.toNat (some p), filled := st.filled ++ [p] }
  | .advance pos_head => some { st.goto i .lockRel with pos_head := nextPos count pos_head }
  | .lockRel => some { st.goto i .semRel with mutex := none }
  | .semRel =>
    if st.sem < count.toNat then some { st.goto i .idle with sem := st.sem + 1 }
    else some { st.goto i .idle with relFailed := true }

/-- A step of `rp_syn_acq` in the consumer. -/
def acq (timeout : Bool) : Option (RpSyn ι α) :=
  match st.consumer with
  | .idle => some { st with consumer := .semWait }
  | .semWait =>
    if timeout = true then some { st with consumer := .idle }
    else if 0 < st.sem then some { st with sem := st.sem - 1, consumer := .readTail }
    else none
  | .readTail => some { st with consumer := .read st.pos_tail }
  | .read pos_tail => some { st with consumer := .clear pos_tail (st.pos pos_tail.toNat) }
  | .clear pos_tail p =>
    some { st with
      pos := update st.pos pos_tail.toNat none, consumer := .advance pos_tail p
      cleared := st.cleared + 1 }
  | .advance pos_tail p =>
    some { st with
      pos_tail := nextPos count pos_tail, consumer := .idle, acquired := st.acquired ++ [p] }

/-- A step of one of the threads. -/
def Step (st st' : RpSyn ι α) : Prop :=
  (∃ i p timeout, st.rel1 count i p timeout = some st') ∨ ∃ timeout, st.acq count timeout = some st'

/-- A step after which no more pointers than there are slots have been released and not acquired. -/
def BoundedStep (st st' : RpSyn ι α) : Prop :=
  st.Step count st' ∧ st'.filled.length ≤ st'.cleared + count.toNat

/-! ### The invariant -/

/-- What a producer knows at each of its places. -/
def ProducerInv : ProducerPc α → Prop
  | .write _ pos_head => pos_head.toNat = st.filled.length % count.toNat
  | .advance pos_head => ∃ k, st.filled.length = k + 1 ∧ pos_head.toNat = k % count.toNat
  | _ => True

/-- What the consumer knows at each of its places, and what it has acquired. -/
def ConsumerInv : ConsumerPc α → Prop
  | .idle | .semWait | .readTail => st.pos_tail.toNat = st.cleared % count.toNat ∧
      st.acquired = (st.filled.take st.cleared).map some
  | .read pos_tail => pos_tail.toNat = st.cleared % count.toNat ∧
      st.acquired = (st.filled.take st.cleared).map some
  | .clear pos_tail p => pos_tail.toNat = st.cleared % count.toNat ∧
      st.acquired = (st.filled.take st.cleared).map some ∧ p = st.filled[st.cleared]?
  | .advance pos_tail p => ∃ k, st.cleared = k + 1 ∧ pos_tail.toNat = k % count.toNat ∧
      st.acquired = (st.filled.take k).map some ∧ p = st.filled[k]?

/-- **The ring and the semaphore.**  Every pointer filled in is in its slot until it is taken out;
for each there is a permit, or a producer that has yet to release one. -/
structure Inv [Fintype ι] : Prop where
  mutex : ∀ i, (st.producer i).inMutex ↔ st.mutex = some i
  head : (∀ i, ¬(st.producer i).advancing) → st.pos_head.toNat = st.filled.length % count.toNat
  producer : ∀ i, ProducerInv count st (st.producer i)
  holds : Holds count.toNat st.cleared st.filled.length (fun j => st.filled[j]?) st.pos
  room : st.filled.length ≤ st.cleared + count.toNat
  sem : st.sem + total ProducerPc.owed st.producer + st.cleared + st.consumer.taking =
    st.filled.length
  consumer : ConsumerInv count st st.consumer
  relFailed : st.relFailed = false

variable {count : UInt16} {st : RpSyn ι α}

theorem toNat_nextPos {pos : UInt16} {k : ℕ} (hc : 0 < count.toNat)
    (h : pos.toNat = k % count.toNat) : (nextPos count pos).toNat = (k + 1) % count.toNat := by
  have hlt : (k + 1) % count.toNat < 2 ^ 16 := (Nat.mod_lt _ hc).trans count.toNat_lt
  rw [nextPos, h, Nat.mod_add_mod, UInt16.toNat_ofNat', Nat.mod_eq_of_lt hlt]

variable [Fintype ι]

omit [DecidableEq ι] in
theorem Inv.init1 (init : Option (ℕ → α)) :
    Inv count (init1 (ι := ι) count init) := by
  have htotal : total ProducerPc.owed (fun _ : ι => (ProducerPc.idle : ProducerPc α)) = 0 :=
    total_eq_zero.mpr fun _ => rfl
  have hidle : ∀ i : ι, (ProducerPc.idle : ProducerPc α).inMutex ↔ none = some i := by
    intro i
    refine iff_of_false id ?_
    rintro ⟨⟩
  rcases init with _ | base
  · refine ⟨hidle, fun _ => (Nat.zero_mod _).symm, fun _ => trivial, holds_empty, Nat.zero_le _, ?_,
      ⟨(Nat.zero_mod _).symm, rfl⟩, rfl⟩
    show 0 + total ProducerPc.owed (fun _ : ι => (ProducerPc.idle : ProducerPc α)) + 0 + 0 = 0
    rw [htotal]
  · have hlen : ((List.range count.toNat).map base).length = count.toNat := by simp
    refine ⟨hidle, fun _ => ?_, fun _ => trivial, fun j _ hj => ?_, ?_, ?_,
      ⟨(Nat.zero_mod _).symm, rfl⟩, rfl⟩
    · show 0 = ((List.range count.toNat).map base).length % count.toNat
      rw [hlen, Nat.mod_self]
    · have hj' : j < count.toNat := hj.trans_eq hlen
      show some (base (j % count.toNat)) = ((List.range count.toNat).map base)[j]?
      rw [Nat.mod_eq_of_lt hj', List.getElem?_map, List.getElem?_range hj', Option.map_some]
    · show ((List.range count.toNat).map base).length ≤ 0 + count.toNat
      omega
    · show count.toNat +
          total ProducerPc.owed (fun _ : ι => (ProducerPc.idle : ProducerPc α)) + 0 + 0
        = ((List.range count.toNat).map base).length
      rw [htotal, hlen]
      rfl

/-! ### A producer's steps -/

theorem inMutex_of_advancing {pc : ProducerPc α} (h : pc.advancing) : pc.inMutex := by
  rcases pc with _ | _ | _ | _ | _ | _ | _ <;> trivial

omit [DecidableEq ι] in
/-- Only one producer holds the mutex. -/
theorem Inv.alone (hi : Inv count st) {i : ι} (h : (st.producer i).inMutex) {j : ι} (hj : j ≠ i) :
    ¬(st.producer j).inMutex := by
  intro hin
  rw [hi.mutex, (hi.mutex i).mp h] at hin
  exact hj (Option.some.inj hin).symm

omit [DecidableEq ι] in
theorem Inv.head_eq (hi : Inv count st) {i : ι} (h : (st.producer i).inMutex)
    (hadv : ¬(st.producer i).advancing) : st.pos_head.toNat = st.filled.length % count.toNat := by
  refine hi.head fun j hj => ?_
  by_cases hji : j = i
  · exact hadv (hji ▸ hj)
  · exact hi.alone h hji (inMutex_of_advancing hj)

theorem Inv.goto (hi : Inv count st) {i : ι} {pc : ProducerPc α}
    (hmutex : pc.inMutex ↔ (st.producer i).inMutex)
    (hadv : pc.advancing ↔ (st.producer i).advancing) (howed : pc.owed = (st.producer i).owed)
    (hp : ProducerInv count st pc) : Inv count (st.goto i pc) := by
  have hsem := hi.sem
  have htotal := total_update ProducerPc.owed st.producer i pc
  refine { hi with mutex := ?_, head := ?_, producer := ?_, sem := ?_ }
  · exact (Function.forall_update_iff st.producer fun j pc => pc.inMutex ↔ st.mutex = some j).mpr
      ⟨hmutex.trans (hi.mutex i), fun j _ => hi.mutex j⟩
  · intro hnone
    obtain ⟨h1, h2⟩ := (Function.forall_update_iff st.producer fun _ pc => ¬pc.advancing).mp hnone
    refine hi.head fun j => ?_
    by_cases hj : j = i
    · rw [hj, ← hadv]
      exact h1
    · exact h2 j hj
  · exact (Function.forall_update_iff st.producer fun _ pc => ProducerInv count st pc).mpr
      ⟨hp, fun j _ => hi.producer j⟩
  · show st.sem + total ProducerPc.owed (update st.producer i pc) + st.cleared +
        st.consumer.taking =
      st.filled.length
    omega

theorem Inv.lock (hi : Inv count st) {i : ι} {p : α} (hp : st.producer i = .lockWait p)
    (hnone : st.mutex = none) :
    Inv count { st.goto i (.readHead p) with mutex := some i } := by
  have hout : ∀ j, ¬(st.producer j).inMutex := by
    intro j hj
    rw [hi.mutex, hnone] at hj
    cases hj
  have hsem := hi.sem
  have htotal := total_update ProducerPc.owed st.producer i (.readHead p)
  rw [hp] at htotal
  refine { hi with mutex := ?_, head := ?_, producer := ?_, sem := ?_ }
  · refine (Function.forall_update_iff st.producer fun j pc => pc.inMutex ↔ some i = some j).mpr
      ⟨iff_of_true trivial rfl, fun j hj => iff_of_false (hout j) fun h => hj ?_⟩
    exact (Option.some.inj h).symm
  · intro _
    exact hi.head fun j hj => hout j (inMutex_of_advancing hj)
  · exact (Function.forall_update_iff st.producer fun _ pc => ProducerInv count st pc).mpr
      ⟨trivial, fun j _ => hi.producer j⟩
  · show st.sem + total ProducerPc.owed (update st.producer i (.readHead p)) + st.cleared +
      st.consumer.taking = st.filled.length
    simp only [ProducerPc.owed] at htotal
    omega

omit [DecidableEq ι] [Fintype ι] in
theorem producerInv_of_not_inMutex {pc : ProducerPc α} (h : ¬pc.inMutex) :
    ProducerInv count st pc := by
  rcases pc with _ | _ | _ | _ | _ | _ | _ <;> first | trivial | exact absurd trivial h

omit [DecidableEq ι] [Fintype ι] in
theorem ConsumerInv.fill {st' : RpSyn ι α} {pc : ConsumerPc α} (h : ConsumerInv count st pc) (p : α)
    (hle : st.cleared + pc.taking ≤ st.filled.length) (htail : st'.pos_tail = st.pos_tail)
    (hcleared : st'.cleared = st.cleared) (hacq : st'.acquired = st.acquired)
    (hfilled : st'.filled = st.filled ++ [p]) : ConsumerInv count st' pc := by
  have htake : ∀ k ≤ st.filled.length, (st.filled ++ [p]).take k = st.filled.take k :=
    fun k hk => List.take_append_of_le_length hk
  have hget : ∀ k < st.filled.length, (st.filled ++ [p])[k]? = st.filled[k]? :=
    fun k hk => List.getElem?_append_left hk
  rcases pc with _ | _ | _ | pos_tail | ⟨pos_tail, q⟩ | ⟨pos_tail, q⟩ <;>
    simp only [ConsumerInv, ConsumerPc.taking, htail, hcleared, hacq, hfilled] at h hle ⊢
  · rwa [htake _ (by omega)]
  · rwa [htake _ (by omega)]
  · rwa [htake _ (by omega)]
  · rwa [htake _ (by omega)]
  · rwa [htake _ (by omega), hget _ (by omega)]
  · obtain ⟨k, hk, hrest⟩ := h
    refine ⟨k, hk, ?_⟩
    rwa [htake _ (by omega), hget _ (by omega)]

/-- **A slot is filled.** -/
theorem Inv.fill (hi : Inv count st) {i : ι} {p : α} {pos_head : UInt16}
    (hp : st.producer i = .write p pos_head)
    (hroom : (st.filled ++ [p]).length ≤ st.cleared + count.toNat) :
    Inv count { st.goto i (.advance pos_head) with
      pos := update st.pos pos_head.toNat (some p), filled := st.filled ++ [p] } := by
  have hin : (st.producer i).inMutex := by
    rw [hp]
    trivial
  have hhead : pos_head.toNat = st.filled.length % count.toNat := by
    have hprod := hi.producer i
    rwa [hp] at hprod
  have hlen : (st.filled ++ [p]).length = st.filled.length + 1 := List.length_append
  have hsem := hi.sem
  have htotal := total_update ProducerPc.owed st.producer i (.advance pos_head)
  rw [hp] at htotal
  simp only [ProducerPc.owed] at htotal
  refine { hi with
    mutex := ?_, head := ?_, producer := ?_, holds := ?_, room := hroom, sem := ?_, consumer := ?_ }
  · exact (Function.forall_update_iff st.producer fun j pc => pc.inMutex ↔ st.mutex = some j).mpr
      ⟨iff_of_true trivial ((hi.mutex i).mp hin), fun j _ => hi.mutex j⟩
  · intro hnone
    refine absurd trivial (((Function.forall_update_iff st.producer fun _ pc => ¬pc.advancing).mp
      hnone).1)
  · refine (Function.forall_update_iff st.producer fun _ pc => ProducerInv count _ pc).mpr
      ⟨⟨_, hlen, hhead⟩, fun j hj => producerInv_of_not_inMutex (hi.alone hin hj)⟩
  · have hholds : Holds count.toNat st.cleared st.filled.length (fun j => (st.filled ++ [p])[j]?)
        st.pos := fun j h1 h2 => (hi.holds j h1 h2).trans (List.getElem?_append_left h2).symm
    have hx : some p = (st.filled ++ [p])[st.filled.length]? := by
      rw [List.getElem?_append_right le_rfl, Nat.sub_self, List.getElem?_cons_zero]
    show Holds _ st.cleared (st.filled ++ [p]).length _ (update st.pos pos_head.toNat (some p))
    rw [hlen, hhead]
    exact hholds.push (by omega) hx
  · show st.sem + total ProducerPc.owed (update st.producer i (.advance pos_head)) + st.cleared +
      st.consumer.taking = (st.filled ++ [p]).length
    omega
  · exact hi.consumer.fill p (by omega) rfl rfl rfl rfl

theorem Inv.advance (hc : 0 < count.toNat) (hi : Inv count st) {i : ι} {pos_head : UInt16}
    (hp : st.producer i = .advance pos_head) :
    Inv count { st.goto i .lockRel with pos_head := nextPos count pos_head } := by
  have hin : (st.producer i).inMutex := by
    rw [hp]
    trivial
  obtain ⟨k, hlen, hhead⟩ : ∃ k, st.filled.length = k + 1 ∧ pos_head.toNat = k % count.toNat := by
    have hprod := hi.producer i
    rwa [hp] at hprod
  have hsem := hi.sem
  have htotal := total_update ProducerPc.owed st.producer i .lockRel
  rw [hp] at htotal
  simp only [ProducerPc.owed] at htotal
  refine { hi with mutex := ?_, head := ?_, producer := ?_, sem := ?_ }
  · exact (Function.forall_update_iff st.producer fun j pc => pc.inMutex ↔ st.mutex = some j).mpr
      ⟨iff_of_true trivial ((hi.mutex i).mp hin), fun j _ => hi.mutex j⟩
  · intro _
    show (nextPos count pos_head).toNat = st.filled.length % count.toNat
    rw [toNat_nextPos hc hhead, hlen]
  · exact (Function.forall_update_iff st.producer fun _ pc => ProducerInv count _ pc).mpr
      ⟨trivial, fun j hj => producerInv_of_not_inMutex (hi.alone hin hj)⟩
  · show st.sem + total ProducerPc.owed (update st.producer i .lockRel) + st.cleared +
      st.consumer.taking = st.filled.length
    omega

theorem Inv.unlock (hi : Inv count st) {i : ι} (hp : st.producer i = .lockRel) :
    Inv count { st.goto i .semRel with mutex := none } := by
  have hin : (st.producer i).inMutex := by
    rw [hp]
    trivial
  have hhead : st.pos_head.toNat = st.filled.length % count.toNat := by
    refine hi.head_eq hin ?_
    rw [hp]
    exact id
  have hsem := hi.sem
  have htotal := total_update ProducerPc.owed st.producer i .semRel
  rw [hp] at htotal
  simp only [ProducerPc.owed] at htotal
  refine { hi with mutex := ?_, head := fun _ => hhead, producer := ?_, sem := ?_ }
  · refine (Function.forall_update_iff st.producer fun j pc => pc.inMutex ↔ none = some j).mpr
      ⟨iff_of_false id ?_, fun j hj => iff_of_false (hi.alone hin hj) ?_⟩ <;> rintro ⟨⟩
  · exact (Function.forall_update_iff st.producer fun _ pc => ProducerInv count _ pc).mpr
      ⟨trivial, fun j hj => producerInv_of_not_inMutex (hi.alone hin hj)⟩
  · show st.sem + total ProducerPc.owed (update st.producer i .semRel) + st.cleared +
      st.consumer.taking = st.filled.length
    omega

omit [DecidableEq ι] in
theorem Inv.sem_lt (hi : Inv count st) {i : ι} (hp : st.producer i = .semRel) :
    st.sem < count.toNat := by
  have hsem := hi.sem
  have hroom := hi.room
  have hle := le_total ProducerPc.owed st.producer i
  rw [hp] at hle
  simp only [ProducerPc.owed] at hle
  omega

theorem Inv.semRel (hi : Inv count st) {i : ι} (hp : st.producer i = .semRel) :
    Inv count { st.goto i .idle with sem := st.sem + 1 } := by
  have hsem := hi.sem
  have htotal := total_update ProducerPc.owed st.producer i .idle
  rw [hp] at htotal
  simp only [ProducerPc.owed] at htotal
  refine { hi with mutex := ?_, head := ?_, producer := ?_, sem := ?_ }
  · refine (Function.forall_update_iff st.producer fun j pc => pc.inMutex ↔ st.mutex = some j).mpr
      ⟨?_, fun j _ => hi.mutex j⟩
    rw [← hi.mutex i, hp]
    exact Iff.rfl
  · intro hnone
    obtain ⟨-, h2⟩ := (Function.forall_update_iff st.producer fun _ pc => ¬pc.advancing).mp hnone
    refine hi.head fun j => ?_
    by_cases hj : j = i
    · rw [hj, hp]
      exact id
    · exact h2 j hj
  · exact (Function.forall_update_iff st.producer fun _ pc => ProducerInv count _ pc).mpr
      ⟨trivial, fun j _ => hi.producer j⟩
  · show st.sem + 1 + total ProducerPc.owed (update st.producer i .idle) + st.cleared +
      st.consumer.taking = st.filled.length
    omega

theorem Inv.rel1 (hc : 0 < count.toNat) (hi : Inv count st) {i : ι} {p : α} {timeout : Bool}
    {st' : RpSyn ι α} (h : st.rel1 count i p timeout = some st')
    (hroom : st'.filled.length ≤ st'.cleared + count.toNat) : Inv count st' := by
  unfold RpSyn.rel1 at h
  rcases hp : st.producer i with _ | p | p | ⟨p, pos_head⟩ | pos_head | _ | _ <;>
    rw [hp] at h <;> dsimp only at h
  · obtain rfl := Option.some.inj h
    refine hi.goto ?_ ?_ ?_ trivial <;> rw [hp] <;> rfl
  · split_ifs at h with ht hnone
    · obtain rfl := Option.some.inj h
      refine hi.goto ?_ ?_ ?_ trivial <;> rw [hp] <;> rfl
    · obtain rfl := Option.some.inj h
      exact hi.lock hp (Option.isNone_iff_eq_none.mp hnone)
  · obtain rfl := Option.some.inj h
    refine hi.goto ?_ ?_ ?_ (hi.head_eq (i := i) ?_ ?_) <;> rw [hp] <;>
      first | rfl | trivial | exact id
  · obtain rfl := Option.some.inj h
    exact hi.fill hp hroom
  · obtain rfl := Option.some.inj h
    exact hi.advance hc hp
  · obtain rfl := Option.some.inj h
    exact hi.unlock hp
  · rw [if_pos (hi.sem_lt hp)] at h
    obtain rfl := Option.some.inj h
    exact hi.semRel hp

/-! ### The consumer's steps -/

omit [DecidableEq ι] in
/-- **A slot is emptied.** -/
theorem Inv.clear (hi : Inv count st) {pos_tail : UInt16} {q : Option α}
    (hp : st.consumer = .clear pos_tail q) :
    Inv count { st with
      pos := update st.pos pos_tail.toNat none, consumer := .advance pos_tail q
      cleared := st.cleared + 1 } := by
  have hcons := hi.consumer
  have hsem := hi.sem
  have hroom := hi.room
  rw [hp] at hcons hsem
  obtain ⟨htail, hacq, hq⟩ := hcons
  simp only [ConsumerPc.taking] at hsem
  refine { hi with
    holds := ?_, room := ?_, sem := ?_, consumer := ⟨_, rfl, htail, hacq, hq⟩ }
  · rw [htail]
    exact (hi.holds.tail (Nat.le_succ _)).update_before (Nat.lt_succ_self _) (by omega) none
  · show st.filled.length ≤ st.cleared + 1 + count.toNat
    omega
  · show st.sem + total ProducerPc.owed st.producer + (st.cleared + 1) + 0 = st.filled.length
    omega

omit [DecidableEq ι] in
theorem Inv.acq (hc : 0 < count.toNat) (hi : Inv count st) {timeout : Bool} {st' : RpSyn ι α}
    (h : st.acq count timeout = some st') : Inv count st' := by
  have hcons := hi.consumer
  have hsem := hi.sem
  unfold RpSyn.acq at h
  rcases hp : st.consumer with _ | _ | _ | pos_tail | ⟨pos_tail, q⟩ | ⟨pos_tail, q⟩ <;>
    rw [hp] at h hcons hsem <;> dsimp only at h <;> simp only [ConsumerPc.taking] at hsem
  · obtain rfl := Option.some.inj h
    exact { hi with sem := hsem, consumer := hcons }
  · split_ifs at h with ht hpos
    · obtain rfl := Option.some.inj h
      exact { hi with sem := hsem, consumer := hcons }
    · obtain rfl := Option.some.inj h
      refine { hi with sem := ?_, consumer := hcons }
      show st.sem - 1 + total ProducerPc.owed st.producer + st.cleared + 1 = st.filled.length
      omega
  · obtain rfl := Option.some.inj h
    exact { hi with sem := hsem, consumer := hcons }
  · obtain rfl := Option.some.inj h
    obtain ⟨htail, hacq⟩ := hcons
    refine { hi with sem := hsem, consumer := ⟨htail, hacq, ?_⟩ }
    rw [htail]
    exact hi.holds _ le_rfl (by omega)
  · obtain rfl := Option.some.inj h
    exact hi.clear hp
  · obtain rfl := Option.some.inj h
    obtain ⟨k, hk, htail, hacq, hq⟩ := hcons
    have hlt : k < st.filled.length := by omega
    refine { hi with sem := hsem, consumer := ⟨?_, ?_⟩ }
    · show (nextPos count pos_tail).toNat = st.cleared % count.toNat
      rw [toNat_nextPos hc htail, hk]
    · show st.acquired ++ [q] = (st.filled.take st.cleared).map some
      rw [hk, List.take_add_one, List.map_append, hacq, hq, List.getElem?_eq_getElem hlt]
      rfl

/-! ### Whole runs -/

theorem Inv.step (hc : 0 < count.toNat) (hi : Inv count st) {st' : RpSyn ι α}
    (h : st.BoundedStep count st') : Inv count st' := by
  obtain ⟨⟨i, p, timeout, hrel⟩ | ⟨timeout, hacq⟩, hroom⟩ := h
  · exact hi.rel1 hc hrel hroom
  · exact hi.acq hc hacq

omit [DecidableEq ι] in
theorem Inv.acquired_eq (hi : Inv count st) :
    st.acquired = (st.filled.take st.acquired.length).map some := by
  have hcons := hi.consumer
  have hsem := hi.sem
  have hlen : ∀ k ≤ st.filled.length, st.acquired = (st.filled.take k).map some →
      st.acquired = (st.filled.take st.acquired.length).map some := by
    intro k hk h
    have hk' : st.acquired.length = k := by
      rw [h, List.length_map, List.length_take, Nat.min_eq_left hk]
    rwa [hk']
  rcases hp : st.consumer with _ | _ | _ | pos_tail | ⟨pos_tail, q⟩ | ⟨pos_tail, q⟩ <;>
    rw [hp] at hcons
  · exact hlen _ (by omega) hcons.2
  · exact hlen _ (by omega) hcons.2
  · exact hlen _ (by omega) hcons.2
  · exact hlen _ (by omega) hcons.2
  · exact hlen _ (by omega) hcons.2.1
  · obtain ⟨k, hk, -, hacq, -⟩ := hcons
    exact hlen k (by omega) hacq

omit [Fintype ι] in
theorem Step.filled_mono {st' : RpSyn ι α} (h : st.Step count st') :
    st.filled <+: st'.filled ∧ st.cleared ≤ st'.cleared := by
  obtain ⟨i, p, timeout, h⟩ | ⟨timeout, h⟩ := h
  · unfold RpSyn.rel1 at h
    rcases hp : st.producer i with _ | p | p | ⟨p, pos_head⟩ | pos_head | _ | _ <;>
      rw [hp] at h <;> dsimp only at h <;> (try split_ifs at h) <;>
      obtain rfl := Option.some.inj h <;>
      first | exact ⟨List.prefix_rfl, le_rfl⟩ | exact ⟨List.prefix_append _ _, le_rfl⟩
  · unfold RpSyn.acq at h
    rcases hp : st.consumer with _ | _ | _ | pos_tail | ⟨pos_tail, q⟩ | ⟨pos_tail, q⟩ <;>
      rw [hp] at h <;> dsimp only at h <;> (try split_ifs at h) <;>
      obtain rfl := Option.some.inj h <;>
      first | exact ⟨List.prefix_rfl, le_rfl⟩ | exact ⟨List.prefix_rfl, Nat.le_succ _⟩

/-- A slot is written again only after it has been emptied. -/
theorem Inv.pos_of_step (hc : 0 < count.toNat) (hi : Inv count st) {st' : RpSyn ι α}
    (h : st.BoundedStep count st') {j : ℕ} (h1 : st'.cleared ≤ j) (h2 : j < st.filled.length) :
    st'.pos (j % count.toNat) = st.pos (j % count.toNat) := by
  have hi' := hi.step hc h
  obtain ⟨⟨rest, hrest⟩, hcleared⟩ := h.1.filled_mono
  have h2' : j < st'.filled.length := by
    rw [← hrest, List.length_append]
    omega
  rw [hi'.holds j h1 h2', hi.holds j (hcleared.trans h1) h2, ← hrest]
  exact List.getElem?_append_left h2

end RpSyn

end RemotePlay.Sync
