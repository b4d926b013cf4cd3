import RemotePlay.Sync.Handover

/-! # Every buffer is handed over

A call of `rp_syn_rel1` that ends without a timeout has filled its pointer in (`Call.stage`).  While
a pointer has not been acquired, the consumer or a producer that owes a permit can go on, so all
that has been filled in can be acquired without another call (`Inv.exists_acquired`), and after that
there is room for a call to get to its end (`Inv.exists_called`). -/

namespace RemotePlay.Sync

open Lib.Threads
open Function (update)
open Relation (ReflTransGen)

namespace ProducerPc

variable {α : Type*}

/-- The pointer has yet to be filled in. -/
def carries (p : α) : ProducerPc α → Prop
  | .lockWait q | .readHead q | .write q _ => q = p
  | _ => False

/-- The steps until the semaphore is released. -/
def left : ProducerPc α → ℕ
  | .advance _ => 3
  | .lockRel => 2
  | .semRel => 1
  | _ => 0

end ProducerPc

namespace ConsumerPc

variable {α : Type*}

/-- The slot has been emptied, and the pointer has not been returned. -/
def holding : ConsumerPc α → ℕ
  | .advance _ _ => 1
  | _ => 0

/-- The steps until a pointer is returned. -/
def left : ConsumerPc α → ℕ
  | .idle => 6
  | .semWait => 5
  | .readTail => 4
  | .read _ => 3
  | .clear _ _ => 2
  | .advance _ _ => 1

theorem left_le (pc : ConsumerPc α) : pc.left ≤ 6 := by
  rcases pc with _ | _ | _ | _ | _ | _ <;> simp only [left] <;> omega

end ConsumerPc

namespace RpSyn

variable {ι α : Type*} [DecidableEq ι] {count : UInt16} {st : RpSyn ι α}

/-! ### A call of `rp_syn_rel1` -/

@[simp]
theorem producer_goto (st : RpSyn ι α) (i : ι) (pc : ProducerPc α) :
    (st.goto i pc).producer i = pc :=
  Function.update_self ..

/-- A step of any thread during a call of thread `i`, whose wait for the mutex does not time out. -/
def CallStep (count : UInt16) (i : ι) (s s' : RpSyn ι α) : Prop :=
  s.producer i ≠ .idle ∧ s.BoundedStep count s' ∧
    (s'.producer i = .idle → s.producer i = .semRel)

/-- From a state in which thread `i` calls `rp_syn_rel1` with `p` to one during the call or at its
end, whatever the other threads do meanwhile. -/
def Call (count : UInt16) (i : ι) (p : α) (st s : RpSyn ι α) : Prop :=
  st.producer i = .idle ∧ ∃ s₀, st.rel1 count i p false = some s₀ ∧
    ReflTransGen (CallStep count i) s₀ s

theorem rel1_other {i j : ι} (hij : i ≠ j) {p : α} {timeout : Bool} {st' : RpSyn ι α}
    (h : st.rel1 count j p timeout = some st') : st'.producer i = st.producer i := by
  unfold RpSyn.rel1 at h
  rcases hp : st.producer j with _ | q | q | ⟨q, pos_head⟩ | pos_head | _ | _ <;>
    rw [hp] at h <;> dsimp only at h <;> (try split_ifs at h) <;>
    obtain rfl := Option.some.inj h <;> exact Function.update_of_ne hij _ _

omit [DecidableEq ι] in
theorem acq_producer {timeout : Bool} {st' : RpSyn ι α} (h : st.acq count timeout = some st') :
    st'.producer = st.producer := by
  unfold RpSyn.acq at h
  rcases hp : st.consumer with _ | _ | _ | pos_tail | ⟨pos_tail, q⟩ | ⟨pos_tail, q⟩ <;>
    rw [hp] at h <;> dsimp only at h <;> (try split_ifs at h) <;>
      obtain rfl := Option.some.inj h <;> rfl

theorem rel1_own {i : ι} {p q : α} {timeout : Bool} {st' : RpSyn ι α}
    (h : st.rel1 count i q timeout = some st') (hp : (st.producer i).carries p) :
    ((st'.producer i).carries p ∧ st'.filled = st.filled) ∨
      ((st'.producer i).owed = 1 ∧ st'.filled = st.filled ++ [p]) ∨
      (st'.producer i = .idle ∧ st.producer i = .lockWait p) := by
  unfold RpSyn.rel1 at h
  rcases hpc : st.producer i with _ | r | r | ⟨r, pos_head⟩ | pos_head | _ | _ <;>
    rw [hpc] at h hp <;> dsimp only at h <;> try exact hp.elim
  · obtain rfl := hp
    split_ifs at h <;> obtain rfl := Option.some.inj h
    · exact .inr (.inr ⟨st.producer_goto i _, rfl⟩)
    · exact .inl ⟨(congrArg (ProducerPc.carries r) (st.producer_goto i _)).mpr rfl, rfl⟩
  · obtain rfl := Option.some.inj h
    exact .inl ⟨(congrArg (ProducerPc.carries p) (st.producer_goto i _)).mpr hp, rfl⟩
  · obtain rfl := Option.some.inj h
    obtain rfl := hp
    exact .inr (.inl ⟨congrArg ProducerPc.owed (st.producer_goto i _), rfl⟩)

theorem rel1_owed {i : ι} {q : α} {timeout : Bool} {st' : RpSyn ι α}
    (h : st.rel1 count i q timeout = some st') (hp : (st.producer i).owed = 1) :
    (st'.producer i).owed = 1 ∨ st'.producer i = .idle := by
  unfold RpSyn.rel1 at h
  rcases hpc : st.producer i with _ | r | r | ⟨r, pos_head⟩ | pos_head | _ | _ <;>
    rw [hpc] at h hp <;> dsimp only at h <;> try exact absurd hp Nat.zero_ne_one
  · obtain rfl := Option.some.inj h
    exact .inl (congrArg ProducerPc.owed (st.producer_goto i _))
  · obtain rfl := Option.some.inj h
    exact .inl (congrArg ProducerPc.owed (st.producer_goto i _))
  · split_ifs at h <;> obtain rfl := Option.some.inj h <;> exact .inr (st.producer_goto i _)

/-- **How far a call has got**: its pointer is yet to be filled in, or has been. -/
theorem Call.stage {i : ι} {p : α} {s : RpSyn ι α} (h : Call count i p st s) :
    ((s.producer i).carries p ∧ st.filled <+: s.filled) ∨
      (((s.producer i).owed = 1 ∨ s.producer i = .idle) ∧
        ∃ pre post, s.filled = st.filled ++ (pre ++ p :: post)) := by
  obtain ⟨hidle, s₀, hcall, hrun⟩ := h
  induction hrun with
  | refl =>
    unfold RpSyn.rel1 at hcall
    rw [hidle] at hcall
    obtain rfl := Option.some.inj hcall
    exact .inl ⟨(congrArg (ProducerPc.carries p) (st.producer_goto i _)).mpr rfl, List.prefix_rfl⟩
  | @tail s s' _ hstep ih =>
    obtain ⟨hin, ⟨hstep, -⟩, hend⟩ := hstep
    obtain ⟨rest, hrest⟩ := hstep.filled_mono.1
    have hmore : (∃ pre post, s.filled = st.filled ++ (pre ++ p :: post)) →
        ∃ pre post, s'.filled = st.filled ++ (pre ++ p :: post) := by
      rintro ⟨pre, post, heq⟩
      exact ⟨pre, post ++ rest, by rw [← hrest, heq]; simp⟩
    have hother : s'.producer i = s.producer i →
        ((s'.producer i).carries p ∧ st.filled <+: s'.filled) ∨
        (((s'.producer i).owed = 1 ∨ s'.producer i = .idle) ∧
          ∃ pre post, s'.filled = st.filled ++ (pre ++ p :: post)) := by
      intro heq
      rw [heq]
      exact ih.imp (And.imp_right fun h => h.trans ⟨rest, hrest⟩) (And.imp_right hmore)
    obtain ⟨j, q, timeout, hrel⟩ | ⟨timeout, hacq⟩ := hstep
    · by_cases hij : i = j
      · subst hij
        rcases ih with ⟨hp, hpre⟩ | ⟨howed, hfilled⟩
        · rcases rel1_own hrel hp with ⟨hp', hf⟩ | ⟨howed, hf⟩ | ⟨hidle', hlock⟩
          · exact .inl ⟨hp', hf ▸ hpre⟩
          · obtain ⟨pre, hpre⟩ := hpre
            exact .inr ⟨.inl howed, pre, [], by rw [hf, ← hpre, List.append_assoc]⟩
          · cases (hend hidle').symm.trans hlock
        · exact .inr ⟨rel1_owed hrel (howed.resolve_right hin), hmore hfilled⟩
      · exact hother (rel1_other hij hrel)
    · exact hother (congrFun (acq_producer hacq) i)

/-! ### Acquiring what has been filled in -/

/-- A step that fills nothing in: the threads that have no permit to release stay where they are. -/
def Settles (count : UInt16) (s s' : RpSyn ι α) : Prop :=
  s.BoundedStep count s' ∧ s'.filled = s.filled ∧
    (∀ k, (s.producer k).owed = 0 → s'.producer k = s.producer k) ∧
    (s.mutex = none → s'.mutex = none)

variable [Fintype ι]

omit [DecidableEq ι] in
theorem Inv.length_acquired (hi : Inv count st) :
    st.acquired.length + st.consumer.holding = st.cleared := by
  have hcons := hi.consumer
  have hsem := hi.sem
  have hlen : ∀ k ≤ st.filled.length, st.acquired = (st.filled.take k).map some →
      st.acquired.length = k := by
    intro k hk h
    rw [h, List.length_map, List.length_take, Nat.min_eq_left hk]
  rcases hp : st.consumer with _ | _ | _ | pos_tail | ⟨pos_tail, q⟩ | ⟨pos_tail, q⟩ <;>
    rw [hp] at hcons
  · exact hlen _ (by omega) hcons.2
  · exact hlen _ (by omega) hcons.2
  · exact hlen _ (by omega) hcons.2
  · exact hlen _ (by omega) hcons.2
  · exact hlen _ (by omega) hcons.2.1
  · obtain ⟨k, hk, -, hacq, -⟩ := hcons
    rw [hlen k (by omega) hacq, hk]
    rfl

theorem Inv.rel1_settles (hi : Inv count st) {k : ι} {p : α} (hk : (st.producer k).owed ≠ 0) :
    ∃ st', Settles count st st' ∧ st'.acquired = st.acquired ∧ st'.consumer = st.consumer ∧
      total ProducerPc.left st'.producer < total ProducerPc.left st.producer := by
  have hroom := hi.room
  have hstep : ∀ {st'}, st.rel1 count k p false = some st' → st'.filled = st.filled →
      st'.cleared = st.cleared → st.BoundedStep count st' := fun h hf hcl =>
    ⟨.inl ⟨_, _, _, h⟩, by rw [hf, hcl]; exact hroom⟩
  have hothers : ∀ {pc}, ∀ j, (st.producer j).owed = 0 →
      update st.producer k pc j = st.producer j :=
    fun j hj => Function.update_of_ne (fun h : j = k => hk (by rw [← h]; exact hj)) _ _
  have hleft : ∀ pc, pc.left < (st.producer k).left →
      total ProducerPc.left (update st.producer k pc) < total ProducerPc.left st.producer := by
    intro pc hlt
    have h := total_update ProducerPc.left st.producer k pc
    omega
  rcases hp : st.producer k with _ | r | r | ⟨r, pos_head⟩ | pos_head | _ | _
  · exact absurd (congrArg ProducerPc.owed hp) hk
  · exact absurd (congrArg ProducerPc.owed hp) hk
  · exact absurd (congrArg ProducerPc.owed hp) hk
  · exact absurd (congrArg ProducerPc.owed hp) hk
  · have heq : st.rel1 count k p false =
        some { st.goto k .lockRel with pos_head := nextPos count pos_head } := by
      rw [RpSyn.rel1, hp]
    exact ⟨_, ⟨hstep heq rfl rfl, rfl, hothers, id⟩, rfl, rfl, hleft _ (hp ▸ Nat.lt_succ_self _)⟩
  · have heq : st.rel1 count k p false = some { st.goto k .semRel with mutex := none } := by
      rw [RpSyn.rel1, hp]
    exact ⟨_, ⟨hstep heq rfl rfl, rfl, hothers, fun _ => rfl⟩, rfl, rfl,
      hleft _ (hp ▸ Nat.lt_succ_self _)⟩
  · have heq : st.rel1 count k p false = some { st.goto k .idle with sem := st.sem + 1 } := by
      rw [RpSyn.rel1, hp]
      exact if_pos (hi.sem_lt hp)
    exact ⟨_, ⟨hstep heq rfl rfl, rfl, hothers, id⟩, rfl, rfl, hleft _ (hp ▸ Nat.lt_succ_self _)⟩

theorem Inv.acq_settles (hi : Inv count st) (hgo : st.consumer = .semWait → 0 < st.sem) :
    ∃ st', Settles count st st' ∧ st'.producer = st.producer ∧
      (st.acquired.length < st'.acquired.length ∨
        st'.acquired = st.acquired ∧ st'.consumer.left < st.consumer.left) := by
  have hroom := hi.room
  have hstep : ∀ {st'}, st.acq count false = some st' → st'.filled = st.filled →
      st.cleared ≤ st'.cleared → st.BoundedStep count st' := fun h hf hcl =>
    ⟨.inr ⟨_, h⟩, by rw [hf]; omega⟩
  rcases hp : st.consumer with _ | _ | _ | pos_tail | ⟨pos_tail, q⟩ | ⟨pos_tail, q⟩
  · have heq : st.acq count false = some { st with consumer := .semWait } := by rw [RpSyn.acq, hp]
    exact ⟨_, ⟨hstep heq rfl le_rfl, rfl, fun _ _ => rfl, id⟩, rfl, .inr ⟨rfl, Nat.lt_succ_self 5⟩⟩
  · have heq : st.acq count false = some { st with sem := st.sem - 1, consumer := .readTail } := by
      rw [RpSyn.acq, hp]
      exact if_pos (hgo hp)
    exact ⟨_, ⟨hstep heq rfl le_rfl, rfl, fun _ _ => rfl, id⟩, rfl, .inr ⟨rfl, Nat.lt_succ_self 4⟩⟩
  · have heq : st.acq count false = some { st with consumer := .read st.pos_tail } := by
      rw [RpSyn.acq, hp]
    exact ⟨_, ⟨hstep heq rfl le_rfl, rfl, fun _ _ => rfl, id⟩, rfl, .inr ⟨rfl, Nat.lt_succ_self 3⟩⟩
  · have heq : st.acq count false =
        some { st with consumer := .clear pos_tail (st.pos pos_tail.toNat) } := by
      rw [RpSyn.acq, hp]
    exact ⟨_, ⟨hstep heq rfl le_rfl, rfl, fun _ _ => rfl, id⟩, rfl, .inr ⟨rfl, Nat.lt_succ_self 2⟩⟩
  · have heq : st.acq count false = some { st with
        pos := update st.pos pos_tail.toNat none, consumer := .advance pos_tail q
        cleared := st.cleared + 1 } := by
      rw [RpSyn.acq, hp]
    exact ⟨_, ⟨hstep heq rfl (Nat.le_succ _), rfl, fun _ _ => rfl, id⟩, rfl,
      .inr ⟨rfl, Nat.lt_succ_self 1⟩⟩
  · have heq : st.acq count false = some { st with
        pos_tail := nextPos count pos_tail, consumer := .idle,
        acquired := st.acquired ++ [q] } := by
      rw [RpSyn.acq, hp]
    refine ⟨_, ⟨hstep heq rfl le_rfl, rfl, fun _ _ => rfl, id⟩, rfl, .inl ?_⟩
    rw [List.length_append]
    exact Nat.lt_succ_self _

/-- While something is to be acquired, a step brings that nearer. -/
theorem Inv.settles (hi : Inv count st) (hlt : st.acquired.length < st.filled.length) :
    ∃ st', Settles count st st' ∧ (st.acquired.length < st'.acquired.length ∨
      st'.acquired.length = st.acquired.length ∧
        total ProducerPc.left st'.producer + st'.consumer.left <
          total ProducerPc.left st.producer + st.consumer.left) := by
  by_cases hgo : st.consumer = .semWait → 0 < st.sem
  · obtain ⟨st', hs, hprod, hmore | ⟨hsame, hless⟩⟩ := hi.acq_settles hgo
    · exact ⟨st', hs, .inl hmore⟩
    · exact ⟨st', hs, .inr ⟨congrArg _ hsame, by rw [hprod]; omega⟩⟩
  · -- a permit is owed
    obtain ⟨hwait, hnone⟩ := Classical.not_imp.mp hgo
    have hsem := hi.sem
    have hacq := hi.length_acquired
    rw [hwait] at hsem hacq
    simp only [ConsumerPc.taking, ConsumerPc.holding] at hsem hacq
    have howed : total ProducerPc.owed st.producer ≠ 0 := by omega
    rw [Ne, total_eq_zero, not_forall] at howed
    obtain ⟨k, hk⟩ := howed
    obtain ⟨p, -⟩ := List.exists_mem_of_length_pos (Nat.zero_lt_of_lt hlt)
    obtain ⟨st', hs, hsame, hcons, hless⟩ := hi.rel1_settles (p := p) hk
    exact ⟨st', hs, .inr ⟨congrArg _ hsame, by rw [hcons]; omega⟩⟩

/-- **All that has been filled in can be acquired** without another call. -/
theorem Inv.exists_acquired (hc : 0 < count.toNat) (hi : Inv count st) :
    ∃ st', ReflTransGen (Settles count) st st' ∧ Inv count st' ∧ st'.filled = st.filled ∧
      st'.acquired.length = st.filled.length := by
  have hle : ∀ {s : RpSyn ι α}, Inv count s → s.acquired.length ≤ s.filled.length := by
    intro s hs
    rw [hs.acquired_eq, List.length_map]
    exact List.length_take_le' _ _
  rcases Nat.lt_or_ge st.acquired.length st.filled.length with hlt | hge
  swap
  · exact ⟨st, .refl, hi, rfl, Nat.le_antisymm (hle hi) hge⟩
  refine exists_reached (p := fun s => Inv count s ∧ s.filled = st.filled ∧
      s.acquired.length < st.filled.length)
    (fun s => (st.filled.length - s.acquired.length) * (3 * Fintype.card ι + 7) +
      (total ProducerPc.left s.producer + s.consumer.left)) (fun s hs => ?_) ⟨hi, rfl, hlt⟩
  obtain ⟨hs, hfilled, hlt⟩ := hs
  obtain ⟨s', hset, hcases⟩ := hs.settles (hfilled ▸ hlt)
  have hs' := hs.step hc hset.1
  have hfilled' := hset.2.1.trans hfilled
  refine ⟨s', hset, ?_⟩
  by_cases hend : s'.acquired.length < st.filled.length
  · refine .inr ⟨⟨hs', hfilled', hend⟩, ?_⟩
    rcases hcases with hmore | ⟨hsame, hless⟩
    · have hleft : total ProducerPc.left s'.producer ≤ Fintype.card ι * 3 := by
        refine Finset.sum_le_card_nsmul _ _ _ fun i _ => ?_
        rcases s'.producer i with _ | _ | _ | _ | _ | _ | _ <;> simp only [ProducerPc.left] <;>
          omega
      have hleft' := s'.consumer.left_le
      exact mul_add_lt_mul_add (by omega) (by omega)
    · rw [hsame]
      omega
  · exact .inl ⟨hs', hfilled', Nat.le_antisymm (hfilled' ▸ hle hs') (Nat.le_of_not_lt hend)⟩

/-! ### Getting to the end of a call -/

/-- A step of thread `j` during a call of it. -/
def OwnStep (count : UInt16) (j : ι) (s s' : RpSyn ι α) : Prop :=
  s.BoundedStep count s' ∧ s.producer j ≠ .idle ∧ s'.producer j ≠ .idle ∧
    ∀ k ≠ j, s'.producer k = s.producer k

omit [Fintype ι] in
theorem ownStep_of_rel1 {j : ι} {p : α} {st' : RpSyn ι α} (h : st.rel1 count j p false = some st')
    (hroom : st'.filled.length ≤ st'.cleared + count.toNat) {pc pc' : ProducerPc α}
    (hp : st.producer j = pc) (hp' : st'.producer j = pc') (hne : pc ≠ .idle) (hne' : pc' ≠ .idle) :
    OwnStep count j st st' :=
  ⟨⟨.inl ⟨_, _, _, h⟩, hroom⟩, hp ▸ hne, hp' ▸ hne', fun _ hk => rel1_other hk h⟩

omit [Fintype ι] in
theorem exists_unlocked {j : ι} {p : α} {pos_head : UInt16} (hp : st.producer j = .advance pos_head)
    (hroom : st.filled.length ≤ st.cleared + count.toNat) :
    ∃ s, ReflTransGen (OwnStep count j) st s ∧ s.producer j = .semRel ∧ s.mutex = none := by
  have h1 : st.rel1 count j p false =
      some { st.goto j .lockRel with pos_head := nextPos count pos_head } := by
    rw [RpSyn.rel1, hp]
  have hp1 :
      ({ st.goto j .lockRel with pos_head := nextPos count pos_head } : RpSyn ι α).producer j =
      .lockRel := st.producer_goto j _
  have h2 := RpSyn.rel1.eq_def count
    { st.goto j .lockRel with pos_head := nextPos count pos_head } j p false
  rw [hp1] at h2
  exact ⟨_, .tail (.single (ownStep_of_rel1 h1 hroom hp hp1 nofun nofun))
    (ownStep_of_rel1 h2 hroom hp1 (producer_goto ..) nofun nofun), producer_goto .., rfl⟩

omit [Fintype ι] in
theorem exists_written {j : ι} {p : α} {pos_head : UInt16} (hp : st.producer j = .write p pos_head)
    (hroom : st.filled.length < st.cleared + count.toNat) :
    ∃ s, ReflTransGen (OwnStep count j) st s ∧ s.producer j = .semRel ∧ s.mutex = none := by
  have h : st.rel1 count j p false = some { st.goto j (.advance pos_head) with
      pos := update st.pos pos_head.toNat (some p), filled := st.filled ++ [p] } := by
    rw [RpSyn.rel1, hp]
  have hp' : ({ st.goto j (.advance pos_head) with
      pos := update st.pos pos_head.toNat (some p),
      filled := st.filled ++ [p] } : RpSyn ι α).producer j = .advance pos_head :=
    st.producer_goto j _
  have hroom' : (st.filled ++ [p]).length ≤ st.cleared + count.toNat := by
    rw [List.length_append]
    exact hroom
  obtain ⟨s, hrun, hrest⟩ := exists_unlocked (p := p) hp' hroom'
  exact ⟨s, .head (ownStep_of_rel1 h hroom' hp hp' nofun nofun) hrun, hrest⟩

omit [Fintype ι] in
theorem exists_read {j : ι} {p : α} (hp : st.producer j = .readHead p)
    (hroom : st.filled.length < st.cleared + count.toNat) :
    ∃ s, ReflTransGen (OwnStep count j) st s ∧ s.producer j = .semRel ∧ s.mutex = none := by
  have h : st.rel1 count j p false = some (st.goto j (.write p st.pos_head)) := by
    rw [RpSyn.rel1, hp]
  have hp' := st.producer_goto j (.write p st.pos_head)
  obtain ⟨s, hrun, hrest⟩ := exists_written hp' hroom
  exact ⟨s, .head (ownStep_of_rel1 h hroom.le hp hp' nofun nofun) hrun, hrest⟩

omit [Fintype ι] in
/-- With a slot free, a thread that holds the mutex or finds it free gets to releasing the
semaphore. -/
theorem exists_passed {j : ι} {p : α} (hroom : st.filled.length < st.cleared + count.toNat)
    (hp : (st.producer j = .lockWait p ∧ st.mutex = none) ∨ st.producer j = .readHead p ∨
      ∃ pos_head, st.producer j = .write p pos_head) :
    ∃ s, ReflTransGen (OwnStep count j) st s ∧ s.producer j = .semRel ∧ s.mutex = none := by
  rcases hp with ⟨hp, hnone⟩ | hp | ⟨pos_head, hp⟩
  · have h : st.rel1 count j p false = some { st.goto j (.readHead p) with mutex := some j } := by
      rw [RpSyn.rel1, hp, hnone]
      rfl
    have hp' :
        ({ st.goto j (.readHead p) with mutex := some j } : RpSyn ι α).producer j = .readHead p :=
      st.producer_goto j _
    obtain ⟨s, hrun, hrest⟩ := exists_read hp' hroom
    exact ⟨s, .head (ownStep_of_rel1 h hroom.le hp hp' nofun nofun) hrun, hrest⟩
  · exact exists_read hp hroom
  · exact exists_written hp hroom

omit [Fintype ι] in
theorem callSteps_of_own {i j : ι} {s s' : RpSyn ι α} (h : ReflTransGen (OwnStep count j) s s')
    (hin : s.producer i ≠ .idle) : ReflTransGen (CallStep count i) s s' ∧
      (i ≠ j → s'.producer i = s.producer i) := by
  have hnot : ReflTransGen (CallStep count i) s s' ∧ s'.producer i ≠ .idle ∧
      (i ≠ j → s'.producer i = s.producer i) := by
    induction h with
    | refl => exact ⟨.refl, hin, fun _ => rfl⟩
    | @tail s₁ s₂ _ hstep ih =>
      obtain ⟨hbound, -, hidle', hothers⟩ := hstep
      obtain ⟨hrun, hin₁, hsame⟩ := ih
      have hin₂ : s₂.producer i ≠ .idle := by
        by_cases hij : i = j
        · exact hij ▸ hidle'
        · rw [hothers i hij]
          exact hin₁
      exact ⟨hrun.tail ⟨hin₁, hbound, fun h => absurd h hin₂⟩, hin₂,
        fun hij => (hothers i hij).trans (hsame hij)⟩
  exact ⟨hnot.1, hnot.2.2⟩

omit [Fintype ι] in
theorem callSteps_of_settles {i : ι} {p : α} {s s' : RpSyn ι α}
    (h : ReflTransGen (Settles count) s s') (hin : s.producer i = .lockWait p) :
    ReflTransGen (CallStep count i) s s' ∧ s'.producer i = .lockWait p ∧
      (s.mutex = none → s'.mutex = none) := by
  induction h with
  | refl => exact ⟨.refl, hin, id⟩
  | @tail s₁ s₂ _ hstep ih =>
    obtain ⟨hbound, -, hothers, hmutex⟩ := hstep
    obtain ⟨hrun, hin₁, hnone⟩ := ih
    have hin₂ : s₂.producer i = .lockWait p := (hothers i (by rw [hin₁]; rfl)).trans hin₁
    exact ⟨hrun.tail ⟨by rw [hin₁]; exact nofun, hbound, fun h => by rw [hin₂] at h; cases h⟩, hin₂,
      fun h => hmutex (hnone h)⟩

theorem Inv.callSteps (hc : 0 < count.toNat) (hi : Inv count st) {i : ι} {s : RpSyn ι α}
    (h : ReflTransGen (CallStep count i) st s) : Inv count s := by
  induction h with
  | refl => exact hi
  | tail _ hstep ih => exact ih.step hc hstep.2.1

/-- While a thread waits for the mutex, all that has been filled in can be acquired. -/
theorem Inv.exists_emptied (hc : 0 < count.toNat) (hi : Inv count st) {i : ι} {p : α}
    (hin : st.producer i = .lockWait p) : ∃ s, ReflTransGen (CallStep count i) st s ∧ Inv count s ∧
      s.producer i = .lockWait p ∧ s.filled.length < s.cleared + count.toNat ∧
      (∀ k, (s.producer k).owed = 0) ∧ (st.mutex = none → s.mutex = none) := by
  obtain ⟨s, hrun, hs, hfilled, hall⟩ := hi.exists_acquired hc
  obtain ⟨hcalls, hin', hmutex⟩ := callSteps_of_settles hrun hin
  have hsem := hs.sem
  have hacq := hs.length_acquired
  rw [hfilled] at hsem
  refine ⟨s, hcalls, hs, hin', by rw [hfilled]; omega, ?_, hmutex⟩
  exact total_eq_zero.mp (by omega)

/-- **A call can get to its end**, whatever the other threads are at. -/
theorem Inv.exists_called (hc : 0 < count.toNat) (hi : Inv count st) {i : ι} (p : α)
    (hidle : st.producer i = .idle) : ∃ s, Call count i p st s ∧ s.producer i = .idle := by
  have hcall : st.rel1 count i p false = some (st.goto i (.lockWait p)) := by
    rw [RpSyn.rel1, hidle]
  have hi₀ := hi.rel1 hc hcall hi.room
  have hp₀ := st.producer_goto i (.lockWait p)
  -- the mutex is free, or the thread that holds it leaves it
  obtain ⟨s, hrun, hs, hp, hroom, hnone⟩ : ∃ s, ReflTransGen (CallStep count i)
      (st.goto i (.lockWait p)) s ∧ Inv count s ∧ s.producer i = .lockWait p ∧
      s.filled.length < s.cleared + count.toNat ∧ s.mutex = none := by
    obtain ⟨s₁, hrun₁, hs₁, hp₁, hroom₁, howed, -⟩ := hi₀.exists_emptied hc hp₀
    rcases hmutex : s₁.mutex with _ | j
    · exact ⟨s₁, hrun₁, hs₁, hp₁, hroom₁, hmutex⟩
    have hin := (hs₁.mutex j).mpr hmutex
    have hij : i ≠ j := by
      rintro rfl
      rw [hp₁] at hin
      exact hin
    have hlock : ∃ q, s₁.producer j = .readHead q ∨
        ∃ pos_head, s₁.producer j = .write q pos_head := by
      have howed_j := howed j
      rcases hpj : s₁.producer j with _ | q | q | ⟨q, pos_head⟩ | pos_head | _ | _ <;>
        rw [hpj] at hin howed_j
      · exact hin.elim
      · exact hin.elim
      · exact ⟨q, .inl rfl⟩
      · exact ⟨q, .inr ⟨pos_head, rfl⟩⟩
      · cases howed_j
      · cases howed_j
      · exact hin.elim
    obtain ⟨q, hlock⟩ := hlock
    obtain ⟨s₂, hown, -, hfree⟩ := exists_passed hroom₁ (.inr hlock)
    obtain ⟨hrun₂, hsame⟩ := callSteps_of_own (i := i) hown (hp₁ ▸ nofun)
    have hs₂ := hs₁.callSteps hc hrun₂
    obtain ⟨s₃, hrun₃, hs₃, hp₃, hroom₃, -, hmutex₃⟩ :=
      hs₂.exists_emptied hc ((hsame hij).trans hp₁)
    exact ⟨s₃, (hrun₁.trans hrun₂).trans hrun₃, hs₃, hp₃, hroom₃, hmutex₃ hfree⟩
  obtain ⟨s', hown, hsem, -⟩ := exists_passed hroom (.inl ⟨hp, hnone⟩)
  obtain ⟨hrun', -⟩ := callSteps_of_own (i := i) hown (hp ▸ nofun)
  have hs' := hs.callSteps hc hrun'
  have hlast : s'.rel1 count i p false = some { s'.goto i .idle with sem := s'.sem + 1 } := by
    rw [RpSyn.rel1, hsem]
    exact if_pos (hs'.sem_lt hsem)
  refine ⟨_, ⟨hidle, _, hcall, (hrun.trans hrun').tail ⟨by rw [hsem]; exact nofun,
    ⟨.inl ⟨_, _, _, hlast⟩, hs'.room⟩, fun _ => hsem⟩⟩, producer_goto ..⟩

/-! ### Whole runs -/

/-- **Every pointer is handed over**, once and in the order in which the slots were filled, in every
run in which there is a slot for each that is released and not acquired.  No acquiring finds a slot
empty, no release of the semaphore fails, no slot is filled again before it has been read; and when
the consumer is not in a call, what it has not acquired is a permit, or owed by a producer.  A call
of `rp_syn_rel1` that ends has filled its pointer in, and can end from every state reached; and all
that has been filled in can be acquired by steps that fill in nothing more. -/
theorem handed_over (hc : 0 < count.toNat)
    (h : Reachable (fun s => ∃ init, s = RpSyn.init1 count init) (BoundedStep count) st) :
    st.acquired = (st.filled.take st.acquired.length).map some ∧ none ∉ st.acquired ∧
      st.relFailed = false ∧
      (st.consumer = .idle → st.sem + total ProducerPc.owed st.producer + st.acquired.length =
        st.filled.length) ∧
      (∀ st', st.BoundedStep count st' → ∀ j, st'.cleared ≤ j → j < st.filled.length →
        st'.pos (j % count.toNat) = st.pos (j % count.toNat)) ∧
      (∀ i p s, Call count i p st s → s.producer i = .idle →
        ∃ pre post, s.filled = st.filled ++ (pre ++ p :: post)) ∧
      (∀ i p, st.producer i = .idle → ∃ s, Call count i p st s ∧ s.producer i = .idle) ∧
      ∃ s, ReflTransGen (BoundedStep count) st s ∧ s.filled = st.filled ∧
        s.acquired = st.filled.map some := by
  have hi : Inv count st := by
    refine h.invariant (p := fun s => Inv count s) ?_ fun s s' hs hstep => Inv.step hc hs hstep
    rintro s ⟨init, rfl⟩
    exact .init1 init
  refine ⟨hi.acquired_eq, ?_, hi.relFailed, fun hidle => ?_, fun st' hstep j h1 h2 =>
    hi.pos_of_step hc hstep h1 h2, fun i p s hcall hend => ?_, fun i p => hi.exists_called hc p, ?_⟩
  · rw [hi.acquired_eq, List.mem_map]
    rintro ⟨_, -, ⟨⟩⟩
  · have hsem := hi.sem
    have hcons := hi.consumer
    rw [hidle] at hsem hcons
    simp only [ConsumerPc.taking] at hsem
    rw [hcons.2, List.length_map, List.length_take, Nat.min_eq_left (by omega)]
    omega
  · rcases hcall.stage with ⟨hcarries, -⟩ | ⟨-, hfilled⟩
    · rw [hend] at hcarries
      exact hcarries.elim
    · exact hfilled
  · obtain ⟨s, hrun, hs, hfilled, hall⟩ := hi.exists_acquired hc
    refine ⟨s, ReflTransGen.mono (fun _ _ h => h.1) _ _ hrun, hfilled, ?_⟩
    rw [hs.acquired_eq, hall, hfilled, List.take_length]

/-- A step of a producer, with the pointer of its next call, or of the consumer. -/
def act (s : RpSyn (Fin 2) ℕ) (t : Option (Fin 2 × ℕ)) : Option (RpSyn (Fin 2) ℕ) :=
  (match t with
    | some (i, p) => s.rel1 2 i p false
    | none => s.acq 2 false).filter fun s' => s'.filled.length ≤ s'.cleared + 2

/-- Two producers fill a slot each, the second one releases the semaphore first, and the consumer
acquires what the first one has filled in; later a slot is used again. -/
def acts : List (Option (Fin 2 × ℕ)) :=
  [some (0, 5), some (1, 6)] ++ List.replicate 5 (some (0, 5)) ++ List.replicate 6 (some (1, 6)) ++
    List.replicate 6 none ++ [some (0, 5)] ++ List.replicate 7 (some (0, 7)) ++
    List.replicate 6 none

theorem handed_over_three : ∃ st, acts.foldlM act (RpSyn.init1 2 none) = some st ∧
    st.filled = [5, 6, 7] ∧ st.acquired = [some 5, some 6] ∧ none ∉ st.acquired ∧
      (∃ s, Call 2 1 8 st s ∧ ∃ pre post, s.filled = [5, 6, 7] ++ (pre ++ 8 :: post)) ∧
      ∃ s, ReflTransGen (BoundedStep 2) st s ∧ s.acquired = [some 5, some 6, some 7] := by
  have hrun : (acts.foldlM act (RpSyn.init1 2 none)).map
      (fun st => (st.filled, st.acquired)) = some ([5, 6, 7], [some 5, some 6]) := by rfl
  have hidle : (acts.foldlM act (RpSyn.init1 2 none)).all
      (fun st => match st.producer 1 with
        | .idle => true
        | _ => false) = true := by rfl
  obtain ⟨st, hst, heq⟩ := Option.map_eq_some_iff.mp hrun
  obtain ⟨hfilled, hacq⟩ := Prod.mk.inj heq
  have hstart : Reachable (fun s => ∃ init, s = RpSyn.init1 2 init) (BoundedStep 2)
      (RpSyn.init1 2 none : RpSyn (Fin 2) ℕ) := .start ⟨none, rfl⟩
  have hstep : ∀ s t s', act s t = some s' → BoundedStep 2 s s' := by
    intro s t s' hs
    obtain ⟨hs, hroom⟩ := Option.filter_eq_some_iff.mp hs
    refine ⟨?_, of_decide_eq_true hroom⟩
    rcases t with _ | ⟨i, p⟩
    · exact Or.inr ⟨_, hs⟩
    · exact Or.inl ⟨_, _, _, hs⟩
  have hp : st.producer 1 = .idle := by
    rw [hst, Option.all_some] at hidle
    split at hidle
    · assumption
    · cases hidle
  obtain ⟨-, hnone, -, -, -, hfills, hends, s', hsteps, -, hall⟩ :=
    handed_over (by decide) (hstart.foldlM hstep hst)
  obtain ⟨s, hcall, hend⟩ := hends 1 8 hp
  refine ⟨st, hst, hfilled, hacq, hnone, ⟨s, hcall, ?_⟩, s', hsteps,
    hall.trans (by rw [hfilled]; rfl)⟩
  rw [← hfilled]
  exact hfills 1 8 s hcall hend

end RpSyn

end RemotePlay.Sync
