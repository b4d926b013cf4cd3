import RemotePlay.Config
import RemotePlay.Lib.Threads

/-! # Changing the quality between frames

The thread that gets the settings changes the quantisation, divisor and shift tables while other
threads encode frames from them.  `quality_can_update` is a semaphore with a permit for each work
slot.  A frame holds one while it is encoded, and the settings thread takes all of them, one after
another, before it writes; a flag and an event keep new frames from starting meanwhile, but what
excludes them are the permits.

A state also remembers the tables each frame started with (`seen`) and those that the last update
left (`committed`).  A thread that is told to reset stops where it waits, with the permits it
has. -/

namespace RemotePlay.Jpeg

open Lib.Threads

open Function (update)

/-- Where a frame is: `jpeg_quality_work_acquire`, the encoding and `jpeg_quality_work_release`. -/
inductive FramePc
  | idle
  | loadFlag
  | waitDone
  | waitPermit
  | encoding
  | release
  | stopped (holding : Bool)

/-- The permits a frame holds. -/
def FramePc.held : FramePc → ℕ
  | .encoding | .release | .stopped true => 1
  | _ => 0

/-- Where the settings thread is in `JpegShared::init`. -/
inductive UpdatePc
  | idle
  | clearDone
  | storeFlag
  | waitPermits (taken : ℕ)
  | writing
  | release
  | resetFlag
  | signalDone
  | stopped (taken : ℕ)

/-- The permits the settings thread holds. -/
def UpdatePc.held : UpdatePc → ℕ
  | .waitPermits taken | .stopped taken => taken
  | .writing | .release => WORK_COUNT
  | _ => 0

/-- What `JpegShared` keeps for quality updates; the tables are memory. -/
structure QualitySync (ι : Type*) where
  quality_need_update : Bool
  quality_done_update : Bool
  quality_can_update : ℕ
  tables : ℕ → ℤ
  frame : ι → FramePc
  updater : UpdatePc
  seen : ι → ℕ → ℤ
  committed : ℕ → ℤ
  relFailed : Bool

namespace QualitySync

variable {ι : Type*} [DecidableEq ι] (st : QualitySync ι)

/-- All permits are there, and no frame is being encoded. -/
def start (tables : ℕ → ℤ) : QualitySync ι where
  quality_need_update := false
  quality_done_update := false
  quality_can_update := WORK_COUNT
  tables := tables
  frame _ := .idle
  updater := .idle
  seen _ := tables
  committed := tables
  relFailed := false

/-- A frame goes on to `pc`. -/
def goto (i : ι) (pc : FramePc) : QualitySync ι := { st with frame := update st.frame i pc }

/-- `release_sem_count` of `quality_can_update`, which can have `WORK_COUNT` permits. -/
def releasePermits (count : ℕ) : QualitySync ι :=
  if st.quality_can_update + count ≤ WORK_COUNT then
    { st with quality_can_update := st.quality_can_update + count }
  else { st with relFailed := true }

/-- A step of a frame. -/
def work (i : ι) (reset : Bool) : Option (QualitySync ι) :=
  match st.frame i with
  | .idle => some (st.goto i .loadFlag)
  | .loadFlag =>
    some (st.goto i (if st.quality_need_update = true then .waitDone else .waitPermit))
  | .waitDone =>
    if reset = true then some (st.goto i (.stopped false))
    else if st.quality_done_update = true then some (st.goto i .waitPermit)
    else none
  | .waitPermit =>
    if reset = true then some (st.goto i (.stopped false))
    else if 0 < st.quality_can_update then
      some { st.goto i .encoding with
        quality_can_update := st.quality_can_update - 1, seen := update st.seen i st.tables }
    else none
  | .encoding =>
    if reset = true then some (st.goto i (.stopped true)) else some (st.goto i .release)
  | .release => some ((st.goto i .idle).releasePermits 1)
  | .stopped _ => none

/-- What the settings thread does while it has all permits. -/
inductive Write
  | store (a : ℕ) (v : ℤ)
  | finish

/-- A step of the settings thread. -/
def change (reset : Bool) (w : Write) : Option (QualitySync ι) :=
  match st.updater with
  | .idle => some { st with updater := .clearDone }
  | .clearDone => some { st with quality_done_update := false, updater := .storeFlag }
  | .storeFlag => some { st with quality_need_update := true, updater := .waitPermits 0 }
  | .waitPermits taken =>
    if WORK_COUNT ≤ taken then some { st with updater := .writing }
    else if reset = true then some { st with updater := .stopped taken }
    else if 0 < st.quality_can_update then
      some { st with
        quality_can_update := st.quality_can_update - 1, updater := .waitPermits (taken + 1) }
    else none
  | .writing =>
    match w with
    | .store a v => some { st with tables := update st.tables a v }
    | .finish => some { st with updater := .release, committed := st.tables }
  | .release => some ({ st with updater := .resetFlag }.releasePermits WORK_COUNT)
  | .resetFlag => some { st with quality_need_update := false, updater := .signalDone }
  | .signalDone => some { st with quality_done_update := true, updater := .idle }
  | .stopped _ => none

/-- A step of a frame or of the settings thread. -/
def Step (st st' : QualitySync ι) : Prop :=
  (∃ i reset, st.work i reset = some st') ∨ ∃ reset w, st.change reset w = some st'

/-! ### The invariant -/

/-- **Every permit is the semaphore's, a frame's or the settings thread's.** -/
structure Inv [Fintype ι] : Prop where
  permits : st.quality_can_update + total FramePc.held st.frame + st.updater.held = WORK_COUNT
  taken_le : ∀ taken, st.updater = .waitPermits taken → taken ≤ WORK_COUNT
  seen : ∀ i, (st.frame i).held = 1 → st.seen i = st.tables
  committed : st.updater ≠ .writing → st.tables = st.committed
  relFailed : st.relFailed = false

variable {st} [Fintype ι]

omit [DecidableEq ι] in
theorem Inv.start (tables : ℕ → ℤ) : Inv (start tables : QualitySync ι) where
  permits := by
    have htotal : total FramePc.held (fun _ : ι => FramePc.idle) = 0 :=
      total_eq_zero.mpr fun _ => rfl
    show WORK_COUNT + total FramePc.held (fun _ : ι => FramePc.idle) + 0 = WORK_COUNT
    rw [htotal]
    rfl
  taken_le := by rintro _ ⟨⟩
  seen _ _ := rfl
  committed _ := rfl
  relFailed := rfl

/-! ### A frame's steps -/

theorem Inv.goto (hi : Inv st) {i : ι} {pc : FramePc} (h : pc.held = (st.frame i).held) :
    Inv (st.goto i pc) := by
  have hpermits := hi.permits
  have htotal := total_update FramePc.held st.frame i pc
  refine { hi with permits := ?_, seen := ?_ }
  · show st.quality_can_update + total FramePc.held (update st.frame i pc) + st.updater.held =
      WORK_COUNT
    omega
  · refine (Function.forall_update_iff st.frame fun j pc => pc.held = 1 → st.seen j = st.tables).mpr
      ⟨fun hheld => hi.seen i (h ▸ hheld), fun j _ => hi.seen j⟩

theorem Inv.takePermit (hi : Inv st) {i : ι} (hp : st.frame i = .waitPermit)
    (hpos : 0 < st.quality_can_update) : Inv { st.goto i .encoding with
      quality_can_update := st.quality_can_update - 1, seen := update st.seen i st.tables } := by
  have hpermits := hi.permits
  have htotal := total_update FramePc.held st.frame i .encoding
  rw [hp] at htotal
  simp only [FramePc.held] at htotal
  refine { hi with permits := ?_, seen := fun j hheld => ?_ }
  · show st.quality_can_update - 1 + total FramePc.held (update st.frame i .encoding) +
      st.updater.held = WORK_COUNT
    omega
  · show update st.seen i st.tables j = st.tables
    by_cases hj : j = i
    · rw [hj, Function.update_self]
    · have hheld' : (update st.frame i .encoding j).held = 1 := hheld
      rw [Function.update_of_ne hj] at hheld' ⊢
      exact hi.seen j hheld'

theorem Inv.releasePermit (hi : Inv st) {i : ι} (hp : st.frame i = .release) :
    Inv ((st.goto i .idle).releasePermits 1) := by
  have hpermits := hi.permits
  have htotal := total_update FramePc.held st.frame i .idle
  have hle := le_total FramePc.held st.frame i
  rw [hp] at htotal hle
  simp only [FramePc.held] at htotal hle
  have hroom : (st.goto i .idle).quality_can_update + 1 ≤ WORK_COUNT := by
    show st.quality_can_update + 1 ≤ WORK_COUNT
    omega
  rw [releasePermits, if_pos hroom]
  refine { hi with permits := ?_, seen := ?_ }
  · show st.quality_can_update + 1 + total FramePc.held (update st.frame i .idle) +
      st.updater.held = WORK_COUNT
    omega
  · refine (Function.forall_update_iff st.frame fun j pc => pc.held = 1 → st.seen j = st.tables).mpr
      ⟨?_, fun j _ => hi.seen j⟩
    rintro ⟨⟩

theorem Inv.work (hi : Inv st) {i : ι} {reset : Bool} {st' : QualitySync ι}
    (h : st.work i reset = some st') : Inv st' := by
  unfold QualitySync.work at h
  rcases hp : st.frame i with _ | _ | _ | _ | _ | _ | holding <;> rw [hp] at h <;> dsimp only at h
  · obtain rfl := Option.some.inj h
    exact hi.goto (by rw [hp]; rfl)
  · obtain rfl := Option.some.inj h
    refine hi.goto ?_
    rw [hp]
    split_ifs <;> rfl
  · split_ifs at h <;> obtain rfl := Option.some.inj h <;> exact hi.goto (by rw [hp]; rfl)
  · split_ifs at h with hreset hpos <;> obtain rfl := Option.some.inj h
    · exact hi.goto (by rw [hp]; rfl)
    · exact hi.takePermit hp hpos
  · split_ifs at h <;> obtain rfl := Option.some.inj h <;> exact hi.goto (by rw [hp]; rfl)
  · obtain rfl := Option.some.inj h
    exact hi.releasePermit hp
  · cases h

/-! ### The settings thread's steps -/

omit [DecidableEq ι] in
/-- **While the tables are written no frame holds a permit.** -/
theorem Inv.excluded (hi : Inv st) (hp : st.updater = .writing) (i : ι) :
    (st.frame i).held = 0 := by
  have hpermits := hi.permits
  rw [hp] at hpermits
  simp only [UpdatePc.held] at hpermits
  exact total_eq_zero.mp (by omega) i

omit [DecidableEq ι] in
theorem Inv.change (hi : Inv st) {reset : Bool} {w : Write} {st' : QualitySync ι}
    (h : st.change reset w = some st') : Inv st' := by
  have hpermits := hi.permits
  have hcommitted : st.updater ≠ .writing → st.tables = st.committed := hi.committed
  unfold QualitySync.change at h
  rcases hp : st.updater with _ | _ | _ | taken | _ | _ | _ | _ | taken <;>
    rw [hp] at h hpermits hcommitted <;> dsimp only at h <;> simp only [UpdatePc.held] at hpermits
  · obtain rfl := Option.some.inj h
    exact { hi with
      permits := hpermits, taken_le := by rintro _ ⟨⟩
      committed := fun _ => hcommitted (by rintro ⟨⟩) }
  · obtain rfl := Option.some.inj h
    exact { hi with
      permits := hpermits, taken_le := by rintro _ ⟨⟩
      committed := fun _ => hcommitted (by rintro ⟨⟩) }
  · obtain rfl := Option.some.inj h
    refine { hi with
      permits := hpermits, taken_le := ?_, committed := fun _ => hcommitted (by rintro ⟨⟩) }
    rintro _ ⟨⟩
    exact Nat.zero_le _
  · have hle := hi.taken_le _ hp
    split_ifs at h with htaken hreset hpos <;> obtain rfl := Option.some.inj h
    · refine { hi with
        permits := ?_, taken_le := by rintro _ ⟨⟩, committed := fun hne => absurd rfl hne }
      show st.quality_can_update + total FramePc.held st.frame + WORK_COUNT = WORK_COUNT
      omega
    · exact { hi with
        permits := hpermits, taken_le := by rintro _ ⟨⟩
        committed := fun _ => hcommitted (by rintro ⟨⟩) }
    · refine { hi with
        permits := ?_, taken_le := ?_, committed := fun _ => hcommitted (by rintro ⟨⟩) }
      · show st.quality_can_update - 1 + total FramePc.held st.frame + (taken + 1) = WORK_COUNT
        omega
      · rintro _ ⟨⟩
        omega
  · have hnone := hi.excluded hp
    rcases w with ⟨a, v⟩ | _ <;> obtain rfl := Option.some.inj h
    · refine { hi with
        permits := ?_, taken_le := ?_, seen := fun i hheld => ?_
        committed := fun hne => absurd rfl hne }
      · exact hpermits
      · rintro _ ⟨⟩
      · rw [hnone i] at hheld
        cases hheld
    · exact { hi with
        permits := hpermits, taken_le := by rintro _ ⟨⟩, committed := fun _ => rfl }
  · obtain rfl := Option.some.inj h
    have hroom : ({ st with updater := .resetFlag } : QualitySync ι).quality_can_update +
        WORK_COUNT ≤
        WORK_COUNT := by
      show st.quality_can_update + WORK_COUNT ≤ WORK_COUNT
      omega
    rw [releasePermits, if_pos hroom]
    refine { hi with
      permits := ?_, taken_le := by rintro _ ⟨⟩, committed := fun _ => hcommitted (by rintro ⟨⟩) }
    show st.quality_can_update + WORK_COUNT + total FramePc.held st.frame + 0 = WORK_COUNT
    omega
  · obtain rfl := Option.some.inj h
    exact { hi with
      permits := hpermits, taken_le := by rintro _ ⟨⟩
      committed := fun _ => hcommitted (by rintro ⟨⟩) }
  · obtain rfl := Option.some.inj h
    exact { hi with
      permits := hpermits, taken_le := by rintro _ ⟨⟩
      committed := fun _ => hcommitted (by rintro ⟨⟩) }
  · cases h

/-! ### Whole runs -/

theorem Inv.step (hi : Inv st) {st' : QualitySync ι} (h : Step st st') : Inv st' := by
  obtain ⟨i, reset, hwork⟩ | ⟨reset, w, hchange⟩ := h
  · exact hi.work hwork
  · exact hi.change hchange

omit [Fintype ι] in
/-- Only the settings thread, with all permits, writes to the tables. -/
theorem writing_of_tables_ne {st' : QualitySync ι} (h : Step st st')
    (hne : st'.tables ≠ st.tables) : st.updater = .writing := by
  refine by_contra fun hp => hne ?_
  have hrelease : ∀ (s : QualitySync ι) count, (s.releasePermits count).tables = s.tables := by
    intro s count
    unfold releasePermits
    split_ifs <;> rfl
  obtain ⟨i, reset, h⟩ | ⟨reset, w, h⟩ := h
  · unfold QualitySync.work at h
    rcases hf : st.frame i with _ | _ | _ | _ | _ | _ | holding <;>
      rw [hf] at h <;> dsimp only at h <;>
      (try split_ifs at h) <;> cases h <;> first | rfl | exact hrelease _ _
  · unfold QualitySync.change at h
    rcases hu : st.updater with _ | _ | _ | taken | _ | _ | _ | _ | taken <;> rw [hu] at h hp <;>
      first | exact absurd rfl hp | skip
    all_goals
      dsimp only at h
      (try split_ifs at h) <;> cases h <;> first | rfl | exact hrelease _ _

/-- **The tables change only between frames.**  In every run the permits are accounted for, a frame
sees the tables it started with from its acquiring to its releasing, and these are what a whole
update left. -/
theorem updates_excluded (h : Reachable (fun s => ∃ tables, s = start tables) Step st) :
    st.quality_can_update + total FramePc.held st.frame + st.updater.held = WORK_COUNT ∧
      st.relFailed = false ∧
      (∀ i, (st.frame i).held = 1 → st.seen i = st.tables ∧ st.tables = st.committed) ∧
      ∀ st', Step st st' → st'.tables ≠ st.tables → ∀ i, (st.frame i).held = 0 := by
  have hi : Inv st := by
    refine h.invariant (p := fun s => Inv s) ?_ fun s s' hs hstep => Inv.step hs hstep
    rintro s ⟨tables, rfl⟩
    exact .start tables
  refine ⟨hi.permits, hi.relFailed, fun i hheld => ⟨hi.seen i hheld, hi.committed fun hp => ?_⟩,
    fun st' hstep hne => hi.excluded (writing_of_tables_ne hstep hne)⟩
  rw [hi.excluded hp i] at hheld
  cases hheld

/-- The settings thread or a frame goes on. -/
def oneAct (s : QualitySync (Fin 1)) : Option Write → Option (QualitySync (Fin 1))
  | none => s.work 0 false
  | some w => s.change false w

/-- An update, and a frame after it. -/
theorem updates_excluded_one :
    ∃ st : QualitySync (Fin 1), st.tables 0 = 7 ∧ st.seen 0 = st.tables := by
  have hrun : ((List.replicate 6 (some Write.finish) ++ [some (Write.store 0 7)] ++
      List.replicate 4 (some Write.finish) ++ List.replicate 3 none).foldlM oneAct
      (start fun _ => 0)).map (fun st : QualitySync (Fin 1) => (st.tables 0, (st.frame 0).held)) =
      some (7, 1) := by rfl
  obtain ⟨st, hst, hval⟩ := Option.map_eq_some_iff.mp hrun
  have hstart : Reachable (fun s => ∃ tables, s = start tables) Step
      (start fun _ => 0 : QualitySync (Fin 1)) := .start ⟨_, rfl⟩
  have hstep : ∀ s act s', oneAct s act = some s' → Step s s' := by
    rintro s (_ | w) s' hs
    · exact Or.inl ⟨_, _, hs⟩
    · exact Or.inr ⟨_, _, hs⟩
  obtain ⟨htable, hheld⟩ := Prod.mk.inj hval
  exact ⟨st, htable, ((updates_excluded (hstart.foldlM hstep hst)).2.2.1 0 hheld).1⟩

end QualitySync

end RemotePlay.Jpeg
