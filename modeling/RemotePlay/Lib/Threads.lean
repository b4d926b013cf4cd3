import Mathlib.Algebra.BigOperators.Fin
import Mathlib.Algebra.Order.BigOperators.Group.Finset
import Mathlib.Logic.Relation

/-! # Interleaved threads

A system of threads is a state and a relation of steps, one thread's at a time; what holds at the
start and is kept by every step holds in every state reached (`Reachable.invariant`).  Invariants
that count threads are about the sum of a weight over the threads, of which a step changes one term
(`total_update`). -/

namespace RemotePlay.Lib.Threads

/-! ### States reached -/

/-- The states reached from those of `start` by steps. -/
inductive Reachable {σ : Type*} (start : σ → Prop) (step : σ → σ → Prop) : σ → Prop
  | start {s : σ} (h : start s) : Reachable start step s
  | step {s s' : σ} (h : Reachable start step s) (hstep : step s s') : Reachable start step s'

theorem Reachable.invariant {σ : Type*} {start : σ → Prop} {step : σ → σ → Prop} {p : σ → Prop}
    (hstart : ∀ s, start s → p s) (hstep : ∀ s s', p s → step s s' → p s') {s : σ}
    (h : Reachable start step s) : p s := by
  induction h with
  | start h => exact hstart _ h
  | step _ h ih => exact hstep _ _ ih h

theorem Reachable.foldlM {σ α : Type*} {start : σ → Prop} {step : σ → σ → Prop}
    {f : σ → α → Option σ} (hf : ∀ s a s', f s a = some s' → step s s') {as : List α} {s st : σ}
    (h : Reachable start step s) (hrun : as.foldlM f s = some st) : Reachable start step st := by
  induction as generalizing s with
  | nil => exact Option.some.inj hrun ▸ h
  | cons a as ih =>
    rw [List.foldlM_cons, Option.bind_eq_bind, Option.bind_eq_some_iff] at hrun
    obtain ⟨s', hs', hrun⟩ := hrun
    exact ih (h.step (hf _ _ _ hs')) hrun

/-- A property holds before and after each step of a run. -/
def Always {σ α : Type*} (f : σ → α → Option σ) (p : σ → Prop) : List α → σ → Prop
  | [], s => p s
  | a :: as, s => p s ∧ ∀ s', f s a = some s' → Always f p as s'

/-- Each step of a run meets a condition. -/
def EachStep {σ α : Type*} (f : σ → α → Option σ) (c : σ → α → Prop) : List α → σ → Prop
  | [], _ => True
  | a :: as, s => ∀ s', f s a = some s' → c s a ∧ EachStep f c as s'

/-- **A property that exactly the steps meeting a condition keep** holds always in a run exactly if
each step meets the condition. -/
theorem always_iff_eachStep {σ α : Type*} {f : σ → α → Option σ} {inv p : σ → Prop}
    {c : σ → α → Prop} (hinv : ∀ s a s', inv s → f s a = some s' → inv s')
    (hp : ∀ s a s', inv s → p s → f s a = some s' → (p s' ↔ c s a)) (as : List α) {s : σ}
    (hi : inv s) (h : p s) : Always f p as s ↔ EachStep f c as s := by
  induction as generalizing s with
  | nil => exact ⟨fun _ => trivial, fun _ => h⟩
  | cons a as ih =>
    unfold Always EachStep
    rw [and_iff_right h]
    refine forall₂_congr fun s' hs' => ?_
    have hi' := hinv s a s' hi hs'
    have hiff := hp s a s' hi h hs'
    refine ⟨fun halways => ?_, fun hc => (ih hi' (hiff.mpr hc.1)).mpr hc.2⟩
    have hp' : p s' := by
      rcases as with _ | ⟨a, as⟩
      · exact halways
      · exact halways.1
    exact ⟨hiff.mp hp', (ih hi' hp').mp halways⟩

theorem Reachable.extend {σ : Type*} {start : σ → Prop} {step step' : σ → σ → Prop}
    (hstep : ∀ s s', step' s s' → step s s') {s s' : σ} (h : Reachable start step s)
    (hrun : Relation.ReflTransGen step' s s') : Reachable start step s' := by
  induction hrun with
  | refl => exact h
  | tail _ h' ih => exact ih.step (hstep _ _ h')

theorem Reachable.mono {σ : Type*} {start : σ → Prop} {step step' : σ → σ → Prop}
    (hstep : ∀ s s', step s s' → step' s s') {s : σ} (h : Reachable start step s) :
    Reachable start step' s := by
  induction h with
  | start h => exact .start h
  | step _ h ih => exact ih.step (hstep _ _ h)

/-- **What comes nearer with every step is reached.** -/
theorem exists_reached {σ : Type*} {step : σ → σ → Prop} {p goal : σ → Prop} (μ : σ → ℕ)
    (h : ∀ s, p s → ∃ s', step s s' ∧ (goal s' ∨ p s' ∧ μ s' < μ s)) {s : σ} (hs : p s) :
    ∃ s', Relation.ReflTransGen step s s' ∧ goal s' := by
  induction hn : μ s using Nat.strong_induction_on generalizing s with
  | _ n ih =>
    obtain ⟨s₁, h1, hgoal | ⟨hp, hlt⟩⟩ := h s hs
    · exact ⟨s₁, .single h1, hgoal⟩
    · obtain ⟨s₂, h2, hgoal⟩ := ih _ (hn ▸ hlt) hp rfl
      exact ⟨s₂, .head h1 h2, hgoal⟩

/-- A measure of two parts, of which the second stays below `k`, goes down with the first. -/
theorem mul_add_lt_mul_add {m m' n n' k : ℕ} (hm : m' < m) (hn : n' < k) :
    m' * k + n' < m * k + n :=
  calc
    m' * k + n' < m' * k + k := Nat.add_lt_add_left hn _
    _ = (m' + 1) * k := (Nat.succ_mul _ _).symm
    _ ≤ m * k := Nat.mul_le_mul_right k hm
    _ ≤ m * k + n := Nat.le_add_right _ _

/-! ### Totals over the threads -/

section

variable {ι α : Type*} [Fintype ι] [DecidableEq ι]

/-- The sum of the weights of the threads' states. -/
def total (w : α → ℕ) (f : ι → α) : ℕ := ∑ i, w (f i)

/-- **One thread's step changes one term.** -/
theorem total_update (w : α → ℕ) (f : ι → α) (i : ι) (x : α) :
    total w (Function.update f i x) + w (f i) = total w f + w x := by
  have hsum : ∀ g : ι → ℕ, ∑ j, g j = g i + ∑ j ∈ Finset.univ.erase i, g j := fun g =>
    (Finset.add_sum_erase _ _ (Finset.mem_univ i)).symm
  have hrest : ∑ j ∈ Finset.univ.erase i, w (Function.update f i x j) =
      ∑ j ∈ Finset.univ.erase i, w (f j) :=
    Finset.sum_congr rfl fun j hj => by rw [Function.update_of_ne (Finset.ne_of_mem_erase hj)]
  rw [total, total, hsum, hsum fun j => w (f j), Function.update_self, hrest]
  omega

omit [DecidableEq ι] in
theorem le_total (w : α → ℕ) (f : ι → α) (i : ι) : w (f i) ≤ total w f :=
  Finset.single_le_sum (fun j _ => Nat.zero_le (w (f j))) (Finset.mem_univ i)

omit [DecidableEq ι] in
theorem total_eq_zero {w : α → ℕ} {f : ι → α} : total w f = 0 ↔ ∀ i, w (f i) = 0 := by
  rw [total, Finset.sum_eq_zero_iff]
  exact ⟨fun h i => h i (Finset.mem_univ i), fun h i _ => h i⟩

omit [DecidableEq ι] in
theorem total_eq_single {w : α → ℕ} {f : ι → α} (i : ι) (h : ∀ j, j ≠ i → w (f j) = 0) :
    total w f = w (f i) :=
  Finset.sum_eq_single i (fun j _ hj => h j hj) fun hi => (hi (Finset.mem_univ i)).elim

omit [DecidableEq ι] in
/-- **All threads are counted exactly if each is.** -/
theorem total_eq_card {p : α → Prop} [DecidablePred p] {f : ι → α} :
    total (fun x => if p x then 1 else 0) f = Fintype.card ι ↔ ∀ i, p (f i) := by
  unfold total
  rw [← Finset.card_filter, Finset.card_eq_iff_eq_univ, Finset.filter_eq_self]
  exact ⟨fun h i => h i (Finset.mem_univ i), fun h i _ => h i⟩

theorem add_le_total (w : α → ℕ) (f : ι → α) {i j : ι} (h : i ≠ j) :
    w (f i) + w (f j) ≤ total w f := by
  rw [total, ← Finset.add_sum_erase _ _ (Finset.mem_univ i)]
  refine Nat.add_le_add_left ?_ _
  exact Finset.single_le_sum (f := fun k => w (f k)) (fun k _ => Nat.zero_le _)
    (Finset.mem_erase.mpr ⟨h.symm, Finset.mem_univ j⟩)

end

end RemotePlay.Lib.Threads
