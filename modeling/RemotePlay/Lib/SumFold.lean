import Mathlib.Algebra.BigOperators.Group.Finset.Basic
import Mathlib.Algebra.BigOperators.Group.List.Basic

/-! # Loops that add up

A loop whose rounds each add something to the value a state stands for ends in a state that stands
for the sum.  A column loop with stride `m` runs over the indices of one remainder modulo `m`, and
the loops of all remainders together run over every index. -/

namespace RemotePlay.Lib.SumFold

variable {σ β V : Type*} [AddCommMonoid V]

/-- **A loop over a list.** -/
theorem foldl_add {Q : σ → V → Prop} {f : σ → β → σ} {g : β → V} {l : List β}
    (step : ∀ b ∈ l, ∀ s v, Q s v → Q (f s b) (v + g b)) {s : σ} {v : V} (h : Q s v) :
    Q (l.foldl f s) (v + (l.map g).sum) := by
  induction l generalizing s v with
  | nil =>
    rw [List.map_nil, List.sum_nil, add_zero]
    exact h
  | cons b l ih =>
    rw [List.foldl_cons, List.map_cons, List.sum_cons, ← add_assoc]
    exact ih (fun b' hb' => step b' (List.mem_cons_of_mem b hb'))
      (step b List.mem_cons_self s v h)

/-- **A loop over an index**, which the rule for a round may know. -/
theorem foldl_range_add {Q : σ → V → Prop} {f : σ → ℕ → σ} {g : ℕ → V} {n : ℕ}
    (step : ∀ i < n, ∀ s v, Q s v → Q (f s i) (v + g i)) {s : σ} {v : V} (h : Q s v) :
    Q ((List.range n).foldl f s) (v + ∑ i ∈ Finset.range n, g i) := by
  induction n with
  | zero =>
    rw [Finset.sum_range_zero, add_zero]
    exact h
  | succ n ih =>
    rw [List.range_succ, List.foldl_append, List.foldl_cons, List.foldl_nil,
      Finset.sum_range_succ, ← add_assoc]
    exact step n n.lt_succ_self _ _ (ih fun i hi => step i (hi.trans n.lt_succ_self))

/-- **An iteration**, with its index in the rule for a round. -/
theorem iterate_add {Q : ℕ → σ → V → Prop} {f : σ → σ} {g : ℕ → V}
    (step : ∀ t s v, Q t s v → Q (t + 1) (f s) (v + g t)) (n : ℕ) {s : σ} {v : V} (h : Q 0 s v) :
    Q n (f^[n] s) (v + ∑ t ∈ Finset.range n, g t) := by
  induction n with
  | zero =>
    rw [Finset.sum_range_zero, add_zero]
    exact h
  | succ n ih =>
    rw [Function.iterate_succ_apply', Finset.sum_range_succ, ← add_assoc]
    exact step n _ _ ih

theorem sum_stride {m lane : ℕ} (hlane : lane < m) (n : ℕ) (g : ℕ → V) :
    ((List.range' lane ((n - lane + (m - 1)) / m) m).map g).sum =
      ∑ j ∈ Finset.range n with j % m = lane, g j := by
  have hm : 0 < m := Nat.zero_lt_of_lt hlane
  have hcount : ∀ i, i < (n - lane + (m - 1)) / m ↔ i * m < n - lane := by
    intro i
    rw [← Nat.succ_le_iff, Nat.le_div_iff_mul_le hm, Nat.succ_mul]
    omega
  rw [← List.sum_toFinset g (List.nodup_range' m hm)]
  refine Finset.sum_congr (Finset.ext fun j => ?_) fun _ _ => rfl
  rw [List.mem_toFinset, List.mem_range', Finset.mem_filter, Finset.mem_range]
  constructor
  · rintro ⟨i, hi, rfl⟩
    have hi := (hcount i).mp hi
    rw [Nat.mul_comm] at hi
    refine ⟨by omega, ?_⟩
    rw [Nat.add_mul_mod_self_left, Nat.mod_eq_of_lt hlane]
  · rintro ⟨hj, hmod⟩
    have hdiv := Nat.div_add_mod j m
    refine ⟨j / m, (hcount _).mpr ?_, ?_⟩
    · rw [Nat.mul_comm]
      omega
    · omega

theorem sum_lanes {m : ℕ} (hm : 0 < m) (n : ℕ) (g : ℕ → ℕ → V) :
    ∑ lane ∈ Finset.range m, ∑ j ∈ Finset.range n with j % m = lane, g lane j =
      ∑ j ∈ Finset.range n, g (j % m) j := by
  rw [← Finset.sum_fiberwise_of_maps_to (s := Finset.range n) (t := Finset.range m)
    (g := fun j => j % m) (fun j _ => Finset.mem_range.mpr (Nat.mod_lt j hm))]
  refine Finset.sum_congr rfl fun lane _ => Finset.sum_congr rfl fun j hj => ?_
  rw [(Finset.mem_filter.mp hj).2]

end RemotePlay.Lib.SumFold
