import Mathlib.Data.Nat.Notation
import Mathlib.Data.Nat.Bitwise
import Mathlib.Tactic.Linarith
import Mathlib.Tactic.Ring

/-! # Division by multiplying with a reciprocal

`N / d` rounded down or up is a reciprocal of `d`, in units of `1 / N`.  Multiplying by it and
dividing by `N` divides by `d`, as long as the error of the reciprocal times the dividend stays
below one unit.  Rounding to the nearest is dividing after half the divisor has been added; it gets
smaller as the divisor grows. -/

namespace RemotePlay.Lib

/-- **A reciprocal rounded down** divides the dividend's successor. -/
theorem mul_recip_down {N d q f m : ℕ} (hd : 0 < d) (h : d * q + f = N) (hf : 0 < f)
    (hm : (m + 1) * f ≤ N) : (m + 1) * q / N = m / d := by
  have hle : d * (m / d) ≤ m := Nat.mul_div_le m d
  have hlt : m < d * (m / d + 1) := Nat.lt_mul_div_succ m hd
  generalize m / d = k at hle hlt ⊢
  have hq : k * f ≤ q := by
    refine Nat.le_of_mul_le_mul_left ?_ hd
    calc d * (k * f) = d * k * f := (Nat.mul_assoc ..).symm
      _ ≤ m * f := Nat.mul_le_mul_right f hle
      _ ≤ d * q := by rw [Nat.add_mul, one_mul] at hm; omega
  refine Nat.div_eq_of_lt_le ?_ ?_
  · calc k * N = d * k * q + k * f := by rw [← h]; ring
      _ ≤ m * q + q := Nat.add_le_add (Nat.mul_le_mul_right q hle) hq
      _ = (m + 1) * q := by ring
  · calc (m + 1) * q ≤ d * (k + 1) * q := Nat.mul_le_mul_right q hlt
      _ < d * (k + 1) * q + (k + 1) * f := Nat.lt_add_of_pos_right (Nat.mul_pos k.succ_pos hf)
      _ = (k + 1) * N := by rw [← h]; ring

/-- **A reciprocal rounded up** divides the dividend itself. -/
theorem mul_recip_up {N d q e m : ℕ} (hd : 0 < d) (h : d * q = N + e) (hm : m * e < N) :
    m * q / N = m / d := by
  have hle : d * (m / d) ≤ m := Nat.mul_div_le m d
  have hlt : m < d * (m / d + 1) := Nat.lt_mul_div_succ m hd
  generalize m / d = k at hle hlt ⊢
  refine Nat.div_eq_of_lt_le ?_ ?_
  · refine Nat.le_of_mul_le_mul_left ?_ hd
    calc d * (k * N) = d * k * N := (Nat.mul_assoc ..).symm
      _ ≤ m * N := Nat.mul_le_mul_right N hle
      _ ≤ m * (N + e) := Nat.mul_le_mul_left m (Nat.le_add_right N e)
      _ = d * (m * q) := by rw [← h]; ring
  · refine Nat.lt_of_mul_lt_mul_left (a := d) ?_
    calc d * (m * q) = m * N + m * e := by rw [Nat.mul_left_comm, h, Nat.mul_add]
      _ < m * N + N := Nat.add_lt_add_left hm _
      _ = (m + 1) * N := by ring
      _ ≤ d * (k + 1) * N := Nat.mul_le_mul_right N hlt
      _ = d * ((k + 1) * N) := Nat.mul_assoc ..

/-- Division rounded to the nearest. -/
def roundDiv (n d : ℕ) : ℕ := (n + d / 2) / d

theorem le_roundDiv {n d k : ℕ} (hd : 0 < d) : k ≤ roundDiv n d ↔ 2 * (k * d) ≤ 2 * n + d := by
  rw [roundDiv, Nat.le_div_iff_mul_le hd]
  generalize hp : k * d = p
  constructor
  · omega
  · intro h
    rcases Nat.even_or_odd d with ⟨e, he⟩ | ⟨e, he⟩ <;> omega

/-- **Rounded quotients grow with the dividend and fall as the divisor grows.** -/
theorem roundDiv_mono {n n' d d' : ℕ} (hn : n ≤ n') (hd' : 0 < d') (hd : d' ≤ d) :
    roundDiv n d ≤ roundDiv n' d' := by
  rw [le_roundDiv hd']
  have h : 2 * (roundDiv n d * d) ≤ 2 * n + d := (le_roundDiv (hd'.trans_le hd)).mp le_rfl
  rcases Nat.eq_zero_or_pos (roundDiv n d) with h0 | hpos
  · rw [h0, zero_mul, mul_zero]
    exact Nat.zero_le _
  -- the multiple of the divisor taken off both sides is a positive one
  have hmul : (roundDiv n d * 2 - 1) * d' ≤ (roundDiv n d * 2 - 1) * d :=
    Nat.mul_le_mul_left _ hd
  rw [Nat.sub_mul, Nat.sub_mul, one_mul, one_mul] at hmul
  have h1 : d' ≤ roundDiv n d * 2 * d' := Nat.le_mul_of_pos_left _ (by omega)
  have h2 : d ≤ roundDiv n d * 2 * d := Nat.le_mul_of_pos_left _ (by omega)
  have e1 : roundDiv n d * 2 * d' = 2 * (roundDiv n d * d') := by ring
  have e2 : roundDiv n d * 2 * d = 2 * (roundDiv n d * d) := by ring
  omega

end RemotePlay.Lib
