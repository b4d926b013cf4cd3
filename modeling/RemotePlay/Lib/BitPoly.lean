import Mathlib.Algebra.CharP.Two
import Mathlib.Algebra.BigOperators.Group.Finset.Basic
import Mathlib.Algebra.BigOperators.Ring.Finset
import Mathlib.Dynamics.PeriodicPts.Defs
import Mathlib.Data.Fintype.Card
import Mathlib.Tactic.Ring

/-! # Bit vectors as polynomials, and orbits

The bits of a vector are the coefficients of a polynomial over the field of two elements, and `den
r` is its value at a point `r` of a ring of characteristic 2: exclusive or is addition, and shifting
by one is multiplication by `r`, up to the bit that is shifted out.

A table of the powers of `r` is an orbit of the shift.  Its length is found from a few iterates, and
an orbit as long as there are values left visits each of them. -/

namespace RemotePlay.Lib.BitPoly

section Den

variable {R : Type*} [CommRing R] {r : R} {w : ℕ}

/-- The value at `r` of the polynomial with the bits of `x` as coefficients. -/
def den (r : R) (x : BitVec w) : R := ∑ i ∈ Finset.range w, if x.getLsbD i then r ^ i else 0

theorem den_zero : den r (0#w) = 0 := by
  unfold den
  refine Finset.sum_eq_zero fun i _ => ?_
  simp

theorem den_one : den r (1#(w + 1)) = 1 := by
  unfold den
  rw [Finset.sum_range_succ', Finset.sum_eq_zero fun i _ => ?_]
  · simp
  · simp

/-- **Exclusive or is addition.** -/
theorem den_xor [CharP R 2] (x y : BitVec w) : den r (x ^^^ y) = den r x + den r y := by
  unfold den
  rw [← Finset.sum_add_distrib]
  refine Finset.sum_congr rfl fun i _ => ?_
  rw [BitVec.getLsbD_xor]
  cases x.getLsbD i <;> cases y.getLsbD i <;> simp [CharTwo.add_self_eq_zero]

/-- **Shifting is multiplying**: the bit that is shifted out stands for `r ^ w`. -/
theorem den_shiftLeft (x : BitVec (w + 1)) :
    r * den r x = den r (x <<< 1) + if x.getLsbD w then r ^ (w + 1) else 0 := by
  unfold den
  rw [Finset.mul_sum, Finset.sum_range_succ, Finset.sum_range_succ']
  have hlow : ∀ i ∈ Finset.range w, (r * if x.getLsbD i then r ^ i else 0) =
      if (x <<< 1).getLsbD (i + 1) then r ^ (i + 1) else 0 := by
    intro i hi
    have hi := Finset.mem_range.mp hi
    have hbit : (x <<< 1).getLsbD (i + 1) = x.getLsbD i := by
      have hlt : i + 1 < w + 1 := Nat.succ_lt_succ hi
      have hge : ¬ i + 1 < 1 := by omega
      rw [BitVec.getLsbD_shiftLeft, decide_eq_true hlt, decide_eq_false hge, Nat.add_sub_cancel]
      rfl
    rw [hbit, mul_ite, mul_zero, pow_succ' r i]
  have hzero : (x <<< 1).getLsbD 0 = false := by simp
  rw [Finset.sum_congr rfl hlow, hzero, mul_ite, mul_zero, pow_succ' r w]
  simp

end Den

/-! ### Orbits -/

section Orbit

open Function (minimalPeriod)

variable {α : Type*} {f : α → α} {x : α} {n : ℕ}

/-- An orbit returns after `n` steps, and not before when it does not after `n / p` for a prime
divisor `p`. -/
theorem minimalPeriod_eq (h : f^[n] x = x)
    (hp : ∀ p, p.Prime → p ∣ n → f^[n / p] x ≠ x) : minimalPeriod f x = n := by
  obtain ⟨k, hk⟩ := Function.IsPeriodicPt.minimalPeriod_dvd (f := f) h
  rcases eq_or_ne k 1 with rfl | hk1
  · rw [mul_one] at hk
    exact hk.symm
  · obtain ⟨p, hprime, m, rfl⟩ := Nat.exists_prime_and_dvd hk1
    -- the orbit is also back after `n / p` steps
    have hdiv : n / p = minimalPeriod f x * m := by
      rw [hk, show minimalPeriod f x * (p * m) = p * (minimalPeriod f x * m) by ring]
      exact Nat.mul_div_cancel_left _ hprime.pos
    refine absurd ?_ (hp p hprime ⟨minimalPeriod f x * m, by rw [hk]; ring⟩)
    rw [hdiv]
    exact (Function.isPeriodicPt_minimalPeriod f x).mul_const m

/-- **An orbit that misses one value and is as long as there are others visits each of them.** -/
theorem exists_iterate_eq [Fintype α] [DecidableEq α] {z y : α}
    (hcard : Fintype.card α = minimalPeriod f x + 1) (hz : ∀ i, f^[i] x ≠ z) (hy : y ≠ z) :
    ∃ i < minimalPeriod f x, f^[i] x = y := by
  have hinj : Set.InjOn (fun i => f^[i] x) (Finset.range (minimalPeriod f x)) := by
    rw [Finset.coe_range]
    exact Function.iterate_injOn_Iio_minimalPeriod
  have himage : (Finset.range (minimalPeriod f x)).image (fun i => f^[i] x) =
      Finset.univ.erase z := by
    refine Finset.eq_of_subset_of_card_le ?_ ?_
    · intro a ha
      obtain ⟨i, -, rfl⟩ := Finset.mem_image.mp ha
      exact Finset.mem_erase.mpr ⟨hz i, Finset.mem_univ _⟩
    · rw [Finset.card_image_of_injOn hinj, Finset.card_erase_of_mem (Finset.mem_univ z),
        Finset.card_univ, hcard, Finset.card_range]
      omega
  have hmem : y ∈ (Finset.range (minimalPeriod f x)).image fun i => f^[i] x := by
    rw [himage]
    exact Finset.mem_erase.mpr ⟨hy, Finset.mem_univ y⟩
  obtain ⟨i, hi, heq⟩ := Finset.mem_image.mp hmem
  exact ⟨i, Finset.mem_range.mp hi, heq⟩

end Orbit

end RemotePlay.Lib.BitPoly
