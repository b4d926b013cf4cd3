import Mathlib.Data.Nat.ModEq
import Mathlib.Logic.Function.Basic
import Mathlib.Tactic.Linarith

/-! # A window of a stream in a ring

A ring of `n` slots holds the elements of a stream from number `lo` up to number `hi`, number `j` in
slot `j % n` (`Holds`).  While the window is shorter than the ring the slot of number `hi` is none
of the window's, so the next element can be written there. -/

namespace RemotePlay.Lib.Ring

variable {α : Type*} {n lo hi : ℕ} {S : ℕ → α} {slots : ℕ → α}

/-- Two numbers less than `n` apart are in the same slot only if they are one. -/
theorem eq_of_mod_eq {i j : ℕ} (h : i % n = j % n) (h1 : i < j + n) (h2 : j < i + n) : i = j := by
  rcases Nat.le_total i j with hij | hij
  · have hdvd := (Nat.modEq_iff_dvd' hij).mp h
    have := Nat.eq_zero_of_dvd_of_lt hdvd (by omega)
    omega
  · have hdvd := (Nat.modEq_iff_dvd' hij).mp h.symm
    have := Nat.eq_zero_of_dvd_of_lt hdvd (by omega)
    omega

variable (n lo hi S slots) in
/-- The ring holds the stream from number `lo` up to number `hi`. -/
def Holds : Prop := ∀ j, lo ≤ j → j < hi → slots (j % n) = S j

theorem holds_empty : Holds n lo lo S slots := fun _ h1 h2 => absurd h2 (not_lt.mpr h1)

theorem Holds.tail (h : Holds n lo hi S slots) {lo' : ℕ} (hlo : lo ≤ lo') :
    Holds n lo' hi S slots := fun j h1 h2 => h j (hlo.trans h1) h2

theorem Holds.congr (h : Holds n lo hi S slots) {slots' : ℕ → α}
    (hs : ∀ j, lo ≤ j → j < hi → slots' (j % n) = slots (j % n)) : Holds n lo hi S slots' :=
  fun j h1 h2 => (hs j h1 h2).trans (h j h1 h2)

theorem Holds.update (h : Holds n lo hi S slots) {k : ℕ} (hk : hi ≤ k) (hroom : k < lo + n)
    (x : α) : Holds n lo hi S (Function.update slots (k % n) x) := by
  refine h.congr fun j h1 h2 => Function.update_of_ne (fun he => ?_) _ _
  have := eq_of_mod_eq he (by omega) (by omega)
  omega

theorem Holds.update_before (h : Holds n lo hi S slots) {k : ℕ} (hk : k < lo) (hroom : hi ≤ k + n)
    (x : α) : Holds n lo hi S (Function.update slots (k % n) x) := by
  refine h.congr fun j h1 h2 => Function.update_of_ne (fun he => ?_) _ _
  have := eq_of_mod_eq he (by omega) (by omega)
  omega

/-- **The next element is written** while there is room. -/
theorem Holds.push (h : Holds n lo hi S slots) (hroom : hi < lo + n) {x : α} (hx : x = S hi) :
    Holds n lo (hi + 1) S (Function.update slots (hi % n) x) := by
  intro j h1 h2
  rcases Nat.lt_succ_iff_lt_or_eq.mp h2 with hlt | rfl
  · exact h.update le_rfl hroom x j h1 hlt
  · rw [Function.update_self, hx]

end RemotePlay.Lib.Ring
