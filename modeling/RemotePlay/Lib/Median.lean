import Mathlib.Order.Lattice
import Mathlib.Order.Monotone.Basic
import Mathlib.Order.MinMax
import Mathlib.Data.Nat.Notation

/-! # The median of three

A monotone function commutes with the median of three values, so a predictor that takes medians may
be computed before or after the values are truncated. -/

namespace RemotePlay.Lib

variable {α β : Type*} [LinearOrder α] [LinearOrder β]

/-- The middle one of three values. -/
def median (a b c : α) : α := max (min a b) (min (max a b) c)

/-- **The median commutes with a monotone function.** -/
theorem map_median {f : α → β} (hf : Monotone f) (a b c : α) :
    f (median a b c) = median (f a) (f b) (f c) := by
  unfold median
  rw [hf.map_max, hf.map_min, hf.map_min, hf.map_max]

theorem median_eq_sub (a b c : ℕ) :
    a + b + c - max (max a b) c - min (min a b) c = median a b c := by
  unfold median
  omega

end RemotePlay.Lib
