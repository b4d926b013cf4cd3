import RemotePlay.Work.Rows
import Mathlib.Tactic.SplitIfs

/-! # Partitions of a frame

A partition divides the block rows of a frame among the encoder threads: every thread but the last
encodes `v_adjusted` of them, the last one what remains. -/

namespace RemotePlay.Work

/-- A division of `rows` block rows. -/
structure RowPartition (rows : ℕ) where
  core_count : CoreCount
  v_adjusted : ℕ
  v_last_adjusted : ℕ
  total : v_adjusted * (core_count.get - 1) + v_last_adjusted = rows

namespace RowPartition

variable {rows : ℕ} (p : RowPartition rows)

/-- `i_start` of a thread. -/
def iStart (t : ℕ) : ℕ := p.v_adjusted * t

/-- `i_count` of a thread. -/
def iCount (t : ℕ) : ℕ := if t = p.core_count.get - 1 then p.v_last_adjusted else p.v_adjusted

theorem iStart_zero : p.iStart 0 = 0 := rfl

theorem iStart_succ {t : ℕ} (h : t + 1 < p.core_count.get) :
    p.iStart (t + 1) = p.iStart t + p.iCount t := by
  rw [iStart, iStart, iCount, if_neg (by omega), Nat.mul_succ]

theorem iStart_last : p.iStart (p.core_count.get - 1) + p.iCount (p.core_count.get - 1) = rows := by
  rw [iStart, iCount, if_pos rfl, p.total]

theorem iStart_add_iCount_le {t : ℕ} (h : t < p.core_count.get) :
    p.iStart t + p.iCount t ≤ rows := by
  have htotal := p.total
  unfold iStart iCount
  split_ifs with h1
  · exact Nat.le_of_eq (h1 ▸ htotal)
  · have := Nat.mul_le_mul_left p.v_adjusted (by omega : t + 1 ≤ p.core_count.get - 1)
    rw [Nat.mul_succ] at this
    omega

end RowPartition

end RemotePlay.Work
