import Mathlib.Data.Nat.Notation
import Mathlib.Data.List.Basic

/-! # Code trees

A binary tree of symbols.  The length of a symbol's code is the depth of its leaf; joining two trees
makes every code one longer. -/

namespace RemotePlay.Lib

/-- A binary tree with items at its leaves. -/
inductive CodeTree (α : Type)
  | leaf (a : α)
  | node (l r : CodeTree α)

namespace CodeTree

variable {α : Type}

/-- The items, from left to right. -/
def leaves : CodeTree α → List α
  | leaf a => [a]
  | node l r => l.leaves ++ r.leaves

/-- The leaves with their depths, the root having depth `d`. -/
def depths (d : ℕ) : CodeTree α → List (α × ℕ)
  | leaf a => [(a, d)]
  | node l r => l.depths (d + 1) ++ r.depths (d + 1)

theorem leaves_ne_nil (t : CodeTree α) : t.leaves ≠ [] := by
  cases t with
  | leaf a => exact List.cons_ne_nil a []
  | node l r =>
    rw [leaves, ne_eq, List.append_eq_nil_iff, not_and]
    exact fun h => absurd h l.leaves_ne_nil

theorem map_fst_depths (d : ℕ) (t : CodeTree α) : (t.depths d).map Prod.fst = t.leaves := by
  induction t generalizing d with
  | leaf a => rfl
  | node l r ihl ihr => rw [depths, List.map_append, ihl, ihr, leaves]

theorem depths_succ (d : ℕ) (t : CodeTree α) :
    t.depths (d + 1) = (t.depths d).map fun p => (p.1, p.2 + 1) := by
  induction t generalizing d with
  | leaf a => rfl
  | node l r ihl ihr => rw [depths, depths, List.map_append, ihl, ihr]

theorem le_of_mem_depths {d : ℕ} {p : α × ℕ} (t : CodeTree α) (h : p ∈ t.depths d) : d ≤ p.2 := by
  induction t generalizing d with
  | leaf a =>
    obtain rfl := List.mem_singleton.mp h
    exact Nat.le_refl d
  | node l r ihl ihr =>
    rcases List.mem_append.mp h with h | h
    · exact Nat.le_of_succ_le (ihl h)
    · exact Nat.le_of_succ_le (ihr h)

end CodeTree

end RemotePlay.Lib
