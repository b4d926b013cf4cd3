import RemotePlay.Jpeg.Huffman
import RemotePlay.Lib.CodeTree
import Mathlib.Data.List.Perm.Subperm
import Mathlib.Data.List.Nodup
import Mathlib.Data.List.Pairwise
import Mathlib.Algebra.Order.BigOperators.Group.List

/-! # The merging loop builds a tree

`gen_optimal_table` keeps no tree: it chains the symbols of a branch in `others` and counts their
code lengths up.  `Builds` says what the arrays mean, a forest whose trees are chained leaf after
leaf, each under its first leaf.  One turn joins the two lightest trees (`mergeLoop_eq`), so the
code lengths are the depths in the tree built (`codesize_eq`). -/

namespace RemotePlay.Jpeg

open RemotePlay.Lib

/-! ### Forests -/

/-- A tree of the forest: the symbol it is kept under and its frequency. -/
structure Root where
  slot : ℕ
  weight : ℕ
  tree : CodeTree ℕ

/-- What the search starts from. -/
def LIMIT : ℕ := 1000000000

/-- The frequency of a tree found, or the limit. -/
def weightOf : Option Root → ℕ
  | none => LIMIT
  | some r => r.weight

/-- The two lightest trees, the later ones of those of one weight. -/
def lightest : List Root → Option Root → Option Root → Option Root × Option Root
  | [], a, b => (a, b)
  | r :: rs, a, b =>
    bif r.weight.ble (weightOf b) then
      bif r.weight.ble (weightOf a) then lightest rs (some r) a else lightest rs a (some r)
    else lightest rs a b

theorem lightest_cons (r : Root) (rs : List Root) (a b : Option Root) : lightest (r :: rs) a b =
    if r.weight ≤ weightOf b then
      if r.weight ≤ weightOf a then lightest rs (some r) a else lightest rs a (some r)
    else lightest rs a b := by
  simp only [lightest, Bool.cond_eq_ite, Nat.ble_eq]

/-- Two trees in one. -/
def Root.join (a b : Root) : Root := ⟨a.slot, a.weight + b.weight, .node a.tree b.tree⟩

theorem leaves_join (a b : Root) : (a.join b).tree.leaves = a.tree.leaves ++ b.tree.leaves := rfl

theorem depths_join (a b : Root) : (a.join b).tree.depths 0 =
    (a.tree.depths 0 ++ b.tree.depths 0).map fun p => (p.1, p.2 + 1) := by
  rw [List.map_append, ← CodeTree.depths_succ, ← CodeTree.depths_succ]
  rfl

/-- Two trees of a forest joined, in the place of the first. -/
def joinRoots (a b : Root) : List Root → List Root
  | [] => []
  | r :: rs =>
    bif r.slot.beq b.slot then joinRoots a b rs
    else bif r.slot.beq a.slot then a.join b :: joinRoots a b rs
    else r :: joinRoots a b rs

/-- The two lightest trees are joined until one is left. -/
def buildTree : ℕ → List Root → Option (List Root)
  | 0, _ => none
  | fuel + 1, rs =>
    match lightest rs none none with
    | (some a, some b) => buildTree fuel (joinRoots a b rs)
    | _ => some rs

/-! ### What the arrays mean -/

/-- The frequencies from index `i` on: those of the trees in the places they are kept under, and
anything above the limit elsewhere. -/
inductive Weighs : ℕ → List ℕ → List Root → Prop
  | nil (i : ℕ) : Weighs i [] []
  | dead {i f : ℕ} {fs : List ℕ} {rs : List Root} (h : LIMIT < f) :
      Weighs (i + 1) fs rs → Weighs i (f :: fs) rs
  | live {i : ℕ} {fs : List ℕ} {r : Root} {rs : List Root} (hs : r.slot = i)
      (hw : r.weight ≤ LIMIT) : Weighs (i + 1) fs rs → Weighs i (r.weight :: fs) (r :: rs)

theorem Weighs.slot_ge {i : ℕ} {fs : List ℕ} {rs : List Root} (h : Weighs i fs rs) :
    ∀ r ∈ rs, i ≤ r.slot := by
  induction h with
  | nil i => exact fun r hr => absurd hr List.not_mem_nil
  | dead _ _ ih => exact fun r hr => Nat.le_of_succ_le (ih r hr)
  | live hs _ _ ih =>
    intro r hr
    rcases List.mem_cons.mp hr with rfl | hr
    · exact hs.ge
    · exact Nat.le_of_succ_le (ih r hr)

theorem Weighs.weight_le {i : ℕ} {fs : List ℕ} {rs : List Root} (h : Weighs i fs rs) :
    ∀ r ∈ rs, r.weight ≤ LIMIT := by
  induction h with
  | nil i => exact fun r hr => absurd hr List.not_mem_nil
  | dead _ _ ih => exact ih
  | live _ hw _ ih =>
    intro r hr
    rcases List.mem_cons.mp hr with rfl | hr
    · exact hw
    · exact ih r hr

/-- What the search has found so far. -/
def smallestOf (a b : Option Root) : Smallest :=
  ⟨a.map Root.slot, b.map Root.slot, weightOf a, weightOf b⟩

/-- **The search finds the two lightest trees.** -/
theorem findSmallest_eq {i : ℕ} {fs : List ℕ} {rs : List Root} (h : Weighs i fs rs)
    {a b : Option Root} (ha : weightOf a ≤ LIMIT) (hb : weightOf b ≤ LIMIT) :
    findSmallest fs i (smallestOf a b) =
      smallestOf (lightest rs a b).1 (lightest rs a b).2 := by
  induction h generalizing a b with
  | nil i => rfl
  | @dead i f fs rs hf _ ih =>
    have hskip : ¬f ≤ (smallestOf a b).v2 := not_le.mpr (hb.trans_lt hf)
    rw [findSmallest, if_neg hskip]
    exact ih ha hb
  | @live i fs r rs hs hw _ ih =>
    subst hs
    rw [findSmallest, lightest_cons]
    by_cases h2 : r.weight ≤ weightOf b
    · rw [if_pos (show r.weight ≤ (smallestOf a b).v2 from h2), if_pos h2]
      by_cases h1 : r.weight ≤ weightOf a
      · rw [if_pos (show r.weight ≤ (smallestOf a b).v from h1), if_pos h1]
        exact ih (a := some r) hw ha
      · rw [if_neg (show ¬r.weight ≤ (smallestOf a b).v from h1), if_neg h1]
        exact ih (b := some r) ha hw
    · rw [if_neg (show ¬r.weight ≤ (smallestOf a b).v2 from h2), if_neg h2]
      exact ih ha hb

theorem lightest_subperm (rs : List Root) (a b : Option Root) :
    List.Subperm ((lightest rs a b).1.toList ++ (lightest rs a b).2.toList)
      (a.toList ++ b.toList ++ rs) := by
  induction rs generalizing a b with
  | nil =>
    simp only [lightest, List.append_nil, List.Subperm.refl]
  | cons r rs ih =>
    have hmid : List.Subperm (r :: (a.toList ++ b.toList ++ rs))
        (a.toList ++ b.toList ++ r :: rs) :=
      List.perm_middle.symm.subperm
    rw [lightest_cons]
    split_ifs
    · refine (ih (some r) a).trans (List.Subperm.trans ?_ hmid)
      exact (((List.sublist_append_left _ _).append_right rs).cons_cons r).subperm
    · refine (ih a (some r)).trans (List.Subperm.trans ?_ hmid)
      refine (List.perm_middle.append_right rs).subperm.trans ?_
      simp only [List.append_nil]
      exact (((List.sublist_append_left _ _).append_right rs).cons_cons r).subperm
    · refine (ih a b).trans (List.Subperm.trans ?_ hmid)
      exact (List.sublist_cons_self r _).subperm

theorem Weighs.slots_nodup {i : ℕ} {fs : List ℕ} {rs : List Root} (h : Weighs i fs rs) :
    (rs.map Root.slot).Nodup := by
  induction h with
  | nil i => exact List.nodup_nil
  | dead _ _ ih => exact ih
  | @live i fs r rs hs _ htail ih =>
    refine List.nodup_cons.mpr ⟨fun hmem => ?_, ih⟩
    obtain ⟨x, hx, heq⟩ := List.mem_map.mp hmem
    have := htail.slot_ge x hx
    omega

/-! ### One turn on the frequencies -/

theorem Weighs.replace {i : ℕ} {fs : List ℕ} {rs : List Root} (h : Weighs i fs rs) {a a' : Root}
    (ha : a ∈ rs) (hs : a'.slot = a.slot) (hw : a'.weight ≤ LIMIT) :
    Weighs i (fs.set (a.slot - i) a'.weight)
      (rs.map fun r => if r.slot = a.slot then a' else r) := by
  induction h with
  | nil i => cases ha
  | @dead i f fs rs hf htail ih =>
    have hge := htail.slot_ge a ha
    obtain ⟨k, hk⟩ := Nat.exists_eq_add_of_le hge
    have hset : a.slot - i = (a.slot - (i + 1)) + 1 := by omega
    rw [hset, List.set_cons_succ]
    exact .dead hf (ih ha)
  | @live i fs r rs hr hrw htail ih =>
    rw [List.map_cons]
    by_cases hra : r.slot = a.slot
    · -- no other tree is kept there
      have hrest : (rs.map fun r => if r.slot = a.slot then a' else r) = rs := by
        refine (List.map_congr_left fun x hx => ?_).trans (List.map_id rs)
        have := htail.slot_ge x hx
        rw [if_neg (by omega), id]
      rw [if_pos hra, hrest, show a.slot - i = 0 by omega, List.set_cons_zero]
      exact .live (by omega) hw htail
    · have hmem : a ∈ rs := (List.mem_cons.mp ha).resolve_left fun heq => hra (by rw [heq])
      have hge := htail.slot_ge a hmem
      have hset : a.slot - i = (a.slot - (i + 1)) + 1 := by omega
      rw [if_neg hra, hset, List.set_cons_succ]
      exact .live hr hrw (ih hmem)

theorem Weighs.remove {i : ℕ} {fs : List ℕ} {rs : List Root} (h : Weighs i fs rs) {b : Root}
    (hb : b ∈ rs) : Weighs i (fs.set (b.slot - i) (LIMIT + 1))
      (rs.filter fun r => r.slot != b.slot) := by
  induction h with
  | nil i => cases hb
  | @dead i f fs rs hf htail ih =>
    have hge := htail.slot_ge b hb
    have hset : b.slot - i = (b.slot - (i + 1)) + 1 := by omega
    rw [hset, List.set_cons_succ]
    exact .dead hf (ih hb)
  | @live i fs r rs hr hrw htail ih =>
    by_cases hrb : r.slot = b.slot
    · have hrest : (rs.filter fun r => r.slot != b.slot) = rs := by
        refine List.filter_eq_self.mpr fun x hx => ?_
        have := htail.slot_ge x hx
        simp only [bne_iff_ne]
        omega
      rw [List.filter_cons_of_neg (by simp [hrb]), hrest, show b.slot - i = 0 by omega,
        List.set_cons_zero]
      exact .dead (Nat.lt_succ_self _) htail
    · have hmem : b ∈ rs := (List.mem_cons.mp hb).resolve_left fun heq => hrb (by rw [heq])
      have hge := htail.slot_ge b hmem
      have hset : b.slot - i = (b.slot - (i + 1)) + 1 := by omega
      rw [List.filter_cons_of_pos (by simp [hrb]), hset, List.set_cons_succ]
      exact .live hr hrw (ih hmem)

theorem Weighs.getD {i : ℕ} {fs : List ℕ} {rs : List Root} (h : Weighs i fs rs) {a : Root}
    (ha : a ∈ rs) : fs.getD (a.slot - i) 0 = a.weight := by
  induction h with
  | nil i => cases ha
  | @dead i f fs rs hf htail ih =>
    have hge := htail.slot_ge a ha
    rw [show a.slot - i = (a.slot - (i + 1)) + 1 by omega, List.getD_cons_succ]
    exact ih ha
  | @live i fs r rs hr hrw htail ih =>
    rcases List.mem_cons.mp ha with rfl | ha
    · rw [show a.slot - i = 0 by omega, List.getD_cons_zero]
    · have hge := htail.slot_ge a ha
      rw [show a.slot - i = (a.slot - (i + 1)) + 1 by omega, List.getD_cons_succ]
      exact ih ha

theorem joinRoots_eq {a b : Root} (hab : a.slot ≠ b.slot) (rs : List Root) :
    joinRoots a b rs = (rs.map fun r => if r.slot = a.slot then a.join b else r).filter
      fun r => r.slot != b.slot := by
  induction rs with
  | nil => rfl
  | cons r rs ih =>
    simp only [joinRoots, Bool.cond_eq_ite, Nat.beq_eq, List.map_cons, List.filter_cons, ih]
    have hjoin : (a.join b).slot = a.slot := rfl
    by_cases hb : r.slot = b.slot
    · simp [hb, hab.symm]
    · by_cases ha : r.slot = a.slot
      · simp [ha, hab, hjoin]
      · simp [hb, ha]

/-! ### Branches -/

/-- The symbols of a branch, each linked to the next and the last to none. -/
def Chained (others : List (Option ℕ)) : List ℕ → Prop
  | [] => False
  | [c] => others.getD c none = none
  | c :: c' :: cs => others.getD c none = some c' ∧ Chained others (c' :: cs)

/-- All the codes of a branch one longer. -/
def bumpAll (codesize : List ℕ) (cs : List ℕ) : List ℕ :=
  cs.foldl (fun codesize c => codesize.set c (codesize.getD c 0 + 1)) codesize

/-- **Following the links lengthens the codes of the branch** and ends at its last symbol. -/
theorem bumpBranch_eq {others : List (Option ℕ)} {c : ℕ} {cs : List ℕ}
    (h : Chained others (c :: cs)) {fuel : ℕ} (hf : cs.length < fuel) (codesize : List ℕ) :
    bumpBranch fuel others codesize c =
      some (bumpAll codesize (c :: cs), (c :: cs).getLast (List.cons_ne_nil c cs)) := by
  induction cs generalizing c fuel codesize with
  | nil =>
    obtain ⟨n, rfl⟩ := Nat.exists_eq_add_one.mpr (Nat.zero_lt_of_lt hf)
    have hnone : others.getD c none = none := h
    simp only [bumpBranch, hnone]
    rfl
  | cons c' cs ih =>
    obtain ⟨n, rfl⟩ := Nat.exists_eq_add_one.mpr (Nat.zero_lt_of_lt hf)
    obtain ⟨hlink, hrest⟩ := h
    simp only [bumpBranch, hlink]
    rw [ih hrest (by rw [List.length_cons] at hf; omega)]
    rfl

theorem length_bumpAll (codesize cs : List ℕ) : (bumpAll codesize cs).length = codesize.length := by
  induction cs generalizing codesize with
  | nil => rfl
  | cons c cs ih => rw [bumpAll, List.foldl_cons, ← bumpAll, ih, List.length_set]

theorem bumpAll_getD {cs : List ℕ} (hnd : cs.Nodup) {codesize : List ℕ}
    (hlt : ∀ c ∈ cs, c < codesize.length) (j : ℕ) :
    (bumpAll codesize cs).getD j 0 = codesize.getD j 0 + if j ∈ cs then 1 else 0 := by
  induction cs generalizing codesize with
  | nil => simp [bumpAll]
  | cons c cs ih =>
    obtain ⟨hc, hnd⟩ := List.nodup_cons.mp hnd
    have hcl := hlt c List.mem_cons_self
    rw [bumpAll, List.foldl_cons, ← bumpAll, ih hnd]
    · by_cases hj : j = c
      · subst hj
        simp [hc, hcl, List.getD_eq_getElem?_getD]
      · simp [hj, List.getD_eq_getElem?_getD, List.getElem?_set_ne (Ne.symm hj)]
    · intro x hx
      rw [List.length_set]
      exact hlt x (List.mem_cons_of_mem _ hx)

theorem Chained.congr {others others' : List (Option ℕ)} {cs : List ℕ} (h : Chained others cs)
    (heq : ∀ c ∈ cs, others'.getD c none = others.getD c none) : Chained others' cs := by
  induction cs with
  | nil => exact h
  | cons c cs ih =>
    cases cs with
    | nil => exact (heq c List.mem_cons_self).trans h
    | cons c' cs =>
      exact ⟨(heq c List.mem_cons_self).trans h.1,
        ih h.2 fun x hx => heq x (List.mem_cons_of_mem _ hx)⟩

theorem Chained.join {others others' : List (Option ℕ)} {cs ds : List ℕ} {d : ℕ}
    (hc : Chained others cs) (hd : Chained others' (d :: ds)) (hne : cs ≠ [])
    (hlast : others'.getD (cs.getLast hne) none = some d)
    (heq : ∀ c ∈ cs, c ≠ cs.getLast hne → others'.getD c none = others.getD c none)
    (hnd : cs.Nodup) : Chained others' (cs ++ d :: ds) := by
  induction cs with
  | nil => exact absurd rfl hne
  | cons c cs ih =>
    cases cs with
    | nil => exact ⟨hlast, hd⟩
    | cons c' cs =>
      have hnd' := (List.nodup_cons.mp hnd).2
      have hcl : c ≠ (c :: c' :: cs).getLast hne := by
        rw [List.getLast_cons_cons]
        exact fun h => (List.nodup_cons.mp hnd).1 (h ▸ List.getLast_mem _)
      refine ⟨(heq c List.mem_cons_self hcl).trans hc.1, ih hc.2 (List.cons_ne_nil _ _) ?_ ?_ hnd'⟩
      · rwa [List.getLast_cons_cons] at hlast
      · intro x hx hxl
        exact heq x (List.mem_cons_of_mem _ hx) (by rwa [List.getLast_cons_cons])

/-! ### One turn -/

/-- The leaves of a forest. -/
def forestLeaves (rs : List Root) : List ℕ := rs.flatMap fun r => r.tree.leaves

/-- **The arrays of the merging loop describe a forest** over the first `n` symbols. -/
structure Builds (n : ℕ) (rs : List Root) (s : MergeState) : Prop where
  weighs : Weighs 0 s.freq rs
  total : (rs.map Root.weight).sum ≤ LIMIT
  perm : (forestLeaves rs).Perm (List.range n)
  codes : s.codesize.length = n
  links : s.others.length = n
  first : ∀ r ∈ rs, r.tree.leaves.head? = some r.slot
  chained : ∀ r ∈ rs, Chained s.others r.tree.leaves
  depth : ∀ r ∈ rs, ∀ p ∈ r.tree.depths 0, s.codesize.getD p.1 0 = p.2

namespace Builds

variable {n : ℕ} {rs : List Root} {s : MergeState}

theorem leaf_lt (h : Builds n rs s) {r : Root} (hr : r ∈ rs) : ∀ c ∈ r.tree.leaves, c < n :=
  fun _ hc => List.mem_range.mp (h.perm.subset (List.mem_flatMap.mpr ⟨r, hr, hc⟩))

theorem nodup (h : Builds n rs s) : (forestLeaves rs).Nodup :=
  h.perm.nodup_iff.mpr List.nodup_range

theorem leaves_nodup (h : Builds n rs s) {r : Root} (hr : r ∈ rs) : r.tree.leaves.Nodup :=
  (List.nodup_flatMap.mp h.nodup).1 r hr

theorem slot_mem (h : Builds n rs s) {r : Root} (hr : r ∈ rs) : r.slot ∈ r.tree.leaves :=
  List.mem_of_mem_head? (h.first r hr)

theorem pairwise (h : Builds n rs s) :
    rs.Pairwise fun a b => ∀ c ∈ a.tree.leaves, c ∉ b.tree.leaves :=
  (List.nodup_flatMap.mp h.nodup).2.imp fun hd _ ha hb => hd ha hb

theorem disjoint (h : Builds n rs s) {a b : Root} (ha : a ∈ rs) (hb : b ∈ rs)
    (hab : a.slot ≠ b.slot) {c : ℕ} (hc : c ∈ a.tree.leaves) : c ∉ b.tree.leaves := by
  have hsymm : Std.Symm fun a b : Root => ∀ c ∈ a.tree.leaves, c ∉ b.tree.leaves :=
    ⟨fun a b hd c hb ha => hd c ha hb⟩
  exact h.pairwise.forall ha hb (fun heq => hab (by rw [heq])) c hc

/-- **The two lightest are different trees.** -/
theorem lightest_ne (h : Builds n rs s) {a b : Root}
    (hab : lightest rs none none = (some a, some b)) : a ∈ rs ∧ b ∈ rs ∧ a.slot ≠ b.slot := by
  have hsub := lightest_subperm rs none none
  rw [hab] at hsub
  simp only [Option.toList_some, Option.toList_none, List.nil_append, List.singleton_append]
    at hsub
  have ha := hsub.subset List.mem_cons_self
  have hb := hsub.subset (List.mem_cons_of_mem _ List.mem_cons_self)
  refine ⟨ha, hb, fun heq => ?_⟩
  obtain ⟨l, hperm, hl⟩ := hsub
  have hpair := (h.pairwise.sublist hl).perm hperm fun hd c hb ha => hd c ha hb
  rw [List.pairwise_pair] at hpair
  exact hpair _ (h.slot_mem ha) (heq ▸ h.slot_mem hb)

theorem slot_inj (h : Builds n rs s) {a r : Root} (ha : a ∈ rs) (hr : r ∈ rs)
    (heq : r.slot = a.slot) : r = a :=
  List.inj_on_of_nodup_map h.weighs.slots_nodup hr ha heq

end Builds

/-- The other trees. -/
def others (a b : Root) (rs : List Root) : List Root :=
  rs.filter fun r => r.slot != a.slot && r.slot != b.slot

section Join

variable {n : ℕ} {rs : List Root} {s : MergeState} {a b : Root}

theorem mem_joinRoots (ha : a ∈ rs) (hab : a.slot ≠ b.slot) {r : Root} :
    r ∈ joinRoots a b rs ↔
      r = a.join b ∨ r ∈ others a b rs := by
  simp only [joinRoots_eq hab, others, List.mem_filter, List.mem_map, bne_iff_ne, Bool.and_eq_true]
  constructor
  · rintro ⟨⟨x, hx, rfl⟩, hne⟩
    split_ifs at hne ⊢ with hxa
    · exact Or.inl rfl
    · exact Or.inr ⟨hx, hxa, hne⟩
  · rintro (rfl | ⟨hr, hra, hrb⟩)
    · exact ⟨⟨a, ha, if_pos rfl⟩, hab⟩
    · exact ⟨⟨r, hr, if_neg hra⟩, hrb⟩

theorem nodup_of_slots {rs : List Root} (h : (rs.map Root.slot).Nodup) : rs.Nodup :=
  List.Nodup.of_map Root.slot h

theorem perm_others (h : Builds n rs s) (ha : a ∈ rs) (hb : b ∈ rs) (hab : a.slot ≠ b.slot) :
    rs.Perm (a :: b :: others a b rs) := by
  have hnd := nodup_of_slots h.weighs.slots_nodup
  refine (List.perm_ext_iff_of_nodup hnd ?_).mpr fun r => ?_
  · simp only [List.nodup_cons, List.mem_cons, others, List.mem_filter, bne_iff_ne,
      Bool.and_eq_true]
    refine ⟨?_, ?_, hnd.filter _⟩
    · rintro (rfl | ⟨-, hne, -⟩)
      · exact hab rfl
      · exact hne rfl
    · rintro ⟨-, -, hne⟩
      exact hne rfl
  · simp only [List.mem_cons, others, List.mem_filter, bne_iff_ne, Bool.and_eq_true]
    constructor
    · intro hr
      by_cases hra : r.slot = a.slot
      · exact Or.inl (h.slot_inj ha hr hra)
      by_cases hrb : r.slot = b.slot
      · exact Or.inr (Or.inl (h.slot_inj hb hr hrb))
      exact Or.inr (Or.inr ⟨hr, hra, hrb⟩)
    · rintro (rfl | rfl | ⟨hr, -⟩) <;> assumption

theorem weighs_join (h : Builds n rs s) (ha : a ∈ rs) (hb : b ∈ rs) (hab : a.slot ≠ b.slot) :
    Weighs 0 ((s.freq.set a.slot (s.freq.getD a.slot 0 + s.freq.getD b.slot 0)).set b.slot
      1000000001) (joinRoots a b rs) := by
  have hwa : s.freq.getD a.slot 0 = a.weight := h.weighs.getD ha
  have hwb : s.freq.getD b.slot 0 = b.weight := h.weighs.getD hb
  have hsum : a.weight + b.weight ≤ LIMIT := by
    have := ((perm_others h ha hb hab).map Root.weight).sum_nat
    have htot := h.total
    simp only [List.map_cons, List.sum_cons] at this
    omega
  have hrep : Weighs 0 _ _ := h.weighs.replace ha (rfl : (a.join b).slot = a.slot) hsum
  have hmem : b ∈ rs.map fun r => if r.slot = a.slot then a.join b else r :=
    List.mem_map.mpr ⟨b, hb, if_neg (Ne.symm hab)⟩
  rw [hwa, hwb, joinRoots_eq hab]
  exact hrep.remove hmem

theorem perm_joinRoots (h : Builds n rs s) (ha : a ∈ rs) (hb : b ∈ rs) (hab : a.slot ≠ b.slot) :
    (joinRoots a b rs).Perm (a.join b :: others a b rs) := by
  have hnd := nodup_of_slots (weighs_join h ha hb hab).slots_nodup
  refine (List.perm_ext_iff_of_nodup hnd ?_).mpr fun r => ?_
  · refine List.nodup_cons.mpr ⟨fun hmem => ?_, (nodup_of_slots h.weighs.slots_nodup).filter _⟩
    simp [others, Root.join] at hmem
  · rw [mem_joinRoots ha hab, List.mem_cons]

/-- **One turn joins the two lightest trees.** -/
theorem Builds.join (h : Builds n rs s) (hn : n ≤ 257) (ha : a ∈ rs) (hb : b ∈ rs)
    (hab : a.slot ≠ b.slot) : ∃ codesize last codesize' last',
      bumpBranch 257 s.others s.codesize a.slot = some (codesize, last) ∧
      bumpBranch 257 (s.others.set last (some b.slot)) codesize b.slot =
        some (codesize', last') ∧
      Builds n (joinRoots a b rs) ⟨(s.freq.set a.slot (s.freq.getD a.slot 0 +
        s.freq.getD b.slot 0)).set b.slot 1000000001, codesize',
        s.others.set last (some b.slot)⟩ := by
  have hperm := perm_others h ha hb hab
  have hjoin := perm_joinRoots h ha hb hab
  have hdisj : ∀ c ∈ a.tree.leaves, c ∉ b.tree.leaves := fun c => h.disjoint ha hb hab
  have hndA := h.leaves_nodup ha
  have hndB := h.leaves_nodup hb
  have hltA := h.leaf_lt ha
  have hltB := h.leaf_lt hb
  have hchA := h.chained a ha
  have hchB := h.chained b hb
  have hlen : ∀ {r : Root}, r ∈ rs → r.tree.leaves.length ≤ n := fun {r} hr => by
    have hsub : r.tree.leaves ⊆ List.range n := fun c hc => List.mem_range.mpr (h.leaf_lt hr c hc)
    simpa using ((h.leaves_nodup hr).subperm hsub).length_le
  obtain ⟨A, hA⟩ := List.head?_eq_some_iff.mp (h.first a ha)
  obtain ⟨B, hB⟩ := List.head?_eq_some_iff.mp (h.first b hb)
  have hlenA := hlen ha
  have hlenB := hlen hb
  rw [hA, List.length_cons] at hlenA
  rw [hB, List.length_cons] at hlenB
  -- the last symbol of the first branch is no symbol of another
  have hlast : (a.slot :: A).getLast (List.cons_ne_nil _ _) ∈ a.tree.leaves := by
    rw [hA]
    exact List.getLast_mem _
  generalize hl : (a.slot :: A).getLast (List.cons_ne_nil _ _) = last at hlast
  have hset : ∀ c, c ≠ last → (s.others.set last (some b.slot)).getD c none =
      s.others.getD c none := fun c hc => by
    simp only [List.getD_eq_getElem?_getD, List.getElem?_set_ne (Ne.symm hc)]
  have hsetl : (s.others.set last (some b.slot)).getD last none = some b.slot := by
    have : last < s.others.length := by rw [h.links]; exact hltA _ hlast
    simp [List.getD_eq_getElem?_getD, this]
  have hchB' : Chained (s.others.set last (some b.slot)) b.tree.leaves :=
    hchB.congr fun c hc => hset c fun heq => hdisj c (heq ▸ hlast) hc
  have hbumpA := bumpBranch_eq (hA ▸ hchA) (by omega : A.length < 257) s.codesize
  have hbumpB := bumpBranch_eq (hB ▸ hchB') (by omega : B.length < 257)
    (bumpAll s.codesize (a.slot :: A))
  rw [hl] at hbumpA
  refine ⟨_, _, _, _, hbumpA, hbumpB, ?_⟩
  rw [← hA, ← hB]
  have hcode : ∀ j, (bumpAll (bumpAll s.codesize a.tree.leaves) b.tree.leaves).getD j 0 =
      s.codesize.getD j 0 + (if j ∈ a.tree.leaves then 1 else 0) +
        if j ∈ b.tree.leaves then 1 else 0 := fun j => by
    rw [bumpAll_getD hndB (fun c hc => by rw [length_bumpAll, h.codes]; exact hltB c hc),
      bumpAll_getD hndA (fun c hc => by rw [h.codes]; exact hltA c hc)]
  have hother : ∀ {r : Root}, r ∈ others a b rs →
      r ∈ rs ∧ (∀ c ∈ r.tree.leaves, c ∉ a.tree.leaves) ∧
        ∀ c ∈ r.tree.leaves, c ∉ b.tree.leaves := fun {r} hr => by
    simp only [others, List.mem_filter, bne_iff_ne, Bool.and_eq_true] at hr
    exact ⟨hr.1, fun c => h.disjoint hr.1 ha hr.2.1, fun c => h.disjoint hr.1 hb hr.2.2⟩
  constructor
  case weighs => exact weighs_join h ha hb hab
  case total =>
    have h1 := (hperm.map Root.weight).sum_nat
    have h2 := (hjoin.map Root.weight).sum_nat
    have htot := h.total
    have hw : (a.join b).weight = a.weight + b.weight := rfl
    simp only [List.map_cons, List.sum_cons] at h1 h2
    omega
  case perm =>
    have h1 : (forestLeaves rs).Perm (a.tree.leaves ++ (b.tree.leaves ++
        forestLeaves (others a b rs))) := hperm.flatMap_right _
    have h2 : (forestLeaves (joinRoots a b rs)).Perm ((a.tree.leaves ++ b.tree.leaves) ++
        forestLeaves (others a b rs)) := hjoin.flatMap_right _
    rw [List.append_assoc] at h2
    exact h2.trans (h1.symm.trans h.perm)
  case codes => rw [length_bumpAll, length_bumpAll, h.codes]
  case links => rw [List.length_set, h.links]
  case first =>
    intro r hr
    rcases (mem_joinRoots ha hab).mp hr with rfl | hr
    · rw [leaves_join, hA]
      rfl
    · exact h.first r (hother hr).1
  case chained =>
    intro r hr
    rcases (mem_joinRoots ha hab).mp hr with rfl | hr
    · have hne := a.tree.leaves_ne_nil
      have hlast' : a.tree.leaves.getLast hne = last := by
        rw [← hl]
        simp only [hA]
      rw [leaves_join, hB]
      refine hchA.join (hB ▸ hchB') hne (by rw [hlast', hsetl]) (fun c _ hc => ?_) hndA
      exact hset c (by rwa [hlast'] at hc)
    · obtain ⟨hr, hra, -⟩ := hother hr
      exact (h.chained r hr).congr fun c hc => hset c fun heq => hra c hc (heq ▸ hlast)
  case depth =>
    intro r hr p hp
    have hleaf : ∀ {t : CodeTree ℕ} {q : ℕ × ℕ}, q ∈ t.depths 0 → q.1 ∈ t.leaves :=
      fun {t q} hq => by
        rw [← CodeTree.map_fst_depths 0]
        exact List.mem_map_of_mem hq
    rw [hcode]
    rcases (mem_joinRoots ha hab).mp hr with rfl | hr
    · rw [depths_join] at hp
      obtain ⟨q, hq, rfl⟩ := List.mem_map.mp hp
      rcases List.mem_append.mp hq with hq | hq
      · rw [h.depth a ha q hq, if_pos (hleaf hq), if_neg (hdisj _ (hleaf hq))]
      · rw [h.depth b hb q hq, if_pos (hleaf hq), if_neg fun hc => hdisj _ hc (hleaf hq)]
    · obtain ⟨hr, hra, hrb⟩ := hother hr
      rw [h.depth r hr p hp, if_neg (hra _ (hleaf hp)), if_neg (hrb _ (hleaf hp)),
        Nat.add_zero]

end Join

/-! ### The whole loop -/

/-- **The merging loop builds the tree**, and ends when the tree is built. -/
theorem mergeLoop_eq {n : ℕ} {rs rs' : List Root} {s : MergeState} (h : Builds n rs s)
    (hn : n ≤ 257) {fuel : ℕ} (hbuild : buildTree fuel rs = some rs') :
    ∃ s', mergeLoop fuel s = some s' ∧ Builds n rs' s' := by
  induction fuel generalizing rs s with
  | zero => cases hbuild
  | succ fuel ih =>
    have hfind := findSmallest_eq h.weighs (a := none) (b := none) le_rfl le_rfl
    rw [buildTree] at hbuild
    rw [mergeLoop]
    have hstart : smallestOf none none = ⟨none, none, 1000000000, 1000000000⟩ := rfl
    rw [← hstart, hfind]
    rcases hl : lightest rs none none with ⟨_ | a, _ | b⟩
    · rw [hl] at hbuild
      cases hbuild
      exact ⟨s, rfl, h⟩
    · rw [hl] at hbuild
      cases hbuild
      exact ⟨s, rfl, h⟩
    · rw [hl] at hbuild
      cases hbuild
      exact ⟨s, rfl, h⟩
    · rw [hl] at hbuild
      obtain ⟨ha, hb, hab⟩ := h.lightest_ne hl
      obtain ⟨cs, last, cs', last', h1, h2, h3⟩ := h.join hn ha hb hab
      obtain ⟨s', hs', hb'⟩ := ih h3 hbuild
      refine ⟨s', ?_, hb'⟩
      simp only [smallestOf, Option.map_some, h1, h2, Option.bind_eq_bind, Option.bind_some]
      exact hs'

/-! ### The code lengths -/

/-- A tree of each symbol, from index `i` on. -/
def singles : ℕ → List ℕ → List Root
  | _, [] => []
  | i, w :: ws => ⟨i, w, .leaf i⟩ :: singles (i + 1) ws

theorem mem_singles {i : ℕ} {ws : List ℕ} {r : Root} (h : r ∈ singles i ws) :
    r.tree = .leaf r.slot ∧ r.slot < i + ws.length := by
  induction ws generalizing i with
  | nil => cases h
  | cons w ws ih =>
    rcases List.mem_cons.mp h with rfl | h
    · exact ⟨rfl, by simp⟩
    · obtain ⟨ht, hlt⟩ := ih h
      exact ⟨ht, by rw [List.length_cons]; omega⟩

theorem weighs_singles {i : ℕ} {ws : List ℕ} (h : ∀ w ∈ ws, w ≤ LIMIT) :
    Weighs i ws (singles i ws) := by
  induction ws generalizing i with
  | nil => exact .nil i
  | cons w ws ih =>
    exact .live (r := ⟨i, w, .leaf i⟩) rfl (h w List.mem_cons_self)
      (ih fun x hx => h x (List.mem_cons_of_mem _ hx))

theorem leaves_singles (i : ℕ) (ws : List ℕ) :
    forestLeaves (singles i ws) = List.range' i ws.length := by
  induction ws generalizing i with
  | nil => rfl
  | cons w ws ih =>
    rw [singles, forestLeaves, List.flatMap_cons, ← forestLeaves, ih, List.length_cons,
      List.range'_succ]
    rfl

theorem weights_singles (i : ℕ) (ws : List ℕ) : (singles i ws).map Root.weight = ws := by
  induction ws generalizing i with
  | nil => rfl
  | cons w ws ih => rw [singles, List.map_cons, ih]

/-- **The loop starts from single symbols.** -/
theorem builds_singles {ws : List ℕ} (h : ws.sum ≤ LIMIT) :
    Builds ws.length (singles 0 ws) ⟨ws, ws.map fun _ => 0, ws.map fun _ => none⟩ := by
  have hle : ∀ w ∈ ws, w ≤ LIMIT := fun w hw => (List.single_le_sum (by simp) w hw).trans h
  constructor
  case weighs => exact weighs_singles hle
  case total => rwa [weights_singles]
  case perm => rw [leaves_singles, List.range_eq_range']
  case codes => exact List.length_map _
  case links => exact List.length_map _
  case first =>
    intro r hr
    rw [(mem_singles hr).1]
    rfl
  case chained =>
    intro r hr
    rw [(mem_singles hr).1]
    show (ws.map fun _ => none).getD r.slot none = none
    rw [List.map_const', List.getD_eq_getElem?_getD, List.getElem?_getD_replicate_default_eq]
  case depth =>
    intro r hr p hp
    rw [(mem_singles hr).1, CodeTree.depths, List.mem_singleton] at hp
    rw [hp, List.map_const', List.getD_eq_getElem?_getD, List.getElem?_getD_replicate_default_eq]

/-- The depth of a symbol in a forest. -/
def depthIn (rs : List Root) (i : ℕ) : ℕ :=
  (((rs.flatMap fun r => r.tree.depths 0).find? fun p => p.1 == i).map Prod.snd).getD 0

/-- **The code lengths are the depths.** -/
theorem codesize_eq {n : ℕ} {rs : List Root} {s : MergeState} (h : Builds n rs s) :
    s.codesize = (List.range n).map (depthIn rs) := by
  refine List.ext_getElem (by simp [h.codes]) fun i hi hi' => ?_
  rw [h.codes] at hi
  obtain ⟨r, hr, hleaf⟩ := List.mem_flatMap.mp (h.perm.symm.subset (List.mem_range.mpr hi))
  rw [← CodeTree.map_fst_depths 0] at hleaf
  obtain ⟨q, hq, hqi⟩ := List.mem_map.mp hleaf
  have hsome : ((rs.flatMap fun r => r.tree.depths 0).find? fun p => p.1 == i).isSome :=
    List.find?_isSome.mpr ⟨q, List.mem_flatMap.mpr ⟨r, hr, hq⟩, by simp [hqi]⟩
  obtain ⟨p, hp⟩ := Option.isSome_iff_exists.mp hsome
  have hpi : p.1 = i := by simpa using List.find?_some hp
  obtain ⟨r', hr', hp'⟩ := List.mem_flatMap.mp (List.mem_of_find?_eq_some hp)
  have hdepth := h.depth r' hr' p hp'
  rw [hpi, List.getD_eq_getElem _ _ (by rw [h.codes]; exact hi)] at hdepth
  rw [hdepth, List.getElem_map, List.getElem_range, depthIn, hp]
  rfl

/-- `gen_optimal_table` once the code lengths are known. -/
def tableOf (nzIndex codesize : List ℕ) : Option HuffTbl := do
  let bits ← countLengths codesize (List.replicate (MAX_C_LEN + 1) 0)
  let pos := bitPos bits
  let bits ← shorten (MAX_C_LEN - 16) bits
  let i ← lastUsed bits 16
  let bits := subU8 bits i 1
  let vals ← placeVals (nzIndex.zip codesize).dropLast pos (List.replicate 256 0)
  return ⟨bits.take 17, vals⟩

/-- **The table is made from the depths in the tree.** -/
theorem genOptimalTable_eq {freq : ℕ → ℕ} {nzIndex ws : List ℕ} {rs : List Root}
    (hnz : ((List.range 257).filter fun i => (if i = 256 then 1 else freq i) > 0) = nzIndex)
    (hws : nzIndex.map (fun i => if i = 256 then 1 else freq i) = ws) (hsum : ws.sum ≤ LIMIT)
    (hbuild : buildTree 257 (singles 0 ws) = some rs) :
    genOptimalTable freq = tableOf nzIndex ((List.range nzIndex.length).map (depthIn rs)) := by
  have hlen : ws.length = nzIndex.length := by rw [← hws, List.length_map]
  have hle : nzIndex.length ≤ 257 := by
    rw [← hnz]
    exact (List.length_filter_le _ _).trans (by rw [List.length_range])
  obtain ⟨s, hs, hb⟩ := mergeLoop_eq (builds_singles hsum) (hlen ▸ hle) hbuild
  have hinit : ∀ {α : Type} (x : α), nzIndex.map (fun _ => x) = ws.map fun _ => x := fun x => by
    rw [List.map_const', List.map_const', hlen]
  unfold genOptimalTable
  simp only [hnz, hws, hinit, hs, Option.bind_eq_bind, Option.bind_some, codesize_eq hb, hlen]
  rfl

end RemotePlay.Jpeg
