import Mathlib.Data.Nat.Notation
import Mathlib.Data.List.Nodup
import Mathlib.Algebra.Order.Group.Nat
import Mathlib.Data.List.Perm.Basic

/-! # Merging the two lightest items

Huffman's procedure takes the two lightest of a list of weighted items and puts one item of their
joint weight in the place of the first, until a single item is left.  The depth of an item is how
often it, or what it has become part of, is merged.

A heavier item is never deeper (`Ordered.heavier`).  Which items of one weight are the deeper ones
depends on which the search takes first: when it prefers the later ones, the last item of the list
is among them (`Ordered.last_tie`).  Neither can be shown alone, since merging makes an item that is
heavier than others and lies elsewhere than they do: `Ordered` has five statements that follow
together by induction on the merges (`Depths.ordered`). -/

namespace RemotePlay.Lib.Merging

/-- An item and its weight. -/
structure Item (α : Type*) where
  key : α
  weight : ℕ

variable {α : Type*}

/-- Two items in one. -/
def Item.join (a b : Item α) : Item α := ⟨a.key, a.weight + b.weight⟩

/-- **The two lightest items**, the last item being preferred to others of its weight. -/
structure Picks (rs : List (Item α)) (a b : Item α) : Prop where
  fst_mem : a ∈ rs
  snd_mem : b ∈ rs
  ne : a.key ≠ b.key
  le : a.weight ≤ b.weight
  le_other : ∀ r ∈ rs, r.key ≠ a.key → r.key ≠ b.key → b.weight ≤ r.weight
  last_other : ∀ p, rs.getLast? = some p → p.key ≠ a.key → p.key ≠ b.key → b.weight < p.weight
  last_snd : rs.getLast? = some b → a.weight < b.weight

/-- Items under different keys, none without weight. -/
structure Distinct (rs : List (Item α)) : Prop where
  keys : (rs.map Item.key).Nodup
  pos : ∀ r ∈ rs, 0 < r.weight

section Picks

variable {rs : List (Item α)} {a b r : Item α}

theorem Distinct.eq_of_key (h : Distinct rs) (ha : a ∈ rs) (hr : r ∈ rs) (hk : r.key = a.key) :
    r = a :=
  List.inj_on_of_nodup_map h.keys hr ha hk

theorem Picks.split (hp : Picks rs a b) (h : Distinct rs) (hr : r ∈ rs) :
    (r = a ∨ r = b) ∨ r.key ≠ a.key ∧ r.key ≠ b.key := by
  by_cases hra : r.key = a.key
  · exact Or.inl (Or.inl (h.eq_of_key hp.fst_mem hr hra))
  by_cases hrb : r.key = b.key
  · exact Or.inl (Or.inr (h.eq_of_key hp.snd_mem hr hrb))
  exact Or.inr ⟨hra, hrb⟩

theorem Picks.weight_taken (hp : Picks rs a b) (hr : r = a ∨ r = b) :
    a.weight ≤ r.weight ∧ r.weight ≤ b.weight := by
  have hle := hp.le
  rcases hr with rfl | rfl
  · exact ⟨le_rfl, hle⟩
  · exact ⟨hle, le_rfl⟩

theorem Picks.weight_other (hp : Picks rs a b) (hr : r ∈ rs)
    (hro : r.key ≠ a.key ∧ r.key ≠ b.key) : b.weight ≤ r.weight :=
  hp.le_other r hr hro.1 hro.2

end Picks

variable [DecidableEq α]

/-- The items after two are made one, in the place of the first. -/
def merge (a b : Item α) (rs : List (Item α)) : List (Item α) :=
  (rs.map fun r => if r.key = a.key then a.join b else r).filter fun r => r.key ≠ b.key

/-- How much deeper than in what they become part of the items are. -/
def deepen (a b : Item α) (D : α → ℕ) (k : α) : ℕ :=
  if k = a.key ∨ k = b.key then D a.key + 1 else D k

/-- **The depths of the items.** -/
inductive Depths : List (Item α) → (α → ℕ) → Prop
  | single {rs : List (Item α)} (h : rs.length ≤ 1) : Depths rs fun _ => 0
  | turn {rs : List (Item α)} {a b : Item α} {D : α → ℕ} (h : Picks rs a b)
      (hD : Depths (merge a b rs) D) : Depths rs (deepen a b D)

/-! ### One merge -/

section Merge

variable {rs : List (Item α)} {a b r : Item α}

theorem Picks.mem_merge (h : Picks rs a b) :
    r ∈ merge a b rs ↔ r = a.join b ∨ r ∈ rs ∧ r.key ≠ a.key ∧ r.key ≠ b.key := by
  simp only [merge, List.mem_filter, List.mem_map, decide_eq_true_eq]
  constructor
  · rintro ⟨⟨x, hx, rfl⟩, hne⟩
    split_ifs at hne ⊢ with hxa
    · exact Or.inl rfl
    · exact Or.inr ⟨hx, hxa, hne⟩
  · rintro (rfl | ⟨hr, hra, hrb⟩)
    · exact ⟨⟨a, h.fst_mem, if_pos rfl⟩, h.ne⟩
    · exact ⟨⟨r, hr, if_neg hra⟩, hrb⟩

theorem Picks.join_mem (h : Picks rs a b) : a.join b ∈ merge a b rs := h.mem_merge.mpr (Or.inl rfl)

theorem map_key_merge (a b : Item α) (rs : List (Item α)) :
    (merge a b rs).map Item.key = (rs.map Item.key).filter fun k => k ≠ b.key := by
  have hkey : ∀ r : Item α, (if r.key = a.key then a.join b else r).key = r.key := by
    intro r
    split_ifs with h
    · exact h.symm
    · rfl
  rw [merge, List.filter_map, List.map_map, List.filter_map]
  simp only [Function.comp_def, hkey]

theorem Distinct.merge (h : Distinct rs) (hp : Picks rs a b) : Distinct (merge a b rs) := by
  constructor
  · rw [map_key_merge]
    exact h.keys.filter _
  · intro r hr
    rcases hp.mem_merge.mp hr with rfl | ⟨hr, -⟩
    · exact Nat.add_pos_left (h.pos a hp.fst_mem) _
    · exact h.pos r hr

theorem getLast?_merge_other (hr : rs.getLast? = some r) (hra : r.key ≠ a.key)
    (hrb : r.key ≠ b.key) : (merge a b rs).getLast? = some r := by
  obtain ⟨xs, rfl⟩ := List.getLast?_eq_some_iff.mp hr
  simp [Merging.merge, List.filter_append, hra, hrb]

theorem Picks.getLast?_merge_fst (h : Picks rs a b) (hr : rs.getLast? = some a) :
    (Merging.merge a b rs).getLast? = some (a.join b) := by
  obtain ⟨xs, rfl⟩ := List.getLast?_eq_some_iff.mp hr
  have hne : (a.join b).key ≠ b.key := h.ne
  simp [Merging.merge, List.filter_append, hne]

theorem deepen_taken (D : α → ℕ) (hr : r = a ∨ r = b) :
    deepen a b D r.key = D (a.join b).key + 1 := by
  rcases hr with rfl | rfl
  · exact if_pos (Or.inl rfl)
  · exact if_pos (Or.inr rfl)

theorem deepen_other (D : α → ℕ) (hr : r.key ≠ a.key ∧ r.key ≠ b.key) :
    deepen a b D r.key = D r.key :=
  if_neg (not_or.mpr hr)

end Merge

/-! ### Depths go against weights -/

/-- How the depths of the items are ordered. -/
structure Ordered (rs : List (Item α)) (D : α → ℕ) : Prop where
  heavier : ∀ r ∈ rs, ∀ r' ∈ rs, r.weight < r'.weight → D r'.key ≤ D r.key
  gap : ∀ r ∈ rs, ∀ r' ∈ rs, r.key ≠ r'.key → ∀ m, (∀ x ∈ rs, x.key ≠ r'.key → m ≤ x.weight) →
    r.weight < r'.weight + m → D r'.key ≤ D r.key + 1
  double : ∀ r ∈ rs, ∀ r' ∈ rs, (∀ x ∈ rs, r'.weight ≤ x.weight) → r.weight ≤ 2 * r'.weight →
    D r'.key ≤ D r.key + 2
  last_double : ∀ p, rs.getLast? = some p → ∀ r ∈ rs, (∀ x ∈ rs, r.weight ≤ x.weight) →
    p.weight ≤ 2 * r.weight → D r.key ≤ D p.key + 1
  last_tie : ∀ p, rs.getLast? = some p → ∀ r ∈ rs, r.weight = p.weight → D r.key ≤ D p.key

section Turn

variable {rs : List (Item α)} {a b : Item α} {D : α → ℕ}

theorem Picks.other_mem (hp : Picks rs a b) {r : Item α} (hr : r ∈ rs)
    (hro : r.key ≠ a.key ∧ r.key ≠ b.key) : r ∈ merge a b rs :=
  hp.mem_merge.mpr (Or.inr ⟨hr, hro⟩)

/-- All that is left weighs as much as the second of the two. -/
theorem Picks.snd_le_merge (hp : Picks rs a b) {x : Item α} (hx : x ∈ merge a b rs) :
    b.weight ≤ x.weight := by
  rcases hp.mem_merge.mp hx with rfl | ⟨hx, hxo⟩
  · exact Nat.le_add_left _ _
  · exact hp.weight_other hx hxo

theorem Picks.bound_merge (hp : Picks rs a b) {r' : Item α} (ho : r'.key ≠ a.key ∧ r'.key ≠ b.key)
    {m : ℕ} (hm : ∀ x ∈ rs, x.key ≠ r'.key → m ≤ x.weight) :
    ∀ x ∈ merge a b rs, x.key ≠ r'.key → m ≤ x.weight := by
  intro x hx hne
  rcases hp.mem_merge.mp hx with rfl | ⟨hx, -⟩
  · exact (hm a hp.fst_mem ho.1.symm).trans (Nat.le_add_right _ _)
  · exact hm x hx hne

/-- The lightest item is still the lightest if it stays. -/
theorem Picks.lightest_merge (hp : Picks rs a b) {r : Item α} (hm : ∀ x ∈ rs, r.weight ≤ x.weight) :
    ∀ x ∈ merge a b rs, r.weight ≤ x.weight := by
  intro x hx
  rcases hp.mem_merge.mp hx with rfl | ⟨hx, -⟩
  · exact (hm a hp.fst_mem).trans (Nat.le_add_right _ _)
  · exact hm x hx

theorem Picks.heavier (hp : Picks rs a b) (hd : Distinct rs) (ih : Ordered (merge a b rs) D)
    {r r' : Item α} (hr : r ∈ rs) (hr' : r' ∈ rs) (hlt : r.weight < r'.weight) :
    deepen a b D r'.key ≤ deepen a b D r.key := by
  rcases hp.split hd hr with hrt | hro <;> rcases hp.split hd hr' with hrt' | hro'
  · exact (deepen_taken D hrt').le.trans (deepen_taken D hrt).ge
  · -- the joint weight exceeds that of `r'` by less than `b.weight`
    rw [deepen_taken D hrt, deepen_other D hro']
    have hw := hp.weight_taken hrt
    refine ih.gap _ hp.join_mem r' (hp.other_mem hr' hro') hro'.1.symm b.weight
      (fun x hx _ => hp.snd_le_merge hx) ?_
    show a.weight + b.weight < r'.weight + b.weight
    omega
  · have hw := hp.weight_other hr hro
    have hw' := hp.weight_taken hrt'
    omega
  · rw [deepen_other D hro, deepen_other D hro']
    exact ih.heavier r (hp.other_mem hr hro) r' (hp.other_mem hr' hro') hlt

theorem Picks.gap (hp : Picks rs a b) (hd : Distinct rs) (ih : Ordered (merge a b rs) D)
    {r r' : Item α} (hr : r ∈ rs) (hr' : r' ∈ rs) (hne : r.key ≠ r'.key) {m : ℕ}
    (hm : ∀ x ∈ rs, x.key ≠ r'.key → m ≤ x.weight) (hlt : r.weight < r'.weight + m) :
    deepen a b D r'.key ≤ deepen a b D r.key + 1 := by
  rcases hp.split hd hr with hrt | hro <;> rcases hp.split hd hr' with hrt' | hro'
  · rw [deepen_taken D hrt, deepen_taken D hrt']
    exact Nat.le_succ _
  · rw [deepen_taken D hrt, deepen_other D hro']
    have hjoin : (a.join b).weight = a.weight + b.weight := rfl
    have hle := hp.le
    have hw' := hp.weight_other hr' hro'
    by_cases ha : a.weight < r'.weight
    · have := ih.gap _ hp.join_mem r' (hp.other_mem hr' hro') hro'.1.symm b.weight
        (fun x hx _ => hp.snd_le_merge hx) (by omega)
      omega
    · -- the three weigh the same
      refine ih.double _ hp.join_mem r' (hp.other_mem hr' hro') (fun x hx => ?_) (by omega)
      have := hp.snd_le_merge hx
      omega
  · rw [deepen_other D hro, deepen_taken D hrt']
    have hsum : r'.weight + m ≤ (a.join b).weight := by
      show r'.weight + m ≤ a.weight + b.weight
      rcases hrt' with rfl | rfl
      · have := hm b hp.snd_mem hp.ne.symm
        omega
      · have := hm a hp.fst_mem hp.ne
        omega
    have := ih.heavier r (hp.other_mem hr hro) _ hp.join_mem (by omega)
    omega
  · rw [deepen_other D hro, deepen_other D hro']
    exact ih.gap r (hp.other_mem hr hro) r' (hp.other_mem hr' hro') hne m
      (hp.bound_merge hro' hm) hlt

theorem Picks.double (hp : Picks rs a b) (hd : Distinct rs) (ih : Ordered (merge a b rs) D)
    {r r' : Item α} (hr : r ∈ rs) (hr' : r' ∈ rs) (hm : ∀ x ∈ rs, r'.weight ≤ x.weight)
    (hlt : r.weight ≤ 2 * r'.weight) : deepen a b D r'.key ≤ deepen a b D r.key + 2 := by
  have hjoin : (a.join b).weight = a.weight + b.weight := rfl
  have ha := hm a hp.fst_mem
  have hb := hm b hp.snd_mem
  rcases hp.split hd hr with hrt | hro <;> rcases hp.split hd hr' with hrt' | hro'
  · rw [deepen_taken D hrt, deepen_taken D hrt']
    omega
  · rw [deepen_taken D hrt, deepen_other D hro']
    have hle := hp.le
    have hw' := hp.weight_other hr' hro'
    have := ih.double _ hp.join_mem r' (hp.other_mem hr' hro') (hp.lightest_merge hm) (by omega)
    omega
  · rw [deepen_other D hro, deepen_taken D hrt']
    have := ih.gap r (hp.other_mem hr hro) _ hp.join_mem hro.1 1
      (fun x hx _ => (hd.merge hp).pos x hx) (by omega)
    omega
  · rw [deepen_other D hro, deepen_other D hro']
    exact ih.double r (hp.other_mem hr hro) r' (hp.other_mem hr' hro') (hp.lightest_merge hm) hlt

theorem Picks.last_double (hp : Picks rs a b) (hd : Distinct rs) (ih : Ordered (merge a b rs) D)
    {p r : Item α} (hlast : rs.getLast? = some p) (hr : r ∈ rs)
    (hm : ∀ x ∈ rs, r.weight ≤ x.weight) (hlt : p.weight ≤ 2 * r.weight) :
    deepen a b D r.key ≤ deepen a b D p.key + 1 := by
  have hjoin : (a.join b).weight = a.weight + b.weight := rfl
  have ha := hm a hp.fst_mem
  have hb := hm b hp.snd_mem
  have hpmem : p ∈ rs := List.mem_of_getLast? hlast
  rcases hp.split hd hr with hrt | hro <;> rcases hp.split hd hpmem with hpt | hpo
  · rw [deepen_taken D hrt, deepen_taken D hpt]
    exact Nat.le_succ _
  · rw [deepen_taken D hrt, deepen_other D hpo]
    have hlast' := getLast?_merge_other (a := a) (b := b) hlast hpo.1 hpo.2
    rcases Nat.lt_or_ge p.weight (a.join b).weight with hw | hw
    · have := ih.heavier p (hp.other_mem hpmem hpo) _ hp.join_mem hw
      omega
    · have := ih.last_tie p hlast' _ hp.join_mem (by omega)
      omega
  · rw [deepen_other D hro, deepen_taken D hpt]
    have hle := hp.le
    have hw := hp.weight_other hr hro
    rcases hpt with rfl | rfl
    · have := ih.last_double _ (hp.getLast?_merge_fst hlast) r (hp.other_mem hr hro)
        (hp.lightest_merge hm) (by omega)
      omega
    · -- the other one would be lighter than the lightest
      have := hp.last_snd hlast
      omega
  · rw [deepen_other D hro, deepen_other D hpo]
    exact ih.last_double p (getLast?_merge_other hlast hpo.1 hpo.2) r (hp.other_mem hr hro)
      (hp.lightest_merge hm) hlt

theorem Picks.last_tie (hp : Picks rs a b) (hd : Distinct rs) (ih : Ordered (merge a b rs) D)
    {p r : Item α} (hlast : rs.getLast? = some p) (hr : r ∈ rs) (heq : r.weight = p.weight) :
    deepen a b D r.key ≤ deepen a b D p.key := by
  have hjoin : (a.join b).weight = a.weight + b.weight := rfl
  have hle := hp.le
  have hpmem : p ∈ rs := List.mem_of_getLast? hlast
  rcases hp.split hd hr with hrt | hro <;> rcases hp.split hd hpmem with hpt | hpo
  · exact (deepen_taken D hrt).le.trans (deepen_taken D hpt).ge
  · -- the last item would have been taken before
    have hw := hp.weight_taken hrt
    have := hp.last_other p hlast hpo.1 hpo.2
    omega
  · rw [deepen_other D hro, deepen_taken D hpt]
    have hw := hp.weight_other hr hro
    rcases hpt with rfl | rfl
    · refine ih.last_double _ (hp.getLast?_merge_fst hlast) r (hp.other_mem hr hro) (fun x hx => ?_)
        (by omega)
      have := hp.snd_le_merge hx
      omega
    · have hlt := hp.last_snd hlast
      exact ih.gap _ hp.join_mem r (hp.other_mem hr hro) hro.1.symm p.weight
        (fun x hx _ => hp.snd_le_merge hx) (by omega)
  · rw [deepen_other D hro, deepen_other D hpo]
    exact ih.last_tie p (getLast?_merge_other hlast hpo.1 hpo.2) r (hp.other_mem hr hro) heq

end Turn

/-- **The depths are ordered against the weights.** -/
theorem Depths.ordered {rs : List (Item α)} {D : α → ℕ} (h : Depths rs D) (hd : Distinct rs) :
    Ordered rs D := by
  induction h with
  | single _ => constructor <;> intros <;> omega
  | turn hp _ ih =>
    have ih := ih (hd.merge hp)
    constructor
    case heavier => exact fun r hr r' hr' => hp.heavier hd ih hr hr'
    case gap => exact fun r hr r' hr' hne m hm => hp.gap hd ih hr hr' hne hm
    case double => exact fun r hr r' hr' => hp.double hd ih hr hr'
    case last_double => exact fun p hlast r hr => hp.last_double hd ih hlast hr
    case last_tie => exact fun p hlast r hr => hp.last_tie hd ih hlast hr

/-- **The last item, if it is of the least weight, is the deepest.** -/
theorem Depths.le_last {rs : List (Item α)} {D : α → ℕ} (h : Depths rs D) (hd : Distinct rs)
    {p : Item α} (hlast : rs.getLast? = some p) (hm : ∀ x ∈ rs, p.weight ≤ x.weight) {r : Item α}
    (hr : r ∈ rs) : D r.key ≤ D p.key := by
  have hord := h.ordered hd
  rcases Nat.eq_or_lt_of_le (hm r hr) with heq | hlt
  · exact hord.last_tie p hlast r hr heq.symm
  · exact hord.heavier p (List.mem_of_getLast? hlast) r hr hlt

end RemotePlay.Lib.Merging
