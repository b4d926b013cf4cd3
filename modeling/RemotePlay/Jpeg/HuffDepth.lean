import RemotePlay.Jpeg.HuffTree
import RemotePlay.Lib.Merging
import RemotePlay.Lib.PrefixCode

/-! # The code lengths of the merging loop

The search for the two smallest frequencies goes through the symbols in order and takes a later one
for an earlier of the same frequency, which is the choice `Merging` is about (`picks_lightest`).  So
a symbol that is more frequent never has a longer code, and the pseudo-symbol, the last one and of
the least frequency there is, has the longest (`huffDepths_spec`).  The lengths are those of a whole
tree and leave nothing free. -/

namespace RemotePlay.Jpeg

open RemotePlay.Lib Merging PrefixCode

/-! ### What the search finds -/

/-- The two lightest trees of those gone through. -/
structure Found (rs : List Root) (a b : Option Root) : Prop where
  le : weightOf a ≤ weightOf b
  limit : weightOf b ≤ LIMIT
  rest : ∀ r ∈ rs, some r ≠ a → some r ≠ b → weightOf b ≤ r.weight
  one : a = none → rs = []
  two : b = none → rs.length ≤ 1

theorem lightest_append (rs : List Root) (r : Root) (a b : Option Root) :
    lightest (rs ++ [r]) a b = lightest [r] (lightest rs a b).1 (lightest rs a b).2 := by
  induction rs generalizing a b with
  | nil => rfl
  | cons x rs ih =>
    rw [List.cons_append, lightest_cons x (rs ++ [r]), lightest_cons x rs]
    split_ifs <;> exact ih _ _

theorem lightest_single (r : Root) (a b : Option Root) :
    r.weight ≤ weightOf a ∧ r.weight ≤ weightOf b ∧ lightest [r] a b = (some r, a) ∨
      weightOf a < r.weight ∧ r.weight ≤ weightOf b ∧ lightest [r] a b = (a, some r) ∨
      weightOf b < r.weight ∧ lightest [r] a b = (a, b) := by
  rw [lightest_cons]
  by_cases hb : r.weight ≤ weightOf b
  · rw [if_pos hb]
    by_cases ha : r.weight ≤ weightOf a
    · rw [if_pos ha]
      exact Or.inl ⟨ha, hb, rfl⟩
    · rw [if_neg ha]
      exact Or.inr (Or.inl ⟨not_le.mp ha, hb, rfl⟩)
  · rw [if_neg hb]
    exact Or.inr (Or.inr ⟨not_le.mp hb, rfl⟩)

theorem found_lightest {rs : List Root} (hle : ∀ r ∈ rs, r.weight ≤ LIMIT) :
    Found rs (lightest rs none none).1 (lightest rs none none).2 := by
  induction rs using List.reverseRecOn with
  | nil =>
    refine ⟨le_rfl, le_rfl, fun r hr => absurd hr List.not_mem_nil, fun _ => rfl, fun _ => ?_⟩
    exact Nat.zero_le 1
  | append_singleton rs x ih =>
    have hx := hle x (by simp)
    obtain ⟨h1, h2, h3, h4, h5⟩ := ih fun r hr => hle r (by simp [hr])
    rw [lightest_append]
    generalize (lightest rs none none).1 = a at *
    generalize (lightest rs none none).2 = b at *
    have hnone : weightOf none = LIMIT := rfl
    rcases lightest_single x a b with ⟨ha, hb, heq⟩ | ⟨ha, hb, heq⟩ | ⟨hb, heq⟩ <;> rw [heq]
    · refine ⟨ha, h1.trans h2, fun r hr hne hne' => ?_, fun h => ?_, fun h => ?_⟩
      · dsimp only at hne hne' ⊢
        have hrs : r ∈ rs := by
          rcases List.mem_append.mp hr with hr | hr
          · exact hr
          · exact absurd (congrArg some (List.mem_singleton.mp hr)) hne
        by_cases hrb : some r = b
        · subst hrb
          exact h1
        · exact h1.trans (h3 r hrs hne' hrb)
      · cases h
      · rw [h4 h]
        exact le_rfl
    · refine ⟨ha.le, hx, fun r hr hne hne' => ?_, fun h => ?_, fun h => ?_⟩
      · dsimp only at hne hne' ⊢
        have hrs : r ∈ rs := by
          rcases List.mem_append.mp hr with hr | hr
          · exact hr
          · exact absurd (congrArg some (List.mem_singleton.mp hr)) hne'
        by_cases hrb : some r = b
        · subst hrb
          exact hb
        · exact hb.trans (h3 r hrs hne hrb)
      · dsimp only at h
        subst h
        omega
      · cases h
    · refine ⟨h1, h2, fun r hr hne hne' => ?_, fun h => ?_, fun h => ?_⟩
      · rcases List.mem_append.mp hr with hr | hr
        · exact h3 r hr hne hne'
        · rw [List.mem_singleton.mp hr]
          exact hb.le
      · dsimp only at h
        subst h
        omega
      · dsimp only at h
        subst h
        omega

/-- A tree as an item of `Lib.Merging`: only its weight counts. -/
def Root.item (r : Root) : Merging.Item ℕ := ⟨r.slot, r.weight⟩

section Picks

variable {n : ℕ} {rs : List Root} {s : MergeState} {a b : Root}

/-- **The search takes the two lightest**, the last tree before others of its weight. -/
theorem picks_lightest (h : Builds n rs s) (hl : lightest rs none none = (some a, some b)) :
    Picks (rs.map Root.item) a.item b.item := by
  have hf := found_lightest h.weighs.weight_le
  obtain ⟨ha, hb, hab⟩ := h.lightest_ne hl
  have hrest := hf.rest
  rw [hl] at hrest
  -- which of the cases the last tree is
  have hlast : ∀ p, (rs.map Root.item).getLast? = some p → ∃ xs x, rs = xs ++ [x] ∧ p = x.item ∧
      (a = x ∨ b = x ∧ a.weight < x.weight ∨ b.weight < x.weight) := by
    intro p hp
    rw [List.getLast?_map, Option.map_eq_some_iff] at hp
    obtain ⟨x, hx, rfl⟩ := hp
    obtain ⟨xs, rfl⟩ := List.getLast?_eq_some_iff.mp hx
    refine ⟨xs, x, rfl, rfl, ?_⟩
    rw [lightest_append] at hl
    rcases lightest_single x (lightest xs none none).1 (lightest xs none none).2 with
      ⟨-, -, heq⟩ | ⟨hlt, -, heq⟩ | ⟨hlt, heq⟩
    · rw [heq, Prod.mk.injEq, Option.some.injEq] at hl
      exact Or.inl hl.1.symm
    · rw [heq, Prod.mk.injEq, Option.some.injEq] at hl
      rw [hl.1] at hlt
      exact Or.inr (Or.inl ⟨hl.2.symm, hlt⟩)
    · rw [heq, Prod.mk.injEq] at hl
      rw [hl.2] at hlt
      exact Or.inr (Or.inr hlt)
  constructor
  case fst_mem => exact List.mem_map_of_mem ha
  case snd_mem => exact List.mem_map_of_mem hb
  case ne => exact hab
  case le =>
    have := hf.le
    rwa [hl] at this
  case le_other =>
    intro r hr hra hrb
    obtain ⟨x, hx, rfl⟩ := List.mem_map.mp hr
    refine hrest x hx (fun heq => ?_) fun heq => ?_
    · rw [Option.some.inj heq] at hra
      exact hra rfl
    · rw [Option.some.inj heq] at hrb
      exact hrb rfl
  case last_other =>
    intro p hp hpa hpb
    obtain ⟨xs, x, -, rfl, hcase⟩ := hlast p hp
    rcases hcase with rfl | ⟨rfl, -⟩ | hlt
    · exact absurd rfl hpa
    · exact absurd rfl hpb
    · exact hlt
  case last_snd =>
    intro hp
    obtain ⟨xs, x, hrs, hx, hcase⟩ := hlast b.item hp
    have hxb : x = b := h.slot_inj hb (by rw [hrs]; simp) (congrArg Merging.Item.key hx).symm
    subst hxb
    rcases hcase with rfl | ⟨-, hlt⟩ | hlt
    · exact absurd rfl hab
    · exact hlt
    · exact absurd hlt (Nat.lt_irrefl _)

theorem map_item_joinRoots (hab : a.slot ≠ b.slot) :
    (joinRoots a b rs).map Root.item = merge a.item b.item (rs.map Root.item) := by
  have hitem : ∀ r : Root, (if r.slot = a.slot then a.join b else r).item =
      if r.item.key = a.item.key then a.item.join b.item else r.item := by
    intro r
    show _ = if r.slot = a.slot then _ else _
    split_ifs <;> rfl
  have hfilter : (fun r : Root => r.slot != b.slot) =
      (fun x : Merging.Item ℕ => decide (x.key ≠ b.item.key)) ∘ Root.item := by
    funext r
    exact (decide_not ..).symm
  rw [joinRoots_eq hab, merge, hfilter, ← List.filter_map, List.map_map, List.map_map]
  exact congrArg _ (List.map_congr_left fun r _ => hitem r)

end Picks

/-! ### The depths -/

theorem weight_depths {L d : ℕ} (t : CodeTree ℕ) (h : ∀ p ∈ t.depths d, p.2 ≤ L) :
    weight L ((t.depths d).map Prod.snd) = 2 ^ (L - d) := by
  induction t generalizing d with
  | leaf a => simp [CodeTree.depths]
  | node l r ihl ihr =>
    have hd : d + 1 ≤ L := by
      have hnil : l.depths (d + 1) ≠ [] := by
        intro hnil
        have := CodeTree.map_fst_depths (d + 1) l
        rw [hnil] at this
        exact l.leaves_ne_nil this.symm
      obtain ⟨p, hp⟩ := List.exists_mem_of_ne_nil _ hnil
      exact (l.le_of_mem_depths hp).trans (h p (List.mem_append_left _ hp))
    rw [CodeTree.depths, List.map_append, weight_append,
      ihl fun p hp => h p (List.mem_append_left _ hp),
      ihr fun p hp => h p (List.mem_append_right _ hp), ← Nat.two_mul, ← Nat.pow_succ']
    congr 1
    omega

/-- **The loop builds one tree**, whose leaves are as deep in it as the items they start as. -/
theorem buildTree_depths {n : ℕ} {rs : List Root} {s : MergeState} (h : Builds n rs s)
    (hn : n ≤ 257) {fuel : ℕ} (hf : rs.length ≤ fuel) (hne : rs ≠ []) :
    ∃ t D, buildTree fuel rs = some [t] ∧ Depths (rs.map Root.item) D ∧
      ∀ r ∈ rs, ∀ p ∈ r.tree.depths 0, (p.1, p.2 + D r.slot) ∈ t.tree.depths 0 := by
  induction fuel generalizing rs s with
  | zero => exact absurd (List.length_eq_zero_iff.mp (Nat.le_zero.mp hf)) hne
  | succ fuel ih =>
    have hfound := found_lightest h.weighs.weight_le
    -- the search that does not find two trees has but one to find
    have hsingle : rs.length ≤ 1 → ∃ t, rs = [t] ∧ Depths (rs.map Root.item) fun _ => 0 := by
      intro hlen
      obtain ⟨t, rfl⟩ := List.length_eq_one_iff.mp
        (Nat.le_antisymm hlen (List.length_pos_iff.mpr hne))
      exact ⟨t, rfl, .single le_rfl⟩
    have hdone : rs.length ≤ 1 → ∃ t D, some rs = some [t] ∧ Depths (rs.map Root.item) D ∧
        ∀ r ∈ rs, ∀ p ∈ r.tree.depths 0, (p.1, p.2 + D r.slot) ∈ t.tree.depths 0 := by
      intro hlen
      obtain ⟨t, rfl, hD⟩ := hsingle hlen
      refine ⟨t, _, rfl, hD, fun r hr p hp => ?_⟩
      rw [List.mem_singleton.mp hr] at hp
      exact hp
    rw [buildTree]
    rcases hl : lightest rs none none with ⟨_ | a, _ | b⟩
    · exact hdone (by rw [hfound.one (by rw [hl])]; exact Nat.zero_le 1)
    · exact hdone (by rw [hfound.one (by rw [hl])]; exact Nat.zero_le 1)
    · exact hdone (hfound.two (by rw [hl]))
    · obtain ⟨ha, hb, hab⟩ := h.lightest_ne hl
      obtain ⟨_, _, _, _, -, -, hj⟩ := h.join hn ha hb hab
      have hlen := (perm_joinRoots h ha hb hab).length_eq
      have hlen' := (perm_others h ha hb hab).length_eq
      simp only [List.length_cons] at hlen hlen'
      obtain ⟨t, D, hbuild, hD, hleaf⟩ := ih hj (by omega) fun hnil => by
        rw [hnil] at hlen
        simp at hlen
      rw [map_item_joinRoots hab] at hD
      have hpicks := picks_lightest h hl
      refine ⟨t, _, hbuild, .turn hpicks hD, fun r hr p hp => ?_⟩
      by_cases hr2 : r = a ∨ r = b
      · have hdeep : deepen a.item b.item D r.slot = D (a.join b).slot + 1 :=
          deepen_taken (r := r.item) D (hr2.imp (congrArg Root.item) (congrArg Root.item))
        have hmem : (p.1, p.2 + 1) ∈ (a.join b).tree.depths 0 := by
          rw [depths_join]
          refine List.mem_map.mpr ⟨p, List.mem_append.mpr ?_, rfl⟩
          rcases hr2 with rfl | rfl
          · exact Or.inl hp
          · exact Or.inr hp
        have := hleaf _ ((mem_joinRoots ha hab).mpr (Or.inl rfl)) _ hmem
        rw [hdeep]
        convert this using 2
        omega
      · rw [not_or] at hr2
        have hra : r.slot ≠ a.slot := fun heq => hr2.1 (h.slot_inj ha hr heq)
        have hrb : r.slot ≠ b.slot := fun heq => hr2.2 (h.slot_inj hb hr heq)
        have hdeep : deepen a.item b.item D r.slot = D r.slot :=
          deepen_other (r := r.item) D ⟨hra, hrb⟩
        have hmem : r ∈ others a b rs := by simp [others, hr, hra, hrb]
        rw [hdeep]
        exact hleaf r ((mem_joinRoots ha hab).mpr (Or.inr hmem)) p hp

/-! ### The symbols -/

/-- The frequencies, that of the pseudo-symbol being one. -/
def withPseudo (freq : ℕ → ℕ) (i : ℕ) : ℕ := if i = 256 then 1 else freq i

/-- The symbols of the tree. -/
def usedSymbols (freq : ℕ → ℕ) : List ℕ := (List.range 257).filter fun i => withPseudo freq i > 0

/-- The symbols that occur. -/
def realSymbols (freq : ℕ → ℕ) : List ℕ := (List.range 256).filter fun s => 0 < freq s

/-- `codesize` when the merging loop ends. -/
def huffDepths (freq : ℕ → ℕ) : Option (List ℕ) :=
  let nzIndex := usedSymbols freq
  (mergeLoop 257 ⟨nzIndex.map (withPseudo freq), nzIndex.map fun _ => 0,
    nzIndex.map fun _ => none⟩).map MergeState.codesize

/-- The code length the merging loop gives a symbol. -/
def huffDepth (freq : ℕ → ℕ) (s : ℕ) : ℕ :=
  (((usedSymbols freq).zip ((huffDepths freq).getD [])).lookup s).getD 0

theorem genOptimalTable_huffDepths (freq : ℕ → ℕ) :
    genOptimalTable freq = (huffDepths freq).bind (tableOf (usedSymbols freq)) := by
  have hfreq : withPseudo freq = fun i => if i = 256 then 1 else freq i := rfl
  unfold genOptimalTable huffDepths usedSymbols
  simp only [hfreq, Option.bind_map, Option.bind_eq_bind]
  rfl

theorem usedSymbols_eq (freq : ℕ → ℕ) : usedSymbols freq = realSymbols freq ++ [256] := by
  have hreal : (List.range 256).filter (fun i => withPseudo freq i > 0) = realSymbols freq := by
    refine List.filter_congr fun s hs => ?_
    rw [List.mem_range] at hs
    rw [withPseudo, if_neg (by omega)]
  rw [usedSymbols, List.range_succ, List.filter_append, hreal]
  rfl

theorem usedSymbols_nodup (freq : ℕ → ℕ) : (usedSymbols freq).Nodup := List.nodup_range.filter _

theorem withPseudo_pos {freq : ℕ → ℕ} {s : ℕ} (h : s ∈ usedSymbols freq) :
    0 < withPseudo freq s := by
  simpa using (List.mem_filter.mp h).2

theorem length_usedSymbols_le (freq : ℕ → ℕ) : (usedSymbols freq).length ≤ 257 := by
  rw [usedSymbols]
  exact (List.length_filter_le _ _).trans (by rw [List.length_range])

theorem getElem?_items (ws : List ℕ) (i : ℕ) :
    ((singles 0 ws).map Root.item)[i]? = ws[i]?.map fun w => ⟨i, w⟩ := by
  have hsingles : ∀ k, (singles k ws).map Root.item = (ws.zipIdx k).map fun p => ⟨p.2, p.1⟩ := by
    intro k
    induction ws generalizing k with
    | nil => rfl
    | cons w ws ih =>
      rw [singles, List.zipIdx_cons, List.map_cons, List.map_cons, ih]
      rfl
  rw [hsingles, List.getElem?_map, List.getElem?_zipIdx, Option.map_map, Nat.zero_add]
  rfl

theorem Builds.codesize_single {n : ℕ} {t : Root} {s : MergeState} (h : Builds n [t] s) {D : ℕ → ℕ}
    (hD : ∀ i < n, (i, D i) ∈ t.tree.depths 0) :
    s.codesize = (List.range n).map D ∧ s.codesize.Perm ((t.tree.depths 0).map Prod.snd) := by
  have hdepth := h.depth t (List.mem_singleton.mpr rfl)
  have hcode : s.codesize = (List.range n).map D := by
    refine List.ext_getElem (by rw [h.codes, List.length_map, List.length_range]) fun i hi hi' => ?_
    have := hdepth _ (hD i (by rwa [h.codes] at hi))
    rw [List.getD_eq_getElem _ _ hi] at this
    rw [List.getElem_map, List.getElem_range, this]
  have hget : (List.range n).map (fun i => s.codesize.getD i 0) = s.codesize := by
    refine List.ext_getElem (by rw [h.codes, List.length_map, List.length_range]) fun i hi hi' => ?_
    rw [List.getElem_map, List.getElem_range, List.getD_eq_getElem _ _ hi']
  have hleaves : (t.tree.leaves).map (fun i => s.codesize.getD i 0) =
      (t.tree.depths 0).map Prod.snd := by
    rw [← CodeTree.map_fst_depths 0, List.map_map]
    exact List.map_congr_left hdepth
  have hperm : t.tree.leaves.Perm (List.range n) := by
    have := h.perm
    rwa [forestLeaves, List.flatMap_singleton] at this
  have hcodes := hperm.map fun i => s.codesize.getD i 0
  rw [hleaves, hget] at hcodes
  exact ⟨hcode, hcodes.symm⟩

theorem huffDepth_eq {freq : ℕ → ℕ} {D : ℕ → ℕ}
    (h : huffDepths freq = some ((List.range (usedSymbols freq).length).map D)) {i : ℕ}
    (hi : i < (usedSymbols freq).length) : huffDepth freq (usedSymbols freq)[i] = D i := by
  have hnd := usedSymbols_nodup freq
  have hD : (List.range (usedSymbols freq).length).map D =
      (usedSymbols freq).map fun s => D ((usedSymbols freq).idxOf s) := by
    refine List.ext_getElem (by simp) fun i hi hi' => ?_
    rw [List.getElem_map, List.getElem_map, List.getElem_range, hnd.idxOf_getElem]
  have hzip : ∀ l : List ℕ, l.zip (l.map fun s => D ((usedSymbols freq).idxOf s)) =
      l.map fun s => (s, D ((usedSymbols freq).idxOf s)) := by
    intro l
    rw [List.zip_map_right, List.zip, List.zipWith_self, List.map_map]
    rfl
  rw [huffDepth, h, Option.getD_some, hD, hzip, List.lookup_graph _ (List.getElem_mem hi),
    hnd.idxOf_getElem, Option.getD_some]

/-- **The depths of the symbols** go against their frequencies, the pseudo-symbol is the deepest,
and the tree is whole. -/
theorem huffDepths_spec {freq : ℕ → ℕ}
    (hsum : ((usedSymbols freq).map (withPseudo freq)).sum ≤ LIMIT) :
    huffDepths freq = some ((usedSymbols freq).map (huffDepth freq)) ∧
      (∀ s ∈ usedSymbols freq, ∀ t ∈ usedSymbols freq, withPseudo freq s < withPseudo freq t →
        huffDepth freq t ≤ huffDepth freq s) ∧
      (∀ s ∈ usedSymbols freq, huffDepth freq s ≤ huffDepth freq 256) ∧
      ∀ L, (∀ s ∈ usedSymbols freq, huffDepth freq s ≤ L) →
        weight L ((usedSymbols freq).map (huffDepth freq)) = 2 ^ L := by
  obtain ⟨ws, hws⟩ : ∃ ws, (usedSymbols freq).map (withPseudo freq) = ws := ⟨_, rfl⟩
  rw [hws] at hsum
  have hlen : ws.length = (usedSymbols freq).length := by rw [← hws, List.length_map]
  have hn : ws.length ≤ 257 := hlen ▸ length_usedSymbols_le freq
  have hslen : (singles 0 ws).length = ws.length := by
    have := congrArg List.length (weights_singles 0 ws)
    rwa [List.length_map] at this
  have hpos : 0 < ws.length := by
    rw [hlen, usedSymbols_eq, List.length_append]
    exact Nat.succ_pos _
  have hb := builds_singles hsum
  obtain ⟨t, D, hbuild, hD, hleaf⟩ := buildTree_depths hb hn (hslen.trans_le hn)
    (List.length_pos_iff.mp (hslen ▸ hpos))
  obtain ⟨st, hst, hbt⟩ := mergeLoop_eq hb hn hbuild
  -- the item of a symbol
  have hitem : ∀ i (hi : i < (usedSymbols freq).length),
      (⟨i, withPseudo freq (usedSymbols freq)[i]⟩ : Merging.Item ℕ) ∈
      (singles 0 ws).map Root.item := by
    intro i hi
    refine List.mem_of_getElem? (i := i) ?_
    rw [getElem?_items, ← hws, List.getElem?_map, List.getElem?_eq_getElem hi]
    rfl
  have hdepth : ∀ i < ws.length, (i, D i) ∈ t.tree.depths 0 := by
    intro i hi
    obtain ⟨r, hr, heq⟩ := List.mem_map.mp (hitem i (hlen ▸ hi))
    have hslot : r.slot = i := congrArg Merging.Item.key heq
    have := hleaf r hr (i, 0) (by rw [(mem_singles hr).1, hslot]; exact List.mem_singleton.mpr rfl)
    rwa [hslot, Nat.zero_add] at this
  obtain ⟨hcode, hperm⟩ := hbt.codesize_single hdepth
  have hcodes : huffDepths freq = some ((List.range (usedSymbols freq).length).map D) := by
    have hinit : ∀ {β : Type} (x : β), (usedSymbols freq).map (fun _ => x) = ws.map fun _ => x := by
      intro β x
      rw [List.map_const', List.map_const', hlen]
    rw [← hlen, ← hcode]
    unfold huffDepths
    simp only [hws, hinit, hst, Option.map_some]
  have hdep : ∀ i (hi : i < (usedSymbols freq).length),
      huffDepth freq (usedSymbols freq)[i] = D i := fun i hi => huffDepth_eq hcodes hi
  have hmap : (List.range (usedSymbols freq).length).map D =
      (usedSymbols freq).map (huffDepth freq) := by
    refine List.ext_getElem (by simp) fun i hi hi' => ?_
    rw [List.length_map] at hi'
    rw [List.getElem_map, List.getElem_map, List.getElem_range, hdep i hi']
  have hdistinct : Distinct ((singles 0 ws).map Root.item) := by
    constructor
    · rw [List.map_map]
      exact hb.weighs.slots_nodup
    · intro x hx
      obtain ⟨r, hr, rfl⟩ := List.mem_map.mp hx
      have hmem : r.weight ∈ ws := by
        rw [← weights_singles 0 ws]
        exact List.mem_map_of_mem hr
      rw [← hws] at hmem
      obtain ⟨s, hs, hw⟩ := List.mem_map.mp hmem
      show 0 < r.weight
      rw [← hw]
      exact withPseudo_pos hs
  refine ⟨hcodes.trans (congrArg some hmap), ?_, ?_, fun L hL => ?_⟩
  · intro s hs s' hs' hlt
    obtain ⟨i, hi, rfl⟩ := List.getElem_of_mem hs
    obtain ⟨j, hj, rfl⟩ := List.getElem_of_mem hs'
    rw [hdep i hi, hdep j hj]
    exact (hD.ordered hdistinct).heavier _ (hitem i hi) _ (hitem j hj) hlt
  · intro s hs
    obtain ⟨i, hi, rfl⟩ := List.getElem_of_mem hs
    obtain ⟨k, hk⟩ := Nat.exists_eq_add_one.mpr (Nat.zero_lt_of_lt hi)
    have h256 : (usedSymbols freq)[k] = 256 := by
      simp only [usedSymbols_eq, List.length_append, List.length_singleton,
        Nat.add_right_cancel_iff] at hk ⊢
      simp [← hk]
    have hlast : ((singles 0 ws).map Root.item).getLast? = some ⟨k, 1⟩ := by
      rw [List.getLast?_eq_getElem?, List.length_map, hslen, hlen, hk, Nat.add_sub_cancel,
        getElem?_items, ← hws, List.getElem?_map, List.getElem?_eq_getElem (by omega), h256]
      rfl
    have := hD.le_last hdistinct hlast hdistinct.pos (hitem i hi)
    rw [← h256, hdep i hi, hdep k (by omega)]
    exact this
  · have hall : ∀ p ∈ t.tree.depths 0, p.2 ≤ L := by
      intro p hp
      have : p.2 ∈ (usedSymbols freq).map (huffDepth freq) := by
        rw [← hmap, ← hlen, ← hcode]
        exact hperm.symm.subset (List.mem_map_of_mem hp)
      obtain ⟨s, hs, hsp⟩ := List.mem_map.mp this
      exact hsp ▸ hL s hs
    have hweight := weight_depths t.tree hall
    rw [← hmap, ← hlen, ← hcode]
    exact ((hperm.map fun l => 2 ^ (L - l)).sum_nat).trans hweight

end RemotePlay.Jpeg
