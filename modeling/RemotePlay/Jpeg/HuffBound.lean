import RemotePlay.Jpeg.HuffOptimal
import RemotePlay.Lib.MergingDepth

/-! # Which frequencies a table can be made from

`gen_optimal_table` counts the codes of each length in bytes, for lengths up to `MAX_C_LEN`, and
checks neither.  The total of the frequencies bounds the lengths (`huffDepth_lt`), and two symbols
that are not the rarest keep 256 codes from being of one length (`count_huffDepth_lt`).  So a table
is made from any such frequencies, and accepted (`exists_table`). -/

namespace RemotePlay.Jpeg

open RemotePlay.Lib Merging PrefixCode

variable {freq : ℕ → ℕ}

/-! ### The items of the symbols -/

/-- What the merging loop starts with. -/
def symbolItems (freq : ℕ → ℕ) : List (Merging.Item ℕ) :=
  (singles 0 ((usedSymbols freq).map (withPseudo freq))).map Root.item

theorem total_symbolItems (freq : ℕ → ℕ) :
    total (symbolItems freq) = ((List.range 256).map freq).sum + 1 := by
  rw [← sum_withPseudo, total, symbolItems, List.map_map]
  exact congrArg List.sum (weights_singles 0 _)

theorem getElem?_symbolItems {i : ℕ} (hi : i < (usedSymbols freq).length) :
    (symbolItems freq)[i]? = some ⟨i, withPseudo freq (usedSymbols freq)[i]⟩ := by
  rw [symbolItems, getElem?_items, List.getElem?_map, List.getElem?_eq_getElem hi]
  rfl

theorem item_mem {s : ℕ} (hs : s ∈ usedSymbols freq) :
    (⟨(usedSymbols freq).idxOf s, withPseudo freq s⟩ : Merging.Item ℕ) ∈ symbolItems freq := by
  refine List.mem_of_getElem? (i := (usedSymbols freq).idxOf s) ?_
  rw [getElem?_symbolItems (List.idxOf_lt_length_of_mem hs), List.getElem_idxOf]

theorem exists_of_item {r : Merging.Item ℕ} (hr : r ∈ symbolItems freq) :
    ∃ s ∈ usedSymbols freq, r = ⟨(usedSymbols freq).idxOf s, withPseudo freq s⟩ := by
  obtain ⟨i, hi, rfl⟩ := List.getElem_of_mem hr
  have hlen : i < (usedSymbols freq).length := by
    have := congrArg List.length (weights_singles 0 ((usedSymbols freq).map (withPseudo freq)))
    rw [List.length_map, List.length_map] at this
    rw [symbolItems, List.length_map] at hi
    omega
  refine ⟨(usedSymbols freq)[i], List.getElem_mem hlen, ?_⟩
  rw [(usedSymbols_nodup freq).idxOf_getElem]
  exact (List.getElem?_eq_some_iff.mp (getElem?_symbolItems hlen)).2

/-- **The depths of the symbols are those of the items.** -/
theorem huffDepth_items (htotal : ((List.range 256).map freq).sum + 1 ≤ LIMIT) :
    ∃ D, Depths (symbolItems freq) D ∧ Distinct (symbolItems freq) ∧
      ∀ s ∈ usedSymbols freq, huffDepth freq s = D ((usedSymbols freq).idxOf s) := by
  obtain ⟨ws, hws⟩ : ∃ ws, (usedSymbols freq).map (withPseudo freq) = ws := ⟨_, rfl⟩
  have hlen : ws.length = (usedSymbols freq).length := by rw [← hws, List.length_map]
  have hn : ws.length ≤ 257 := hlen ▸ length_usedSymbols_le freq
  have hslen : (singles 0 ws).length = ws.length := by
    have := congrArg List.length (weights_singles 0 ws)
    rwa [List.length_map] at this
  have hpos : 0 < ws.length := by
    rw [hlen, usedSymbols_eq, List.length_append]
    exact Nat.succ_pos _
  have hb : Builds ws.length (singles 0 ws) ⟨ws, ws.map fun _ => 0, ws.map fun _ => none⟩ :=
    builds_singles (by rw [← hws, sum_withPseudo]; exact htotal)
  obtain ⟨t, D, hbuild, hD, hleaf⟩ := buildTree_depths hb hn (hslen.trans_le hn)
    (List.length_pos_iff.mp (hslen ▸ hpos))
  obtain ⟨st, hst, hbt⟩ := mergeLoop_eq hb hn hbuild
  have hdepth : ∀ i < ws.length, (i, D i) ∈ t.tree.depths 0 := by
    intro i hi
    have hmem : (⟨i, ws[i]⟩ : Merging.Item ℕ) ∈ (singles 0 ws).map Root.item := by
      refine List.mem_of_getElem? (i := i) ?_
      rw [getElem?_items, List.getElem?_eq_getElem hi]
      rfl
    obtain ⟨r, hr, heq⟩ := List.mem_map.mp hmem
    have hslot : r.slot = i := congrArg Item.key heq
    have := hleaf r hr (i, 0) (by rw [(mem_singles hr).1, hslot]; exact List.mem_singleton.mpr rfl)
    rwa [hslot, Nat.zero_add] at this
  have hcode := (hbt.codesize_single hdepth).1
  have hcodes : huffDepths freq = some ((List.range (usedSymbols freq).length).map D) := by
    have hinit : ∀ {β : Type} (x : β), (usedSymbols freq).map (fun _ => x) = ws.map fun _ => x := by
      intro β x
      rw [List.map_const', List.map_const', hlen]
    rw [← hlen, ← hcode]
    unfold huffDepths
    simp only [hws, hinit, hst, Option.map_some]
  refine ⟨D, ?_, ?_, fun s hs => ?_⟩
  · rw [symbolItems, hws]
    exact hD
  · constructor
    · rw [symbolItems, hws, List.map_map]
      exact hb.weighs.slots_nodup
    · intro r hr
      obtain ⟨s, hs, rfl⟩ := exists_of_item hr
      exact withPseudo_pos hs
  · have := huffDepth_eq hcodes (List.idxOf_lt_length_of_mem hs)
    rwa [List.getElem_idxOf] at this

/-! ### How deep, and how many -/

/-- **The total of the frequencies bounds the depths.** -/
theorem huffDepth_lt {n : ℕ} (hfib : ((List.range 256).map freq).sum + 1 < Nat.fib (n + 2))
    (htotal : ((List.range 256).map freq).sum + 1 ≤ LIMIT) {s : ℕ} (hs : s ∈ usedSymbols freq) :
    huffDepth freq s < n := by
  obtain ⟨D, hD, hd, heq⟩ := huffDepth_items htotal
  rw [heq s hs]
  exact hD.lt_of_total hd (by rw [total_symbolItems]; exact hfib) (item_mem hs)

/-- A symbol more frequent than the pseudo-symbol and another one together is not among the
deepest. -/
theorem huffDepth_lt_pseudo (htotal : ((List.range 256).map freq).sum + 1 ≤ LIMIT) {s u : ℕ}
    (hs : s ∈ realSymbols freq) (hu : u ∈ realSymbols freq) (hlt : 1 + freq u < freq s) :
    huffDepth freq s < huffDepth freq 256 := by
  obtain ⟨D, hD, hd, heq⟩ := huffDepth_items htotal
  have hlast := (huffDepths_spec ((sum_withPseudo freq).trans_le htotal)).2.2.1
  have h256 : 256 ∈ usedSymbols freq := by simp [usedSymbols_eq]
  have hmem := mem_usedSymbols_of_real hs
  have hmem' := mem_usedSymbols_of_real hu
  have hs256 := (lt_of_mem_realSymbols hs).1
  have hu256 := (lt_of_mem_realSymbols hu).1
  have hne : (usedSymbols freq).idxOf 256 ≠ (usedSymbols freq).idxOf u := by
    rw [Ne, List.idxOf_inj h256]
    omega
  obtain ⟨y, hy, hlt⟩ := hD.lt_deepest hd (item_mem h256) (item_mem hmem') hne (item_mem hmem) (by
    rw [withPseudo, withPseudo, withPseudo, if_pos rfl, if_neg (by omega), if_neg (by omega)]
    exact hlt)
  obtain ⟨t, ht, rfl⟩ := exists_of_item hy
  dsimp only at hlt
  rw [← heq s hmem, ← heq t ht] at hlt
  exact hlt.trans_le (hlast t ht)

/-- Two symbols more frequent than the rarest and the pseudo-symbol together. -/
def TwoFrequent (freq : ℕ → ℕ) : Prop :=
  ∃ u ∈ realSymbols freq, ∃ s ∈ realSymbols freq, ∃ t ∈ realSymbols freq,
    s ≠ t ∧ 1 + freq u < freq s ∧ 1 + freq u < freq t

theorem count_map_add_two_le {α β : Type} [DecidableEq α] [DecidableEq β] {f : α → β} {l : List α}
    {s t : α} (hs : s ∈ l) (ht : t ∈ l) (hst : s ≠ t) {d : β} (hds : f s ≠ d) (hdt : f t ≠ d) :
    (l.map f).count d + 2 ≤ l.length := by
  have hsub : [s, t].Subperm (l.filter fun x => f x ≠ d) := by
    refine List.Nodup.subperm (by simp [hst]) fun x hx => ?_
    simp only [List.mem_filter, decide_eq_true_eq]
    simp only [List.mem_cons, List.not_mem_nil, or_false] at hx
    rcases hx with rfl | rfl
    · exact ⟨hs, hds⟩
    · exact ⟨ht, hdt⟩
  have hle := hsub.length_le
  have hall := List.length_eq_length_filter_add (l := l) fun x => decide (f x = d)
  simp only [← decide_not] at hall
  have hcnt : (l.map f).count d = (l.filter fun x => f x = d).length := by
    rw [List.count, List.countP_map, List.countP_eq_length_filter]
    rfl
  rw [hcnt]
  simp only [List.length_cons, List.length_nil, ne_eq] at hle
  omega

/-- 256 codes of one length would leave no room for a longer code of the pseudo-symbol. -/
theorem count_realSymbols_lt (htotal : ((List.range 256).map freq).sum + 1 ≤ LIMIT) {s : ℕ}
    (hs : s ∈ realSymbols freq) (hdeep : huffDepth freq s < huffDepth freq 256) (d : ℕ) :
    ((realSymbols freq).map (huffDepth freq)).count d < 256 := by
  by_contra hge
  have hreal : (realSymbols freq).length ≤ 256 :=
    (List.length_filter_le _ _).trans (by rw [List.length_range])
  have hlen : ((realSymbols freq).map (huffDepth freq)).length = 256 := by
    have := List.count_le_length (a := d) (l := (realSymbols freq).map (huffDepth freq))
    rw [List.length_map] at this ⊢
    omega
  have hall : ∀ x ∈ (realSymbols freq).map (huffDepth freq), d = x := by
    refine List.count_eq_length.mp (Nat.le_antisymm List.count_le_length ?_)
    omega
  have hd' : d = huffDepth freq s := hall _ (List.mem_map_of_mem hs)
  have hspec := huffDepths_spec ((sum_withPseudo freq).trans_le htotal)
  have hwhole := hspec.2.2.2 (huffDepth freq 256) hspec.2.2.1
  rw [usedSymbols_eq, List.map_append, List.map_singleton,
    List.eq_replicate_of_mem fun x hx => (hall x hx).symm, hlen, weight_append, weight_replicate,
    weight_cons, weight_nil, Nat.sub_self] at hwhole
  obtain ⟨k, hk⟩ : ∃ k, huffDepth freq 256 = k + 1 := Nat.exists_eq_succ_of_ne_zero (by omega)
  rw [hk, Nat.pow_succ] at hwhole
  omega

/-- **No 256 symbols are of one depth**, if there are fewer, or two that are more frequent. -/
theorem count_huffDepth_lt (htotal : ((List.range 256).map freq).sum + 1 ≤ LIMIT)
    (h : (realSymbols freq).length < 255 ∨ TwoFrequent freq) (d : ℕ) :
    ((usedSymbols freq).map (huffDepth freq)).count d < 256 := by
  have hreal : (realSymbols freq).length ≤ 256 :=
    (List.length_filter_le _ _).trans (by rw [List.length_range])
  rcases h with hfew | ⟨u, hu, s, hs, t, ht, hst, hus, hut⟩
  · refine List.count_le_length.trans_lt ?_
    rw [usedSymbols_eq, List.length_map, List.length_append, List.length_singleton]
    omega
  have hdeep := huffDepth_lt_pseudo htotal hs hu hus
  have hdeep' := huffDepth_lt_pseudo htotal ht hu hut
  rw [usedSymbols_eq, List.map_append, List.map_singleton, List.count_append]
  by_cases hd : d = huffDepth freq 256
  · -- the two lie higher
    have hcount :=
      count_map_add_two_le (f := huffDepth freq) (d := d) hs ht hst (by omega) (by omega)
    have hone : [huffDepth freq 256].count d ≤ 1 := List.count_le_length
    omega
  · have hnone : [huffDepth freq 256].count d = 0 :=
      List.count_eq_zero_of_not_mem (by simpa using hd)
    rw [hnone, Nat.add_zero]
    exact count_realSymbols_lt htotal hs hdeep d

/-! ### Making the table -/

theorem exists_table (freq : ℕ → ℕ) (hreal : ∃ s < 256, 0 < freq s)
    (htotal : ((List.range 256).map freq).sum + 1 < Nat.fib 35)
    (h : (realSymbols freq).length < 255 ∨ TwoFrequent freq) {m : ℕ}
    (hm : ∀ s ∈ realSymbols freq, s ≤ m) :
    ∃ htbl tbl, genOptimalTable freq = some htbl ∧ codeLengths htbl.bits ≠ [] ∧
      htbl.listed.Perm (realSymbols freq) ∧ doSetDerivedTbl htbl m = some tbl := by
  have hlimit : ((List.range 256).map freq).sum + 1 ≤ LIMIT :=
    htotal.le.trans (by decide)
  obtain ⟨bits, i, vals, hl, hi, hpos, -, -, heq, hvals, htake⟩ :=
    genOptimalTable_finished hreal hlimit
    (fun s hs => Nat.le_of_lt_succ (huffDepth_lt htotal hlimit hs)) (count_huffDepth_lt hlimit h)
  have hlen := hl.length_finished hi hpos
  rw [usedSymbols_eq, List.length_append, List.length_singleton, Nat.add_right_cancel_iff] at hlen
  have hperm := byDepth_perm fun s hs => Nat.le_of_lt_succ (huffDepth_lt htotal hlimit hs)
  have hlisted : HuffTbl.listed ⟨finished i bits, vals⟩ = byDepth freq := by
    have hle : (codeLengths (finished i bits)).length ≤ vals.length := by
      rw [hvals, hlen, realSymbols]
      exact (List.length_filter_le _ _).trans (by rw [List.length_range])
    rw [← htake, ← hlen]
    exact map_getD_range hle
  have hne : codeLengths (finished i bits) ≠ [] := by
    obtain ⟨s, hs, hfs⟩ := hreal
    have hmem : s ∈ realSymbols freq := by simp [realSymbols, hs, hfs]
    have := List.length_pos_of_mem hmem
    exact List.length_pos_iff.mp (by omega)
  have hsome : (doSetDerivedTbl ⟨finished i bits, vals⟩ m).isSome := by
    have hroom := hl.weight_finished hi hpos
    rw [doSetDerivedTbl_isSome hne, hlisted, hlen]
    refine ⟨⟨(List.length_filter_le _ _).trans (by rw [List.length_range]), ?_⟩,
      hperm.nodup_iff.mpr (List.nodup_range.filter _), fun s hs => hm s (hperm.subset hs)⟩
    have := Nat.two_pow_pos (16 - i)
    dsimp only
    omega
  obtain ⟨tbl, htbl⟩ := Option.isSome_iff_exists.mp hsome
  exact ⟨_, tbl, heq, hne, hlisted ▸ hperm, htbl⟩

theorem ehufsi_listed {htbl : HuffTbl} {m : ℕ} {tbl : DerivedTbl} (hne : codeLengths htbl.bits ≠ [])
    (htbl' : doSetDerivedTbl htbl m = some tbl) {s : ℕ} (hs : s ∈ htbl.listed) :
    0 < tbl.ehufsi s ∧ tbl.ehufsi s ≤ 16 :=
  codeLengths_bounds _ _ (map_ehufsi_listed hne htbl' ▸ List.mem_map_of_mem hs)

/-- **A table is made and accepted**: from all frequencies whose total is below the 35th Fibonacci
number, where 255 or 256 symbols occur if two of them are more frequent than the rarest.  The codes
of a length are never 256, so no count of them wraps around; all symbols that occur have codes, none
of which begins with another. -/
theorem genOptimalTable_accepted (freq : ℕ → ℕ) (hreal : ∃ s < 256, 0 < freq s)
    (htotal : ((List.range 256).map freq).sum + 1 < Nat.fib 35)
    (h : (realSymbols freq).length < 255 ∨ TwoFrequent freq) {m : ℕ}
    (hm : ∀ s ∈ realSymbols freq, s ≤ m) :
    (∀ d, ((usedSymbols freq).map (huffDepth freq)).count d < 256) ∧
    ∃ htbl tbl, genOptimalTable freq = some htbl ∧ doSetDerivedTbl htbl m = some tbl ∧
      htbl.listed.Perm (realSymbols freq) ∧
      (∀ s ∈ realSymbols freq, 0 < tbl.ehufsi s ∧ tbl.ehufsi s ≤ 16) ∧
      ∀ s ∈ realSymbols freq, ∀ t ∈ realSymbols freq, s ≠ t →
        ¬tbl.word s <+: tbl.word t ∧ ¬tbl.word t <+: tbl.word s := by
  obtain ⟨htbl, tbl, heq, hne, hperm, htbl'⟩ := exists_table freq hreal htotal h hm
  have hmem : ∀ s ∈ realSymbols freq, s ∈ htbl.listed := fun s hs => hperm.symm.subset hs
  have hlimit : ((List.range 256).map freq).sum + 1 ≤ LIMIT := htotal.le.trans (by decide)
  exact ⟨count_huffDepth_lt hlimit h, htbl, tbl, heq, htbl', hperm,
    fun s hs => ehufsi_listed hne htbl' (hmem s hs),
    fun s hs t ht hst => word_free hne htbl' (hmem s hs) (hmem t ht) hst⟩

/-- Fibonacci numbers for frequencies give a symbol a depth of 33. -/
example : genOptimalTable (fun s => if s < 33 then Nat.fib (s + 2) else 0) = none := by
  decide +kernel

/-- From the frequencies of 256 symbols, most of them rare. -/
theorem genOptimalTable_accepted_all :
    (∀ d, ((usedSymbols fun s => if s < 2 then 9000000 / 4 else 2).map
      (huffDepth fun s => if s < 2 then 9000000 / 4 else 2)).count d < 256) ∧
    ∃ htbl tbl, genOptimalTable (fun s => if s < 2 then 9000000 / 4 else 2) = some htbl ∧
      doSetDerivedTbl htbl 255 = some tbl ∧
      htbl.listed.Perm (realSymbols fun s => if s < 2 then 9000000 / 4 else 2) ∧
      (∀ s ∈ realSymbols (fun s => if s < 2 then 9000000 / 4 else 2),
        0 < tbl.ehufsi s ∧ tbl.ehufsi s ≤ 16) ∧
      ∀ s ∈ realSymbols (fun s => if s < 2 then 9000000 / 4 else 2),
        ∀ t ∈ realSymbols (fun s => if s < 2 then 9000000 / 4 else 2), s ≠ t →
          ¬tbl.word s <+: tbl.word t ∧ ¬tbl.word t <+: tbl.word s :=
  genOptimalTable_accepted _ ⟨0, by decide, by decide⟩ (by decide +kernel)
    (Or.inr ⟨2, by simp [realSymbols], 0, by simp [realSymbols], 1, by simp [realSymbols],
      by decide,
      by decide, by decide⟩)
    fun s hs => Nat.le_of_lt_succ (lt_of_mem_realSymbols hs).1

end RemotePlay.Jpeg
