import RemotePlay.Jpeg.Huffman
import RemotePlay.Lib.PrefixCode

/-! # The derived tables are prefix codes

`do_set_derived_tbl` gives the symbols listed the words of the canonical code for their lengths
(`huffCodes_eq`).  It panics exactly if there is no code with these lengths, or the symbols are not
listed once each. -/

namespace RemotePlay.Jpeg

open RemotePlay.Lib Bits PrefixCode

/-! ### Lengths -/

/-- The lengths of the codes, in the order of the codes. -/
def codeLengths (bits : List ℕ) : List ℕ :=
  (List.range' 1 16).flatMap fun l => List.replicate (bits.getD l 0) l

/-- The symbols listed for them. -/
def HuffTbl.listed (htbl : HuffTbl) : List ℕ :=
  (List.range (codeLengths htbl.bits).length).map fun p => htbl.huffVals.getD p 0

theorem map_getD_range {xs : List ℕ} {k : ℕ} (hk : k ≤ xs.length) :
    ((List.range k).map fun p => xs.getD p 0) = xs.take k := by
  refine List.ext_getElem (by simp; omega) fun p hp hp' => ?_
  rw [List.length_map, List.length_range] at hp
  rw [List.getElem_map, List.getElem_range, List.getElem_take, List.getD_eq_getElem _ _ (by omega)]

/-- The code word of a symbol. -/
def DerivedTbl.word (tbl : DerivedTbl) (s : ℕ) : List Bool := bits (tbl.ehufsi s) (tbl.ehufco s)

theorem huffSizes_eq (bits : List ℕ) : huffSizes bits =
    if (codeLengths bits).length ≤ 256 then some (codeLengths bits) else none := rfl

theorem codeLengths_bounds (bits : List ℕ) : ∀ l ∈ codeLengths bits, 0 < l ∧ l ≤ 16 := by
  intro l hl
  obtain ⟨k, hk, hl⟩ := List.mem_flatMap.mp hl
  rw [List.eq_of_mem_replicate hl]
  rw [List.mem_range'_1] at hk
  omega

theorem codeLengths_sorted (bits : List ℕ) : (codeLengths bits).Pairwise (· ≤ ·) := by
  refine List.pairwise_flatMap.mpr ⟨fun l _ => ?_, ?_⟩
  · exact List.pairwise_replicate.mpr (Or.inr le_rfl)
  · refine List.Pairwise.imp (fun {a b} hab x hx y hy => ?_) List.pairwise_lt_range'
    rw [List.eq_of_mem_replicate hx, List.eq_of_mem_replicate hy]
    exact hab.le

/-! ### Codes -/

theorem takeWhile_length_split {si : ℕ} {ls : List ℕ} (hs : ls.Pairwise (· ≤ ·))
    (hge : ∀ l ∈ ls, si ≤ l) : ∃ rest, ls.drop (ls.takeWhile (· == si)).length = rest ∧
      ls = List.replicate (ls.takeWhile (· == si)).length si ++ rest ∧ ∀ l ∈ rest, si < l := by
  induction ls with
  | nil => exact ⟨[], rfl, rfl, by simp⟩
  | cons l ls ih =>
    rw [List.pairwise_cons] at hs
    obtain ⟨rest, hdrop, hsplit, hlt⟩ := ih hs.2 fun k hk => hge k (List.mem_cons_of_mem _ hk)
    by_cases hl : l = si
    · subst hl
      refine ⟨rest, ?_, ?_, hlt⟩
      · simpa using hdrop
      · rw [List.takeWhile_cons, if_pos (by simp), List.length_cons, List.replicate_succ,
          List.cons_append, ← hsplit]
    · have hle := hge l List.mem_cons_self
      refine ⟨l :: ls, ?_, ?_, ?_⟩
      · simp [hl]
      · simp [hl]
      · rintro k (_ | ⟨_, hk⟩)
        · omega
        · have := hs.1 k hk
          omega

theorem canonical_replicate {L si : ℕ} (code n : ℕ) (rest : List ℕ) :
    canonical L (code * 2 ^ (L - si)) (List.replicate n si ++ rest) =
      (List.range n).map (code + ·) ++ canonical L ((code + n) * 2 ^ (L - si)) rest := by
  induction n generalizing code with
  | zero => rfl
  | succ n ih =>
    have hnext : code * 2 ^ (L - si) + 2 ^ (L - si) = (code + 1) * 2 ^ (L - si) := by ring
    rw [List.replicate_succ, List.cons_append, canonical, hnext, ih,
      Nat.mul_div_cancel _ (Nat.two_pow_pos _), List.range_succ_eq_map, List.map_cons, List.map_map,
      List.cons_append, Nat.add_zero, show code + 1 + n = code + (n + 1) by omega]
    congr 2
    refine List.map_congr_left fun i _ => ?_
    simp only [Function.comp_apply]
    omega

/-- **The codes are the canonical ones**, as long as there is room. -/
theorem huffCodes_eq {fuel si code : ℕ} {ls : List ℕ} (hs : ls.Pairwise (· ≤ ·))
    (hge : ∀ l ∈ ls, si ≤ l ∧ l ≤ 16) (hfuel : 17 ≤ si + fuel) :
    huffCodes fuel si code ls =
      if ls = [] ∨ code * 2 ^ (16 - si) + weight 16 ls < 2 ^ 16 then
        some (canonical 16 (code * 2 ^ (16 - si)) ls)
      else none := by
  induction fuel generalizing si code ls with
  | zero =>
    rcases ls with _ | ⟨l, ls⟩
    · rfl
    · have := hge l List.mem_cons_self
      omega
  | succ fuel ih =>
    rcases ls with _ | ⟨l, ls⟩
    · rfl
    have hsi : si ≤ 16 := by
      have := hge l List.mem_cons_self
      omega
    obtain ⟨rest, hdrop, hsplit, hlt⟩ := takeWhile_length_split hs fun k hk => (hge k hk).1
    simp only [huffCodes]
    generalize ((l :: ls).takeWhile (· == si)).length = n at hdrop hsplit ⊢
    rw [hdrop]
    have hpow : 2 ^ 16 = 2 ^ si * 2 ^ (16 - si) := by rw [← Nat.pow_add, Nat.add_sub_cancel' hsi]
    have hweight : code * 2 ^ (16 - si) + weight 16 (l :: ls) =
        (code + n) * 2 ^ (16 - si) + weight 16 rest := by
      rw [hsplit, weight_append, weight_replicate]
      ring
    have hcheck : code + n ≥ 2 ^ si ↔ 2 ^ 16 ≤ (code + n) * 2 ^ (16 - si) := by
      rw [hpow]
      exact (Nat.mul_le_mul_right_iff (Nat.two_pow_pos _)).symm
    have hcanon : canonical 16 (code * 2 ^ (16 - si)) (l :: ls) =
        (List.range n).map (code + ·) ++ canonical 16 ((code + n) * 2 ^ (16 - si)) rest := by
      rw [hsplit, canonical_replicate]
    rw [hweight, hcanon]
    by_cases hbad : code + n ≥ 2 ^ si
    · have := hcheck.mp hbad
      rw [if_pos hbad, if_neg (by simp; omega)]
    have hroom : (code + n) * 2 ^ (16 - si) < 2 ^ 16 := not_le.mp (hcheck.not.mp hbad)
    have hrest : huffCodes fuel (si + 1) ((code + n) * 2) rest =
        if rest = [] ∨ (code + n) * 2 ^ (16 - si) + weight 16 rest < 2 ^ 16 then
          some (canonical 16 ((code + n) * 2 ^ (16 - si)) rest)
        else none := by
      rcases rest with _ | ⟨r, rs⟩
      · cases fuel <;> rfl
      · have hr : ∀ k ∈ r :: rs, si + 1 ≤ k ∧ k ≤ 16 := fun k hk =>
          ⟨hlt k hk, (hge k (hsplit ▸ List.mem_append_right _ hk)).2⟩
        have hr16 := hr r List.mem_cons_self
        have hsorted : (r :: rs).Pairwise (· ≤ ·) := (List.pairwise_append.mp (hsplit ▸ hs)).2.1
        have hnext : (code + n) * 2 * 2 ^ (16 - (si + 1)) = (code + n) * 2 ^ (16 - si) := by
          rw [Nat.mul_assoc, ← Nat.pow_succ', show (16 - (si + 1)).succ = 16 - si by omega]
        rw [ih hsorted hr (by omega), hnext]
    rw [if_neg hbad, hrest]
    rcases rest with _ | ⟨r, rs⟩
    · rw [if_pos (Or.inl rfl), if_pos (Or.inr (by simpa using hroom)), Option.map_some]
    · simp only [reduceCtorEq, false_or]
      split_ifs <;> rfl

/-! ### Entries -/

theorem setEntries_isSome {m : ℕ} {es : List (ℕ × ℕ × ℕ)} {tbl : DerivedTbl}
    (hpos : ∀ e ∈ es, 0 < e.2.2) : (setEntries m es tbl).isSome ↔
      (es.map Prod.fst).Nodup ∧ ∀ e ∈ es, e.1 ≤ m ∧ tbl.ehufsi e.1 = 0 := by
  induction es generalizing tbl with
  | nil => simp [setEntries]
  | cons e es ih =>
    obtain ⟨i, code, size⟩ := e
    have hsize := hpos _ List.mem_cons_self
    rw [setEntries, List.map_cons, List.nodup_cons, List.forall_mem_cons]
    by_cases hbad : i > m ∨ tbl.ehufsi i > 0
    · rw [if_pos hbad]
      simp only [Option.isSome_none, Bool.false_eq_true, false_iff]
      rintro ⟨-, ⟨h1, h2⟩, -⟩
      omega
    · rw [if_neg hbad, ih fun e he => hpos e (List.mem_cons_of_mem _ he)]
      dsimp only at hsize ⊢
      constructor
      · rintro ⟨hnd, hall⟩
        have hnew : ∀ e ∈ es, e.1 ≠ i := by
          rintro e he rfl
          have hzero := (hall e he).2
          rw [Function.update_self] at hzero
          omega
        refine ⟨⟨?_, hnd⟩, ⟨by omega, by omega⟩, fun e he => ?_⟩
        · rintro hi
          obtain ⟨e, he, hei⟩ := List.mem_map.mp hi
          exact hnew e he hei
        · have := hall e he
          rwa [Function.update_of_ne (hnew e he)] at this
      · rintro ⟨⟨hi, hnd⟩, -, hall⟩
        refine ⟨hnd, fun e he => ?_⟩
        have hne : e.1 ≠ i := by
          intro heq
          exact hi (heq ▸ List.mem_map_of_mem he)
        rw [Function.update_of_ne hne]
        exact hall e he

theorem setEntries_values {m : ℕ} {es : List (ℕ × ℕ × ℕ)} {tbl tbl' : DerivedTbl}
    (h : setEntries m es tbl = some tbl') (hnd : (es.map Prod.fst).Nodup) :
    (∀ e ∈ es, tbl'.ehufco e.1 = e.2.1 ∧ tbl'.ehufsi e.1 = e.2.2) ∧
      ∀ s, s ∉ es.map Prod.fst → tbl'.ehufsi s = tbl.ehufsi s ∧ tbl'.ehufco s = tbl.ehufco s := by
  induction es generalizing tbl with
  | nil =>
    cases h
    simp
  | cons e es ih =>
    obtain ⟨i, code, size⟩ := e
    rw [setEntries] at h
    split_ifs at h with hbad
    rw [List.map_cons, List.nodup_cons] at hnd
    obtain ⟨hval, hrest⟩ := ih h hnd.2
    dsimp only at hnd hrest ⊢
    refine ⟨List.forall_mem_cons.mpr ⟨?_, hval⟩, fun s hs => ?_⟩
    · obtain ⟨h1, h2⟩ := hrest i hnd.1
      rw [Function.update_self] at h1 h2
      exact ⟨h2, h1⟩
    · rw [List.map_cons, List.mem_cons, not_or] at hs
      dsimp only at hs
      obtain ⟨h1, h2⟩ := hrest s hs.2
      rw [Function.update_of_ne hs.1] at h1 h2
      exact ⟨h1, h2⟩

/-! ### The whole table -/

/-- The entries of the listed symbols. -/
def HuffTbl.entries (htbl : HuffTbl) : List (ℕ × ℕ × ℕ) :=
  let lens := codeLengths htbl.bits
  (List.range lens.length).map fun p =>
    (htbl.huffVals.getD p 0, (canonical 16 0 lens).getD p 0, lens.getD p 0)

theorem map_snd_entries (htbl : HuffTbl) : (htbl.entries.map fun e => (e.2.2, e.2.1)) =
    (codeLengths htbl.bits).zip (canonical 16 0 (codeLengths htbl.bits)) := by
  refine List.ext_getElem ?_ fun p hp hp' => ?_
  · simp [HuffTbl.entries, length_canonical]
  · have hlen : p < (codeLengths htbl.bits).length := by simpa [HuffTbl.entries] using hp
    have hcanon : p < (canonical 16 0 (codeLengths htbl.bits)).length := by
      rwa [length_canonical]
    simp [HuffTbl.entries, List.getElem?_eq_getElem hlen, List.getElem?_eq_getElem hcanon]

theorem map_fst_entries (htbl : HuffTbl) : htbl.entries.map Prod.fst = htbl.listed := by
  rw [HuffTbl.entries, List.map_map]
  rfl

theorem entries_pos (htbl : HuffTbl) : ∀ e ∈ htbl.entries, 0 < e.2.2 := by
  rintro e he
  obtain ⟨p, hp, rfl⟩ := List.mem_map.mp he
  rw [List.mem_range] at hp
  simp only [List.getD_eq_getElem _ _ hp]
  exact (codeLengths_bounds _ _ (List.getElem_mem hp)).1

/-- **The entries are set if there is room for the codes.** -/
theorem doSetDerivedTbl_eq {htbl : HuffTbl} {m : ℕ} (h : codeLengths htbl.bits ≠ []) :
    doSetDerivedTbl htbl m =
      if (codeLengths htbl.bits).length ≤ 256 ∧ weight 16 (codeLengths htbl.bits) < 2 ^ 16 then
        setEntries m htbl.entries ⟨fun _ => 0, fun _ => 0⟩
      else none := by
  have hs := codeLengths_sorted htbl.bits
  have hb := codeLengths_bounds htbl.bits
  rw [doSetDerivedTbl, huffSizes_eq]
  by_cases hlen : (codeLengths htbl.bits).length ≤ 256
  · have hfirst : ∀ l ∈ codeLengths htbl.bits, (codeLengths htbl.bits).getD 0 0 ≤ l ∧ l ≤ 16 := by
      intro l hl
      refine ⟨?_, (hb l hl).2⟩
      rcases hls : codeLengths htbl.bits with _ | ⟨k, ks⟩
      · exact absurd hls h
      · rw [hls] at hl hs
        rcases List.mem_cons.mp hl with rfl | hl
        · exact le_rfl
        · exact (List.pairwise_cons.mp hs).1 l hl
    have hcodes := @huffCodes_eq 17 _ 0 _ hs hfirst (Nat.le_add_left 17 _)
    rw [Nat.zero_mul, Nat.zero_add] at hcodes
    simp only [h, false_or] at hcodes
    rw [if_pos hlen]
    simp only [Option.bind_eq_bind, Option.bind_some, hcodes, hlen, true_and]
    split_ifs with hroom
    · rw [Option.bind_some, Nat.max_eq_left (List.length_pos_iff.mpr h)]
      rfl
    · rfl
  · rw [if_neg hlen, if_neg fun hc => hlen hc.1]
    rfl

theorem map_word_listed {htbl : HuffTbl} {tbl : DerivedTbl}
    (h : ∀ e ∈ htbl.entries, tbl.ehufco e.1 = e.2.1 ∧ tbl.ehufsi e.1 = e.2.2) :
    htbl.listed.map tbl.word = canonicalWords 16 0 (codeLengths htbl.bits) := by
  have hword : ∀ e ∈ htbl.entries, tbl.word e.1 = bits e.2.2 e.2.1 := fun e he => by
    rw [DerivedTbl.word, (h e he).1, (h e he).2]
  rw [← map_fst_entries, List.map_map, canonicalWords, ← map_snd_entries, List.map_map]
  exact List.map_congr_left hword

theorem doSetDerivedTbl_isSome {htbl : HuffTbl} {m : ℕ} (h : codeLengths htbl.bits ≠ []) :
    (doSetDerivedTbl htbl m).isSome ↔
      ((codeLengths htbl.bits).length ≤ 256 ∧ weight 16 (codeLengths htbl.bits) < 2 ^ 16) ∧
        htbl.listed.Nodup ∧ ∀ s ∈ htbl.listed, s ≤ m := by
  rw [doSetDerivedTbl_eq h]
  by_cases hroom : (codeLengths htbl.bits).length ≤ 256 ∧ weight 16 (codeLengths htbl.bits) < 2 ^ 16
  · rw [if_pos hroom, setEntries_isSome (entries_pos htbl), map_fst_entries]
    have hle : (∀ e ∈ htbl.entries, e.1 ≤ m ∧ (0 : ℕ) = 0) ↔ ∀ s ∈ htbl.listed, s ≤ m := by
      rw [← map_fst_entries]
      simp
    rw [hle]
    exact (and_iff_right hroom).symm
  · rw [if_neg hroom]
    simp only [Option.isSome_none, Bool.false_eq_true, false_iff, not_and]
    exact fun hr => absurd hr hroom

theorem ehufco_entries {htbl : HuffTbl} {m : ℕ} {tbl : DerivedTbl} (h : codeLengths htbl.bits ≠ [])
    (ht : doSetDerivedTbl htbl m = some tbl) :
    (∀ e ∈ htbl.entries, tbl.ehufco e.1 = e.2.1 ∧ tbl.ehufsi e.1 = e.2.2) ∧
      ∀ s, s ∉ htbl.listed → tbl.ehufsi s = 0 := by
  obtain ⟨hroom, hnd, -⟩ := (doSetDerivedTbl_isSome h).mp (Option.isSome_of_mem ht)
  rw [doSetDerivedTbl_eq h, if_pos hroom] at ht
  obtain ⟨hval, hrest⟩ := setEntries_values ht (map_fst_entries htbl ▸ hnd)
  exact ⟨hval, fun s hs => (hrest s (map_fst_entries htbl ▸ hs)).1⟩

/-- **The words of a table that is accepted are a code** with the lengths listed. -/
theorem isCode_listed {htbl : HuffTbl} {m : ℕ} {tbl : DerivedTbl} (h : codeLengths htbl.bits ≠ [])
    (ht : doSetDerivedTbl htbl m = some tbl) :
    IsCode (codeLengths htbl.bits) (htbl.listed.map tbl.word) := by
  obtain ⟨hroom, -, -⟩ := (doSetDerivedTbl_isSome h).mp (Option.isSome_of_mem ht)
  have hb := codeLengths_bounds htbl.bits
  rw [map_word_listed (ehufco_entries h ht).1]
  exact isCode_canonical (codeLengths_sorted htbl.bits) (fun l hl => (hb l hl).2)
    (fun l _ => Nat.dvd_zero _) (by rw [Nat.zero_add]; exact hroom.2)

theorem map_ehufsi_listed {htbl : HuffTbl} {m : ℕ} {tbl : DerivedTbl}
    (h : codeLengths htbl.bits ≠ []) (ht : doSetDerivedTbl htbl m = some tbl) :
    htbl.listed.map tbl.ehufsi = codeLengths htbl.bits := by
  rw [← (isCode_listed h ht).lengths, List.map_map]
  exact List.map_congr_left fun s _ => (length_bits _ _).symm

theorem word_free {htbl : HuffTbl} {m : ℕ} {tbl : DerivedTbl} (h : codeLengths htbl.bits ≠ [])
    (ht : doSetDerivedTbl htbl m = some tbl) {s s' : ℕ} (hs : s ∈ htbl.listed)
    (hs' : s' ∈ htbl.listed) (hne : s ≠ s') :
    ¬tbl.word s <+: tbl.word s' ∧ ¬tbl.word s' <+: tbl.word s := by
  have hfree := List.pairwise_map.mp (isCode_listed h ht).free
  have : Std.Symm fun s s' => ¬tbl.word s <+: tbl.word s' ∧ ¬tbl.word s' <+: tbl.word s :=
    ⟨fun s s' h => ⟨h.2, h.1⟩⟩
  exact List.Pairwise.forall hfree hs hs' hne

theorem ehufco_lt {htbl : HuffTbl} {m : ℕ} {tbl : DerivedTbl} (h : codeLengths htbl.bits ≠ [])
    (ht : doSetDerivedTbl htbl m = some tbl) {s : ℕ} (hs : s ∈ htbl.listed) :
    tbl.ehufco s < 2 ^ tbl.ehufsi s := by
  have hb := codeLengths_bounds htbl.bits
  obtain ⟨hroom, -, -⟩ := (doSetDerivedTbl_isSome h).mp (Option.isSome_of_mem ht)
  rw [← map_fst_entries] at hs
  obtain ⟨e, he, rfl⟩ := List.mem_map.mp hs
  obtain ⟨hco, hsi⟩ := (ehufco_entries h ht).1 e he
  have hmem : (e.2.2, e.2.1) ∈ htbl.entries.map fun e => (e.2.2, e.2.1) := List.mem_map_of_mem he
  rw [map_snd_entries] at hmem
  obtain ⟨hl, -, hpart⟩ :=
    mem_zip_canonical (codeLengths_sorted htbl.bits) (fun l hl => (hb l hl).2)
    (fun l _ => Nat.dvd_zero _) hmem
  dsimp only at hl hpart
  have hlt := hroom.2
  rw [hco, hsi]
  exact lt_of_part (hb _ hl).2 (by omega)

theorem mem_listed {htbl : HuffTbl} {m : ℕ} {tbl : DerivedTbl} (h : codeLengths htbl.bits ≠ [])
    (ht : doSetDerivedTbl htbl m = some tbl) {s : ℕ} (hs : 0 < tbl.ehufsi s) : s ∈ htbl.listed := by
  by_contra hno
  rw [(ehufco_entries h ht).2 s hno] at hs
  exact Nat.lt_irrefl 0 hs

/-- **`do_set_derived_tbl` accepts exactly the legal tables**, and gives the listed symbols, and no
others, the words of a prefix code with the lengths listed. -/
theorem doSetDerivedTbl_spec (htbl : HuffTbl) (m : ℕ) (h : codeLengths htbl.bits ≠ []) :
    (doSetDerivedTbl htbl m = none ↔
      256 < (codeLengths htbl.bits).length ∨ (¬∃ ws, IsCode (codeLengths htbl.bits) ws) ∨
        ¬htbl.listed.Nodup ∨ ∃ s ∈ htbl.listed, m < s) ∧
      ∀ tbl, doSetDerivedTbl htbl m = some tbl →
        htbl.listed.map tbl.ehufsi = codeLengths htbl.bits ∧
        (∀ s ∈ htbl.listed, ∀ s' ∈ htbl.listed, s ≠ s' → ¬tbl.word s <+: tbl.word s') ∧
        (∀ s ∈ htbl.listed, tbl.ehufco s < 2 ^ tbl.ehufsi s ∧ false ∈ tbl.word s) ∧
        ∀ s, s ∉ htbl.listed → tbl.ehufsi s = 0 := by
  rw [exists_isCode_iff (codeLengths_sorted htbl.bits) (codeLengths_bounds htbl.bits)]
  refine ⟨?_, fun tbl ht => ?_⟩
  · rw [← Option.not_isSome_iff_eq_none, doSetDerivedTbl_isSome h]
    simp only [not_and_or, not_le, not_forall, exists_prop, or_assoc]
  · have hcode := isCode_listed h ht
    exact ⟨map_ehufsi_listed h ht, fun s hs s' hs' hne => (word_free h ht hs hs' hne).1,
      fun s hs => ⟨ehufco_lt h ht hs, hcode.zero _ (List.mem_map_of_mem hs)⟩,
      (ehufco_entries h ht).2⟩

/-- A table with a gap in its lengths is accepted, and one whose last word is all ones is not. -/
theorem doSetDerivedTbl_spec_two :
    doSetDerivedTbl ⟨[0, 1, 0, 1], [7, 9]⟩ 15 ≠ none ∧ (∃ ws, IsCode [1, 3] ws) ∧
      doSetDerivedTbl ⟨[0, 2], [7, 9]⟩ 15 = none ∧ ¬∃ ws, IsCode [1, 1] ws := by
  have haccepted : (doSetDerivedTbl ⟨[0, 1, 0, 1], [7, 9]⟩ 15).isNone = false := by decide +kernel
  have hrejected : (doSetDerivedTbl ⟨[0, 2], [7, 9]⟩ 15).isNone = true := by decide +kernel
  have hsome : doSetDerivedTbl ⟨[0, 1, 0, 1], [7, 9]⟩ 15 ≠ none := fun hnone => by
    rw [hnone] at haccepted
    cases haccepted
  have hnone := Option.isNone_iff_eq_none.mp hrejected
  refine ⟨hsome, ?_, hnone, ?_⟩
  · by_contra hcode
    exact hsome ((doSetDerivedTbl_spec ⟨[0, 1, 0, 1], [7, 9]⟩ 15 (by decide)).1.mpr
      (.inr (.inl hcode)))
  · rcases (doSetDerivedTbl_spec ⟨[0, 2], [7, 9]⟩ 15 (by decide)).1.mp hnone with h | h | h | h
    · exact absurd h (by decide)
    · exact h
    · exact absurd h (by decide)
    · exact absurd h (by decide)

end RemotePlay.Jpeg
