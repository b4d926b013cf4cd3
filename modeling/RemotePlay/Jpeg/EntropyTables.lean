import RemotePlay.Jpeg.HuffTree
import RemotePlay.Jpeg.DerivedTbl
import RemotePlay.Jpeg.Symbols
import RemotePlay.Jpeg.Quant

/-! # The tables in use

In plain mode the standard tables are used and in delta mode those `gen_optimal_table` makes.  Every
one is accepted by `do_set_derived_tbl`, and its symbols are the sizes up to a bound for DC
(`dcDerivedTbl_spec`) and the runs with the sizes up to a bound for AC (`acDerivedTbl_spec`): ten
bits in the standard tables and eleven in those of delta mode. -/

namespace RemotePlay.Jpeg

/-- The standard DC table: how many codes there are of each length. -/
def TblNo.bitsDc : TblNo → List ℕ
  | luminance => BITS_DC_LUMINANCE
  | chrominance => BITS_DC_CHROMINANCE

/-- Its symbols. -/
def TblNo.valDc : TblNo → List ℕ
  | luminance => VAL_DC_LUMINANCE
  | chrominance => VAL_DC_CHROMINANCE

/-- The standard AC table: how many codes there are of each length. -/
def TblNo.bitsAc : TblNo → List ℕ
  | luminance => BITS_AC_LUMINANCE
  | chrominance => BITS_AC_CHROMINANCE

/-- Its symbols. -/
def TblNo.valAc : TblNo → List ℕ
  | luminance => VAL_AC_LUMINANCE
  | chrominance => VAL_AC_CHROMINANCE

/-- The DC table, `dq` saying that it is for delta mode. -/
def dcHuffTbl (dq : Bool) (t : TblNo) : Option HuffTbl :=
  if dq then genOptimalTable dqDcFreq else addHuffTable t.bitsDc t.valDc

/-- The AC table. -/
def acHuffTbl (dq : Bool) (t : TblNo) : Option HuffTbl :=
  if dq then genOptimalTable (dqAcFreq t.valAc) else addHuffTable t.bitsAc t.valAc

/-- `set_derived_tbl` for a DC table. -/
def dcDerivedTbl (dq : Bool) (t : TblNo) : Option DerivedTbl := do
  doSetDerivedTbl (← dcHuffTbl dq t) (if dq then 16 else 15)

/-- `set_derived_tbl` for an AC table. -/
def acDerivedTbl (dq : Bool) (t : TblNo) : Option DerivedTbl := do
  doSetDerivedTbl (← acHuffTbl dq t) 255

/-! ### Sets of symbols as numbers -/

/-- The number whose bits are the members of a list. -/
def maskOf (l : List ℕ) : ℕ := l.foldr (fun v m => 2 ^ v ||| m) 0

theorem testBit_maskOf (l : List ℕ) (v : ℕ) : (maskOf l).testBit v = decide (v ∈ l) := by
  induction l with
  | nil => simp [maskOf]
  | cons a l ih =>
    rw [maskOf, List.foldr_cons, ← maskOf, Nat.testBit_or, ih, Nat.testBit_two_pow]
    simp only [List.mem_cons, eq_comm (a := a), Bool.decide_or]

theorem mem_iff_of_maskOf {l l' : List ℕ} (h : maskOf l = maskOf l') (v : ℕ) : v ∈ l ↔ v ∈ l' := by
  have := congrArg (Nat.testBit · v) h
  simpa only [testBit_maskOf, decide_eq_decide] using this

theorem acSymbols_nodup {n : ℕ} (hn : n ≤ 15) : (acSymbols n).Nodup := by
  have hruns : ((List.range 16).flatMap fun run =>
      (List.range n).map fun k => run * 16 + (k + 1)).Nodup := by
    refine List.nodup_flatMap.mpr ⟨fun run _ => ?_, ?_⟩
    · exact List.nodup_range.map fun k k' h => by simpa using h
    · refine List.nodup_range.imp fun {r r'} hne => ?_
      intro x hx hx'
      obtain ⟨k, hk, rfl⟩ := List.mem_map.mp hx
      obtain ⟨k', hk', h⟩ := List.mem_map.mp hx'
      rw [List.mem_range] at hk hk'
      exact hne (by omega)
  have hmem : ∀ {x}, x ∈ ((List.range 16).flatMap fun run =>
      (List.range n).map fun k => run * 16 + (k + 1)) → 0 < x % 16 := by
    intro x hx
    obtain ⟨run, -, hx⟩ := List.mem_flatMap.mp hx
    obtain ⟨k, hk, rfl⟩ := List.mem_map.mp hx
    rw [List.mem_range] at hk
    omega
  refine List.nodup_cons.mpr ⟨fun h => ?_, List.nodup_cons.mpr ⟨fun h => ?_, hruns⟩⟩
  · rcases List.mem_cons.mp h with h | h
    · cases h
    · exact absurd (hmem h) (by decide)
  · exact absurd (hmem h) (by decide)

/-! ### Tables that are accepted -/

/-- The lengths of a table leave codes free, for as many symbols as a list has, and these are the
table's symbols. -/
def codesJust (htbl : HuffTbl) (syms : List ℕ) : Bool :=
  (huffSizes htbl.bits).map List.length == some syms.length &&
    ((huffSizes htbl.bits).bind fun sizes => huffCodes 17 (sizes.getD 0 0) 0 sizes).isSome &&
    syms.length ≤ htbl.huffVals.length &&
    maskOf (htbl.huffVals.take syms.length) == maskOf syms

/-- **Such a table is accepted, and gives codes to just these symbols.** -/
theorem doSetDerivedTbl_of_codesJust {htbl : HuffTbl} {m : ℕ} {syms : List ℕ}
    (h : codesJust htbl syms = true) (hnd : syms.Nodup) (hne : syms ≠ [])
    (hle : ∀ s ∈ syms, s ≤ m) :
    ∃ tbl, doSetDerivedTbl htbl m = some tbl ∧ ∀ s, 0 < tbl.ehufsi s ↔ s ∈ syms := by
  simp only [codesJust, Bool.and_eq_true, beq_iff_eq, decide_eq_true_eq] at h
  obtain ⟨⟨⟨hsizes, hcodes⟩, hvals⟩, hmask⟩ := h
  obtain ⟨sizes, hsz, hlen⟩ := Option.map_eq_some_iff.mp hsizes
  rw [hsz, Option.bind_some] at hcodes
  obtain ⟨codes, hcd⟩ := Option.isSome_iff_exists.mp hcodes
  have hmem := mem_iff_of_maskOf hmask
  have htake : (List.range sizes.length).map (fun p => htbl.huffVals.getD p 0) =
      htbl.huffVals.take syms.length := by
    rw [hlen, map_getD_range (by simpa using hvals)]
  have hndv : (htbl.huffVals.take syms.length).Nodup := by
    have hsub := hnd.subperm fun s hs => (hmem s).mpr hs
    exact (hsub.perm_of_length_le (by simp)).nodup_iff.mp hnd
  have hpos : 0 < sizes.length := by
    rw [hlen]
    exact List.length_pos_iff.mpr hne
  have hsome : (doSetDerivedTbl htbl m).isSome := by
    simp only [doSetDerivedTbl, hsz, hcd, Option.bind_eq_bind, Option.bind_some,
      Nat.max_eq_left hpos]
    refine (setEntries_isSome fun e he => ?_).mpr ⟨?_, fun e he => ⟨?_, rfl⟩⟩
    · obtain ⟨p, hp, rfl⟩ := List.mem_map.mp he
      rw [List.mem_range] at hp
      simp only [List.getD_eq_getElem _ _ hp]
      exact (huffSizes_mem hsz (List.getElem_mem hp)).1
    · rw [List.map_map]
      exact htake ▸ hndv
    · obtain ⟨p, hp, rfl⟩ := List.mem_map.mp he
      refine hle _ ((hmem _).mp ?_)
      rw [← htake]
      exact List.mem_map.mpr ⟨p, hp, rfl⟩
  obtain ⟨tbl, htbl'⟩ := Option.isSome_iff_exists.mp hsome
  refine ⟨tbl, htbl', fun s => ?_⟩
  rw [ehufsi_pos htbl' hsz (List.length_pos_iff.mp hpos), ← hmem, ← htake]
  simp [List.mem_map, List.mem_range]

/-! ### The frequencies of delta mode -/

/-- The frequencies of the AC symbols for luminance. -/
def dqFreqLuminance : List ℕ :=
  [175, 178, 177, 176, 174, 172, 167, 163, 155, 141, 140, 16, 0, 0, 0, 0, 0, 173, 171, 166, 160,
    150, 139, 138, 137, 136, 135, 15, 0, 0, 0, 0, 0, 170, 162, 154, 146, 134, 133, 132, 131, 130,
    129, 14, 0, 0, 0, 0, 0, 169, 159, 145, 128, 127, 126, 125, 124, 123, 122, 13, 0, 0, 0, 0, 0,
    168, 153, 121, 120, 119, 118, 117, 116, 115, 114, 12, 0, 0, 0, 0, 0, 165, 149, 113, 112, 111,
    110, 109, 108, 107, 106, 11, 0, 0, 0, 0, 0, 164, 144, 105, 104, 103, 102, 101, 100, 99, 98, 10,
    0, 0, 0, 0, 0, 161, 143, 97, 96, 95, 94, 93, 92, 91, 90, 9, 0, 0, 0, 0, 0, 158, 142, 89, 88,
    87, 86, 85, 84, 83, 82, 8, 0, 0, 0, 0, 0, 157, 81, 80, 79, 78, 77, 76, 75, 74, 73, 7, 0, 0, 0,
    0, 0, 156, 72, 71, 70, 69, 68, 67, 66, 65, 64, 6, 0, 0, 0, 0, 0, 152, 63, 62, 61, 60, 59, 58,
    57, 56, 55, 5, 0, 0, 0, 0, 0, 151, 54, 53, 52, 51, 50, 49, 48, 47, 46, 4, 0, 0, 0, 0, 0, 148,
    45, 44, 43, 42, 41, 40, 39, 38, 37, 3, 0, 0, 0, 0, 0, 36, 35, 34, 33, 32, 31, 30, 29, 28, 27,
    2, 0, 0, 0, 0, 147, 26, 25, 24, 23, 22, 21, 20, 19, 18, 17, 1, 0, 0, 0, 0]

/-- The frequencies of the AC symbols for chrominance. -/
def dqFreqChrominance : List ℕ :=
  [178, 177, 176, 175, 173, 172, 169, 165, 158, 151, 142, 16, 0, 0, 0, 0, 0, 174, 168, 162, 157,
    146, 141, 135, 134, 133, 132, 15, 0, 0, 0, 0, 0, 171, 161, 150, 140, 137, 131, 130, 129, 128,
    127, 14, 0, 0, 0, 0, 0, 170, 160, 149, 139, 126, 125, 124, 123, 122, 121, 13, 0, 0, 0, 0, 0,
    167, 156, 120, 119, 118, 117, 116, 115, 114, 113, 12, 0, 0, 0, 0, 0, 166, 148, 112, 111, 110,
    109, 108, 107, 106, 105, 11, 0, 0, 0, 0, 0, 164, 145, 104, 103, 102, 101, 100, 99, 98, 97, 10,
    0, 0, 0, 0, 0, 163, 144, 96, 95, 94, 93, 92, 91, 90, 89, 9, 0, 0, 0, 0, 0, 159, 88, 87, 86, 85,
    84, 83, 82, 81, 80, 8, 0, 0, 0, 0, 0, 155, 79, 78, 77, 76, 75, 74, 73, 72, 71, 7, 0, 0, 0, 0,
    0, 154, 70, 69, 68, 67, 66, 65, 64, 63, 62, 6, 0, 0, 0, 0, 0, 153, 61, 60, 59, 58, 57, 56, 55,
    54, 53, 5, 0, 0, 0, 0, 0, 152, 52, 51, 50, 49, 48, 47, 46, 45, 44, 4, 0, 0, 0, 0, 0, 143, 43,
    42, 41, 40, 39, 38, 37, 36, 35, 3, 0, 0, 0, 0, 0, 138, 34, 33, 32, 31, 30, 29, 28, 27, 26, 2,
    0, 0, 0, 0, 147, 136, 25, 24, 23, 22, 21, 20, 19, 18, 17, 1, 0, 0, 0, 0]

/-- The code lengths the merging loop gives them, that of the pseudo-symbol last. -/
def dqLensLuminance : List ℕ :=
  [6, 6, 6, 6, 6, 6, 7, 7, 7, 7, 7, 10, 6, 7, 7, 7, 7, 7, 7, 7, 7, 7, 10, 7, 7, 7, 7, 7, 7, 7, 7,
    7, 7, 10, 7, 7, 7, 7, 7, 7, 7, 7, 7, 7, 10, 7, 7, 7, 7, 7, 7, 7, 7, 7, 7, 10, 7, 7, 7, 7, 7, 7,
    7, 7, 7, 7, 11, 7, 7, 7, 7, 7, 7, 7, 7, 7, 7, 11, 7, 7, 7, 7, 7, 7, 7, 7, 7, 7, 11, 7, 7, 7, 7,
    7, 8, 8, 8, 8, 8, 11, 7, 8, 8, 8, 8, 8, 8, 8, 8, 8, 11, 7, 8, 8, 8, 8, 8, 8, 8, 8, 8, 11, 7, 8,
    8, 8, 8, 8, 8, 8, 8, 8, 12, 7, 8, 8, 8, 8, 8, 8, 8, 8, 8, 12, 7, 8, 8, 8, 9, 9, 9, 9, 9, 9, 12,
    9, 9, 9, 9, 9, 9, 9, 9, 9, 9, 13, 7, 9, 9, 9, 9, 9, 10, 10, 10, 10, 10, 14, 14]

/-- The lengths of their codes for chrominance. -/
def dqLensChrominance : List ℕ :=
  [6, 6, 6, 6, 6, 6, 7, 7, 7, 7, 7, 10, 6, 7, 7, 7, 7, 7, 7, 7, 7, 7, 10, 7, 7, 7, 7, 7, 7, 7, 7,
    7, 7, 10, 7, 7, 7, 7, 7, 7, 7, 7, 7, 7, 10, 7, 7, 7, 7, 7, 7, 7, 7, 7, 7, 10, 7, 7, 7, 7, 7, 7,
    7, 7, 7, 7, 11, 7, 7, 7, 7, 7, 7, 7, 7, 7, 7, 11, 7, 7, 7, 7, 7, 7, 7, 7, 7, 7, 11, 7, 7, 7, 8,
    8, 8, 8, 8, 8, 8, 11, 7, 8, 8, 8, 8, 8, 8, 8, 8, 8, 11, 7, 8, 8, 8, 8, 8, 8, 8, 8, 8, 11, 7, 8,
    8, 8, 8, 8, 8, 8, 8, 8, 12, 7, 8, 8, 8, 8, 8, 8, 8, 8, 8, 12, 7, 8, 9, 9, 9, 9, 9, 9, 9, 9, 12,
    7, 9, 9, 9, 9, 9, 9, 9, 9, 9, 13, 7, 7, 9, 9, 9, 9, 10, 10, 10, 10, 10, 14, 14]

/-- The frequencies for a table. -/
def TblNo.dqFreq : TblNo → List ℕ
  | luminance => dqFreqLuminance
  | chrominance => dqFreqChrominance

/-- The lengths for a table. -/
def TblNo.dqLens : TblNo → List ℕ
  | luminance => dqLensLuminance
  | chrominance => dqLensChrominance

/-- `placeFreq` for evaluation. -/
def placeFreqOr (v d : ℕ) : ℕ → List ℕ → ℕ
  | _, [] => d
  | n, b :: base => bif b.beq v then n else placeFreqOr v d (n - 1) base

theorem placeFreqOr_eq (v d n : ℕ) (base : List ℕ) :
    placeFreqOr v d n base = (placeFreq v n base).getD d := by
  induction base generalizing n with
  | nil => rfl
  | cons b base ih =>
    simp only [placeFreqOr, placeFreq, Bool.cond_eq_ite, Nat.beq_eq, ih]
    split_ifs <;> rfl

theorem dqAcFreq_eq (base : List ℕ) (v : ℕ) : dqAcFreq base v =
    placeFreqOr v (if v % 0x10 = 0x0b then 16 - v / 0x10 else 0) (base.length + 16) base := by
  rw [placeFreqOr_eq, dqAcFreq]
  cases placeFreq v (base.length + 16) base <;> rfl

theorem dqFreq_eq (t : TblNo) : (List.range 256).map (dqAcFreq t.valAc) = t.dqFreq := by
  rw [List.map_congr_left fun v _ => dqAcFreq_eq t.valAc v]
  cases t
  · decide +kernel
  · decide +kernel

/-- The symbols with a frequency, the pseudo-symbol last. -/
def TblNo.dqIndex (t : TblNo) : List ℕ :=
  (((List.range 257).zip (t.dqFreq ++ [1])).filter fun p => Nat.blt 0 p.2).map Prod.fst

/-- Their frequencies. -/
def TblNo.dqWeights (t : TblNo) : List ℕ := (t.dqFreq ++ [1]).filter fun w => Nat.blt 0 w

/-- **The code lengths of the AC tables of delta mode.** -/
theorem dqLens_eq (t : TblNo) : ((buildTree 257 (singles 0 t.dqWeights)).map
    fun rs => (List.range 179).map (depthIn rs)) = some t.dqLens := by
  cases t
  · decide +kernel
  · decide +kernel

theorem dqFreq_pseudo (t : TblNo) : (List.range 257).map
    (fun i => if i = 256 then 1 else dqAcFreq t.valAc i) = t.dqFreq ++ [1] := by
  rw [List.range_succ, List.map_append, ← dqFreq_eq]
  refine congrArg₂ (· ++ ·) (List.map_congr_left fun i hi => if_neg ?_) rfl
  rw [List.mem_range] at hi
  omega

theorem filter_eq_zip {α β : Type} (f : α → β) (p : β → Bool) (l : List α) :
    l.filter (fun a => p (f a)) = ((l.zip (l.map f)).filter fun q => p q.2).map Prod.fst := by
  induction l with
  | nil => rfl
  | cons a l ih =>
    rw [List.map_cons, List.zip_cons_cons, List.filter_cons, List.filter_cons, ih]
    split_ifs <;> rfl

set_option maxRecDepth 4000 in
/-- **The AC tables of delta mode**, from the code lengths. -/
theorem genOptimalTable_dqAc (t : TblNo) :
    genOptimalTable (dqAcFreq t.valAc) = tableOf t.dqIndex t.dqLens := by
  obtain ⟨rs, hbuild, hlens⟩ := Option.map_eq_some_iff.mp (dqLens_eq t)
  have hpos : ∀ n : ℕ, decide (n > 0) = Nat.blt 0 n := fun n => by
    rw [Bool.eq_iff_iff, decide_eq_true_eq, Nat.blt_eq]
  have hnz : ((List.range 257).filter fun i =>
      (if i = 256 then 1 else dqAcFreq t.valAc i) > 0) = t.dqIndex := by
    simp only [hpos]
    rw [filter_eq_zip _ (Nat.blt 0), dqFreq_pseudo]
    rfl
  have hws : t.dqIndex.map (fun i => if i = 256 then 1 else dqAcFreq t.valAc i) =
      t.dqWeights := by
    rw [← hnz, TblNo.dqWeights, ← dqFreq_pseudo, List.filter_map]
    simp only [hpos, Function.comp_def]
  have hlen : t.dqIndex.length = 179 := by cases t <;> rfl
  have hsum : t.dqWeights.sum ≤ LIMIT := by cases t <;> decide
  rw [genOptimalTable_eq hnz hws hsum hbuild, hlen, hlens]

/-! ### The symbols with a code -/

theorem acHuffTbl_codesJust (dq : Bool) (t : TblNo) : ((acHuffTbl dq t).any fun htbl =>
    codesJust htbl (acSymbols (if dq then 11 else 10))) = true := by
  cases dq
  · cases t <;> decide +kernel
  · rw [acHuffTbl, if_pos rfl, genOptimalTable_dqAc]
    cases t <;> decide +kernel

theorem dcHuffTbl_codesJust (dq : Bool) (t : TblNo) : ((dcHuffTbl dq t).any fun htbl =>
    codesJust htbl (List.range (if dq then 13 else 12))) = true := by
  cases dq <;> cases t <;> decide +kernel

set_option maxRecDepth 4000 in
/-- **The AC symbols with a code**: every run with every size up to ten bits, or eleven in delta
mode. -/
theorem acDerivedTbl_spec (dq : Bool) (t : TblNo) : ∃ tbl, acDerivedTbl dq t = some tbl ∧
    ∀ s, 0 < tbl.ehufsi s ↔ s ∈ acSymbols (if dq then 11 else 10) := by
  obtain ⟨htbl, hh, hcodes⟩ := Option.any_eq_true _ _ |>.mp (acHuffTbl_codesJust dq t)
  have hle : ∀ s ∈ acSymbols (if dq then 11 else 10), s ≤ 255 := by cases dq <;> decide
  obtain ⟨tbl, htbl', hs⟩ := doSetDerivedTbl_of_codesJust hcodes
    (acSymbols_nodup (by cases dq <;> decide)) (List.cons_ne_nil _ _) hle
  refine ⟨tbl, ?_, hs⟩
  rw [acDerivedTbl, hh]
  exact htbl'

/-- **The DC symbols with a code**: every size up to eleven bits, or twelve in delta mode. -/
theorem dcDerivedTbl_spec (dq : Bool) (t : TblNo) : ∃ tbl, dcDerivedTbl dq t = some tbl ∧
    ∀ s, 0 < tbl.ehufsi s ↔ s < if dq then 13 else 12 := by
  obtain ⟨htbl, hh, hcodes⟩ := Option.any_eq_true _ _ |>.mp (dcHuffTbl_codesJust dq t)
  have hne : List.range (if dq then 13 else 12) ≠ [] := by cases dq <;> decide
  have hle : ∀ s ∈ List.range (if dq then 13 else 12), s ≤ if dq then 16 else 15 := by
    cases dq <;> decide
  obtain ⟨tbl, htbl', hs⟩ := doSetDerivedTbl_of_codesJust hcodes List.nodup_range hne hle
  refine ⟨tbl, ?_, fun s => by rw [hs, List.mem_range]⟩
  rw [dcDerivedTbl, hh]
  exact htbl'

end RemotePlay.Jpeg
