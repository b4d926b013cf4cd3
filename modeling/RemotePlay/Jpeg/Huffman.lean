import Mathlib.Data.Nat.Notation
import Mathlib.Data.List.GetD
import Mathlib.Logic.Function.Basic
import Mathlib.Tactic.Linarith

/-! # Huffman tables

A table is given by the number of codes of each length and the symbols in the order of their codes.
`do_set_derived_tbl` makes the encoder's table from it: the symbols that have a code are those
listed (`ehufsi_pos`).  The standard tables are given; those of delta mode are made by
`gen_optimal_table` from made-up frequencies. -/

namespace RemotePlay.Jpeg

/-- `HuffTbl`: how many codes there are of each length, and the symbols in the order of the codes.
-/
structure HuffTbl where
  bits : List ℕ
  huffVals : List ℕ
  deriving DecidableEq, Repr

/-- `DerivedTbl`: the code of each symbol and its length. -/
structure DerivedTbl where
  ehufco : ℕ → ℕ
  ehufsi : ℕ → ℕ

/-! ### The encoder's table -/

/-- `huffsize`: the code lengths in the order of the codes, at most 256 of them. -/
def huffSizes (bits : List ℕ) : Option (List ℕ) :=
  let sizes := (List.range' 1 16).flatMap fun l => List.replicate (bits.getD l 0) l
  if sizes.length ≤ 256 then some sizes else none

/-- `huffcode`: the outer loop, one turn for each length from `si` on. -/
def huffCodes : ℕ → ℕ → ℕ → List ℕ → Option (List ℕ)
  | _, _, _, [] => some []
  | 0, _, _, _ :: _ => none
  | fuel + 1, si, code, s :: sizes =>
    -- the inner loop takes the codes of length `si`
    let n := ((s :: sizes).takeWhile (· == si)).length
    if code + n ≥ 2 ^ si then none
    else
      (huffCodes fuel (si + 1) ((code + n) * 2) ((s :: sizes).drop n)).map
        ((List.range n).map (code + ·) ++ ·)

/-- The last loop: entries for symbol, code and length, each symbol once. -/
def setEntries (maxsymbol : ℕ) : List (ℕ × ℕ × ℕ) → DerivedTbl → Option DerivedTbl
  | [], tbl => some tbl
  | (i, code, size) :: es, tbl =>
    if i > maxsymbol ∨ tbl.ehufsi i > 0 then none
    else setEntries maxsymbol es
      ⟨Function.update tbl.ehufco i code, Function.update tbl.ehufsi i size⟩

/-- `do_set_derived_tbl`.  The last loop is run once even when there are no codes. -/
def doSetDerivedTbl (htbl : HuffTbl) (maxsymbol : ℕ) : Option DerivedTbl := do
  let sizes ← huffSizes htbl.bits
  let codes ← huffCodes 17 (sizes.getD 0 0) 0 sizes
  setEntries maxsymbol ((List.range (max sizes.length 1)).map fun p =>
    (htbl.huffVals.getD p 0, codes.getD p 0, sizes.getD p 0)) ⟨fun _ => 0, fun _ => 0⟩

/-! ### Which symbols have a code -/

theorem setEntries_ehufsi {m : ℕ} {es : List (ℕ × ℕ × ℕ)} {tbl tbl' : DerivedTbl}
    (h : setEntries m es tbl = some tbl') (hpos : ∀ e ∈ es, 0 < e.2.2) (s : ℕ) :
    0 < tbl'.ehufsi s ↔ 0 < tbl.ehufsi s ∨ ∃ e ∈ es, e.1 = s := by
  induction es generalizing tbl with
  | nil =>
    cases h
    simp
  | cons e es ih =>
    obtain ⟨i, code, size⟩ := e
    rw [setEntries] at h
    split_ifs at h with hbad
    rw [ih h fun e he => hpos e (List.mem_cons_of_mem _ he)]
    simp only [List.mem_cons, exists_eq_or_imp]
    by_cases hs : s = i
    · subst hs
      have := hpos _ List.mem_cons_self
      simp [this]
    · simp [Function.update_of_ne hs, Ne.symm hs]

theorem huffSizes_mem {bits sizes : List ℕ} (h : huffSizes bits = some sizes) {l : ℕ}
    (hl : l ∈ sizes) : 1 ≤ l ∧ l ≤ 16 := by
  unfold huffSizes at h
  simp only at h
  split_ifs at h
  cases h
  obtain ⟨k, hk, hl⟩ := List.mem_flatMap.mp hl
  rw [List.eq_of_mem_replicate hl]
  rw [List.mem_range'_1] at hk
  omega

/-- **The symbols with a code are those listed for the lengths.** -/
theorem ehufsi_pos {htbl : HuffTbl} {m : ℕ} {tbl : DerivedTbl}
    (h : doSetDerivedTbl htbl m = some tbl) {sizes : List ℕ}
    (hsz : huffSizes htbl.bits = some sizes) (hne : sizes ≠ []) (s : ℕ) :
    0 < tbl.ehufsi s ↔ ∃ p < sizes.length, htbl.huffVals.getD p 0 = s := by
  have hlen : 0 < sizes.length := List.length_pos_iff.mpr hne
  simp only [doSetDerivedTbl, hsz, Option.bind_eq_bind, Option.bind_some] at h
  obtain ⟨codes, -, h⟩ := Option.bind_eq_some_iff.mp h
  rw [Nat.max_eq_left hlen] at h
  rw [setEntries_ehufsi h]
  · simp
  · intro e he
    obtain ⟨p, hp, rfl⟩ := List.mem_map.mp he
    rw [List.mem_range] at hp
    simp only [List.getD_eq_getElem _ _ hp]
    exact (huffSizes_mem hsz (List.getElem_mem hp)).1

/-! ### Making a table -/

/-- The longest code before codes are shortened. -/
def MAX_C_LEN : ℕ := 32

/-- The two smallest frequencies met and where they are. -/
structure Smallest where
  c1 : Option ℕ
  c2 : Option ℕ
  v : ℕ
  v2 : ℕ

/-- The search for the two smallest, from index `i` on. -/
def findSmallest : List ℕ → ℕ → Smallest → Smallest
  | [], _, t => t
  | f :: fs, i, t =>
    findSmallest fs (i + 1)
      (if f ≤ t.v2 then
        if f ≤ t.v then ⟨some i, t.c1, f, t.v⟩ else ⟨t.c1, some i, t.v, f⟩
      else t)

/-- The arrays of the merging loop. -/
structure MergeState where
  freq : List ℕ
  codesize : List ℕ
  others : List (Option ℕ)

/-- Lengthens the codes of a branch, and returns its last symbol. -/
def bumpBranch : ℕ → List (Option ℕ) → List ℕ → ℕ → Option (List ℕ × ℕ)
  | 0, _, _, _ => none
  | fuel + 1, others, codesize, c =>
    let codesize := codesize.set c (codesize.getD c 0 + 1)
    match others.getD c none with
    | some c' => bumpBranch fuel others codesize c'
    | none => some (codesize, c)

/-- The merging loop. -/
def mergeLoop : ℕ → MergeState → Option MergeState
  | 0, _ => none
  | fuel + 1, s =>
    match findSmallest s.freq 0 ⟨none, none, 1000000000, 1000000000⟩ with
    | ⟨some c1, some c2, _, _⟩ => do
      let freq := s.freq.set c1 (s.freq.getD c1 0 + s.freq.getD c2 0)
      let freq := freq.set c2 1000000001
      let (codesize, last) ← bumpBranch 257 s.others s.codesize c1
      let others := s.others.set last (some c2)
      let (codesize, _) ← bumpBranch 257 others codesize c2
      mergeLoop fuel ⟨freq, codesize, others⟩
    | _ => some s

/-- The counts are bytes. -/
def addU8 (xs : List ℕ) (i n : ℕ) : List ℕ := xs.set i ((xs.getD i 0 + n) % 256)
/-- A count is taken down. -/
def subU8 (xs : List ℕ) (i n : ℕ) : List ℕ := xs.set i ((xs.getD i 0 + (256 - n)) % 256)

/-- The number of codes of each length. -/
def countLengths : List ℕ → List ℕ → Option (List ℕ)
  | [], bits => some bits
  | l :: ls, bits => if l > MAX_C_LEN then none else countLengths ls (addU8 bits l 1)

/-- The longest length in use among the first `i + 1`. -/
def lastUsed (bits : List ℕ) : ℕ → Option ℕ
  | 0 => if bits.getD 0 0 = 0 then none else some 0
  | i + 1 => if bits.getD (i + 1) 0 = 0 then lastUsed bits i else some (i + 1)

/-- Shortens the codes of length `i`. -/
def shortenAt (i : ℕ) : ℕ → List ℕ → Option (List ℕ)
  | 0, bits => if bits.getD i 0 > 0 then none else some bits
  | fuel + 1, bits =>
    if bits.getD i 0 > 0 then do
      let j ← lastUsed bits (i - 2)
      let bits := addU8 (subU8 bits i 2) (i - 1) 1
      shortenAt i fuel (subU8 (addU8 bits (j + 1) 2) j 1)
    else some bits

/-- `for i in (17..=MAX_C_LEN).rev()`, `n` lengths being left. -/
def shorten : ℕ → List ℕ → Option (List ℕ)
  | 0, bits => some bits
  | n + 1, bits => do shorten n (← shortenAt (17 + n) 256 bits)

/-- `bit_pos`: how many symbols have shorter codes. -/
def bitPos (bits : List ℕ) : List ℕ := (List.range (MAX_C_LEN + 1)).map fun i => (bits.take i).sum

/-- The symbols in the order of their lengths; a place outside the array is `none`. -/
def placeVals : List (ℕ × ℕ) → List ℕ → List ℕ → Option (List ℕ)
  | [], _, vals => some vals
  | (sym, l) :: es, pos, vals =>
    if pos.getD l 0 < vals.length then
      placeVals es (pos.set l (pos.getD l 0 + 1)) (vals.set (pos.getD l 0) (sym % 256))
    else none

/-- `gen_optimal_table`, for the frequencies of the symbols below 256. -/
def genOptimalTable (freq : ℕ → ℕ) : Option HuffTbl := do
  let freq := fun i => if i = 256 then 1 else freq i
  let nzIndex := (List.range 257).filter fun i => freq i > 0
  let s ← mergeLoop 257 ⟨nzIndex.map freq, nzIndex.map fun _ => 0, nzIndex.map fun _ => none⟩
  let bits ← countLengths s.codesize (List.replicate (MAX_C_LEN + 1) 0)
  let pos := bitPos bits
  let bits ← shorten (MAX_C_LEN - 16) bits
  let i ← lastUsed bits 16
  let bits := subU8 bits i 1
  let vals ← placeVals (nzIndex.zip s.codesize).dropLast pos (List.replicate 256 0)
  return ⟨bits.take 17, vals⟩

/-! ### The standard tables -/

/-- The codes of each length for the DC coefficients of luminance. -/
def BITS_DC_LUMINANCE : List ℕ := [0, 0, 1, 5, 1, 1, 1, 1, 1, 1, 0, 0, 0, 0, 0, 0, 0]
/-- Their symbols. -/
def VAL_DC_LUMINANCE : List ℕ := [0, 1, 2, 3, 4, 5, 6, 7, 8, 9, 10, 11]
/-- The codes of each length for the DC coefficients of chrominance. -/
def BITS_DC_CHROMINANCE : List ℕ := [0, 0, 3, 1, 1, 1, 1, 1, 1, 1, 1, 1, 0, 0, 0, 0, 0]
/-- Their symbols. -/
def VAL_DC_CHROMINANCE : List ℕ := [0, 1, 2, 3, 4, 5, 6, 7, 8, 9, 10, 11]
/-- The codes of each length for the AC coefficients of luminance. -/
def BITS_AC_LUMINANCE : List ℕ := [0, 0, 2, 1, 3, 3, 2, 4, 3, 5, 5, 4, 4, 0, 0, 1, 0x7d]

/-- Their symbols. -/
def VAL_AC_LUMINANCE : List ℕ :=
  [0x01, 0x02, 0x03, 0x00, 0x04, 0x11, 0x05, 0x12, 0x21, 0x31, 0x41, 0x06, 0x13, 0x51, 0x61, 0x07,
    0x22, 0x71, 0x14, 0x32, 0x81, 0x91, 0xa1, 0x08, 0x23, 0x42, 0xb1, 0xc1, 0x15, 0x52, 0xd1, 0xf0,
    0x24, 0x33, 0x62, 0x72, 0x82, 0x09, 0x0a, 0x16, 0x17, 0x18, 0x19, 0x1a, 0x25, 0x26, 0x27, 0x28,
    0x29, 0x2a, 0x34, 0x35, 0x36, 0x37, 0x38, 0x39, 0x3a, 0x43, 0x44, 0x45, 0x46, 0x47, 0x48, 0x49,
    0x4a, 0x53, 0x54, 0x55, 0x56, 0x57, 0x58, 0x59, 0x5a, 0x63, 0x64, 0x65, 0x66, 0x67, 0x68, 0x69,
    0x6a, 0x73, 0x74, 0x75, 0x76, 0x77, 0x78, 0x79, 0x7a, 0x83, 0x84, 0x85, 0x86, 0x87, 0x88, 0x89,
    0x8a, 0x92, 0x93, 0x94, 0x95, 0x96, 0x97, 0x98, 0x99, 0x9a, 0xa2, 0xa3, 0xa4, 0xa5, 0xa6, 0xa7,
    0xa8, 0xa9, 0xaa, 0xb2, 0xb3, 0xb4, 0xb5, 0xb6, 0xb7, 0xb8, 0xb9, 0xba, 0xc2, 0xc3, 0xc4, 0xc5,
    0xc6, 0xc7, 0xc8, 0xc9, 0xca, 0xd2, 0xd3, 0xd4, 0xd5, 0xd6, 0xd7, 0xd8, 0xd9, 0xda, 0xe1, 0xe2,
    0xe3, 0xe4, 0xe5, 0xe6, 0xe7, 0xe8, 0xe9, 0xea, 0xf1, 0xf2, 0xf3, 0xf4, 0xf5, 0xf6, 0xf7, 0xf8,
    0xf9, 0xfa]

/-- The codes of each length for the AC coefficients of chrominance. -/
def BITS_AC_CHROMINANCE : List ℕ := [0, 0, 2, 1, 2, 4, 4, 3, 4, 7, 5, 4, 4, 0, 1, 2, 0x77]

/-- Their symbols. -/
def VAL_AC_CHROMINANCE : List ℕ :=
  [0x00, 0x01, 0x02, 0x03, 0x11, 0x04, 0x05, 0x21, 0x31, 0x06, 0x12, 0x41, 0x51, 0x07, 0x61, 0x71,
    0x13, 0x22, 0x32, 0x81, 0x08, 0x14, 0x42, 0x91, 0xa1, 0xb1, 0xc1, 0x09, 0x23, 0x33, 0x52, 0xf0,
    0x15, 0x62, 0x72, 0xd1, 0x0a, 0x16, 0x24, 0x34, 0xe1, 0x25, 0xf1, 0x17, 0x18, 0x19, 0x1a, 0x26,
    0x27, 0x28, 0x29, 0x2a, 0x35, 0x36, 0x37, 0x38, 0x39, 0x3a, 0x43, 0x44, 0x45, 0x46, 0x47, 0x48,
    0x49, 0x4a, 0x53, 0x54, 0x55, 0x56, 0x57, 0x58, 0x59, 0x5a, 0x63, 0x64, 0x65, 0x66, 0x67, 0x68,
    0x69, 0x6a, 0x73, 0x74, 0x75, 0x76, 0x77, 0x78, 0x79, 0x7a, 0x82, 0x83, 0x84, 0x85, 0x86, 0x87,
    0x88, 0x89, 0x8a, 0x92, 0x93, 0x94, 0x95, 0x96, 0x97, 0x98, 0x99, 0x9a, 0xa2, 0xa3, 0xa4, 0xa5,
    0xa6, 0xa7, 0xa8, 0xa9, 0xaa, 0xb2, 0xb3, 0xb4, 0xb5, 0xb6, 0xb7, 0xb8, 0xb9, 0xba, 0xc2, 0xc3,
    0xc4, 0xc5, 0xc6, 0xc7, 0xc8, 0xc9, 0xca, 0xd2, 0xd3, 0xd4, 0xd5, 0xd6, 0xd7, 0xd8, 0xd9, 0xda,
    0xe2, 0xe3, 0xe4, 0xe5, 0xe6, 0xe7, 0xe8, 0xe9, 0xea, 0xf2, 0xf3, 0xf4, 0xf5, 0xf6, 0xf7, 0xf8,
    0xf9, 0xfa]

/-- `add_huff_table`. -/
def addHuffTable (bits val : List ℕ) : Option HuffTbl :=
  let nsymbols := ((bits.take 17).drop 1).sum
  if nsymbols < 1 ∨ nsymbols ≥ 256 ∨ val.length < nsymbols then none
  else some ⟨bits, val.take nsymbols ++ List.replicate (256 - nsymbols) 0⟩

/-! ### The tables of delta mode -/

/-- The frequencies of `once_dq` for DC symbols. -/
def dqDcFreq (i : ℕ) : ℕ := if i ≤ 12 then 12 + 1 - i else 0

/-- The count a symbol gets from its place in a table, the first of the table getting `n`. -/
def placeFreq (v : ℕ) : ℕ → List ℕ → Option ℕ
  | _, [] => none
  | n, b :: base => if b = v then some n else placeFreq v (n - 1) base

/-- `fill_ac_freq`: the symbols of a standard table in their order, and after them the sixteen with
eleven bits. -/
def dqAcFreq (base : List ℕ) (v : ℕ) : ℕ :=
  match placeFreq v (base.length + 16) base with
  | some n => n
  | none => if v % 0x10 = 0x0b then 16 - v / 0x10 else 0

end RemotePlay.Jpeg
