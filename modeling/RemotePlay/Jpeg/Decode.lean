import RemotePlay.Jpeg.DerivedTbl
import RemotePlay.Jpeg.Symbols

/-! # The decoder

How a decoder reads the blocks of a scan: it looks for the code word that the bits begin with, in
the canonical code the table's lengths define, takes as many bits as the symbol says for a value,
and adds the differences up for each component.  This is the standard's decoder and no part of the
program; the encoder is to agree with it. -/

namespace RemotePlay.Jpeg

open RemotePlay.Lib Bits PrefixCode

/-- The symbols of a table with their words. -/
def HuffTbl.book (htbl : HuffTbl) : List (ℕ × List Bool) :=
  htbl.listed.zip (canonicalWords 16 0 (codeLengths htbl.bits))

/-- The symbol whose word the bits begin with. -/
def decodeSymbol (htbl : HuffTbl) (bs : List Bool) : Option (ℕ × List Bool) :=
  (htbl.book.find? fun e => e.2.isPrefixOf bs).map fun e => (e.1, bs.drop e.2.length)

/-- A value of `s` bits; one that begins with a zero is negative. -/
def receiveExtend (s : ℕ) (bs : List Bool) : Option (ℤ × List Bool) :=
  if bs.length < s then none
  else
    let v := ofBits (bs.take s)
    some (if v < 2 ^ (s - 1) then (v : ℤ) - 2 ^ s + 1 else v, bs.drop s)

/-- The last `n` AC coefficients of a block. -/
def decodeAc (htbl : HuffTbl) : ℕ → ℕ → List Bool → Option (List ℤ × List Bool)
  | _, 0, bs => some ([], bs)
  | 0, _ + 1, _ => none
  | fuel + 1, n + 1, bs => do
    let (rs, bs) ← decodeSymbol htbl bs
    let r := rs / 16
    let s := rs % 16
    if s = 0 then
      if r = 15 then
        if 15 ≤ n then do
          let (vals, bs) ← decodeAc htbl fuel (n - 15) bs
          return (List.replicate 16 0 ++ vals, bs)
        else none
      else return (List.replicate (n + 1) 0, bs)
    else if r ≤ n then do
      let (val, bs) ← receiveExtend s bs
      let (vals, bs) ← decodeAc htbl fuel (n - r) bs
      return (List.replicate r 0 ++ val :: vals, bs)
    else none

/-- The block of a DC value and the AC coefficients in the order they are sent. -/
def blockOf (dc : ℤ) (acs : List ℤ) : JBlock := fun i =>
  (dc :: acs).getD (JPEG_NATURAL_ORDER.idxOf i.val) 0

/-- A block, `pred` being the DC value of the block before. -/
def decodeBlock (dc_huff ac_huff : HuffTbl) (pred : ℤ) (bs : List Bool) :
    Option (JBlock × List Bool) := do
  let (s, bs) ← decodeSymbol dc_huff bs
  let (diff, bs) ← receiveExtend s bs
  let (acs, bs) ← decodeAc ac_huff 63 63 bs
  return (blockOf (pred + diff) acs, bs)

/-! ### Symbols -/

theorem find?_eq_some_of_unique {α : Type} {p : α → Bool} {l : List α} {a : α} (ha : a ∈ l)
    (hp : p a = true) (hu : ∀ b ∈ l, p b = true → b = a) : l.find? p = some a := by
  have hsome : (l.find? p).isSome := List.find?_isSome.mpr ⟨a, ha, hp⟩
  obtain ⟨b, hb⟩ := Option.isSome_iff_exists.mp hsome
  rw [hb, hu b (List.mem_of_find?_eq_some hb) (List.find?_some hb)]

theorem codeLengths_ne_nil {htbl : HuffTbl} {m : ℕ} {tbl : DerivedTbl}
    (ht : doSetDerivedTbl htbl m = some tbl) {s : ℕ} (hs : 0 < tbl.ehufsi s) :
    codeLengths htbl.bits ≠ [] := by
  intro hnil
  rw [doSetDerivedTbl, huffSizes_eq, hnil] at ht
  simp only [List.length_nil, Nat.zero_le, if_true, Option.bind_eq_bind, Option.bind_some] at ht
  obtain ⟨codes, -, ht⟩ := Option.bind_eq_some_iff.mp ht
  have hone : List.range (max 0 1) = [0] := rfl
  simp only [hone, List.map_singleton, List.getD_nil, setEntries] at ht
  split_ifs at ht
  cases ht
  have hzero : ∀ i, Function.update (fun _ => 0) (htbl.huffVals.getD 0 0) 0 i = 0 := by
    intro i
    by_cases hi : i = htbl.huffVals.getD 0 0
    · rw [hi, Function.update_self]
    · rw [Function.update_of_ne hi]
  simp only [hzero] at hs
  exact Nat.lt_irrefl 0 hs

theorem ehufsi_le {htbl : HuffTbl} {m : ℕ} {tbl : DerivedTbl}
    (ht : doSetDerivedTbl htbl m = some tbl) (s : ℕ) : tbl.ehufsi s ≤ 16 := by
  rcases Nat.eq_zero_or_pos (tbl.ehufsi s) with h0 | hs
  · omega
  · have h := codeLengths_ne_nil ht hs
    have hmem : tbl.ehufsi s ∈ htbl.listed.map tbl.ehufsi :=
      List.mem_map_of_mem (mem_listed h ht hs)
    rw [map_ehufsi_listed h ht] at hmem
    exact (codeLengths_bounds _ _ hmem).2

theorem ehufco_lt_of_pos {htbl : HuffTbl} {m : ℕ} {tbl : DerivedTbl}
    (ht : doSetDerivedTbl htbl m = some tbl) {s : ℕ} (hs : 0 < tbl.ehufsi s) :
    tbl.ehufco s < 2 ^ tbl.ehufsi s :=
  have h := codeLengths_ne_nil ht hs
  ehufco_lt h ht (mem_listed h ht hs)

/-- **A code word is decoded** to the symbol it was looked up for. -/
theorem decodeSymbol_word {htbl : HuffTbl} {m : ℕ} {tbl : DerivedTbl}
    (ht : doSetDerivedTbl htbl m = some tbl) {s : ℕ} (hs : 0 < tbl.ehufsi s) (rest : List Bool) :
    decodeSymbol htbl (tbl.word s ++ rest) = some (s, rest) := by
  have h := codeLengths_ne_nil ht hs
  have hmem := mem_listed h ht hs
  have hbook : htbl.book = htbl.listed.map fun s => (s, tbl.word s) := by
    rw [HuffTbl.book, ← map_word_listed (ehufco_entries h ht).1, List.zip_map_right, List.zip,
      List.zipWith_self, List.map_map]
    rfl
  have hfind : htbl.book.find? (fun e => e.2.isPrefixOf (tbl.word s ++ rest)) =
      some (s, tbl.word s) := by
    rw [hbook]
    refine find?_eq_some_of_unique (List.mem_map_of_mem hmem) ?_ fun e he hp => ?_
    · exact List.isPrefixOf_iff_prefix.mpr (List.prefix_append _ _)
    · obtain ⟨s', hs', rfl⟩ := List.mem_map.mp he
      by_contra hne
      -- both words begin the bits, so one begins the other
      obtain ⟨h1, h2⟩ := word_free h ht hmem hs' fun heq => hne (by rw [heq])
      rcases List.prefix_or_prefix_of_prefix (List.isPrefixOf_iff_prefix.mp hp)
        (List.prefix_append (tbl.word s) rest) with hpre | hpre
      · exact h2 hpre
      · exact h1 hpre
  rw [decodeSymbol, hfind, Option.map_some, List.drop_left]

/-! ### Values -/

theorem ofBits_ofInt {n : ℕ} (hn : n ≤ 32) (x : ℤ) :
    (ofBits (bits n (BitVec.ofInt 32 x).toNat) : ℤ) = x % 2 ^ n := by
  have h0 : 0 ≤ x % ((2 ^ 32 : ℕ) : ℤ) := Int.emod_nonneg _ (by decide)
  have hdvd : (2 : ℤ) ^ n ∣ ((2 ^ 32 : ℕ) : ℤ) := by
    rw [Nat.cast_pow]
    exact pow_dvd_pow 2 hn
  rw [ofBits_bits, BitVec.toNat_ofInt, Int.natCast_mod, Int.toNat_of_nonneg h0, Nat.cast_pow,
    Nat.cast_ofNat]
  exact Int.emod_emod_of_dvd x hdvd

/-- **A value is received** as it was sent. -/
theorem receiveExtend_value (val : ℤ) (hval : (valueBits val).2 ≤ 32) (rest : List Bool) :
    receiveExtend (valueBits val).2
      (bits (valueBits val).2 (BitVec.ofInt 32 (valueBits val).1).toNat ++ rest) =
        some (val, rest) := by
  obtain ⟨n, hn⟩ : ∃ n, (valueBits val).2 = n := ⟨_, rfl⟩
  have hsize : val.natAbs.size = n := hn
  rw [hn] at hval ⊢
  have hlt : val.natAbs < 2 ^ n := hsize ▸ Nat.lt_size_self _
  have hge : val ≠ 0 → 2 ^ (n - 1) ≤ val.natAbs ∧ 2 ^ n = 2 * 2 ^ (n - 1) := by
    intro h0
    have hpos : 0 < n := hsize ▸ Nat.size_pos.mpr (Int.natAbs_pos.mpr h0)
    refine ⟨Nat.lt_size.mp (by omega), ?_⟩
    rw [← pow_succ', Nat.sub_add_cancel hpos]
  obtain ⟨v, hv⟩ : ∃ v, ofBits (bits n (BitVec.ofInt 32 (valueBits val).1).toNat) = v := ⟨_, rfl⟩
  have hmod : (v : ℤ) = (valueBits val).1 % 2 ^ n := hv ▸ ofBits_ofInt hval _
  have hpow : ((2 ^ n : ℕ) : ℤ) = 2 ^ n := by rw [Nat.cast_pow, Nat.cast_ofNat]
  unfold receiveExtend
  rw [if_neg (by rw [List.length_append, length_bits]; omega), List.take_left' (length_bits _ _),
    hv, List.drop_left' (length_bits _ _)]
  rw [← hpow] at hmod ⊢
  dsimp only
  by_cases hneg : val < 0
  · -- a negative value is sent less one, so its highest bit is zero
    obtain ⟨hhigh, htwo⟩ := hge (by omega)
    have hval1 : (valueBits val).1 = val - 1 := if_pos hneg
    have hshift : (val - 1) % ((2 ^ n : ℕ) : ℤ) = val - 1 + (2 ^ n : ℕ) := by
      rw [← Int.add_emod_right, Int.emod_eq_of_lt (by omega) (by omega)]
    rw [hval1, hshift] at hmod
    rw [if_pos (by omega), hmod]
    congr 2
    omega
  · have hval1 : (valueBits val).1 = val := if_neg hneg
    rw [hval1, Int.emod_eq_of_lt (by omega) (by omega)] at hmod
    by_cases h0 : val = 0
    · subst h0
      have hn0 : n = 0 := by rw [← hsize]; rfl
      subst hn0
      rw [if_pos (by omega), hmod]
      rfl
    · obtain ⟨hhigh, -⟩ := hge h0
      rw [if_neg (by omega), hmod]

/-! ### Blocks -/

/-- The bits of an item. -/
def itemBits (tbl : DerivedTbl) (item : Item) : List Bool :=
  tbl.word item.sym ++ bits item.nbits (BitVec.ofInt 32 item.val1).toNat

section Ac

variable {htbl : HuffTbl} {m : ℕ} {tbl : DerivedTbl}

theorem decodeAc_eob (ht : doSetDerivedTbl htbl m = some tbl) (hs : 0 < tbl.ehufsi 0) (fuel n : ℕ)
    (rest : List Bool) : decodeAc htbl (fuel + 1) (n + 1) (itemBits tbl EOB ++ rest) =
      some (List.replicate (n + 1) 0, rest) := by
  have hsym := decodeSymbol_word ht hs rest
  have hbits : itemBits tbl EOB ++ rest = tbl.word 0 ++ rest := by
    rw [itemBits]
    simp [EOB, bits]
  rw [hbits, decodeAc, hsym]
  rfl

theorem decodeAc_zrl (ht : doSetDerivedTbl htbl m = some tbl) (hs : 0 < tbl.ehufsi 0xf0)
    (fuel n : ℕ) (rest : List Bool) : decodeAc htbl (fuel + 1) (n + 16) (itemBits tbl ZRL ++ rest) =
      (decodeAc htbl fuel n rest).map fun p => (List.replicate 16 0 ++ p.1, p.2) := by
  have hsym := decodeSymbol_word ht hs rest
  have hbits : itemBits tbl ZRL ++ rest = tbl.word 0xf0 ++ rest := by
    rw [itemBits]
    simp [ZRL, bits]
  rw [hbits, show n + 16 = n + 15 + 1 by omega, decodeAc, hsym]
  simp only [Option.bind_eq_bind, Option.bind_some, if_true, if_pos (Nat.le_add_left 15 n),
    Nat.add_sub_cancel]
  cases decodeAc htbl fuel n rest with
  | none => rfl
  | some p => rfl

theorem decodeAc_value (ht : doSetDerivedTbl htbl m = some tbl) {r : ℕ} {val : ℤ} (h0 : val ≠ 0)
    (hval : (valueBits val).2 ≤ 15) (hs : 0 < tbl.ehufsi (r * 16 + (valueBits val).2))
    (fuel n : ℕ) (rest : List Bool) :
    decodeAc htbl (fuel + 1) (r + 1 + n)
      (itemBits tbl ⟨r * 16 + (valueBits val).2, (valueBits val).1, (valueBits val).2⟩ ++ rest) =
      (decodeAc htbl fuel n rest).map fun p => (List.replicate r 0 ++ val :: p.1, p.2) := by
  have hpos := nbits_pos h0
  have hsym := decodeSymbol_word ht hs
    (bits (valueBits val).2 (BitVec.ofInt 32 (valueBits val).1).toNat ++ rest)
  have hrecv := receiveExtend_value val (by omega) rest
  rw [itemBits, List.append_assoc, show r + 1 + n = r + n + 1 by omega, decodeAc]
  simp only [Option.bind_eq_bind, hsym, Option.bind_some]
  rw [show (r * 16 + (valueBits val).2) % 16 = (valueBits val).2 by omega,
    show (r * 16 + (valueBits val).2) / 16 = r by omega, if_neg (by omega),
    if_pos (Nat.le_add_right r n), hrecv, Option.bind_some, Nat.add_sub_cancel_left]
  cases decodeAc htbl fuel n rest with
  | none => rfl
  | some p => rfl

theorem decodeAc_zrls (ht : doSetDerivedTbl htbl m = some tbl) {a : ℕ}
    (hs : 0 < a → 0 < tbl.ehufsi 0xf0) (fuel n : ℕ) (rest : List Bool) :
    decodeAc htbl (fuel + a) (16 * a + n) ((List.replicate a ZRL).flatMap (itemBits tbl) ++ rest) =
      (decodeAc htbl fuel n rest).map fun p => (List.replicate (16 * a) 0 ++ p.1, p.2) := by
  induction a with
  | zero => simp
  | succ a ih =>
    rw [List.replicate_succ, List.flatMap_cons, List.append_assoc,
      show 16 * (a + 1) + n = 16 * a + n + 16 by omega, ← Nat.add_assoc,
      decodeAc_zrl ht (hs (Nat.succ_pos a)), ih fun _ => hs (Nat.succ_pos a), Option.map_map]
    refine congrArg (fun f => Option.map f (decodeAc htbl fuel n rest)) (funext fun p => ?_)
    simp only [Function.comp_apply, ← List.append_assoc, List.replicate_append_replicate,
      show 16 + 16 * a = 16 * (a + 1) by omega]

/-- **The AC coefficients are decoded**, `q` zeros being pending. -/
theorem decodeAc_items (ht : doSetDerivedTbl htbl m = some tbl) {vals : List ℤ}
    (hval : ∀ v ∈ vals, (valueBits v).2 ≤ 15) {q fuel : ℕ} (hf : q + vals.length ≤ fuel)
    (hcoded : ∀ item ∈ acItems (16 * q) vals, 0 < tbl.ehufsi item.sym) (rest : List Bool) :
    decodeAc htbl fuel (q + vals.length) ((acItems (16 * q) vals).flatMap (itemBits tbl) ++ rest) =
      some (List.replicate q 0 ++ vals, rest) := by
  induction vals generalizing q fuel with
  | nil =>
    rcases q with _ | q
    · rw [acItems, if_neg (by omega)]
      cases fuel <;> rfl
    · obtain ⟨f, rfl⟩ := Nat.exists_eq_add_one.mpr (show 0 < fuel by simp at hf; omega)
      have hitems : acItems (16 * (q + 1)) [] = [EOB] := by rw [acItems, if_pos (by omega)]
      have hs := hcoded EOB (by rw [hitems]; exact List.mem_singleton.mpr rfl)
      rw [hitems, List.flatMap_singleton, List.length_nil, Nat.add_zero, decodeAc_eob ht hs,
        List.append_nil]
  | cons v vals ih =>
    have hvals : ∀ u ∈ vals, (valueBits u).2 ≤ 15 := fun u hu => hval u (List.mem_cons_of_mem _ hu)
    rw [List.length_cons] at hf ⊢
    by_cases h0 : v = 0
    · have hitems : acItems (16 * q) (v :: vals) = acItems (16 * (q + 1)) vals := by
        rw [acItems, if_pos h0, Nat.mul_add]
      rw [hitems] at hcoded ⊢
      rw [show q + (vals.length + 1) = q + 1 + vals.length by omega,
        ih hvals (by omega) hcoded, List.replicate_succ', List.append_assoc, h0]
      rfl
    · have hdiv : 16 * q / (16 * 16) = q / 16 := by omega
      have hmod : 16 * q % (16 * 16) = q % 16 * 16 := by omega
      have hitems : acItems (16 * q) (v :: vals) = List.replicate (q / 16) ZRL ++
          ⟨q % 16 * 16 + (valueBits v).2, (valueBits v).1, (valueBits v).2⟩ :: acItems 0 vals := by
        rw [acItems, if_neg h0, hdiv, hmod]
      rw [hitems] at hcoded ⊢
      have hzrl : 0 < q / 16 → 0 < tbl.ehufsi 0xf0 := fun h =>
        hcoded ZRL (List.mem_append_left _ (List.mem_replicate.mpr ⟨by omega, rfl⟩))
      have hsym := hcoded _ (List.mem_append_right _ List.mem_cons_self)
      have hrest : ∀ item ∈ acItems (16 * 0) vals, 0 < tbl.ehufsi item.sym := fun item hi =>
        hcoded item (List.mem_append_right _ (List.mem_cons_of_mem _ hi))
      obtain ⟨f, hfuel⟩ : ∃ f, fuel = f + 1 + q / 16 := ⟨fuel - q / 16 - 1, by omega⟩
      have htail : decodeAc htbl f vals.length
          ((acItems 0 vals).flatMap (itemBits tbl) ++ rest) = some (vals, rest) := by
        have h := @ih hvals 0 f (by omega) hrest
        rwa [Nat.zero_add] at h
      rw [List.flatMap_append, List.flatMap_cons, List.append_assoc, List.append_assoc, hfuel,
        show q + (vals.length + 1) = 16 * (q / 16) + (q % 16 + 1 + vals.length) by omega,
        decodeAc_zrls ht hzrl, decodeAc_value ht h0 (hval v List.mem_cons_self) hsym, htail]
      simp only [Option.map_some, ← List.append_assoc,
        List.replicate_append_replicate, show 16 * (q / 16) + q % 16 = q by omega]

end Ac

theorem blockOf_acValues (block : JBlock) : blockOf (block 0) (acValues block) = block := by
  have hperm : ∀ i : Fin 64, i.val ∈ JPEG_NATURAL_ORDER := by decide
  have hall : block 0 :: acValues block =
      JPEG_NATURAL_ORDER.map fun k => if h : k < 64 then block ⟨k, h⟩ else 0 := rfl
  funext i
  have hi := hperm i
  have hlt := List.idxOf_lt_length_of_mem hi
  rw [blockOf, hall, List.getD_eq_getElem _ _ (by rwa [List.length_map]), List.getElem_map]
  simp only [List.getElem_idxOf hlt]
  exact dif_pos i.isLt

end RemotePlay.Jpeg
