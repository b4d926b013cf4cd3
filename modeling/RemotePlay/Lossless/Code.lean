import RemotePlay.Lossless.Intra
import RemotePlay.Encode.BitStream
import RemotePlay.Jpeg.Decode
import RemotePlay.Jpeg.HuffBound

/-! # The codes of the lossless mode

What is emitted for a slice is put into one `EncodeBuffer` that writes through, with the codes of
tables made from weights at the start.  A receiver that has the tables and knows what comes next, a
flag or a symbol of which table, reads it back from the bytes (`readStream_finish`). -/

namespace RemotePlay.Lossless

open RemotePlay.Lib Bits RemotePlay.Encode RemotePlay.Jpeg

/-! ### The tables -/

/-- The tables for samples of so many bits, as `EncodeTbls::once` makes them. -/
def losslessTbl (count : ℕ → ℕ) (t : TblName) : Option (HuffTbl × DerivedTbl) := do
  let huff ← genOptimalTable (setTbl count t.bits)
  let entropy ← doSetDerivedTbl huff 255
  return (huff, entropy)

/-- What `once` truncates to a weight: 2 from the difference 24 on, and below it powers of the
square root of 2, as `powf` computes them, within wide bounds. -/
structure Weights (count : ℕ → ℕ) : Prop where
  rare : ∀ i, 24 ≤ i → count i = 2
  two_le : ∀ i, 2 ≤ count i
  four_le : 4 ≤ count 1
  le : ∀ i, i ≠ 0 → count i ≤ 2 ^ 13
  zero_le : count 0 ≤ 2 ^ 16

theorem setTbl_eq (count : ℕ → ℕ) (t : TblName) (y : ℕ) : setTbl count t.bits y =
    if 128 - 2 ^ (t.bits - 1) ≤ y ∧ y < 128 + 2 ^ (t.bits - 1) then count (max y 128 - min y 128)
    else 0 := by
  have hle : 2 ^ (t.bits - 1) ≤ 128 := by cases t <;> decide
  -- the entries filled so far
  have hfill : ∀ n ≤ 129, (List.range n).foldl (fun freq i =>
      Function.update (Function.update freq (128 + i) (count i)) (128 - i) (count i))
      (fun _ => 0) y = if 128 < y + n ∧ y < 128 + n then count (max y 128 - min y 128) else 0 := by
    intro n hn
    induction n with
    | zero => rw [if_neg (by omega)]; rfl
    | succ n ih =>
      rw [List.range_succ, List.foldl_append, List.foldl_cons, List.foldl_nil]
      by_cases h1 : y = 128 - n
      · subst h1
        have : max (128 - n) 128 - min (128 - n) 128 = n := by omega
        rw [Function.update_self, if_pos (by omega), this]
      by_cases h2 : y = 128 + n
      · subst h2
        have : max (128 + n) 128 - min (128 + n) 128 = n := by omega
        rw [Function.update_of_ne h1, Function.update_self, if_pos (by omega), this]
      rw [Function.update_of_ne h1, Function.update_of_ne h2, ih (by omega)]
      exact if_congr (by omega) rfl rfl
  simp only [setTbl]
  rw [Nat.one_shiftLeft]
  by_cases h : y = 128 + 2 ^ (t.bits - 1)
  · subst h
    rw [Function.update_self, if_neg (by omega)]
  · rw [Function.update_of_ne h, hfill _ (by omega)]
    exact if_congr (by omega) rfl rfl

theorem setTbl_total {count : ℕ → ℕ} (h : Weights count) (t : TblName) :
    ((List.range 256).map (setTbl count t.bits)).sum ≤ 2 ^ 16 + 255 * 2 ^ 13 := by
  have hle : ∀ y, setTbl count t.bits y ≤ if y = 128 then 2 ^ 16 else 2 ^ 13 := by
    intro y
    rw [setTbl_eq]
    by_cases hy : y = 128
    · subst hy
      rw [if_pos rfl]
      split_ifs
      · exact h.zero_le
      · exact Nat.zero_le _
    · rw [if_neg hy]
      split_ifs
      · exact h.le _ (by omega)
      · exact Nat.zero_le _
  exact (List.sum_le_sum fun y _ => hle y).trans (by decide +kernel)

theorem mem_realSymbols_setTbl {count : ℕ → ℕ} (h : Weights count) {t : TblName} {y : ℕ} :
    y ∈ realSymbols (setTbl count t.bits) ↔
      128 - 2 ^ (t.bits - 1) ≤ y ∧ y < 128 + 2 ^ (t.bits - 1) := by
  have hle : 2 ^ (t.bits - 1) ≤ 128 := by cases t <;> decide
  have := setTbl_pos count (fun i => Nat.lt_of_lt_of_le Nat.two_pos (h.two_le i)) t y
  simp only [realSymbols, List.mem_filter, List.mem_range, decide_eq_true_eq]
  rw [this]
  omega

theorem setTbl_few {count : ℕ → ℕ} (h : Weights count) (t : TblName) :
    (realSymbols (setTbl count t.bits)).length < 255 ∨ TwoFrequent (setTbl count t.bits) := by
  have hmem := fun y => @mem_realSymbols_setTbl count h t y
  by_cases ht : t = .tbl8
  · subst ht
    refine Or.inr ⟨0, (hmem _).mpr (by decide), 127, (hmem _).mpr (by decide), 129,
      (hmem _).mpr (by decide), by decide, ?_⟩
    have h128 := h.rare 128 (by decide)
    have h1 := h.four_le
    rw [setTbl_eq, setTbl_eq, setTbl_eq, if_pos (by decide), if_pos (by decide), if_pos (by decide)]
    show 1 + count 128 < count 1 ∧ 1 + count 128 < count 1
    omega
  · left
    have hsub : (realSymbols (setTbl count t.bits)).Subperm (List.range' 96 64) := by
      refine (List.nodup_range.filter _).subperm fun y hy => ?_
      have hle : 2 ^ (t.bits - 1) ≤ 32 := by
        cases t
        · exact absurd rfl ht
        all_goals decide
      have := (hmem y).mp hy
      rw [List.mem_range'_1]
      omega
    exact hsub.length_le.trans_lt (by rw [List.length_range']; decide)

/-- **The tables are made**, and every symbol has a code. -/
theorem losslessTbl_spec {count : ℕ → ℕ} (h : Weights count) (t : TblName) : ∃ huff entropy,
    losslessTbl count t = some (huff, entropy) ∧ doSetDerivedTbl huff 255 = some entropy ∧
      ∀ c p, 0 < entropy.ehufsi (residual t c p).toNat := by
  have hpos : ∀ i, 0 < count i := fun i => Nat.lt_of_lt_of_le Nat.two_pos (h.two_le i)
  obtain ⟨huff, entropy, hhuff, hne, hperm, hentropy⟩ := exists_table (m := 255)
    (setTbl count t.bits)
    ⟨128, by decide, (setTbl_pos count hpos t 128).mpr (by cases t <;> decide)⟩
    ((Nat.succ_le_succ (setTbl_total h t)).trans_lt (by decide)) (setTbl_few h t) fun s hs => by
      have := (lt_of_mem_realSymbols hs).1
      omega
  refine ⟨huff, entropy, ?_, hentropy,
    fun c p => (ehufsi_listed hne hentropy (hperm.symm.subset ?_)).1⟩
  · rw [losslessTbl, hhuff, Option.bind_eq_bind, Option.bind_some, hentropy]
    rfl
  · have hres := setTbl_residual count hpos t c p
    exact (mem_realSymbols_setTbl h).mpr ((setTbl_pos count hpos t _).mp hres)

/-! ### What is put -/

section

variable (P : PacketDataSize) (tbls : TblName → HuffTbl × DerivedTbl)

/-- The `put_bits` of a flag or a symbol. -/
def Put.run (e : EncodeBuffer) : Put → EncodeBuffer
  | .flag b => e.putBits P (if b then 1 else 0) 1
  | .sym t y => e.putBits P (BitVec.ofNat 32 ((tbls t).2.ehufco y.toNat))
      ((tbls t).2.ehufsi y.toNat)

/-- The bits put. -/
def Put.toBits : Put → List Bool
  | .flag b => [b]
  | .sym t y => (tbls t).2.word y.toNat

/-- The end of `lossless_encode`: `store`, `flush` and `term`. -/
def finish (e : EncodeBuffer) : Option WorkerDst := do
  let dst ← e.store P
  let dst ← e.state.flush P true dst
  return dst.term P

end

/-- The tables that code words were looked up in, and those of the receiver. -/
def Accepted (tbls : TblName → HuffTbl × DerivedTbl) : Prop :=
  ∀ t, doSetDerivedTbl (tbls t).1 255 = some (tbls t).2

/-- A flag, or a symbol that its table has a code for. -/
def HasCode (tbls : TblName → HuffTbl × DerivedTbl) : Put → Prop
  | .flag _ => True
  | .sym t y => 0 < (tbls t).2.ehufsi y.toNat

variable {P : PacketDataSize} {tbls : TblName → HuffTbl × DerivedTbl}

theorem exists_put (ht : Accepted tbls) {p : Put} (hp : HasCode tbls p) :
    ∃ q : Encode.Put, (∀ e, q.run P e = p.run P tbls e) ∧ q.toBits = p.toBits tbls := by
  cases p with
  | flag b =>
    cases b
    · exact ⟨.putBits 0 1 (by decide) (by decide), fun _ => rfl, rfl⟩
    · exact ⟨.putBits 1 1 (by decide) (by decide), fun _ => rfl, rfl⟩
  | sym t y =>
    have hsize := ehufsi_le (ht t) y.toNat
    have hlt := ehufco_lt_of_pos (ht t) hp
    have hword : (BitVec.ofNat 32 ((tbls t).2.ehufco y.toNat)).toNat =
        (tbls t).2.ehufco y.toNat := by
      rw [BitVec.toNat_ofNat]
      exact Nat.mod_eq_of_lt (hlt.trans_le (Nat.pow_le_pow_right (by decide) (by omega)))
    refine ⟨.putBits _ _ (by omega) (by rw [hword]; exact hlt), fun _ => rfl, ?_⟩
    rw [Encode.Put.toBits, hword]
    rfl

theorem exists_puts (ht : Accepted tbls) {ps : List Put} (hp : ∀ p ∈ ps, HasCode tbls p) :
    ∃ qs : List Encode.Put, (∀ e, qs.foldl (fun e q => q.run P e) e = ps.foldl (Put.run P tbls) e) ∧
      qs.flatMap Encode.Put.toBits = ps.flatMap (Put.toBits tbls) := by
  induction ps with
  | nil => exact ⟨[], fun _ => rfl, rfl⟩
  | cons p ps ih =>
    obtain ⟨q, hrun, hbits⟩ := exists_put (P := P) ht (hp p List.mem_cons_self)
    obtain ⟨qs, hruns, hbitss⟩ := ih fun p h => hp p (List.mem_cons_of_mem _ h)
    refine ⟨q :: qs, fun e => ?_, ?_⟩
    · rw [List.foldl_cons, List.foldl_cons, hrun, hruns]
    · rw [List.flatMap_cons, List.flatMap_cons, hbits, hbitss]

/-- **The stream of a thread** is the bits put, filled up with ones. -/
theorem finish_foldl (ht : Accepted tbls) {ps : List Put} (hp : ∀ p ∈ ps, HasCode tbls p) :
    ∃ dst, finish P (ps.foldl (Put.run P tbls)
        (EncodeBuffer.init 0 BitEncoderState.reset ⟨0, P.val, [], [], []⟩ true)) = some dst ∧
      byteBits dst.sent.flatten = padOnes (ps.flatMap (Put.toBits tbls)) := by
  obtain ⟨qs, hrun, hbits⟩ := exists_puts (P := P) ht hp
  have hstart : Written P true [] [] [] (BitEncoderState.reset, ⟨0, P.val, [], [], []⟩) :=
    ⟨⟨Nat.zero_add _, fun _ hp => absurd hp List.not_mem_nil⟩, rfl, rfl,
      by show (0 : ℤ) ≤ 32; decide, le_rfl⟩
  obtain ⟨hval, hsome⟩ := hstart.runScope ⟨0, qs⟩
  obtain ⟨s, hs⟩ := Option.isSome_iff_exists.mp (hsome (Or.inl rfl))
  obtain ⟨E, hE⟩ := hval s hs
  obtain ⟨d, E', hd, -, hstream, hbitsE⟩ := hE.flush
  obtain ⟨dst, hstore, heq⟩ := Option.bind_eq_some_iff.mp hs
  obtain rfl : ((qs.foldl (fun e q => q.run P e) (EncodeBuffer.init 0 BitEncoderState.reset
    ⟨0, P.val, [], [], []⟩ true)).state, dst) = s := Option.some.inj heq
  rw [hrun] at hstore hd
  refine ⟨d.term P, ?_, ?_⟩
  · rw [finish, hstore, Option.bind_eq_bind, Option.bind_some, hd]
    rfl
  · have hsent : (d.term P).sent.flatten = E' := by
      show (d.sent ++ [d.cur]).flatten = E'
      rw [List.flatten_append, List.flatten_singleton]
      exact hstream.trans (stuff_eq_self fun h => absurd h (by decide))
    rw [hsent, hbitsE, List.nil_append, ← hbits]
    rfl

/-! ### The receiver -/

/-- What comes next: a flag, or a symbol of a table. -/
inductive Kind
  | flag
  | sym (t : TblName)
  deriving DecidableEq, Repr

/-- What a receiver has to know to read a put. -/
def Put.kind : Put → Kind
  | .flag _ => .flag
  | .sym t _ => .sym t

/-- A put is read. -/
def readPut (huff : TblName → HuffTbl) : Kind → List Bool → Option (Put × List Bool)
  | .flag, [] => none
  | .flag, b :: bs => some (.flag b, bs)
  | .sym t, bs => (decodeSymbol (huff t) bs).map fun (y, bs) => (.sym t (UInt8.ofNat y), bs)

/-- Puts are read one after another. -/
def readPuts (huff : TblName → HuffTbl) : List Kind → List Bool → Option (List Put × List Bool)
  | [], bs => some ([], bs)
  | k :: ks, bs => do
    let (p, bs) ← readPut huff k bs
    let (ps, bs) ← readPuts huff ks bs
    return (p :: ps, bs)

/-- Reads the stream of a thread; less than a byte of ones may be left. -/
def readStream (huff : TblName → HuffTbl) (ks : List Kind) (bytes : List UInt8) :
    Option (List Put) := do
  let (ps, rest) ← readPuts huff ks (byteBits bytes)
  if rest.length < 8 ∧ rest.all id then some ps else none

theorem readPut_append (ht : Accepted tbls) {p : Put} (hp : HasCode tbls p) (rest : List Bool) :
    readPut (fun t => (tbls t).1) p.kind (p.toBits tbls ++ rest) = some (p, rest) := by
  cases p with
  | flag b => rfl
  | sym t y =>
    rw [Put.kind, readPut, Put.toBits, decodeSymbol_word (ht t) hp, Option.map_some]
    show some (Put.sym t (UInt8.ofNat y.toNat), rest) = _
    rw [UInt8.ofNat_toNat]

theorem readPuts_append (ht : Accepted tbls) {ps : List Put} (hp : ∀ p ∈ ps, HasCode tbls p)
    (rest : List Bool) : readPuts (fun t => (tbls t).1) (ps.map Put.kind)
      (ps.flatMap (Put.toBits tbls) ++ rest) = some (ps, rest) := by
  induction ps with
  | nil => rfl
  | cons p ps ih =>
    rw [List.map_cons, List.flatMap_cons, List.append_assoc, readPuts,
      readPut_append ht (hp p List.mem_cons_self)]
    simp only [Option.bind_eq_bind, Option.bind_some, ih fun p h => hp p (List.mem_cons_of_mem _ h)]
    rfl

/-- **What a thread has put is read back from its bytes.** -/
theorem readStream_finish (ht : Accepted tbls) {ps : List Put} (hp : ∀ p ∈ ps, HasCode tbls p) :
    ∃ dst, finish P (ps.foldl (Put.run P tbls)
        (EncodeBuffer.init 0 BitEncoderState.reset ⟨0, P.val, [], [], []⟩ true)) = some dst ∧
      readStream (fun t => (tbls t).1) (ps.map Put.kind) dst.sent.flatten = some ps := by
  obtain ⟨dst, hdst, hbits⟩ := finish_foldl (P := P) ht hp
  refine ⟨dst, hdst, ?_⟩
  rw [readStream, hbits, padOnes, readPuts_append ht hp, Option.bind_eq_bind, Option.bind_some]
  refine if_pos ⟨?_, ?_⟩
  · rw [List.length_replicate]
    exact Nat.mod_lt _ (by decide)
  · rw [List.all_replicate]
    exact ite_self _

end RemotePlay.Lossless
