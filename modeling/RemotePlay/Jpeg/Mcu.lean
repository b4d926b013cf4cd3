import RemotePlay.Jpeg.EncodeBlock
import RemotePlay.Jpeg.Decode

/-! # Restart intervals

`encode_mcu` encodes the blocks of an MCU component after component, each with the DC value of the
last block of its component.  The calls of an interval put one string of bits (`encode_sequence`),
and the decoder reads the blocks back from it (`decodeMcus_encodedBits`): so the output, without the
stuffing, is decoded to the blocks (`encodeInterval_roundTrip`).  The sizes of AC coefficients have
to fit the four bits a symbol has for them, and a DC code with its value bits must leave a bit of
the word, since a shift by a whole word is undefined. -/

namespace RemotePlay.Jpeg

open RemotePlay.Lib RemotePlay.Encode Bits PrefixCode

/-! ### Encoding -/

/-- The tables of a component, made by `do_set_derived_tbl`. -/
structure CompTables where
  dc_huff : HuffTbl
  ac_huff : HuffTbl
  dc_max : ℕ
  dc_derived : DerivedTbl
  ac_derived : DerivedTbl
  dc_eq : doSetDerivedTbl dc_huff dc_max = some dc_derived
  ac_eq : doSetDerivedTbl ac_huff 255 = some ac_derived

/-- The tables made from the given ones. -/
def CompTables.make (dc_huff ac_huff : HuffTbl) (hdc : (doSetDerivedTbl dc_huff 16).isSome)
    (hac : (doSetDerivedTbl ac_huff 255).isSome) : CompTables where
  dc_huff := dc_huff
  ac_huff := ac_huff
  dc_max := 16
  dc_derived := (doSetDerivedTbl dc_huff 16).get hdc
  ac_derived := (doSetDerivedTbl ac_huff 255).get hac
  dc_eq := (Option.some_get hdc).symm
  ac_eq := (Option.some_get hac).symm

/-- `CompInfo`, in so far as `encode_mcu` reads it. -/
structure McuComp where
  h_samp_factor : ℕ
  v_samp_factor : ℕ
  tbls : CompTables

/-- `JpegWorker`, in so far as `encode_mcu` uses it. -/
structure McuWorker where
  bit_enc_state : BitEncoderState
  last_dc_vals : ℕ → ℤ
  dst : WorkerDst

section

variable (P : PacketDataSize) (rel_stream : Bool)

/-- One turn of the loops of `encode_mcu`, `blkn` being counted beside the worker. -/
def encodeMcuBlock (mcu : List JBlock) (ci : ℕ) (comp : McuComp) (s : McuWorker × ℕ) :
    Option (McuWorker × ℕ) := do
  let block ← mcu[s.2]?
  let (state, dst, b0) ← encodeOneBlock P s.1.dst s.1.bit_enc_state block (s.1.last_dc_vals ci)
    comp.tbls.dc_derived comp.tbls.ac_derived rel_stream
  return (⟨state, Function.update s.1.last_dc_vals ci b0, dst⟩, s.2 + 1)

/-- `encode_mcu`. -/
def encodeMcu (comps : List McuComp) (w : McuWorker) (mcu : List JBlock) : Option McuWorker := do
  let s ← comps.zipIdx.foldlM (fun s p =>
    (List.range p.1.v_samp_factor).foldlM (fun s _ =>
      (List.range p.1.h_samp_factor).foldlM (fun s _ =>
        encodeMcuBlock P rel_stream mcu p.2 p.1 s) s) s) (w, 0)
  return s.1

/-- `reset_mcu`. -/
def resetMcu (w : McuWorker) : McuWorker := ⟨BitEncoderState.reset, fun _ => 0, w.dst⟩

/-- `flush_mcu`. -/
def flushMcu (w : McuWorker) : Option McuWorker := do
  let dst ← w.bit_enc_state.flush P rel_stream w.dst
  return { w with dst := dst }

/-- The MCUs between two restarts. -/
def encodeInterval (comps : List McuComp) (mcus : List (List JBlock)) (w : McuWorker) :
    Option McuWorker := do
  let w ← mcus.foldlM (encodeMcu P rel_stream comps) (resetMcu w)
  flushMcu P rel_stream w

end

/-! ### Decoding -/

/-- The component of each block of an MCU. -/
def layout (comps : List McuComp) : List (McuComp × ℕ) :=
  comps.zipIdx.flatMap fun p => List.replicate (p.1.v_samp_factor * p.1.h_samp_factor) p

/-- Blocks of the given components, `preds` being the last DC values. -/
def decodeBlocks : List (McuComp × ℕ) → (ℕ → ℤ) → List Bool →
    Option (List JBlock × (ℕ → ℤ) × List Bool)
  | [], preds, bs => some ([], preds, bs)
  | p :: ps, preds, bs => do
    let (block, bs) ← decodeBlock p.1.tbls.dc_huff p.1.tbls.ac_huff (preds p.2) bs
    let (blocks, preds, bs) ← decodeBlocks ps (Function.update preds p.2 (block 0)) bs
    return (block :: blocks, preds, bs)

/-- `n` MCUs. -/
def decodeMcus (comps : List McuComp) : ℕ → (ℕ → ℤ) → List Bool →
    Option (List (List JBlock) × List Bool)
  | 0, _, bs => some ([], bs)
  | n + 1, preds, bs => do
    let (mcu, preds, bs) ← decodeBlocks (layout comps) preds bs
    let (mcus, bs) ← decodeMcus comps n preds bs
    return (mcu :: mcus, bs)

/-- The bytes without the zeros put after bytes of ones. -/
def unstuff (no_escape : Bool) : List UInt8 → List UInt8
  | b :: c :: bs =>
    if !no_escape && b == 0xff && c == 0 then b :: unstuff no_escape bs
    else b :: unstuff no_escape (c :: bs)
  | bs => bs

theorem unstuff_stuff (no_escape : Bool) (bs : List UInt8) :
    unstuff no_escape (stuff no_escape bs) = bs := by
  induction bs with
  | nil => rfl
  | cons b bs ih =>
    have hcons : stuff no_escape (b :: bs) =
        (if !no_escape && b == 0xff then [b, 0] else [b]) ++ stuff no_escape bs := rfl
    rw [hcons]
    split_ifs with hb
    · rw [List.cons_append, List.singleton_append, unstuff, hb, ih]
      rfl
    · rcases hrest : stuff no_escape bs with _ | ⟨c, cs⟩
      · rw [hrest] at ih
        rw [← ih]
        rfl
      · rw [hrest] at ih
        rw [List.singleton_append, unstuff, eq_false_of_ne_true hb, ih]
        rfl

/-! ### The bits of a sequence of blocks -/

/-- The blocks of an interval with their components. -/
def sequence (comps : List McuComp) (mcus : List (List JBlock)) :
    List ((McuComp × ℕ) × JBlock) :=
  mcus.flatMap fun mcu => (layout comps).zip mcu

/-- The bits of a block. -/
def blockBits (t : CompTables) (block : JBlock) (last_dc_val : ℤ) : List Bool :=
  itemBits t.dc_derived (dcItem (block 0) last_dc_val) ++
    (blockAcItems block).flatMap (itemBits t.ac_derived)

/-- The last DC values after a block. -/
def nextDc (last : ℕ → ℤ) (q : (McuComp × ℕ) × JBlock) : ℕ → ℤ :=
  Function.update last q.1.2 (q.2 0)

/-- The bits of a sequence of blocks. -/
def encodedBits : (ℕ → ℤ) → List ((McuComp × ℕ) × JBlock) → List Bool
  | _, [] => []
  | last, q :: qs => blockBits q.1.1.tbls q.2 (last q.1.2) ++ encodedBits (nextDc last q) qs

/-- Every block of a sequence has a property that depends on the DC value before it. -/
def Along (Q : CompTables → JBlock → ℤ → Prop) :
    (ℕ → ℤ) → List ((McuComp × ℕ) × JBlock) → Prop
  | _, [] => True
  | last, q :: qs => Q q.1.1.tbls q.2 (last q.1.2) ∧ Along Q (nextDc last q) qs

theorem encodedBits_append (last : ℕ → ℤ) (xs ys : List ((McuComp × ℕ) × JBlock)) :
    encodedBits last (xs ++ ys) = encodedBits last xs ++ encodedBits (xs.foldl nextDc last) ys := by
  induction xs generalizing last with
  | nil => rfl
  | cons x xs ih => rw [List.cons_append, encodedBits, ih, encodedBits, List.append_assoc]; rfl

theorem along_append {Q : CompTables → JBlock → ℤ → Prop} {last : ℕ → ℤ}
    {xs ys : List ((McuComp × ℕ) × JBlock)} :
    Along Q last (xs ++ ys) ↔ Along Q last xs ∧ Along Q (xs.foldl nextDc last) ys := by
  induction xs generalizing last with
  | nil => exact iff_of_eq (true_and _).symm
  | cons x xs ih => rw [List.cons_append, Along, ih, Along, and_assoc]; rfl

/-- It can be checked block by block. -/
instance Along.decidable {Q : CompTables → JBlock → ℤ → Prop} [∀ t b v, Decidable (Q t b v)] :
    (last : ℕ → ℤ) → (qs : List ((McuComp × ℕ) × JBlock)) → Decidable (Along Q last qs)
  | _, [] => .isTrue trivial
  | last, q :: qs =>
    @instDecidableAnd _ _ _ (Along.decidable (nextDc last q) qs)

/-- **The symbols looked up have codes.** -/
structure Coded (t : CompTables) (block : JBlock) (last_dc_val : ℤ) : Prop where
  dc : 0 < t.dc_derived.ehufsi (dcItem (block 0) last_dc_val).sym
  ac : ∀ item ∈ blockAcItems block, 0 < t.ac_derived.ehufsi item.sym

instance (t : CompTables) (block : JBlock) (last_dc_val : ℤ) :
    Decidable (Coded t block last_dc_val) :=
  decidable_of_iff (0 < t.dc_derived.ehufsi (dcItem (block 0) last_dc_val).sym ∧
      ∀ item ∈ blockAcItems block, 0 < t.ac_derived.ehufsi item.sym)
    ⟨fun h => ⟨h.1, h.2⟩, fun h => ⟨h.dc, h.ac⟩⟩

/-- **The sizes are those that symbols and words have room for.** -/
structure InRange (t : CompTables) (block : JBlock) (last_dc_val : ℤ) : Prop where
  dc : t.dc_derived.ehufsi (dcItem (block 0) last_dc_val).sym +
    (dcItem (block 0) last_dc_val).nbits ≤ 31
  ac : ∀ i : Fin 64, i ≠ 0 → (valueBits (block i)).2 ≤ 15

instance (t : CompTables) (block : JBlock) (last_dc_val : ℤ) :
    Decidable (InRange t block last_dc_val) :=
  decidable_of_iff (t.dc_derived.ehufsi (dcItem (block 0) last_dc_val).sym +
      (dcItem (block 0) last_dc_val).nbits ≤ 31 ∧
      ∀ i : Fin 64, i ≠ 0 → (valueBits (block i)).2 ≤ 15)
    ⟨fun h => ⟨h.1, h.2⟩, fun h => ⟨h.dc, h.ac⟩⟩

/-! ### What the encoder puts -/

section Encode

variable {P : PacketDataSize} {rel_stream : Bool}

theorem bits_ofNat_word {size co : ℕ} (hsize : size ≤ 32) (hlt : co < 2 ^ size) :
    (BitVec.ofNat 32 co).toNat = co := by
  rw [BitVec.toNat_ofNat]
  exact Nat.mod_eq_of_lt (hlt.trans_le (Nat.pow_le_pow_right (by decide) hsize))

theorem exists_put_code {size co nbits : ℕ} (val1 : ℤ) (hlt : co < 2 ^ size)
    (hle : size + nbits ≤ 31) : ∃ p : Put,
      p.toBits = bits size co ++ bits nbits (BitVec.ofInt 32 val1).toNat ∧
      ∀ e : EncodeBuffer, p.run P e =
        e.putCode P (BitVec.ofNat 32 co) size (BitVec.ofInt 32 val1) nbits := by
  have hco := bits_ofNat_word (by omega : size ≤ 32) hlt
  refine ⟨.putCode (BitVec.ofNat 32 co) size (BitVec.ofInt 32 val1) nbits hle (by rwa [hco]), ?_,
    fun e => rfl⟩
  rw [Put.toBits, hco]

theorem exists_put_item {tbl : DerivedTbl} {item : Item}
    (hlt : tbl.ehufco item.sym < 2 ^ tbl.ehufsi item.sym)
    (hle : tbl.ehufsi item.sym + item.nbits ≤ 31) :
    ∃ p : Put, p.toBits = itemBits tbl item ∧ ∀ e, p.run P e = putItem P tbl e item := by
  by_cases h0 : item.nbits = 0
  · have hco := bits_ofNat_word (by omega : tbl.ehufsi item.sym ≤ 32) hlt
    refine ⟨.putBits (BitVec.ofNat 32 (tbl.ehufco item.sym)) (tbl.ehufsi item.sym) (by omega)
      (by rwa [hco]), ?_, fun e => ?_⟩
    · rw [Put.toBits, hco, itemBits, h0, bits, List.append_nil]
      rfl
    · rw [putItem, if_pos h0]
      rfl
  · obtain ⟨p, hbits, hrun⟩ := exists_put_code (P := P) item.val1 hlt hle
    refine ⟨p, hbits, fun e => ?_⟩
    rw [putItem, if_neg h0, hrun]

theorem exists_put_items {tbl : DerivedTbl} {items : List Item}
    (hlt : ∀ item ∈ items, tbl.ehufco item.sym < 2 ^ tbl.ehufsi item.sym)
    (hle : ∀ item ∈ items, tbl.ehufsi item.sym + item.nbits ≤ 31) :
    ∃ puts : List Put, puts.flatMap Put.toBits = items.flatMap (itemBits tbl) ∧
      ∀ e, puts.foldl (fun e p => p.run P e) e = items.foldl (putItem P tbl) e := by
  induction items with
  | nil => exact ⟨[], rfl, fun e => rfl⟩
  | cons item items ih =>
    obtain ⟨p, hbits, hrun⟩ := exists_put_item (P := P) (hlt item List.mem_cons_self)
      (hle item List.mem_cons_self)
    obtain ⟨puts, hbits', hrun'⟩ := ih (fun i hi => hlt i (List.mem_cons_of_mem _ hi)) fun i hi =>
      hle i (List.mem_cons_of_mem _ hi)
    refine ⟨p :: puts, ?_, fun e => ?_⟩
    · rw [List.flatMap_cons, List.flatMap_cons, hbits, hbits']
    · rw [List.foldl_cons, List.foldl_cons, hrun, hrun']

/-- The puts of a block are defined. -/
structure Puttable (t : CompTables) (block : JBlock) (last_dc_val : ℤ) : Prop where
  dc : t.dc_derived.ehufsi (dcItem (block 0) last_dc_val).sym +
    (dcItem (block 0) last_dc_val).nbits ≤ 31
  ac : ∀ item ∈ blockAcItems block, t.ac_derived.ehufsi item.sym + item.nbits ≤ 31

/-- **A block is one scope** of puts. -/
theorem encodeOneBlock_eq {t : CompTables} {block : JBlock} {last_dc_val : ℤ}
    (hc : Coded t block last_dc_val) (hp : Puttable t block last_dc_val) :
    ∃ sc : Scope, sc.N = BUFSIZE ∧ sc.toBits = blockBits t block last_dc_val ∧
      ∀ dst state, encodeOneBlock P dst state block last_dc_val t.dc_derived t.ac_derived
        rel_stream = (runScope P rel_stream (state, { dst with blkn := dst.blkn + 1 }) sc).map
          fun s => (s.1, s.2, block 0) := by
  obtain ⟨p, hbits, hrun⟩ := exists_put_code (P := P) (dcItem (block 0) last_dc_val).val1
    (ehufco_lt_of_pos t.dc_eq hc.dc) hp.dc
  obtain ⟨puts, hbits', hrun'⟩ := exists_put_items (P := P)
    (fun item hi => ehufco_lt_of_pos t.ac_eq (hc.ac item hi)) hp.ac
  refine ⟨⟨BUFSIZE, p :: puts⟩, rfl, ?_, fun dst state => ?_⟩
  · rw [Scope.toBits, List.flatMap_cons, hbits, hbits']
    rfl
  · have hbuf : (p :: puts).foldl (fun e p => p.run P e)
        (EncodeBuffer.init BUFSIZE state { dst with blkn := dst.blkn + 1 } rel_stream) =
        blockBuffer P dst state block last_dc_val t.dc_derived t.ac_derived rel_stream := by
      rw [List.foldl_cons, hrun, hrun']
      rfl
    rw [encodeOneBlock, runScope]
    simp only [hbuf]
    cases EncodeBuffer.store P
      (blockBuffer P dst state block last_dc_val t.dc_derived t.ac_derived rel_stream) with
    | none => rfl
    | some d => rfl

theorem length_blockBits_le {t : CompTables} {block : JBlock} {last_dc_val : ℤ}
    (hp : Puttable t block last_dc_val) :
    (blockBits t block last_dc_val).length ≤ 31 * 64 := by
  have hitem : ∀ (tbl : DerivedTbl) (item : Item),
      (itemBits tbl item).length = tbl.ehufsi item.sym + item.nbits := fun tbl item => by
    rw [itemBits, List.length_append, length_bits, DerivedTbl.word, length_bits]
  have hitems : ∀ items : List Item,
      (∀ item ∈ items, t.ac_derived.ehufsi item.sym + item.nbits ≤ 31) →
        (items.flatMap (itemBits t.ac_derived)).length ≤ 31 * items.length := by
    intro items h
    induction items with
    | nil => exact le_rfl
    | cons item items ih =>
      have h1 := h item List.mem_cons_self
      have h2 := ih fun i hi => h i (List.mem_cons_of_mem _ hi)
      rw [List.flatMap_cons, List.length_append, hitem, List.length_cons]
      omega
  have hac := hitems _ hp.ac
  have hdc := hp.dc
  have hlen := length_blockAcItems_le block
  rw [blockBits, List.length_append, hitem]
  omega

/-- One turn, with the block at hand. -/
def encodeNext (P : PacketDataSize) (rel_stream : Bool) (w : McuWorker)
    (q : (McuComp × ℕ) × JBlock) : Option McuWorker := do
  let (state, dst, b0) ← encodeOneBlock P w.dst w.bit_enc_state q.2 (w.last_dc_vals q.1.2)
    q.1.1.tbls.dc_derived q.1.1.tbls.ac_derived rel_stream
  return ⟨state, Function.update w.last_dc_vals q.1.2 b0, dst⟩

/-- **One block** adds its bits. -/
theorem encodeNext_written {pre E : List UInt8} {B : List Bool} {w : McuWorker}
    (h : Written P rel_stream pre E B (w.bit_enc_state, w.dst)) {q : (McuComp × ℕ) × JBlock}
    (hc : Coded q.1.1.tbls q.2 (w.last_dc_vals q.1.2))
    (hp : Puttable q.1.1.tbls q.2 (w.last_dc_vals q.1.2)) :
    ∃ w' E', encodeNext P rel_stream w q = some w' ∧
      w'.last_dc_vals = nextDc w.last_dc_vals q ∧
      Written P rel_stream pre E' (B ++ blockBits q.1.1.tbls q.2 (w.last_dc_vals q.1.2))
        (w'.bit_enc_state, w'.dst) := by
  obtain ⟨sc, hN, hbits, hrun⟩ := @encodeOneBlock_eq P rel_stream _ _ _ hc hp
  have hstart : Written P rel_stream pre E B
      (w.bit_enc_state, { w.dst with blkn := w.dst.blkn + 1 }) :=
    ⟨⟨h.ok.free, h.ok.full⟩, h.stream, h.bits, h.free⟩
  obtain ⟨hval, hsome⟩ := hstart.runScope sc
  have hroom : sc.Room P := by
    have hlen := length_blockBits_le hp
    have hle := P.le
    rw [← hbits] at hlen
    refine Or.inr ⟨by rw [hN]; exact hle, ?_⟩
    rw [hN, BUFSIZE]
    omega
  obtain ⟨s, hs⟩ := Option.isSome_iff_exists.mp (hsome hroom)
  obtain ⟨E', hE⟩ := hval s hs
  refine ⟨⟨s.1, nextDc w.last_dc_vals q, s.2⟩, E', ?_, rfl, hbits ▸ hE⟩
  rw [encodeNext, hrun, hs]
  rfl

/-- **A sequence of blocks** adds the bits of all. -/
theorem encode_sequence {pre E : List UInt8} {B : List Bool} {w : McuWorker}
    (h : Written P rel_stream pre E B (w.bit_enc_state, w.dst))
    {qs : List ((McuComp × ℕ) × JBlock)} (hc : Along Coded w.last_dc_vals qs)
    (hp : Along Puttable w.last_dc_vals qs) :
    ∃ w' E', qs.foldlM (encodeNext P rel_stream) w = some w' ∧
      Written P rel_stream pre E' (B ++ encodedBits w.last_dc_vals qs)
        (w'.bit_enc_state, w'.dst) := by
  induction qs generalizing w E B with
  | nil => exact ⟨w, E, rfl, by rwa [encodedBits, List.append_nil]⟩
  | cons q qs ih =>
    obtain ⟨w₁, E₁, hw₁, hlast, h₁⟩ := encodeNext_written h hc.1 hp.1
    obtain ⟨w', E', hw', h'⟩ := ih h₁ (hlast ▸ hc.2) (hlast ▸ hp.2)
    refine ⟨w', E', ?_, ?_⟩
    · rw [List.foldlM_cons, hw₁]
      exact hw'
    · rw [hlast, List.append_assoc] at h'
      exact h'

/-! ### The loops -/

theorem foldlM_const {σ α β : Type} (f : σ → Option σ) (xs : List α) {ys : List β}
    (hlen : xs.length = ys.length) (s : σ) :
    xs.foldlM (fun s _ => f s) s = ys.foldlM (fun s _ => f s) s := by
  induction xs generalizing ys s with
  | nil =>
    rw [List.length_eq_zero_iff.mp hlen.symm]
    rfl
  | cons x xs ih =>
    rcases ys with _ | ⟨y, ys⟩
    · cases hlen
    · rw [List.foldlM_cons, List.foldlM_cons]
      exact congrArg _ (funext fun s' => ih (Nat.succ_injective hlen) s')

theorem foldlM_grid {σ α : Type} (f : σ → Option σ) (v h : ℕ) (x : α) (s : σ) :
    (List.range v).foldlM (fun s _ => (List.range h).foldlM (fun s _ => f s) s) s =
      (List.replicate (v * h) x).foldlM (fun s _ => f s) s := by
  induction v generalizing s with
  | zero =>
    rw [Nat.zero_mul]
    rfl
  | succ v ih =>
    have hrow : ∀ s, (List.range h).foldlM (fun s _ => f s) s =
        (List.replicate h x).foldlM (fun s _ => f s) s :=
      foldlM_const f _ (by rw [List.length_range, List.length_replicate])
    rw [List.range_succ, List.foldlM_append, ih, Nat.succ_mul, ← List.replicate_append_replicate,
      List.foldlM_append]
    refine congrArg _ (funext fun s' => ?_)
    rw [List.foldlM_cons, hrow]
    exact bind_pure _

theorem foldlM_flatMap {σ α β : Type} (f : σ → β → Option σ) (g : α → List β)
    (xs : List α) (s : σ) :
    (xs.flatMap g).foldlM f s = xs.foldlM (fun s x => (g x).foldlM f s) s := by
  induction xs generalizing s with
  | nil => rfl
  | cons x xs ih =>
    rw [List.flatMap_cons, List.foldlM_append, List.foldlM_cons]
    exact congrArg _ (funext ih)

theorem foldlM_encodeMcuBlock (ps : List (McuComp × ℕ)) (mcu : List JBlock) (k : ℕ)
    (hk : k + ps.length ≤ mcu.length) (w : McuWorker) :
    ps.foldlM (fun s p => encodeMcuBlock P rel_stream mcu p.2 p.1 s) (w, k) =
      ((ps.zip (mcu.drop k)).foldlM (encodeNext P rel_stream) w).map
        fun w => (w, k + ps.length) := by
  induction ps generalizing k w with
  | nil => rfl
  | cons p ps ih =>
    rw [List.length_cons] at hk
    have hlt : k < mcu.length := by omega
    have hstep : encodeMcuBlock P rel_stream mcu p.2 p.1 (w, k) =
        (encodeNext P rel_stream w (p, mcu[k])).map fun w => (w, k + 1) := by
      rw [encodeMcuBlock, encodeNext]
      simp only [List.getElem?_eq_getElem hlt, Option.bind_eq_bind, Option.bind_some]
      rw [Option.map_bind]
      rfl
    rw [List.drop_eq_getElem_cons hlt, List.zip_cons_cons, List.foldlM_cons,
      List.foldlM_cons, hstep]
    cases encodeNext P rel_stream w (p, mcu[k]) with
    | none => rfl
    | some w' =>
      refine (ih (k + 1) (by omega) w').trans ?_
      rw [List.length_cons, show k + 1 + ps.length = k + (ps.length + 1) by omega]
      rfl

/-- **`encode_mcu` encodes the blocks of the layout in order.** -/
theorem encodeMcu_eq {comps : List McuComp} {mcu : List JBlock}
    (hlen : mcu.length = (layout comps).length) (w : McuWorker) :
    encodeMcu P rel_stream comps w mcu =
      ((layout comps).zip mcu).foldlM (encodeNext P rel_stream) w := by
  have hgrid : ∀ (s : McuWorker × ℕ) (p : McuComp × ℕ),
      ((List.range p.1.v_samp_factor).foldlM (fun s _ =>
        (List.range p.1.h_samp_factor).foldlM (fun s _ =>
          encodeMcuBlock P rel_stream mcu p.2 p.1 s) s) s) =
      (List.replicate (p.1.v_samp_factor * p.1.h_samp_factor) p).foldlM
        (fun s p => encodeMcuBlock P rel_stream mcu p.2 p.1 s) s := by
    intro s p
    rw [foldlM_grid _ _ _ p]
    generalize p.1.v_samp_factor * p.1.h_samp_factor = n
    induction n generalizing s with
    | zero => rfl
    | succ n ih =>
      rw [List.replicate_succ, List.foldlM_cons, List.foldlM_cons]
      exact congrArg _ (funext ih)
  have hloop := @foldlM_encodeMcuBlock P rel_stream (layout comps) mcu 0
    (by rw [Nat.zero_add, hlen]) w
  rw [layout, foldlM_flatMap, List.drop_zero] at hloop
  rw [encodeMcu]
  simp only [hgrid]
  rw [hloop, layout]
  cases ((comps.zipIdx.flatMap
    fun p => List.replicate (p.1.v_samp_factor * p.1.h_samp_factor) p).zip mcu).foldlM
      (encodeNext P rel_stream) w with
  | none => rfl
  | some w' => rfl

theorem foldlM_encodeMcu {comps : List McuComp} {mcus : List (List JBlock)}
    (hlen : ∀ mcu ∈ mcus, mcu.length = (layout comps).length) (w : McuWorker) :
    mcus.foldlM (encodeMcu P rel_stream comps) w =
      (sequence comps mcus).foldlM (encodeNext P rel_stream) w := by
  rw [sequence, foldlM_flatMap]
  induction mcus generalizing w with
  | nil => rfl
  | cons mcu mcus ih =>
    rw [List.foldlM_cons, List.foldlM_cons, encodeMcu_eq (hlen mcu List.mem_cons_self)]
    exact congrArg _ (funext fun w' => ih (fun m hm => hlen m (List.mem_cons_of_mem _ hm)) w')

/-- **The output of an interval** is the string of its bits. -/
theorem encodeInterval_eq {comps : List McuComp} {mcus : List (List JBlock)}
    (hlen : ∀ mcu ∈ mcus, mcu.length = (layout comps).length)
    (hc : Along Coded (fun _ => 0) (sequence comps mcus))
    (hp : Along Puttable (fun _ => 0) (sequence comps mcus)) {w : McuWorker} (hok : w.dst.Ok P) :
    ∃ w' E, encodeInterval P rel_stream comps mcus w = some w' ∧
      w'.dst.stream = w.dst.stream ++ stuff rel_stream E ∧
      byteBits E = padOnes (encodedBits (fun _ => 0) (sequence comps mcus)) := by
  have hstart : Written P rel_stream w.dst.stream [] []
      ((resetMcu w).bit_enc_state, (resetMcu w).dst) :=
    ⟨hok, (List.append_nil _).symm, rfl, by show (0 : ℤ) ≤ 32; decide, le_rfl⟩
  obtain ⟨w₁, E₁, hw₁, h₁⟩ := encode_sequence hstart hc hp
  obtain ⟨d, E', hd, -, hstream, hbits⟩ := h₁.flush
  refine ⟨{ w₁ with dst := d }, E', ?_, hstream, hbits⟩
  rw [encodeInterval, foldlM_encodeMcu hlen, hw₁]
  simp only [Option.bind_eq_bind, Option.bind_some, flushMcu, hd]
  rfl

end Encode

/-! ### What the decoder reads -/

/-- **A block is decoded.** -/
theorem decodeBlock_blockBits {t : CompTables} {block : JBlock} {last_dc_val : ℤ}
    (hc : Coded t block last_dc_val) (hr : InRange t block last_dc_val) (rest : List Bool) :
    decodeBlock t.dc_huff t.ac_huff last_dc_val (blockBits t block last_dc_val ++ rest) =
      some (block, rest) := by
  obtain ⟨diff, hdiff⟩ : ∃ diff, block 0 - last_dc_val = diff := ⟨_, rfl⟩
  have hitem : dcItem (block 0) last_dc_val =
      ⟨(valueBits diff).2, (valueBits diff).1, (valueBits diff).2⟩ := by
    rw [dcItem, hdiff]
  have hdc := hc.dc
  have hdr := hr.dc
  rw [hitem] at hdc hdr
  dsimp only at hdc hdr
  have hvals : ∀ v ∈ acValues block, (valueBits v).2 ≤ 15 := by
    intro v hv
    obtain ⟨i, hi, rfl⟩ := mem_acValues.mp hv
    exact hr.ac i hi
  have hlen : (acValues block).length = 63 := by
    rw [acValues, List.length_map]
    rfl
  have hac := @decodeAc_items _ _ _ t.ac_eq _ hvals 0 63 (by omega) hc.ac rest
  rw [hlen] at hac
  have hsym := decodeSymbol_word t.dc_eq hdc
    (bits (valueBits diff).2 (BitVec.ofInt 32 (valueBits diff).1).toNat ++
      ((blockAcItems block).flatMap (itemBits t.ac_derived) ++ rest))
  rw [blockBits, hitem, itemBits, List.append_assoc, List.append_assoc, decodeBlock]
  simp only [Option.bind_eq_bind, hsym, Option.bind_some]
  rw [receiveExtend_value diff (by omega), Option.bind_some]
  simp only [blockAcItems]
  rw [show (63 : ℕ) = 0 + 63 from rfl] 
  simp only [hac, Option.bind_some, List.replicate_zero, List.nil_append]
  rw [← hdiff, add_sub_cancel, blockOf_acValues]
  rfl

theorem decodeBlocks_encodedBits {qs : List ((McuComp × ℕ) × JBlock)} {last : ℕ → ℤ}
    (hc : Along Coded last qs) (hr : Along InRange last qs) (rest : List Bool) :
    decodeBlocks (qs.map Prod.fst) last (encodedBits last qs ++ rest) =
      some (qs.map Prod.snd, qs.foldl nextDc last, rest) := by
  induction qs generalizing last with
  | nil => rfl
  | cons q qs ih =>
    rw [encodedBits, List.append_assoc, List.map_cons, decodeBlocks,
      decodeBlock_blockBits hc.1 hr.1]
    simp only [Option.bind_eq_bind, Option.bind_some]
    have htail := ih hc.2 hr.2
    rw [nextDc] at htail
    rw [nextDc, htail]
    rfl

/-- **The MCUs are decoded.** -/
theorem decodeMcus_encodedBits {comps : List McuComp} {mcus : List (List JBlock)}
    (hlen : ∀ mcu ∈ mcus, mcu.length = (layout comps).length) {last : ℕ → ℤ}
    (hc : Along Coded last (sequence comps mcus)) (hr : Along InRange last (sequence comps mcus))
    (rest : List Bool) :
    decodeMcus comps mcus.length last (encodedBits last (sequence comps mcus) ++ rest) =
      some (mcus, rest) := by
  induction mcus generalizing last with
  | nil => rfl
  | cons mcu mcus ih =>
    have hmcu := hlen mcu List.mem_cons_self
    have hcons : sequence comps (mcu :: mcus) =
        (layout comps).zip mcu ++ sequence comps mcus := List.flatMap_cons
    rw [hcons, along_append] at hc hr
    have hfst : ((layout comps).zip mcu).map Prod.fst = layout comps :=
      List.map_fst_zip hmcu.ge
    have hsnd : ((layout comps).zip mcu).map Prod.snd = mcu := List.map_snd_zip hmcu.le
    have hblocks := decodeBlocks_encodedBits hc.1 hr.1
    rw [hfst, hsnd] at hblocks
    rw [hcons, encodedBits_append, List.append_assoc, List.length_cons, decodeMcus, hblocks]
    simp only [Option.bind_eq_bind, Option.bind_some,
      ih (fun m hm => hlen m (List.mem_cons_of_mem _ hm)) hc.2 hr.2]
    rfl

/-! ### The round trip -/

/-- What the encoder is defined on. -/
theorem InRange.puttable {t : CompTables} {block : JBlock} {last_dc_val : ℤ}
    (h : InRange t block last_dc_val) : Puttable t block last_dc_val := by
  have hvals : ∀ v ∈ acValues block, (valueBits v).2 ≤ 15 := by
    intro v hv
    obtain ⟨i, hi, rfl⟩ := mem_acValues.mp hv
    exact h.ac i hi
  refine ⟨h.dc, fun item hi => ?_⟩
  have hbits := acItems_nbits hvals 0 item hi
  have hsize := ehufsi_le t.ac_eq item.sym
  omega

theorem Along.imp {Q R : CompTables → JBlock → ℤ → Prop} (hQR : ∀ t b v, Q t b v → R t b v)
    {last : ℕ → ℤ} {qs : List ((McuComp × ℕ) × JBlock)} (h : Along Q last qs) :
    Along R last qs := by
  induction qs generalizing last with
  | nil => trivial
  | cons q qs ih => exact ⟨hQR _ _ _ h.1, ih h.2⟩

/-- **The output of an interval is decoded to its blocks**, in any layout and for any tables, and
nothing is left but the ones that fill the last byte. -/
theorem encodeInterval_roundTrip (P : PacketDataSize) (rel_stream : Bool) (comps : List McuComp)
    (mcus : List (List JBlock)) (w : McuWorker)
    (hlen : ∀ mcu ∈ mcus, mcu.length = (layout comps).length)
    (hc : Along Coded (fun _ => 0) (sequence comps mcus))
    (hr : Along InRange (fun _ => 0) (sequence comps mcus)) (hok : w.dst.Ok P) :
    ∃ w' out, encodeInterval P rel_stream comps mcus w = some w' ∧
      w'.dst.stream = w.dst.stream ++ out ∧
      ∃ n < 8, decodeMcus comps mcus.length (fun _ => 0) (byteBits (unstuff rel_stream out)) =
        some (mcus, List.replicate n true) := by
  obtain ⟨w', E, hw', hstream, hbits⟩ :=
    encodeInterval_eq hlen hc (hr.imp fun _ _ _ h => h.puttable) hok
  refine ⟨w', stuff rel_stream E, hw', hstream,
    (8 - (encodedBits (fun _ => 0) (sequence comps mcus)).length % 8) % 8,
    Nat.mod_lt _ (by decide), ?_⟩
  rw [unstuff_stuff, hbits, padOnes]
  exact decodeMcus_encodedBits hlen hc hr _

/-- Tables with codes for EOB, ZRL, values of two bits, and a run of one without a value. -/
def fewTables : CompTables :=
  .make ⟨[0, 0, 3], [0, 1, 2]⟩ ⟨[0, 0, 2, 2], [0, 2, 0xf0, 0x10]⟩ (by decide +kernel)
    (by decide +kernel)

/-- A block with a run of sixteen zeros. -/
def runBlock (dc ac : ℤ) : JBlock := fun i =>
  if i = 0 then dc else if i = 1 then ac else if i = 26 then 3 else 0

/-- An MCU of two blocks and one. -/
theorem encodeInterval_roundTrip_run :
    ∃ w' out, encodeInterval (packetDataSize false false) false
      [⟨2, 1, fewTables⟩, ⟨1, 1, fewTables⟩]
        [[runBlock 3 2, runBlock 1 (-2), runBlock (-1) 3]]
        ⟨BitEncoderState.reset, fun _ => 0, ⟨0, (packetDataSize false false).val, [], [], []⟩⟩ =
          some w' ∧
      w'.dst.stream = [] ++ out ∧
      ∃ n < 8, decodeMcus [⟨2, 1, fewTables⟩, ⟨1, 1, fewTables⟩] 1 (fun _ => 0)
        (byteBits (unstuff false out)) =
          some ([[runBlock 3 2, runBlock 1 (-2), runBlock (-1) 3]], List.replicate n true) :=
  encodeInterval_roundTrip (packetDataSize false false) false
    [⟨2, 1, fewTables⟩, ⟨1, 1, fewTables⟩] [[runBlock 3 2, runBlock 1 (-2), runBlock (-1) 3]]
    ⟨BitEncoderState.reset, fun _ => 0, ⟨0, (packetDataSize false false).val, [], [], []⟩⟩
    (by decide) (by decide +kernel) (by decide +kernel)
    ⟨Nat.zero_add _, fun _ h => absurd h List.not_mem_nil⟩

/-- A block whose first AC coefficient has sixteen bits. -/
def wideBlock : JBlock := fun i => if i = 1 then -32768 else 0

/-- Tables with a DC code of sixteen bits for values of sixteen. -/
def wideTables : CompTables :=
  .make ⟨List.replicate 16 0 ++ [1], [16]⟩ ⟨[0, 1], [0]⟩ (by decide +kernel) (by decide +kernel)

/-- **A size of sixteen runs over into the run length.**  The coefficient −32768 is sent under the
symbol of a run of one and no value, which a decoder takes for the end of the block.  A DC code and
its value may have a word of bits together, and the run that shifts the empty accumulator by so many
fails. -/
theorem encodeInterval_roundTrip_wrong :
    (∀ i, -2 ^ 15 ≤ wideBlock i ∧ wideBlock i < 2 ^ 15) ∧
      Along Coded (fun _ => 0) (sequence [⟨1, 1, fewTables⟩] [[wideBlock]]) ∧
      ∃ w' out, encodeInterval (packetDataSize false false) false [⟨1, 1, fewTables⟩] [[wideBlock]]
          ⟨BitEncoderState.reset, fun _ => 0, ⟨0, (packetDataSize false false).val, [], [], []⟩⟩ =
            some w' ∧
        w'.dst.stream = out ∧
        (∀ rest, decodeMcus [⟨1, 1, fewTables⟩] 1 (fun _ => 0) (byteBits (unstuff false out)) ≠
          some ([[wideBlock]], rest)) ∧
        Along Coded (fun _ => 0)
            (sequence [⟨1, 1, wideTables⟩] [[fun i => if i = 0 then -32768 else 0]]) ∧
          encodeInterval (packetDataSize false false) false [⟨1, 1, wideTables⟩]
            [[fun i => if i = 0 then -32768 else 0]]
            ⟨BitEncoderState.reset, fun _ => 0, ⟨0, (packetDataSize false false).val, [], [], []⟩⟩ =
              none := by
  have hcoded : Along Coded (fun _ => 0) (sequence [⟨1, 1, fewTables⟩] [[wideBlock]]) := by
    decide +kernel
  have hput : Along Puttable (fun _ => 0) (sequence [⟨1, 1, fewTables⟩] [[wideBlock]]) :=
    And.intro ⟨by decide +kernel, by decide +kernel⟩ trivial
  have hread : (decodeMcus [⟨1, 1, fewTables⟩] 1 (fun _ => 0) (padOnes
      (encodedBits (fun _ => 0) (sequence [⟨1, 1, fewTables⟩] [[wideBlock]])))).map
        (fun p => p.1.map fun mcu => mcu.map fun block => block 1) = some [[0]] := by decide +kernel
  refine ⟨by decide, hcoded, ?_⟩
  obtain ⟨w', E, hw', hstream, hbits⟩ := @encodeInterval_eq (packetDataSize false false) false
    [⟨1, 1, fewTables⟩] [[wideBlock]] (by decide) hcoded hput
    ⟨BitEncoderState.reset, fun _ => 0, ⟨0, (packetDataSize false false).val, [], [], []⟩⟩
    ⟨Nat.zero_add _, fun _ h => absurd h List.not_mem_nil⟩
  refine ⟨w', stuff false E, hw', hstream, fun rest hdec => ?_, by decide +kernel,
    Option.isNone_iff_eq_none.mp (by decide +kernel)⟩
  rw [unstuff_stuff, hbits] at hdec
  rw [hdec] at hread
  have hzero : [[wideBlock 1]] = [[0]] := Option.some.inj hread
  exact absurd hzero (by decide)

end RemotePlay.Jpeg
