import RemotePlay.Encode.BitStream
import RemotePlay.Jpeg.Symbols

/-! # The output of a block

`encode_one_block` puts a code and value bits for each item of a block into an `EncodeBuffer` of
`BUFSIZE` bytes, and nothing checks that they fit.  Each put flushes one word at most, four bytes
that stuffing makes eight, and a block has no more items than coefficients (`length_acItems_le`), so
they do. -/

namespace RemotePlay.Jpeg

open RemotePlay.Encode EncodeBuffer

/-- The bytes of the local array. -/
def BUFSIZE : ℕ := 64 * 8

section

variable (P : PacketDataSize)

/-- The put of an AC item: `put_bits` for the codes without value bits, `put_code` for the
others. -/
def putItem (tbl : DerivedTbl) (e : EncodeBuffer) (item : Item) : EncodeBuffer :=
  let code := BitVec.ofNat 32 (tbl.ehufco item.sym)
  let size := tbl.ehufsi item.sym
  if item.nbits = 0 then e.putBits P code size
  else e.putCode P code size (BitVec.ofInt 32 item.val1) item.nbits

/-- `encode_one_block` up to `store`. -/
def blockBuffer (dst : WorkerDst) (state : BitEncoderState) (block : JBlock) (last_dc_val : ℤ)
    (dc_derived_tbl ac_derived_tbl : DerivedTbl) (rel_stream : Bool) : EncodeBuffer :=
  let dst := { dst with blkn := dst.blkn + 1 }
  let e := EncodeBuffer.init BUFSIZE state dst rel_stream
  let dc := dcItem (block 0) last_dc_val
  let e := e.putCode P (BitVec.ofNat 32 (dc_derived_tbl.ehufco dc.sym))
    (dc_derived_tbl.ehufsi dc.sym) (BitVec.ofInt 32 dc.val1) dc.nbits
  (blockAcItems block).foldl (putItem P ac_derived_tbl) e

/-- `encode_one_block`: the state, the output and the DC value of the block. -/
def encodeOneBlock (dst : WorkerDst) (state : BitEncoderState) (block : JBlock) (last_dc_val : ℤ)
    (dc_derived_tbl ac_derived_tbl : DerivedTbl) (rel_stream : Bool) :
    Option (BitEncoderState × WorkerDst × ℤ) := do
  let e := blockBuffer P dst state block last_dc_val dc_derived_tbl ac_derived_tbl rel_stream
  let dst ← e.store P
  return (e.state, dst, block 0)

end

/-! ### Puts -/

/-- **A block has no more items than coefficients**: each ZRL stands for 16 of them. -/
theorem length_acItems_le {r : ℕ} (hr : 16 ∣ r) (vals : List ℤ) :
    (acItems r vals).length ≤ r / 16 + vals.length := by
  induction vals generalizing r with
  | nil =>
    rw [acItems]
    split_ifs
    · rw [List.length_singleton]
      omega
    · exact Nat.zero_le _
  | cons v vals ih =>
    rw [acItems]
    split_ifs
    · have := ih (r := r + 16) (by omega)
      rw [List.length_cons]
      omega
    · have := ih (r := 0) ⟨0, rfl⟩
      simp only [List.length_append, List.length_replicate, List.length_cons]
      omega

theorem length_blockAcItems_le (block : JBlock) : (blockAcItems block).length ≤ 63 := by
  have h := length_acItems_le (r := 0) ⟨0, rfl⟩ (acValues block)
  have hlen : (acValues block).length = 63 := by
    rw [acValues, List.length_map]
    rfl
  rw [blockAcItems]
  omega

variable {P : PacketDataSize} {e : EncodeBuffer}

/-- `n` words at most are emitted. -/
def Words (P : PacketDataSize) (n : ℕ) (e e' : EncodeBuffer) : Prop :=
  FreeOk e'.state ∧ ∃ bs, bs.length ≤ 4 * n ∧ Emits P bs e e'

theorem Words.trans {m n : ℕ} {e₁ e₂ e₃ : EncodeBuffer} (h : Words P m e₁ e₂)
    (h' : Words P n e₂ e₃) : Words P (m + n) e₁ e₃ := by
  obtain ⟨-, xs, hx, hemit⟩ := h
  obtain ⟨hfree, ys, hy, hemit'⟩ := h'
  refine ⟨hfree, xs ++ ys, ?_, hemit.trans hemit'⟩
  rw [List.length_append]
  omega

/-- **A put emits one word at most**, whatever the code. -/
theorem putBits_words (code : BitVec 32) {size : ℕ} (hsize : size ≤ 31) (hfree : FreeOk e.state) :
    Words P 1 e (e.putBits P code size) := by
  obtain ⟨h0, h32⟩ := hfree
  unfold putBits
  by_cases hneg : e.state.free_bits - size < 0
  · rw [if_pos hneg]
    refine ⟨?_, wordBytes (e.state.c <<< (size + (e.state.free_bits - size)).toNat |||
      code >>> (-(e.state.free_bits - size)).toNat), le_rfl, ?_⟩
    · simp only [putAndFlush, FreeOk, BIT_BUF_SIZE]
      omega
    · have hundef : (e.undef || decide ((BIT_BUF_SIZE : ℤ) ≤ size + (e.state.free_bits - size)) ||
          decide ((BIT_BUF_SIZE : ℤ) ≤ -(e.state.free_bits - size))) = e.undef := by
        rw [or_undef (by unfold BIT_BUF_SIZE; omega), or_undef (by unfold BIT_BUF_SIZE; omega)]
      simp only [putAndFlush, hundef]
      exact (flush_emits (P := P)
        { e with state := ⟨e.state.c <<< (size + (e.state.free_bits - size)).toNat |||
        code >>> (-(e.state.free_bits - size)).toNat, _⟩ }).with_state e.state _
  · rw [if_neg hneg, or_undef (by unfold BIT_BUF_SIZE; omega)]
    exact ⟨⟨not_lt.mp hneg, by simp only; omega⟩, [], Nat.zero_le _,
      (Emits.refl e).with_state e.state _⟩

theorem putCode_words (code temp : BitVec 32) {size nbits : ℕ} (hle : size + nbits ≤ 31)
    (hfree : FreeOk e.state) : Words P 1 e (e.putCode P code size temp nbits) := by
  rw [putCode, or_undef (by unfold BIT_BUF_SIZE; omega)]
  exact putBits_words _ (by omega) hfree

theorem putItem_words {tbl : DerivedTbl} {item : Item} (htbl : tbl.ehufsi item.sym ≤ 16)
    (hitem : item.nbits ≤ 12) (hfree : FreeOk e.state) : Words P 1 e (putItem P tbl e item) := by
  unfold putItem
  split_ifs
  · exact putBits_words _ (by omega) hfree
  · exact putCode_words _ _ (by omega) hfree

theorem foldl_putItem_words {tbl : DerivedTbl} (htbl : ∀ s < 256, tbl.ehufsi s ≤ 16)
    {items : List Item} (hitems : ∀ item ∈ items, item.sym < 256 ∧ item.nbits ≤ 12)
    (hfree : FreeOk e.state) : Words P items.length e (items.foldl (putItem P tbl) e) := by
  induction items generalizing e with
  | nil => exact ⟨hfree, [], Nat.zero_le _, Emits.refl e⟩
  | cons item items ih =>
    obtain ⟨hsym, hbits⟩ := hitems item List.mem_cons_self
    have hput := putItem_words (P := P) (htbl _ hsym) hbits hfree
    have hrest := ih (fun i hi => hitems i (List.mem_cons_of_mem _ hi)) hput.1
    rw [List.length_cons, Nat.add_comm]
    exact hput.trans hrest

theorem acItems_nbits {n : ℕ} {vals : List ℤ} (h : ∀ v ∈ vals, (valueBits v).2 ≤ n) (r : ℕ) :
    ∀ item ∈ acItems r vals, item.nbits ≤ n := by
  induction vals generalizing r with
  | nil =>
    intro item hi
    rw [acItems] at hi
    split_ifs at hi
    · rw [List.mem_singleton.mp hi]
      exact Nat.zero_le _
    · cases hi
  | cons v vals ih =>
    have ih := ih fun v hv => h v (List.mem_cons_of_mem _ hv)
    intro item hi
    rw [acItems] at hi
    split_ifs at hi
    · exact ih _ item hi
    · rcases List.mem_append.mp hi with hi | hi
      · rw [List.eq_of_mem_replicate hi]
        exact Nat.zero_le _
      rcases List.mem_cons.mp hi with rfl | hi
      · exact h v List.mem_cons_self
      · exact ih _ item hi

/-! ### Bounds -/

/-- What is touched lies within the `N` bytes, and within what is free of the packet where it is
written there. -/
structure Fits (N : ℕ) (e : EncodeBuffer) (free : ℕ) : Prop where
  touched : e.high ≤ N
  written : e.buf.length ≤ N
  in_packet : e.base = .dst → e.high ≤ free ∧ e.buf.length ≤ free

/-- **Few enough bytes fit, and are stored.** -/
theorem fits_of_emits {N : ℕ} {state : BitEncoderState} {dst : WorkerDst} {no_escape : Bool}
    {bs : List UInt8} {e : EncodeBuffer} (h0 : N ≠ 0) (hN : N ≤ P.val)
    (h : Emits P bs (EncodeBuffer.init N state dst no_escape) e) (hlen : 2 * bs.length ≤ N) :
    Fits N e dst.free_in_bytes ∧ (e.store P).isSome := by
  have hsize : e.N = N := h.same.1
  have hdst : e.dst = dst := h.dst_pos h0
  have hbuf : e.buf.length ≤ 0 + 2 * bs.length := h.buf_le
  have hhigh : e.high ≤ max 0 (0 + 2 * bs.length) := h.high_le
  have hmod : N % 2 ^ 16 = N := Nat.mod_eq_of_lt (lt_of_le_of_lt hN P.lt)
  have hfree : e.base = .dst → N ≤ dst.free_in_bytes := by
    intro hbase
    by_contra hlt
    have hinit : e.base = (EncodeBuffer.init N state dst no_escape).base := h.same.2.1
    rw [hbase, EncodeBuffer.init, if_neg h0, if_pos (by omega)] at hinit
    cases hinit
  have hundef : e.undef ≠ true := by
    rw [h.undef]
    exact Bool.false_ne_true
  constructor
  · refine ⟨by omega, by omega, fun hbase => ?_⟩
    have := hfree hbase
    omega
  · unfold store
    rw [if_neg hundef, if_neg (hsize ▸ h0), hdst, hsize]
    rcases hbase : e.base
    · simp only
      rw [if_pos (by omega)]
      exact WorkerDst.writeBytes_isSome dst (by omega)
    · have := hfree hbase
      simp only
      rw [WorkerDst.advanceTo, if_pos (by omega)]
      rfl

/-! ### Blocks -/

/-- The looked-up categories of a block are of at most `n` bits. -/
structure Categories (n : ℕ) (block : JBlock) (last_dc_val : ℤ) : Prop where
  dc : (valueBits (block 0 - last_dc_val)).2 ≤ n
  ac : ∀ i : Fin 64, i ≠ 0 → (valueBits (block i)).2 ≤ n

theorem acSymbols_lt {n : ℕ} (hn : n < 16) : ∀ s ∈ acSymbols n, s < 256 := by
  intro s hs
  simp only [acSymbols, List.mem_cons, List.mem_flatMap, List.mem_map, List.mem_range] at hs
  obtain rfl | rfl | ⟨run, hrun, k, hk, rfl⟩ := hs <;> omega

theorem Categories.items {block : JBlock} {last_dc_val : ℤ} (h : Categories 12 block last_dc_val) :
    ∀ item ∈ blockAcItems block, item.sym < 256 ∧ item.nbits ≤ 12 := by
  have hvals : ∀ v ∈ acValues block, (valueBits v).2 ≤ 12 := by
    intro v hv
    obtain ⟨i, hi, rfl⟩ := mem_acValues.mp hv
    exact h.ac i hi
  intro item hitem
  refine ⟨?_, acItems_nbits hvals 0 item hitem⟩
  have hsym := acItems_mem (fun v hv => Nat.size_le.mp (hvals v hv)) (dvd_zero 16) item hitem
  exact acSymbols_lt (by decide) _ hsym

/-- **A block emits 64 words at most.** -/
theorem blockBuffer_words {dst : WorkerDst} {state : BitEncoderState} {block : JBlock}
    {last_dc_val : ℤ} {dc_tbl ac_tbl : DerivedTbl} {rel_stream : Bool} (hfree : FreeOk state)
    (hdc : ∀ s < 256, dc_tbl.ehufsi s ≤ 16) (hac : ∀ s < 256, ac_tbl.ehufsi s ≤ 16)
    (hcat : Categories 12 block last_dc_val) :
    Words P 64 (EncodeBuffer.init BUFSIZE state { dst with blkn := dst.blkn + 1 } rel_stream)
      (blockBuffer P dst state block last_dc_val dc_tbl ac_tbl rel_stream) := by
  have hbits : (dcItem (block 0) last_dc_val).nbits ≤ 12 := hcat.dc
  have hsize := hdc (dcItem (block 0) last_dc_val).sym
    (lt_of_le_of_lt hcat.dc (by decide))
  have hput : ∀ code temp e, FreeOk e.state → Words P 1 e (e.putCode P code
      (dc_tbl.ehufsi (dcItem (block 0) last_dc_val).sym) temp
        (dcItem (block 0) last_dc_val).nbits) :=
    fun code temp e he => putCode_words code temp (by omega) he
  have hfirst := hput (BitVec.ofNat 32 (dc_tbl.ehufco (dcItem (block 0) last_dc_val).sym))
    (BitVec.ofInt 32 (dcItem (block 0) last_dc_val).val1)
    (EncodeBuffer.init BUFSIZE state { dst with blkn := dst.blkn + 1 } rel_stream) hfree
  have hrest := foldl_putItem_words (P := P) hac hcat.items hfirst.1
  obtain ⟨hok, bs, hbs, hemit⟩ := hfirst.trans hrest
  have hlen := length_blockAcItems_le block
  exact ⟨hok, bs, by omega, hemit⟩

/-- **No block overruns its buffer.**  From every state of the accumulator, what `encode_one_block`
touches, the zero after the last byte included, lies within `BUFSIZE` bytes, and within what is free
of the packet when it writes there; the same holds of the 16 bytes of `BitEncoderState::flush`. -/
theorem encodeOneBlock_fits (P : PacketDataSize) (dst : WorkerDst) (state : BitEncoderState)
    (hfree : FreeOk state) (rel_stream : Bool) :
    (∀ (block : JBlock) (last_dc_val : ℤ) (dc_tbl ac_tbl : DerivedTbl),
      (∀ s < 256, dc_tbl.ehufsi s ≤ 16) → (∀ s < 256, ac_tbl.ehufsi s ≤ 16) →
      Categories 12 block last_dc_val →
      Fits BUFSIZE (blockBuffer P dst state block last_dc_val dc_tbl ac_tbl rel_stream)
          dst.free_in_bytes ∧
        ∃ state' dst', encodeOneBlock P dst state block last_dc_val dc_tbl ac_tbl rel_stream =
            some (state', dst', block 0) ∧ FreeOk state') ∧
    Fits 16 (flushLoop P state.c (BIT_BUF_SIZE - state.free_bits).toNat
        (EncodeBuffer.init 16 state dst rel_stream)) dst.free_in_bytes ∧
      (state.flush P rel_stream dst).isSome := by
  have hle := P.le
  constructor
  · intro block last_dc_val dc_tbl ac_tbl hdc hac hcat
    have hwords : Words P 64
        (EncodeBuffer.init BUFSIZE state { dst with blkn := dst.blkn + 1 } rel_stream)
        (blockBuffer P dst state block last_dc_val dc_tbl ac_tbl rel_stream) :=
      blockBuffer_words hfree hdc hac hcat
    obtain ⟨hok, bs, hlen, hemit⟩ := hwords
    obtain ⟨hfits, hsome⟩ := fits_of_emits (N := BUFSIZE) (by decide) hle hemit
      (by unfold BUFSIZE; omega)
    obtain ⟨d, hd⟩ := Option.isSome_iff_exists.mp hsome
    refine ⟨hfits, _, d, ?_, hok⟩
    rw [encodeOneBlock, hd]
    rfl
  · obtain ⟨bs, hemit, -, hlen⟩ := flushLoop_spec (P := P) state.c
      (BIT_BUF_SIZE - state.free_bits).toNat (EncodeBuffer.init 16 state dst rel_stream)
    have h0 := hfree.1
    exact fits_of_emits (by decide) (by omega) hemit (by unfold BIT_BUF_SIZE at hlen; omega)

/-- A block of values of 12 bits under codes of 16, after 32 bits that wait, in a packet with 512
bytes left. -/
theorem encodeOneBlock_fits_longest :
    Fits 512 (blockBuffer (packetDataSize false false) ⟨0, 512, List.replicate 932 0, [], []⟩
      ⟨0xffffffff, 0⟩ (fun _ => 4095) 0 ⟨fun _ => 65535, fun _ => 16⟩ ⟨fun _ => 65535, fun _ => 16⟩
      false) 512 :=
  ((encodeOneBlock_fits (packetDataSize false false) ⟨0, 512, List.replicate 932 0, [], []⟩
    ⟨0xffffffff, 0⟩ ⟨by decide, by decide⟩ false).1 (fun _ => 4095) 0
    ⟨fun _ => 65535, fun _ => 16⟩ ⟨fun _ => 65535, fun _ => 16⟩ (fun _ _ => le_rfl)
      (fun _ _ => le_rfl)
    ⟨nbits_le (by decide), fun _ _ => nbits_le (by decide)⟩).1

end RemotePlay.Jpeg
