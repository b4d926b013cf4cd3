import RemotePlay.Encode.Dst
import RemotePlay.Lib.Bits

/-! # Packing bits

`BitEncoderState` holds up to 32 bits that wait, in the low end of a word; what stands above them is
left over.  `EncodeBuffer` hands full words to the worker's output, byte by byte (`N = 0`), through
a local array when the packet has less than `N` bytes left, or straight into the packet.  Whichever
way, the output is the string of the bits put, in whole bytes, with a zero after each byte of ones
unless `no_escape` (`encodeAll_spec`). -/

namespace RemotePlay.Encode

open RemotePlay.Lib.Bits

/-- `BitEncoderState`. -/
structure BitEncoderState where
  c : BitVec 32
  free_bits : ℤ

/-- The bits of `put_buffer`. -/
def BIT_BUF_SIZE : ℕ := 32

/-- `reset`. -/
def BitEncoderState.reset : BitEncoderState := ⟨0, BIT_BUF_SIZE⟩

/-- `EncodeBufferBase`, for `N > 0`: the local array or the packet. -/
inductive EncodeBufferBase
  | local_ | dst
  deriving DecidableEq, Repr

/-- `EncodeBuffer`: `buf` is what stands between the base and the pointer `buf`, `high` the number
of bytes after the base that were touched, and `undef` whether a word was shifted by all its
bits. -/
structure EncodeBuffer where
  N : ℕ
  base : EncodeBufferBase
  buf : List UInt8
  high : ℕ
  state : BitEncoderState
  dst : WorkerDst
  no_escape : Bool
  undef : Bool

namespace EncodeBuffer

section

variable (P : PacketDataSize)

/-- `init`. -/
def init (N : ℕ) (state : BitEncoderState) (dst : WorkerDst) (no_escape : Bool) : EncodeBuffer :=
  ⟨N, if N = 0 then .dst else if dst.free_in_bytes < N % 2 ^ 16 then .local_ else .dst, [], 0,
    state, dst, no_escape, false⟩

/-- `store`.  It fails when the array was too short or the packet was, or a shift was undefined. -/
def store (e : EncodeBuffer) : Option WorkerDst :=
  if e.undef = true then none
  else if e.N = 0 then some e.dst
  else match e.base with
    | .local_ => if e.high ≤ e.N then e.dst.writeBytes P e.buf else none
    | .dst => e.dst.advanceTo e.buf

/-- `emit_byte`. -/
def emitByte (b : UInt8) (e : EncodeBuffer) : EncodeBuffer :=
  if e.N = 0 then
    let dst := e.dst.writeByte P b
    { e with dst := if !e.no_escape && b == 0xff then dst.writeByte P 0 else dst }
  else if e.no_escape then
    { e with buf := e.buf ++ [b], high := max e.high (e.buf.length + 1) }
  else
    -- a zero is written after the byte, and the pointer moves past it only after a byte of ones
    { e with
      buf := e.buf ++ if b < 0xff then [b] else [b, 0]
      high := max e.high (e.buf.length + 2) }

/-- The four bytes of a word. -/
def wordBytes (c : BitVec 32) : List UInt8 :=
  [UInt8.ofNat (c >>> 24).toNat, UInt8.ofNat (c >>> 16).toNat, UInt8.ofNat (c >>> 8).toNat,
    UInt8.ofNat c.toNat]

/-- `flush`. -/
def flush (e : EncodeBuffer) : EncodeBuffer :=
  if !e.no_escape &&
      decide (e.state.c &&& 0x80808080#32 &&& ~~~(e.state.c + 0x01010101#32) > 0) then
    (wordBytes e.state.c).foldl (fun e b => e.emitByte P b) e
  else if e.N = 0 then
    { e with dst := (wordBytes e.state.c).foldl (fun d b => d.writeByte P b) e.dst }
  else
    { e with buf := e.buf ++ wordBytes e.state.c, high := max e.high (e.buf.length + 4) }

/-- `put_and_flush`. -/
def putAndFlush (code : BitVec 32) (size : ℕ) (e : EncodeBuffer) : EncodeBuffer :=
  let free_bits := e.state.free_bits
  let c := e.state.c <<< (size + free_bits).toNat ||| code >>> (-free_bits).toNat
  let undef := e.undef || BIT_BUF_SIZE ≤ size + free_bits || BIT_BUF_SIZE ≤ -free_bits
  let e := flush P { e with state := ⟨c, free_bits⟩, undef := undef }
  { e with state := ⟨code, free_bits + BIT_BUF_SIZE⟩ }

/-- `put_bits`. -/
def putBits (code : BitVec 32) (size : ℕ) (e : EncodeBuffer) : EncodeBuffer :=
  let free_bits := e.state.free_bits - size
  if free_bits < 0 then putAndFlush P code size { e with state := ⟨e.state.c, free_bits⟩ }
  else
    { e with
      state := ⟨e.state.c <<< size ||| code, free_bits⟩, undef := e.undef || BIT_BUF_SIZE ≤ size }

/-- `put_code`. -/
def putCode (code : BitVec 32) (size : ℕ) (temp : BitVec 32) (nbits : ℕ) (e : EncodeBuffer) :
    EncodeBuffer :=
  let temp := temp &&& (1#32 <<< nbits - 1)
  let temp := temp ||| code <<< nbits
  putBits P temp (nbits + size) { e with undef := e.undef || BIT_BUF_SIZE ≤ nbits }

end

end EncodeBuffer

/-- The loop of `BitEncoderState::flush`, with `put_bits` bits left. -/
def flushLoop (P : PacketDataSize) (put_buffer : BitVec 32) (put_bits : ℕ) (e : EncodeBuffer) :
    EncodeBuffer :=
  if 8 ≤ put_bits then
    flushLoop P put_buffer (put_bits - 8)
      (e.emitByte P (UInt8.ofNat (put_buffer >>> (put_bits - 8)).toNat))
  else if 0 < put_bits then
    -- the partial byte is filled with ones
    e.emitByte P (UInt8.ofNat
      (put_buffer <<< (8 - put_bits) ||| 0xff#32 >>> put_bits).toNat)
  else e
termination_by put_bits

/-- `BitEncoderState::flush`. -/
def BitEncoderState.flush (P : PacketDataSize) (no_escape : Bool) (state : BitEncoderState)
    (dst : WorkerDst) : Option WorkerDst :=
  let put_bits := (BIT_BUF_SIZE - state.free_bits).toNat
  (flushLoop P state.c put_bits (EncodeBuffer.init 16 state dst no_escape)).store P

/-! ### The bytes -/

/-- The bytes with a zero after each byte of ones, unless they are not escaped. -/
def stuff (no_escape : Bool) (bs : List UInt8) : List UInt8 :=
  bs.flatMap fun b => if !no_escape && b == 0xff then [b, 0] else [b]

@[simp] theorem stuff_append (no_escape : Bool) (xs ys : List UInt8) :
    stuff no_escape (xs ++ ys) = stuff no_escape xs ++ stuff no_escape ys := List.flatMap_append

theorem stuff_eq_self {no_escape : Bool} {bs : List UInt8}
    (h : no_escape = false → ∀ b ∈ bs, b ≠ 0xff) : stuff no_escape bs = bs := by
  induction bs with
  | nil => rfl
  | cons b bs ih =>
    have htail : stuff no_escape bs = bs := ih fun hne x hx => h hne x (List.mem_cons_of_mem _ hx)
    have hhead : (!no_escape && b == 0xff) = false := by
      cases no_escape with
      | true => rfl
      | false => simpa using h rfl b List.mem_cons_self
    show (if (!no_escape && b == 0xff) = true then [b, 0] else [b]) ++ stuff no_escape bs = b :: bs
    rw [hhead, htail]
    rfl

theorem length_stuff_le (no_escape : Bool) (bs : List UInt8) :
    (stuff no_escape bs).length ≤ 2 * bs.length := by
  induction bs with
  | nil => exact Nat.zero_le _
  | cons b bs ih =>
    show ((if (!no_escape && b == 0xff) = true then [b, 0] else [b]) ++ stuff no_escape bs).length ≤
        _
    rw [List.length_append, List.length_cons]
    split_ifs <;> simp <;> omega

theorem wordBytes_bits (c : BitVec 32) : byteBits (EncodeBuffer.wordBytes c) = bits 32 c.toNat := by
  have h1 : bits 32 c.toNat = bits 24 (c.toNat / 2 ^ 8) ++ bits 8 c.toNat := bits_add 24 8 _
  have h2 : bits 24 (c.toNat / 2 ^ 8) = bits 16 (c.toNat / 2 ^ 16) ++ bits 8 (c.toNat / 2 ^ 8) := by
    rw [bits_add 16 8, Nat.div_div_eq_div_mul]
    norm_num
  have h3 : bits 16 (c.toNat / 2 ^ 16) =
      bits 8 (c.toNat / 2 ^ 24) ++ bits 8 (c.toNat / 2 ^ 16) := by
    rw [bits_add 8 8, Nat.div_div_eq_div_mul]
    norm_num
  rw [h1, h2, h3]
  simp only [EncodeBuffer.wordBytes, byteBits_cons, byteBits_nil, bits_ofNat,
    BitVec.toNat_ushiftRight, Nat.shiftRight_eq_div_pow, List.append_nil, List.append_assoc]

/-- **The test finds a byte of ones** in a word that has one. -/
theorem ne_ff_of_test {c : BitVec 32}
    (h : ¬c &&& 0x80808080#32 &&& ~~~(c + 0x01010101#32) > 0) :
    ∀ b ∈ EncodeBuffer.wordBytes c, b ≠ 0xff := by
  have hzero : c &&& 0x80808080#32 &&& ~~~(c + 0x01010101#32) = 0#32 := by
    by_contra hne
    exact h (BitVec.lt_def.mpr (Nat.pos_of_ne_zero fun h0 => hne (BitVec.eq_of_toNat_eq h0)))
  -- the highest bit of a byte of the word stays set when one is added to each byte
  have hbit : ∀ i < 32, (0x80808080#32).getLsbD i = true → c.toNat / 2 ^ i % 2 = 1 →
      (c.toNat + 16843009) % 2 ^ 32 / 2 ^ i % 2 = 1 := by
    intro i hi hmask hc
    have hget := congrArg (fun x : BitVec 32 => x.getLsbD i) hzero
    have hci : c.getLsbD i = true := by
      rw [BitVec.getLsbD, Nat.testBit_eq_decide_div_mod_eq, hc]
      rfl
    simp only [BitVec.getLsbD_and, BitVec.getLsbD_not, hci, hmask, hi, decide_true, Bool.true_and,
      BitVec.getLsbD_zero, Bool.not_eq_false'] at hget
    rw [BitVec.getLsbD, Nat.testBit_eq_decide_div_mod_eq, BitVec.toNat_add] at hget
    exact of_decide_eq_true hget
  have hlt := c.isLt
  have h7 := hbit 7 (by decide) (by decide)
  have h15 := hbit 15 (by decide) (by decide)
  have h23 := hbit 23 (by decide) (by decide)
  have h31 := hbit 31 (by decide) (by decide)
  have hne : ∀ x : ℕ, x % 256 ≠ 255 → UInt8.ofNat x ≠ 0xff := by
    intro x hx heq
    have := congrArg UInt8.toNat heq
    rw [UInt8.toNat_ofNat'] at this
    exact hx this
  have hb0 : c.toNat % 256 ≠ 255 := by omega
  have hb1 : c.toNat / 2 ^ 8 % 256 ≠ 255 := by omega
  have hb2 : c.toNat / 2 ^ 16 % 256 ≠ 255 := by omega
  have hb3 : c.toNat / 2 ^ 24 % 256 ≠ 255 := by omega
  intro b hb
  simp only [EncodeBuffer.wordBytes, BitVec.toNat_ushiftRight, Nat.shiftRight_eq_div_pow,
    List.mem_cons, List.not_mem_nil, or_false] at hb
  rcases hb with rfl | rfl | rfl | rfl
  · exact hne _ hb3
  · exact hne _ hb2
  · exact hne _ hb1
  · exact hne _ hb0

end RemotePlay.Encode
