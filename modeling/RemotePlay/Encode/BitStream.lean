import RemotePlay.Encode.BitBuffer
import Mathlib.Tactic.IntervalCases

/-! # What the bit packer delivers

What emitting bytes does to a buffer (`Emits`) is the same on every path, so the calls of one scope
and then the scopes of a run add up to one string of bits (`encodeAll_spec`). -/

namespace RemotePlay.Encode

open RemotePlay.Lib.Bits

/-! ### Emitting -/

namespace EncodeBuffer

/-- All that was written, the local array or what is not advanced over yet at the end. -/
def stream (e : EncodeBuffer) : List UInt8 := e.dst.stream ++ e.buf

/-- The bits that wait. -/
def pending (st : BitEncoderState) : List Bool := bits (32 - st.free_bits).toNat st.c.toNat

/-- `e'` is `e` after the bytes `bs`, in so far as the output goes. -/
structure Emits (P : PacketDataSize) (bs : List UInt8) (e e' : EncodeBuffer) : Prop where
  same : e'.N = e.N ∧ e'.base = e.base ∧ e'.no_escape = e.no_escape
  undef : e'.undef = e.undef
  ok : e.dst.Ok P → e'.dst.Ok P
  stream : (e.N = 0 → e.buf = []) → e'.stream = e.stream ++ stuff e.no_escape bs
  buf_le : e'.buf.length ≤ e.buf.length + 2 * bs.length
  high_le : e'.high ≤ max e.high (e.buf.length + 2 * bs.length)
  buf_zero : e.N = 0 → e'.buf = e.buf
  dst_pos : e.N ≠ 0 → e'.dst = e.dst

variable {P : PacketDataSize}

theorem Emits.refl (e : EncodeBuffer) : Emits P [] e e :=
  ⟨⟨rfl, rfl, rfl⟩, rfl, id, fun _ => (List.append_nil _).symm, Nat.le_add_right _ _,
  le_max_left _ _,
    fun _ => rfl, fun _ => rfl⟩

theorem Emits.trans {xs ys : List UInt8} {e₁ e₂ e₃ : EncodeBuffer} (h : Emits P xs e₁ e₂)
    (h' : Emits P ys e₂ e₃) : Emits P (xs ++ ys) e₁ e₃ := by
  obtain ⟨⟨hN, hbase, hesc⟩, hundef, hok, hstream, hbuf, hhigh, hzero, hdst⟩ := h
  obtain ⟨⟨hN', hbase', hesc'⟩, hundef', hok', hstream', hbuf', hhigh', hzero', hdst'⟩ := h'
  refine ⟨⟨hN'.trans hN, hbase'.trans hbase, hesc'.trans hesc⟩, hundef'.trans hundef,
    fun h => hok' (hok h), fun h0 => ?_, ?_, ?_, fun h => (hzero' (hN ▸ h)).trans (hzero h),
    fun h => (hdst' (hN ▸ h)).trans (hdst h)⟩
  · have h0' : e₂.N = 0 → e₂.buf = [] := fun h => (hzero (hN ▸ h)).trans (h0 (hN ▸ h))
    rw [hstream' h0', hstream h0, hesc, stuff_append, List.append_assoc]
  · rw [List.length_append]
    omega
  · rw [List.length_append]
    omega

theorem emits_of_dst {e : EncodeBuffer} (hN : e.N = 0) {bs : List UInt8} {dst : WorkerDst}
    (hok : e.dst.Ok P → dst.Ok P) (hstream : dst.stream = e.dst.stream ++ stuff e.no_escape bs) :
    Emits P bs e { e with dst := dst } := by
  refine ⟨⟨rfl, rfl, rfl⟩, rfl, hok, fun h0 => ?_, Nat.le_add_right _ _, le_max_left _ _,
    fun _ => rfl, fun h => absurd hN h⟩
  show dst.stream ++ e.buf = e.dst.stream ++ e.buf ++ _
  rw [h0 hN, List.append_nil, List.append_nil, hstream]

theorem emits_of_buf {e : EncodeBuffer} (hN : e.N ≠ 0) {bs ws : List UInt8} {high : ℕ}
    (hws : ws = stuff e.no_escape bs) (hhigh : high ≤ max e.high (e.buf.length + 2 * bs.length)) :
    Emits P bs e { e with buf := e.buf ++ ws, high := high } := by
  subst hws
  refine ⟨⟨rfl, rfl, rfl⟩, rfl, id, fun _ => (List.append_assoc _ _ _).symm, ?_, hhigh,
    fun h => absurd h hN, fun _ => rfl⟩
  show (e.buf ++ stuff e.no_escape bs).length ≤ _
  have := length_stuff_le e.no_escape bs
  rw [List.length_append]
  omega

theorem emitByte_emits (b : UInt8) (e : EncodeBuffer) : Emits P [b] e (e.emitByte P b) := by
  have hstuff : stuff e.no_escape [b] = if !e.no_escape && b == 0xff then [b, 0] else [b] :=
    List.append_nil _
  by_cases hN : e.N = 0
  · rw [emitByte, if_pos hN]
    refine emits_of_dst hN (fun h => ?_) ?_
    · split_ifs
      · exact (h.writeByte b).writeByte 0
      · exact h.writeByte b
    · rw [hstuff]
      split_ifs
      · rw [WorkerDst.stream_writeByte, WorkerDst.stream_writeByte, List.append_assoc]
        rfl
      · exact WorkerDst.stream_writeByte _ _
  by_cases hesc : e.no_escape = true
  · rw [emitByte, if_neg hN, if_pos hesc]
    refine emits_of_buf hN ?_ ?_
    · rw [hstuff, hesc]
      rfl
    · simp only [List.length_singleton]
      omega
  · rw [emitByte, if_neg hN, if_neg hesc]
    refine emits_of_buf hN ?_ ?_
    · rw [hstuff, eq_false_of_ne_true hesc]
      rcases eq_or_ne b 0xff with rfl | hb
      · rfl
      · have hlt : b < 0xff := by
          have hne : b.toNat ≠ 255 := fun h => hb (UInt8.toNat_inj.mp h)
          have hle := b.toNat_lt
          exact UInt8.lt_iff_toNat_lt.mpr (by show b.toNat < 255; omega)
        rw [if_pos hlt, if_neg (by simpa using hb)]
    · simp only [List.length_singleton]
      omega

theorem foldl_emitByte_emits (bs : List UInt8) (e : EncodeBuffer) :
    Emits P bs e (bs.foldl (fun e b => e.emitByte P b) e) := by
  induction bs generalizing e with
  | nil => exact Emits.refl e
  | cons b bs ih => exact (emitByte_emits b e).trans (ih _)

theorem foldl_writeByte (bs : List UInt8) (d : WorkerDst) :
    (d.Ok P → (bs.foldl (fun d b => d.writeByte P b) d).Ok P) ∧
      (bs.foldl (fun d b => d.writeByte P b) d).stream = d.stream ++ bs := by
  induction bs generalizing d with
  | nil => exact ⟨id, (List.append_nil _).symm⟩
  | cons b bs ih =>
    obtain ⟨hok, hstream⟩ := ih (d.writeByte P b)
    refine ⟨fun h => hok (h.writeByte b), ?_⟩
    rw [List.foldl_cons, hstream, WorkerDst.stream_writeByte, List.append_assoc]
    rfl

/-- **A full word is emitted** whether a byte of ones was found in it or not. -/
theorem flush_emits (e : EncodeBuffer) : Emits P (wordBytes e.state.c) e (e.flush P) := by
  unfold flush
  by_cases htest : (!e.no_escape &&
      decide (e.state.c &&& 0x80808080#32 &&& ~~~(e.state.c + 0x01010101#32) > 0)) = true
  · rw [if_pos htest]
    exact foldl_emitByte_emits _ e
  · have hself : stuff e.no_escape (wordBytes e.state.c) = wordBytes e.state.c :=
      stuff_eq_self fun hne => ne_ff_of_test fun h =>
        htest (by rw [hne, decide_eq_true h]; rfl)
    rw [if_neg htest]
    by_cases hN : e.N = 0
    · rw [if_pos hN]
      obtain ⟨hok, hstream⟩ := foldl_writeByte (P := P) (wordBytes e.state.c) e.dst
      exact emits_of_dst hN hok (by rw [hself, hstream])
    · rw [if_neg hN]
      refine emits_of_buf hN hself.symm ?_
      show max e.high (e.buf.length + 4) ≤ max e.high (e.buf.length + 2 * 4)
      omega

/-! ### Putting bits -/

theorem Emits.with_state {bs : List UInt8} {e e' : EncodeBuffer} (h : Emits P bs e e')
    (st st' : BitEncoderState) : Emits P bs { e with state := st } { e' with state := st' } :=
  ⟨h.same, h.undef, h.ok, h.stream, h.buf_le, h.high_le, h.buf_zero, h.dst_pos⟩

/-- Between the calls at most 32 bits wait. -/
def FreeOk (st : BitEncoderState) : Prop := 0 ≤ st.free_bits ∧ st.free_bits ≤ 32

theorem testBit_shiftLeft_or (c d : BitVec 32) (k : ℕ) {i : ℕ} (hi : i < 32) :
    (c <<< k ||| d).toNat.testBit i = (c.toNat <<< k ||| d.toNat).testBit i := by
  rw [BitVec.toNat_or, BitVec.toNat_shiftLeft, Nat.testBit_or, Nat.testBit_mod_two_pow,
    decide_eq_true hi, Bool.true_and, Nat.testBit_or]

theorem or_undef {u : Bool} {p : Prop} [Decidable p] (h : ¬p) : (u || decide p) = u := by
  rw [decide_eq_false h, Bool.or_false]

/-- **Putting bits appends them**: those that wait, with what is emitted in front, are the bits that
waited with the new ones behind. -/
theorem putBits_spec {code : BitVec 32} {size : ℕ} (hsize : size ≤ 31)
    (hcode : code.toNat < 2 ^ size) {e : EncodeBuffer} (hfree : FreeOk e.state) :
    ∃ bs, Emits P bs e (e.putBits P code size) ∧ FreeOk (e.putBits P code size).state ∧
      byteBits bs ++ pending (e.putBits P code size).state =
        pending e.state ++ bits size code.toNat := by
  obtain ⟨h0, h32⟩ := hfree
  obtain ⟨f, hf⟩ := Int.eq_ofNat_of_zero_le h0
  have hp : (32 - e.state.free_bits).toNat = 32 - f := by omega
  unfold putBits
  by_cases hneg : e.state.free_bits - size < 0
  · -- the first `f` bits fill the word
    have hsum : (size + (e.state.free_bits - size)).toNat = f := by omega
    have hover : (-(e.state.free_bits - (size : ℤ))).toNat = size - f := by omega
    have hhigh : code.toNat / 2 ^ (size - f) < 2 ^ f := by
      rw [Nat.div_lt_iff_lt_mul (Nat.two_pow_pos _), ← pow_add]
      rwa [(by omega : f + (size - f) = size)]
    have hword : bits 32 (e.state.c <<< f ||| code >>> (size - f)).toNat =
        bits (32 - f) e.state.c.toNat ++ bits f (code.toNat / 2 ^ (size - f)) := by
      rw [← bits_shiftLeft_or (32 - f) hhigh, (by omega : 32 - f + f = 32)]
      refine bits_congr fun i hi => ?_
      rw [testBit_shiftLeft_or _ _ _ hi, BitVec.toNat_ushiftRight, Nat.shiftRight_eq_div_pow]
    rw [if_pos hneg]
    refine ⟨wordBytes (e.state.c <<< f ||| code >>> (size - f)), ?_, ?_, ?_⟩
    · have hundef : (e.undef || decide ((BIT_BUF_SIZE : ℤ) ≤ size + (e.state.free_bits - size)) ||
          decide ((BIT_BUF_SIZE : ℤ) ≤ -(e.state.free_bits - size))) = e.undef := by
        rw [or_undef (by unfold BIT_BUF_SIZE; omega), or_undef (by unfold BIT_BUF_SIZE; omega)]
      simp only [putAndFlush, hsum, hover, hundef]
      exact (flush_emits (P := P)
        { e with state := ⟨e.state.c <<< f ||| code >>> (size - f), _⟩ }).with_state e.state _
    · simp only [putAndFlush, FreeOk, BIT_BUF_SIZE]
      omega
    · have hrest : (32 - (e.state.free_bits - size + (BIT_BUF_SIZE : ℕ))).toNat = size - f := by
        simp only [BIT_BUF_SIZE]
        omega
      have hsplit : bits size code.toNat =
          bits f (code.toNat / 2 ^ (size - f)) ++ bits (size - f) code.toNat := by
        rw [← bits_add, (by omega : f + (size - f) = size)]
      simp only [putAndFlush, pending, hrest]
      rw [wordBytes_bits, hword, hp, hsplit, List.append_assoc]
  · rw [if_neg hneg, or_undef (by unfold BIT_BUF_SIZE; omega)]
    refine ⟨[], (Emits.refl e).with_state e.state _, ⟨by simp only; omega, by simp only; omega⟩, ?_⟩
    have hcount : (32 - (e.state.free_bits - (size : ℤ))).toNat = 32 - f + size := by omega
    simp only [pending, hcount, byteBits_nil, List.nil_append, hp]
    rw [← bits_shiftLeft_or (32 - f) hcode]
    exact bits_congr fun i hi => testBit_shiftLeft_or _ _ _ (by omega)

theorem putCode_word {code : BitVec 32} {size : ℕ} (temp : BitVec 32) {nbits : ℕ}
    (hle : size + nbits ≤ 31) (hcode : code.toNat < 2 ^ size) :
    ((temp &&& (1#32 <<< nbits - 1)) ||| code <<< nbits).toNat < 2 ^ (nbits + size) ∧
      bits (nbits + size) ((temp &&& (1#32 <<< nbits - 1)) ||| code <<< nbits).toNat =
        bits size code.toNat ++ bits nbits temp.toNat := by
  have hpow : 2 ^ nbits < 2 ^ 32 := Nat.pow_lt_pow_right (by decide) (by omega)
  have hone : (1#32 <<< nbits - 1).toNat = 2 ^ nbits - 1 := by
    have hpos := Nat.two_pow_pos nbits
    rw [BitVec.toNat_sub, BitVec.toNat_shiftLeft, Nat.shiftLeft_eq]
    show (2 ^ 32 - 1 + 1 * 2 ^ nbits % 2 ^ 32) % 2 ^ 32 = _
    rw [Nat.one_mul, Nat.mod_eq_of_lt hpow]
    omega
  have hshift : (code <<< nbits).toNat = code.toNat <<< nbits := by
    rw [BitVec.toNat_shiftLeft, Nat.mod_eq_of_lt]
    rw [Nat.shiftLeft_eq]
    calc code.toNat * 2 ^ nbits < 2 ^ size * 2 ^ nbits :=
          Nat.mul_lt_mul_of_pos_right hcode (Nat.two_pow_pos nbits)
      _ = 2 ^ (size + nbits) := (pow_add _ _ _).symm
      _ ≤ 2 ^ 32 := Nat.pow_le_pow_right (by decide) (by omega)
  have hlow : temp.toNat % 2 ^ nbits < 2 ^ nbits := Nat.mod_lt _ (Nat.two_pow_pos nbits)
  have hword : ((temp &&& (1#32 <<< nbits - 1)) ||| code <<< nbits).toNat =
      code.toNat <<< nbits ||| temp.toNat % 2 ^ nbits := by
    rw [BitVec.toNat_or, BitVec.toNat_and, hone, Nat.and_two_pow_sub_one_eq_mod, hshift,
      Nat.or_comm]
  rw [hword]
  constructor
  · rw [← Nat.shiftLeft_add_eq_or_of_lt hlow, Nat.shiftLeft_eq, Nat.add_comm nbits, pow_add]
    calc code.toNat * 2 ^ nbits + temp.toNat % 2 ^ nbits < code.toNat * 2 ^ nbits + 2 ^ nbits :=
          Nat.add_lt_add_left hlow _
      _ = (code.toNat + 1) * 2 ^ nbits := (Nat.succ_mul _ _).symm
      _ ≤ 2 ^ size * 2 ^ nbits := Nat.mul_le_mul_right _ hcode
  · rw [Nat.add_comm nbits, bits_shiftLeft_or size hlow, bits_mod le_rfl]

theorem putCode_spec {code : BitVec 32} {size : ℕ} (temp : BitVec 32) {nbits : ℕ}
    (hle : size + nbits ≤ 31) (hcode : code.toNat < 2 ^ size) {e : EncodeBuffer}
    (hfree : FreeOk e.state) :
    ∃ bs, Emits P bs e (e.putCode P code size temp nbits) ∧
      FreeOk (e.putCode P code size temp nbits).state ∧
      byteBits bs ++ pending (e.putCode P code size temp nbits).state =
        pending e.state ++ (bits size code.toNat ++ bits nbits temp.toNat) := by
  obtain ⟨hlt, hbits⟩ := putCode_word temp hle hcode
  rw [← hbits, putCode, or_undef (by unfold BIT_BUF_SIZE; omega)]
  exact putBits_spec (by omega) hlt hfree

/-! ### The last bits -/

theorem padOnes_append {xs : List Bool} (h : xs.length = 8) (ys : List Bool) :
    padOnes (xs ++ ys) = xs ++ padOnes ys := by
  have hmod : (xs ++ ys).length % 8 = ys.length % 8 := by
    rw [List.length_append, h]
    omega
  rw [padOnes, hmod, padOnes, List.append_assoc]

/-- **The bits that wait go out in whole bytes**, filled up with ones. -/
theorem flushLoop_spec (c : BitVec 32) (n : ℕ) (e : EncodeBuffer) :
    ∃ bs, Emits P bs e (flushLoop P c n e) ∧ byteBits bs = padOnes (bits n c.toNat) ∧
      bs.length ≤ (n + 7) / 8 := by
  induction n using Nat.strong_induction_on generalizing e with
  | _ n ih =>
    rw [flushLoop]
    by_cases h8 : 8 ≤ n
    · obtain ⟨bs, hemit, hbits, hlen⟩ := ih (n - 8) (by omega)
        (e.emitByte P (UInt8.ofNat (c >>> (n - 8)).toNat))
      rw [if_pos h8]
      refine ⟨_ :: bs, (emitByte_emits _ e).trans hemit, ?_, ?_⟩
      · have hsplit : bits n c.toNat =
            bits 8 (c.toNat / 2 ^ (n - 8)) ++ bits (n - 8) c.toNat := by
          rw [← bits_add, (by omega : 8 + (n - 8) = n)]
        rw [hsplit, padOnes_append (length_bits _ _), byteBits_cons, hbits, bits_ofNat,
          BitVec.toNat_ushiftRight, Nat.shiftRight_eq_div_pow]
      · rw [List.length_cons]
        omega
    rw [if_neg h8]
    by_cases h0 : 0 < n
    · have hones : (0xff#32 >>> n).toNat = 2 ^ (8 - n) - 1 := by
        rw [BitVec.toNat_ushiftRight, Nat.shiftRight_eq_div_pow]
        have hn : n < 8 := by omega
        interval_cases n <;> rfl
      have hlt : 2 ^ (8 - n) - 1 < 2 ^ (8 - n) := by
        have := Nat.two_pow_pos (8 - n)
        omega
      have hbyte : bits 8 (c <<< (8 - n) ||| 0xff#32 >>> n).toNat =
          bits n c.toNat ++ List.replicate (8 - n) true := by
        rw [← bits_ones, ← bits_shiftLeft_or n hlt, (by omega : n + (8 - n) = 8), ← hones]
        exact bits_congr fun i hi => testBit_shiftLeft_or _ _ _ (by omega)
      rw [if_pos h0]
      refine ⟨[_], emitByte_emits _ e, ?_, ?_⟩
      · rw [byteBits_cons, byteBits_nil, List.append_nil, bits_ofNat, hbyte, padOnes, length_bits,
          (by omega : (8 - n % 8) % 8 = 8 - n)]
      · rw [List.length_singleton]
        omega
    · obtain rfl : n = 0 := by omega
      rw [if_neg h0]
      exact ⟨[], Emits.refl e, by simp [padOnes, bits], Nat.zero_le _⟩

end EncodeBuffer

/-! ### Runs -/

/-- A call of `put_bits` or `put_code`. -/
inductive Put
  | putBits (code : BitVec 32) (size : ℕ) (size_le : size ≤ 31) (lt : code.toNat < 2 ^ size)
  | putCode (code : BitVec 32) (size : ℕ) (temp : BitVec 32) (nbits : ℕ) (le : size + nbits ≤ 31)
    (lt : code.toNat < 2 ^ size)

/-- The call. -/
def Put.run (P : PacketDataSize) : Put → EncodeBuffer → EncodeBuffer
  | .putBits code size _ _, e => e.putBits P code size
  | .putCode code size temp nbits _ _, e => e.putCode P code size temp nbits

/-- The bits put. -/
def Put.toBits : Put → List Bool
  | .putBits code size _ _ => bits size code.toNat
  | .putCode code size temp nbits _ _ => bits size code.toNat ++ bits nbits temp.toNat

/-- The calls between `init` and `store` of one `EncodeBuffer<N>`. -/
structure Scope where
  N : ℕ
  puts : List Put

/-- The bits that its calls put. -/
def Scope.toBits (sc : Scope) : List Bool := sc.puts.flatMap Put.toBits

/-- The array holds two bytes for each eight of the bits put and of 32 that may have waited, and is
no larger than a packet. -/
def Scope.Room (P : PacketDataSize) (sc : Scope) : Prop :=
  sc.N = 0 ∨ sc.N ≤ P.val ∧ 2 * ((32 + sc.toBits.length) / 8) ≤ sc.N

section

variable (P : PacketDataSize) (no_escape : Bool)

/-- A scope run: `init`, the calls, and `store`. -/
def runScope (s : BitEncoderState × WorkerDst) (sc : Scope) :
    Option (BitEncoderState × WorkerDst) := do
  let e := sc.puts.foldl (fun e p => p.run P e) (EncodeBuffer.init sc.N s.1 s.2 no_escape)
  let dst ← e.store P
  return (e.state, dst)

/-- A run: `reset`, the scopes, `flush` of the bits that wait, and `term`. -/
def encodeAll (scopes : List Scope) (dst : WorkerDst) : Option WorkerDst := do
  let (state, dst) ← scopes.foldlM (runScope P no_escape) (BitEncoderState.reset, dst)
  let dst ← state.flush P no_escape dst
  return dst.term P

end

open EncodeBuffer

variable {P : PacketDataSize} {no_escape : Bool}

theorem Put.run_spec (p : Put) {e : EncodeBuffer} (hfree : FreeOk e.state) :
    ∃ bs, Emits P bs e (p.run P e) ∧ FreeOk (p.run P e).state ∧
      byteBits bs ++ pending (p.run P e).state = pending e.state ++ p.toBits := by
  cases p with
  | putBits code size size_le lt => exact putBits_spec size_le lt hfree
  | putCode code size temp nbits le lt => exact putCode_spec temp le lt hfree

theorem foldl_put_spec (puts : List Put) {e : EncodeBuffer} (hfree : FreeOk e.state) :
    ∃ bs, Emits P bs e (puts.foldl (fun e p => p.run P e) e) ∧
      FreeOk (puts.foldl (fun e p => p.run P e) e).state ∧
      byteBits bs ++ pending (puts.foldl (fun e p => p.run P e) e).state =
        pending e.state ++ puts.flatMap Put.toBits := by
  induction puts generalizing e with
  | nil => exact ⟨[], Emits.refl e, hfree, (List.append_nil _).symm⟩
  | cons p puts ih =>
    obtain ⟨xs, hx, hfree', hbits⟩ := p.run_spec (P := P) hfree
    obtain ⟨ys, hy, hfree'', hbits'⟩ := ih hfree'
    refine ⟨xs ++ ys, hx.trans hy, hfree'', ?_⟩
    rw [byteBits_append, List.append_assoc, List.foldl_cons, hbits', ← List.append_assoc, hbits,
      List.append_assoc, List.flatMap_cons]

/-- **Storing a buffer** adds what was emitted since `init`. -/
theorem store_spec {N : ℕ} {st : BitEncoderState} {dst : WorkerDst} (hok : dst.Ok P)
    {bs : List UInt8} {e : EncodeBuffer} (h : Emits P bs (init N st dst no_escape) e) :
    (∀ d, e.store P = some d → d.Ok P ∧ d.stream = dst.stream ++ stuff no_escape bs) ∧
      (N = 0 ∨ N ≤ P.val ∧ 2 * bs.length ≤ N → (e.store P).isSome) := by
  have hN : e.N = N := h.same.1
  have hbase : e.base = (init N st dst no_escape).base := h.same.2.1
  have hundef : e.undef ≠ true := by
    rw [h.undef]
    exact Bool.false_ne_true
  have hstream : e.dst.stream ++ e.buf = dst.stream ++ [] ++ stuff no_escape bs :=
    h.stream fun _ => rfl
  rw [List.append_nil] at hstream
  unfold store
  rw [if_neg hundef]
  rcases eq_or_ne N 0 with h0 | h0
  · have hbuf : e.buf = [] := h.buf_zero h0
    rw [hbuf, List.append_nil] at hstream
    rw [if_pos (hN.trans h0)]
    refine ⟨fun d hd => ?_, fun _ => rfl⟩
    cases hd
    exact ⟨h.ok hok, hstream⟩
  have hdst : e.dst = dst := h.dst_pos h0
  have hlen : e.buf.length ≤ 0 + 2 * bs.length := h.buf_le
  have hhigh : e.high ≤ max 0 (0 + 2 * bs.length) := h.high_le
  rw [hdst] at hstream ⊢
  rw [if_neg (hN ▸ h0), hN]
  by_cases hlocal : dst.free_in_bytes < N % 2 ^ 16
  · have hb : e.base = .local_ := by rw [hbase, init, if_neg h0, if_pos hlocal]
    rw [hb]
    simp only
    constructor
    · intro d hd
      split_ifs at hd with hroom
      obtain ⟨h1, h2⟩ := hok.writeBytes hd
      exact ⟨h1, h2.trans hstream⟩
    · intro hroom
      have hle : N ≤ P.val ∧ 2 * bs.length ≤ N := hroom.resolve_left h0
      rw [if_pos (by omega)]
      exact WorkerDst.writeBytes_isSome dst (by omega)
  · have hb : e.base = .dst := by rw [hbase, init, if_neg h0, if_neg hlocal]
    rw [hb]
    simp only
    constructor
    · intro d hd
      obtain ⟨h1, h2⟩ := hok.advanceTo hd
      exact ⟨h1, h2.trans hstream⟩
    · intro hroom
      have hle : N ≤ P.val ∧ 2 * bs.length ≤ N := hroom.resolve_left h0
      have hmod : N % 2 ^ 16 = N := Nat.mod_eq_of_lt (by have := P.lt; omega)
      rw [WorkerDst.advanceTo, if_pos (by omega)]
      rfl

variable (P no_escape) in
/-- The output so far: after `pre`, the bytes `E` of which the bits, with those that wait, are
`B`. -/
structure Written (pre E : List UInt8) (B : List Bool)
    (s : BitEncoderState × WorkerDst) : Prop where
  ok : s.2.Ok P
  stream : s.2.stream = pre ++ stuff no_escape E
  bits : byteBits E ++ pending s.1 = B
  free : FreeOk s.1

/-- **One scope.** -/
theorem Written.runScope {pre E : List UInt8} {B : List Bool} {s : BitEncoderState × WorkerDst}
    (h : Written P no_escape pre E B s) (sc : Scope) :
    (∀ s', runScope P no_escape s sc = some s' →
      ∃ E', Written P no_escape pre E' (B ++ sc.toBits) s') ∧
      (sc.Room P → (runScope P no_escape s sc).isSome) := by
  obtain ⟨bs, hemit, hfree, hbits⟩ := foldl_put_spec (P := P) sc.puts
    (e := init sc.N s.1 s.2 no_escape) h.free
  obtain ⟨hval, hsome⟩ := store_spec h.ok hemit
  constructor
  · intro s' hs'
    rw [Encode.runScope] at hs'
    obtain ⟨d, hd, hs'⟩ := Option.bind_eq_some_iff.mp hs'
    cases hs'
    obtain ⟨hok, hstream⟩ := hval d hd
    refine ⟨E ++ bs, hok, ?_, ?_, hfree⟩
    · rw [hstream, h.stream, stuff_append, List.append_assoc]
    · rw [byteBits_append, List.append_assoc, hbits, ← List.append_assoc]
      show byteBits E ++ pending s.1 ++ sc.toBits = _
      rw [h.bits]
  · intro hroom
    have hcount := congrArg List.length hbits
    have hwait : (pending s.1).length ≤ 32 := by
      have := h.free.1
      rw [pending, length_bits]
      omega
    have hlen : 8 * bs.length ≤ 32 + sc.toBits.length := by
      rw [List.length_append, List.length_append, length_byteBits] at hcount
      have hpend : (pending (init sc.N s.1 s.2 no_escape).state).length = (pending s.1).length :=
        rfl
      show _ ≤ 32 + (sc.puts.flatMap Put.toBits).length
      omega
    have hstore := hsome (hroom.imp_right fun hr => ⟨hr.1, by omega⟩)
    obtain ⟨d, hd⟩ := Option.isSome_iff_exists.mp hstore
    rw [Encode.runScope, hd]
    rfl

theorem Written.foldlM {pre E : List UInt8} {B : List Bool} {s : BitEncoderState × WorkerDst}
    (h : Written P no_escape pre E B s) (scopes : List Scope) :
    (∀ s', scopes.foldlM (Encode.runScope P no_escape) s = some s' →
      ∃ E', Written P no_escape pre E' (B ++ scopes.flatMap Scope.toBits) s') ∧
      ((∀ sc ∈ scopes, sc.Room P) → (scopes.foldlM (Encode.runScope P no_escape) s).isSome) := by
  induction scopes generalizing E B s with
  | nil =>
    refine ⟨fun s' hs' => ?_, fun _ => rfl⟩
    cases hs'
    exact ⟨E, by rwa [List.flatMap_nil, List.append_nil]⟩
  | cons sc scopes ih =>
    obtain ⟨hval, hsome⟩ := h.runScope sc
    constructor
    · intro s' hs'
      rw [List.foldlM_cons] at hs'
      obtain ⟨s₁, hs₁, hs'⟩ := Option.bind_eq_some_iff.mp hs'
      obtain ⟨E₁, h₁⟩ := hval s₁ hs₁
      obtain ⟨E', h'⟩ := (ih h₁).1 s' hs'
      exact ⟨E', by rwa [List.append_assoc, ← List.flatMap_cons] at h'⟩
    · intro hroom
      obtain ⟨s₁, hs₁⟩ := Option.isSome_iff_exists.mp (hsome (hroom sc List.mem_cons_self))
      obtain ⟨E₁, h₁⟩ := hval s₁ hs₁
      rw [List.foldlM_cons, hs₁]
      exact (ih h₁).2 fun x hx => hroom x (List.mem_cons_of_mem _ hx)

/-- **The last flush.** -/
theorem Written.flush {pre E : List UInt8} {B : List Bool} {s : BitEncoderState × WorkerDst}
    (h : Written P no_escape pre E B s) :
    ∃ d E', s.1.flush P no_escape s.2 = some d ∧ d.Ok P ∧ d.stream = pre ++ stuff no_escape E' ∧
      byteBits E' = padOnes B := by
  obtain ⟨bs, hemit, hbits, hlen⟩ := flushLoop_spec (P := P) s.1.c
    (32 - s.1.free_bits).toNat (init 16 s.1 s.2 no_escape)
  obtain ⟨hval, hsome⟩ := store_spec h.ok hemit
  have hfree := h.free.1
  have hle := P.le
  obtain ⟨d, hd⟩ := Option.isSome_iff_exists.mp (hsome (Or.inr ⟨by omega, by omega⟩))
  obtain ⟨hok, hstream⟩ := hval d hd
  refine ⟨d, E ++ bs, hd, hok, ?_, ?_⟩
  · rw [hstream, h.stream, stuff_append, List.append_assoc]
  · have hpad : ∀ (xs : List UInt8) (ys : List Bool),
        padOnes (byteBits xs ++ ys) = byteBits xs ++ padOnes ys := by
      intro xs ys
      induction xs with
      | nil => rfl
      | cons x xs ih => rw [byteBits_cons, List.append_assoc, padOnes_append (length_bits _ _), ih,
          List.append_assoc]
    rw [byteBits_append, hbits, ← h.bits, hpad]
    rfl

/-- A buffer with something in it and nothing sent. -/
structure Start (P : PacketDataSize) where
  blkn : ℕ
  cur : List UInt8
  le : cur.length ≤ P.val

/-- The buffer as a `WorkerDst`. -/
def Start.dst {P : PacketDataSize} (s : Start P) : WorkerDst :=
  ⟨s.blkn, P.val - s.cur.length, s.cur, [], []⟩

theorem Start.ok (s : Start P) : s.dst.Ok P :=
  ⟨Nat.add_sub_cancel' s.le, fun _ hp => absurd hp List.not_mem_nil⟩

/-- **The output of a run is the string of its bits**, filled up with ones to whole bytes, escaped
unless `no_escape`, and cut into packets that are all full but the last: whatever the scopes and
wherever the packets end, as long as no scope writes outside its array or more than fits, and that
none does for which there is room. -/
theorem encodeAll_spec (P : PacketDataSize) (no_escape : Bool) (start : Start P)
    (scopes : List Scope) :
    (∀ d, encodeAll P no_escape scopes start.dst = some d →
      ∃ (E : List UInt8) (full : List (List UInt8)) (last : List UInt8),
        byteBits E = padOnes (scopes.flatMap Scope.toBits) ∧
        d.sent = full ++ [last] ∧ (∀ p ∈ full, p.length = P.val) ∧ last.length ≤ P.val ∧
        d.sent.flatten = start.cur ++ stuff no_escape E) ∧
      ((∀ sc ∈ scopes, sc.Room P) → (encodeAll P no_escape scopes start.dst).isSome) := by
  have hstart : Written P no_escape start.cur [] [] (BitEncoderState.reset, start.dst) :=
    ⟨start.ok, (List.append_nil _).symm, rfl, by show (0 : ℤ) ≤ 32; decide, le_rfl⟩
  obtain ⟨hval, hsome⟩ := hstart.foldlM scopes
  constructor
  · intro d hd
    obtain ⟨s, hs, hd⟩ := Option.bind_eq_some_iff.mp hd
    obtain ⟨E, hE⟩ := hval s hs
    obtain ⟨d', E', hd', hok, hstream, hbits⟩ := hE.flush
    simp only [hd', Option.bind_eq_bind, Option.bind_some] at hd
    cases hd
    refine ⟨E', d'.sent, d'.cur, hbits, rfl, hok.full, hok.cur_le, ?_⟩
    show (d'.sent ++ [d'.cur]).flatten = _
    rw [← hstream, WorkerDst.stream, List.flatten_append, List.flatten_singleton]
  · intro hroom
    obtain ⟨s, hs⟩ := Option.isSome_iff_exists.mp (hsome hroom)
    obtain ⟨E, hE⟩ := hval s hs
    obtain ⟨d', E', hd', -⟩ := hE.flush
    rw [encodeAll, hs]
    simp only [Option.bind_eq_bind, Option.bind_some, hd']
    rfl

/-- A buffer with room for four bytes. -/
def nearlyFull : Start (packetDataSize false false) := ⟨0, List.replicate 1440 7, by
  rw [List.length_replicate]
  decide⟩

/-- A scope with an array, of which the bytes cross the end of the packet, and one without. -/
def twoScopes : List Scope :=
  [⟨512, [.putBits 0xffffff 24 (by decide) (by decide),
  .putBits 0x1234567 30 (by decide) (by decide)]⟩,
    ⟨0, [.putBits 5 3 (by decide) (by decide)]⟩]

theorem encodeAll_spec_twoScopes : ∃ d E full last,
    encodeAll (packetDataSize false false) false twoScopes nearlyFull.dst = some d ∧
    byteBits E = padOnes (twoScopes.flatMap Scope.toBits) ∧ d.sent = full ++ [last] ∧
    (∀ p ∈ full, p.length = 1444) ∧ d.sent.flatten = nearlyFull.cur ++ stuff false E := by
  obtain ⟨hval, hsome⟩ := encodeAll_spec (packetDataSize false false) false nearlyFull twoScopes
  have hroom : ∀ sc ∈ twoScopes, sc.Room (packetDataSize false false) := by
    unfold twoScopes
    intro sc hsc
    rcases List.mem_pair.mp hsc with rfl | rfl
    · exact .inr (by decide)
    · exact .inl rfl
  obtain ⟨d, hd⟩ := Option.isSome_iff_exists.mp (hsome hroom)
  obtain ⟨E, full, last, hbits, hsent, hfull, -, hbytes⟩ := hval d hd
  exact ⟨d, E, full, last, hd, hbits, hsent, hfull, hbytes⟩

/-- **An array that is too short is overrun**: two codes of 31 bits in an array of one byte. -/
theorem short_array_overrun :
    encodeAll (packetDataSize false false) false
      [⟨1, [.putBits 0 31 (by decide) (by decide), .putBits 0 31 (by decide) (by decide)]⟩]
      ⟨0, 0, List.replicate 1444 0, [], []⟩ = none := by
  rfl

end RemotePlay.Encode
