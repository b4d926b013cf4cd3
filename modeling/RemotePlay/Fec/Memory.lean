import RemotePlay.Fec.Gf256
import RemotePlay.Lib.ByteMemory

/-! # Bulk operations of `gf256.cpp`

The operations on buffers work eight bytes at a time, then four, then singly, as they do where there
is no NEON.  Each xors something into the first `bytes` bytes of its destination, whatever `bytes`
is, and leaves the rest (`gf256_add_mem_eq`, `gf256_add2_mem_eq`, `gf256_muladd_mem_eq`). -/

namespace RemotePlay.Fec

open RemotePlay.Lib.ByteMemory

/-- The word operation `*z8 ^= word`. -/
def xorWord (n : ℕ) (z : Bytes) (i : ℕ) (word : BitVec (8 * n)) : Bytes :=
  store n z i (load n z i ^^^ word)

/-- Blocks of eight bytes, as long as there are any. -/
def xorBlocks (word8 : ℕ → BitVec (8 * 8)) (z : Bytes) (count : ℕ) : Bytes :=
  (List.range count).foldl (fun z ii => xorWord 8 z (8 * ii) (word8 (8 * ii))) z

/-- `switch (bytes & 3)` at the end: the cases fall through. -/
def xorFinal (f : ℕ → BitVec 8) (z : Bytes) (offset bytes : ℕ) : Bytes :=
  (List.range (bytes &&& 3)).foldr (fun i z => xorByte z f (offset + i)) z

/-- The body `gf256_add_mem` and `gf256_add2_mem` share: what is xored in, as words of eight and of
four bytes and as bytes. -/
def xorMem (word8 : ℕ → BitVec (8 * 8)) (word4 : ℕ → BitVec (8 * 4)) (f : ℕ → BitVec 8)
    (z : Bytes) (bytes : ℕ) : Bytes :=
  let count := bytes / 8
  let z := xorBlocks word8 z count
  let x1 := 8 * count
  let bytes := bytes - count * 8
  let eight := bytes &&& 8
  let z := if eight ≠ 0 then xorWord 8 z x1 (word8 x1) else z
  let four := bytes &&& 4
  let z := if four ≠ 0 then xorWord 4 z (x1 + eight) (word4 (x1 + eight)) else z
  xorFinal f z (x1 + (eight + four)) bytes

/-- `gf256_add_mem`. -/
def gf256_add_mem (x y : Bytes) (bytes : ℕ) : Bytes :=
  xorMem (load 8 y) (load 4 y) (fun i => y.getD i 0) x bytes

/-- `gf256_add2_mem`. -/
def gf256_add2_mem (z x y : Bytes) (bytes : ℕ) : Bytes :=
  xorMem (fun i => load 8 x i ^^^ load 8 y i) (fun i => load 4 x i ^^^ load 4 y i)
    (fun i => x.getD i 0 ^^^ y.getD i 0) z bytes

/-- `gf256_muladd_mem`: `table` is the row of `y`. -/
def gf256_muladd_mem (z : Bytes) (y : BitVec 8) (x : Bytes) (bytes : ℕ) : Bytes :=
  if y.toNat ≤ 1 then
    if y = 1 then gf256_add_mem z x bytes else z
  else
    let table := fun i => gf256_mul (x.getD i 0) y
    let z := xorBlocks (fun x1 => pack 8 fun k => table (x1 + k)) z (bytes / 8)
    let x1 := 8 * (bytes / 8)
    let bytes := bytes - 8 * (bytes / 8)
    let four := bytes &&& 4
    let z := if four ≠ 0 then xorWord 4 z x1 (pack 4 fun k => table (x1 + k)) else z
    xorFinal table z (x1 + four) bytes

/-! ### Up to where a buffer is done -/

variable {f : ℕ → BitVec 8} {z : Bytes} {n : ℕ}

theorem xorWord_xorFirst {m : ℕ} {word : BitVec (8 * m)} (h : ∀ k < m, byte word k = f (n + k)) :
    xorWord m (xorFirst z f n) n word = xorFirst z f (n + m) := xorFirst_store h

theorem xorBlocks_eq {word8 : ℕ → BitVec (8 * 8)} (h : ∀ i, ∀ k < 8, byte (word8 i) k = f (i + k))
    (z : Bytes) (count : ℕ) : xorBlocks word8 z count = xorFirst z f (8 * count) := by
  unfold xorBlocks
  induction count with
  | zero => exact xorFirst_zero.symm
  | succ count ih =>
    rw [List.range_succ, List.foldl_append, ih, List.foldl_cons, List.foldl_nil,
      xorWord_xorFirst (h (8 * count))]
    rfl

/-- What is left is done in a word of four bytes, or not, and the last three or fewer. -/
theorem xorRest_eq {word4 : BitVec (8 * 4)} (h : ∀ k < 4, byte word4 k = f (n + k)) {bytes : ℕ}
    (hbytes : bytes < 8) :
    xorFinal f (if bytes &&& 4 ≠ 0 then xorWord 4 (xorFirst z f n) n word4 else xorFirst z f n)
      (n + (bytes &&& 4)) bytes = xorFirst z f (n + bytes) := by
  have hsplit : bytes = (bytes &&& 4) + (bytes &&& 3) ∧ (bytes &&& 4 = 0 ∨ bytes &&& 4 = 4) := by
    revert bytes
    decide
  obtain ⟨hsum, hfour⟩ := hsplit
  have hdone : (if bytes &&& 4 ≠ 0 then xorWord 4 (xorFirst z f n) n word4 else xorFirst z f n) =
      xorFirst z f (n + (bytes &&& 4)) := by
    rcases hfour with h0 | h4
    · rw [h0, if_neg (by decide), Nat.add_zero]
    · rw [h4, if_pos (by decide), xorWord_xorFirst h]
  rw [hdone, xorFinal, xorByte_downTo, Nat.add_assoc, ← hsum]

theorem xorMem_eq {word8 : ℕ → BitVec (8 * 8)} {word4 : ℕ → BitVec (8 * 4)}
    (h8 : ∀ i, ∀ k < 8, byte (word8 i) k = f (i + k))
    (h4 : ∀ i, ∀ k < 4, byte (word4 i) k = f (i + k)) (z : Bytes) (bytes : ℕ) :
    xorMem word8 word4 f z bytes = xorFirst z f bytes := by
  have hlt : bytes - bytes / 8 * 8 < 8 := by omega
  have height : (bytes - bytes / 8 * 8) &&& 8 = 0 := by
    generalize bytes - bytes / 8 * 8 = b at hlt
    revert b
    decide
  have hno : ¬ (0 : ℕ) ≠ 0 := by decide
  unfold xorMem
  dsimp only
  rw [height, if_neg hno, xorBlocks_eq h8, Nat.add_zero, Nat.zero_add, xorRest_eq (h4 _) hlt]
  congr 1
  omega

/-- **Adding a buffer**: byte by byte, on the first `bytes`. -/
theorem gf256_add_mem_eq (x y : Bytes) (bytes : ℕ) :
    gf256_add_mem x y bytes = xorFirst x (fun i => y.getD i 0) bytes :=
  xorMem_eq (fun i _ hk => byte_load hk y i) (fun i _ hk => byte_load hk y i) x bytes

/-- **Adding two buffers.** -/
theorem gf256_add2_mem_eq (z x y : Bytes) (bytes : ℕ) :
    gf256_add2_mem z x y bytes = xorFirst z (fun i => x.getD i 0 ^^^ y.getD i 0) bytes := by
  have hbyte : ∀ {m : ℕ} (i : ℕ), ∀ k < m,
      byte (load m x i ^^^ load m y i) k = x.getD (i + k) 0 ^^^ y.getD (i + k) 0 := by
    intro m i k hk
    rw [byte_xor, byte_load hk, byte_load hk]
  exact xorMem_eq hbyte hbyte z bytes

/-- **Adding a multiple of a buffer.** -/
theorem gf256_muladd_mem_eq (z : Bytes) (y : BitVec 8) (x : Bytes) (bytes : ℕ) :
    gf256_muladd_mem z y x bytes = xorFirst z (fun i => gf256_mul (x.getD i 0) y) bytes := by
  unfold gf256_muladd_mem
  split_ifs with hle hone
  · -- the row of one holds the bytes themselves
    rw [gf256_add_mem_eq, hone]
    congr 1
    funext i
    exact (gf256_mul_one (x.getD i 0)).symm
  · -- and that of zero nothing
    have hzero : y = 0 := by
      have hne : y.toNat ≠ 1 := fun h => hone (BitVec.eq_of_toNat_eq h)
      refine BitVec.eq_of_toNat_eq ?_
      show y.toNat = 0
      omega
    refine List.ext_getElem? fun i => ?_
    have hxor : ∀ b : BitVec 8, b ^^^ 0 = b := fun b => BitVec.xor_zero
    rw [getElem?_xorFirst, hzero]
    simp only [gf256_mul_zero, hxor, ite_self, Option.map_id']
  · have hlt : bytes - 8 * (bytes / 8) < 8 := by omega
    have hbyte : ∀ {m : ℕ} (i : ℕ), ∀ k < m,
        byte (pack m fun k => gf256_mul (x.getD (i + k) 0) y) k =
        gf256_mul (x.getD (i + k) 0) y := by
      intro m i k hk
      exact byte_pack hk _
    dsimp only
    rw [xorBlocks_eq (f := fun i => gf256_mul (x.getD i 0) y) hbyte, xorRest_eq (hbyte _) hlt]
    congr 1
    omega

/-- **The operations are what they are byte by byte**, at every length. -/
theorem bulk_bytewise (z x y : Bytes) (c : BitVec 8) (bytes : ℕ) :
    ((gf256_add_mem z x bytes).length = z.length ∧
      (gf256_add2_mem z x y bytes).length = z.length ∧
      (gf256_muladd_mem z c x bytes).length = z.length) ∧
    ∀ i < z.length,
      (gf256_add_mem z x bytes).getD i 0 =
        (if i < bytes then gf256_add (z.getD i 0) (x.getD i 0) else z.getD i 0) ∧
      (gf256_add2_mem z x y bytes).getD i 0 =
        (if i < bytes then gf256_add (z.getD i 0) (gf256_add (x.getD i 0) (y.getD i 0))
          else z.getD i 0) ∧
      (gf256_muladd_mem z c x bytes).getD i 0 =
        if i < bytes then gf256_add (z.getD i 0) (gf256_mul (x.getD i 0) c) else z.getD i 0 := by
  rw [gf256_add_mem_eq, gf256_add2_mem_eq, gf256_muladd_mem_eq]
  refine ⟨⟨length_xorFirst, length_xorFirst, length_xorFirst⟩, fun i hi => ?_⟩
  exact ⟨getD_xorFirst hi, getD_xorFirst hi, getD_xorFirst hi⟩

end RemotePlay.Fec
