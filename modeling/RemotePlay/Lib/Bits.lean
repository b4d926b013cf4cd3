import Mathlib.Data.Nat.Bitwise
import Mathlib.Data.Nat.Size
import Mathlib.Data.List.Basic
import Mathlib.Tactic.Ring

/-! # Strings of bits

The bits of a number and of a byte string, the highest first.  A number shifted left with another
or-ed in has the bits of the one followed by the bits of the other (`bits_shiftLeft_or`), and a
number of so many bits is known by them (`bits_injective`). -/

namespace RemotePlay.Lib.Bits

/-- The `n` low bits of a number. -/
def bits : ℕ → ℕ → List Bool
  | 0, _ => []
  | n + 1, v => v.testBit n :: bits n v

@[simp] theorem length_bits (n v : ℕ) : (bits n v).length = n := by
  induction n with
  | zero => rfl
  | succ n ih => rw [bits, List.length_cons, ih]

theorem bits_congr {n x y : ℕ} (h : ∀ i < n, x.testBit i = y.testBit i) : bits n x = bits n y := by
  induction n with
  | zero => rfl
  | succ n ih => rw [bits, bits, h n (Nat.lt_succ_self n), ih fun i hi => h i (by omega)]

theorem bits_mod {n k : ℕ} (h : n ≤ k) (x : ℕ) : bits n (x % 2 ^ k) = bits n x :=
  bits_congr fun i hi => by simp [Nat.testBit_mod_two_pow, (by omega : i < k)]

theorem bits_add (a b x : ℕ) : bits (a + b) x = bits a (x / 2 ^ b) ++ bits b x := by
  induction a with
  | zero => rw [Nat.zero_add, bits, List.nil_append]
  | succ a ih =>
    have hbit : x.testBit (a + b) = (x / 2 ^ b).testBit a := by
      rw [Nat.testBit_div_two_pow, Nat.add_comm]
    rw [Nat.succ_add, bits, bits, ih, hbit]
    rfl

/-- **Or-ing in below is appending.** -/
theorem bits_shiftLeft_or (a : ℕ) {b x y : ℕ} (hy : y < 2 ^ b) :
    bits (a + b) (x <<< b ||| y) = bits a x ++ bits b y := by
  have hsum : x <<< b ||| y = x * 2 ^ b + y := by
    rw [← Nat.shiftLeft_add_eq_or_of_lt hy x, Nat.shiftLeft_eq]
  have hdiv : (x * 2 ^ b + y) / 2 ^ b = x := by
    rw [Nat.mul_comm, Nat.mul_add_div (Nat.two_pow_pos b), Nat.div_eq_of_lt hy, Nat.add_zero]
  have hmod : (x * 2 ^ b + y) % 2 ^ b = y := by
    rw [Nat.mul_comm, Nat.mul_add_mod, Nat.mod_eq_of_lt hy]
  rw [hsum, bits_add, hdiv, ← bits_mod le_rfl (x * 2 ^ b + y), hmod]

/-- The number with given bits. -/
def ofBits (bs : List Bool) : ℕ := bs.foldl (fun v b => 2 * v + b.toNat) 0

theorem ofBits_concat (bs : List Bool) (b : Bool) :
    ofBits (bs ++ [b]) = 2 * ofBits bs + b.toNat := by
  rw [ofBits, List.foldl_append]
  rfl

theorem bits_succ (n v : ℕ) : bits (n + 1) v = bits n (v / 2) ++ [v.testBit 0] :=
  bits_add n 1 v

theorem ofBits_bits (n v : ℕ) : ofBits (bits n v) = v % 2 ^ n := by
  induction n generalizing v with
  | zero => rw [bits, pow_zero, Nat.mod_one]; rfl
  | succ n ih =>
    have hbit : (v.testBit 0).toNat = v % 2 := by
      rw [Nat.testBit_zero]
      rcases Nat.mod_two_eq_zero_or_one v with h | h <;> simp [h]
    rw [bits_succ, ofBits_concat, ih, hbit, pow_succ', Nat.mod_mul]
    omega

theorem bits_injective {n x y : ℕ} (hx : x < 2 ^ n) (hy : y < 2 ^ n) (h : bits n x = bits n y) :
    x = y := by
  rw [← Nat.mod_eq_of_lt hx, ← ofBits_bits, h, ofBits_bits, Nat.mod_eq_of_lt hy]

theorem bits_ones (n : ℕ) : bits n (2 ^ n - 1) = List.replicate n true := by
  have hall : ∀ k ≤ n, bits k (2 ^ n - 1) = List.replicate k true := by
    intro k hk
    induction k with
    | zero => rfl
    | succ k ih =>
      rw [bits, ih (by omega), Nat.testBit_two_pow_sub_one, decide_eq_true (by omega)]
      rfl
  exact hall n le_rfl

/-! ### Bytes -/

/-- The bits of a byte string. -/
def byteBits (bs : List UInt8) : List Bool := bs.flatMap fun b => bits 8 b.toNat

@[simp] theorem byteBits_nil : byteBits [] = [] := rfl

@[simp] theorem byteBits_cons (b : UInt8) (bs : List UInt8) :
    byteBits (b :: bs) = bits 8 b.toNat ++ byteBits bs := rfl

@[simp] theorem byteBits_append (xs ys : List UInt8) :
    byteBits (xs ++ ys) = byteBits xs ++ byteBits ys := List.flatMap_append

theorem length_byteBits (bs : List UInt8) : (byteBits bs).length = 8 * bs.length := by
  induction bs with
  | nil => rfl
  | cons b bs ih =>
    rw [byteBits_cons, List.length_append, length_bits, ih, List.length_cons]
    omega

theorem bits_ofNat (x : ℕ) : bits 8 (UInt8.ofNat x).toNat = bits 8 x := by
  rw [UInt8.toNat_ofNat']
  exact bits_mod le_rfl x

/-- The bits filled up to whole bytes with ones. -/
def padOnes (bs : List Bool) : List Bool := bs ++ List.replicate ((8 - bs.length % 8) % 8) true

end RemotePlay.Lib.Bits
