import Mathlib.Data.Nat.Notation
import Mathlib.Data.Nat.Bitwise
import Mathlib.Tactic.Linarith

/-! # Words in byte strings, fields in words

A 16-bit word is stored as two bytes, the low one first.  A header word is built by or-ing shifted
fields together; as long as each field stays below the next one's position the or is a sum, so a
field is read back by a division and a remainder. -/

namespace RemotePlay.Lib.Words

/-- The two bytes of a 16-bit word, low byte first. -/
def le16 (x : ℕ) : List UInt8 := [UInt8.ofNat (x % 256), UInt8.ofNat (x / 256 % 256)]

/-- Reads a 16-bit word off the front of a byte string. -/
def read16 : List UInt8 → Option (ℕ × List UInt8)
  | a :: b :: rest => some (a.toNat + 256 * b.toNat, rest)
  | _ => none

@[simp] theorem length_le16 (x : ℕ) : (le16 x).length = 2 := rfl

theorem read16_le16 {x : ℕ} (hx : x < 65536) (rest : List UInt8) :
    read16 (le16 x ++ rest) = some (x, rest) := by
  have h1 : (UInt8.ofNat (x % 256)).toNat = x % 256 := by
    rw [UInt8.toNat_ofNat']; exact Nat.mod_eq_of_lt (by omega)
  have h2 : (UInt8.ofNat (x / 256 % 256)).toNat = x / 256 := by
    rw [UInt8.toNat_ofNat']; omega
  simp only [le16, List.cons_append, List.nil_append, read16, h1, h2, Option.some.injEq,
    Prod.mk.injEq, and_true]
  omega

theorem read16_prefix {x : ℕ} (hx : x < 65536) {p q s : List UInt8} (hp : 2 ≤ p.length)
    (h : p ++ q = le16 x ++ s) : ∃ p', read16 p = some (x, p') ∧ p' ++ q = s := by
  obtain ⟨a, p, rfl⟩ := List.exists_cons_of_length_pos (by omega : 0 < p.length)
  rw [List.length_cons] at hp
  obtain ⟨b, p, rfl⟩ := List.exists_cons_of_length_pos (by omega : 0 < p.length)
  simp only [le16, List.cons_append, List.nil_append, List.cons.injEq] at h
  obtain ⟨rfl, rfl, rfl⟩ := h
  exact ⟨p, read16_le16 hx p, rfl⟩

theorem read16_length {p p' : List UInt8} {x : ℕ} (h : read16 p = some (x, p')) :
    p.length = p'.length + 2 := by
  rcases p with _ | ⟨a, _ | ⟨b, p⟩⟩
  · cases h
  · cases h
  · simp only [read16, Option.some.injEq, Prod.mk.injEq] at h
    simp [← h.2]

/-- **Or-ing in a field above the bits in use is adding it.** -/
theorem or_shift {a : ℕ} (i b : ℕ) (ha : a < 2 ^ i) : b <<< i ||| a = b * 2 ^ i + a := by
  rw [← Nat.shiftLeft_add_eq_or_of_lt ha b, Nat.shiftLeft_eq]

theorem or_shift' {a : ℕ} (i b : ℕ) (ha : a < 2 ^ i) : a ||| b <<< i = b * 2 ^ i + a := by
  rw [Nat.or_comm, or_shift i b ha]

/-- Reading `n` words in a row. -/
def readN : ℕ → List UInt8 → Option (List ℕ × List UInt8)
  | 0, bs => some ([], bs)
  | n + 1, bs => do
    let (x, bs) ← read16 bs
    let (xs, bs) ← readN n bs
    some (x :: xs, bs)

theorem readN_le16 {xs : List ℕ} (h : ∀ x ∈ xs, x < 65536) (rest : List UInt8) :
    readN xs.length (xs.flatMap le16 ++ rest) = some (xs, rest) := by
  induction xs with
  | nil => rfl
  | cons x xs ih =>
    have hx := h x List.mem_cons_self
    have ih := ih fun y hy => h y (List.mem_cons_of_mem x hy)
    simp only [List.length_cons, readN, List.flatMap_cons, List.append_assoc, read16_le16 hx, ih,
      Option.bind_eq_bind, Option.bind_some]

/-- Cutting a byte string into consecutive pieces of the given lengths. -/
def splitAts : List ℕ → List UInt8 → Option (List (List UInt8))
  | [], _ => some []
  | n :: ns, bs =>
    if n ≤ bs.length then (splitAts ns (bs.drop n)).map (bs.take n :: ·) else none

theorem splitAts_flatten (xss : List (List UInt8)) (rest : List UInt8) :
    splitAts (xss.map List.length) (xss.flatten ++ rest) = some xss := by
  induction xss with
  | nil => rfl
  | cons xs xss ih =>
    simp [splitAts, ih]

end RemotePlay.Lib.Words
