import Mathlib.Data.Nat.Notation
import Mathlib.Data.Nat.Basic
import Mathlib.Data.List.GetD
import Mathlib.Tactic.SplitIfs

/-! # Words in a buffer of bytes

A buffer is read and written a byte or a word at a time, the low byte of a word first.  An operation
that xors something into the first bytes of a buffer may do it word by word: each word moves on the
place up to which it is done (`xorFirst_store`), and the bytes left over are done singly. -/

namespace RemotePlay.Lib.ByteMemory

theorem getD_set {α : Type*} (xs : List α) {i : ℕ} (hi : i < xs.length) (x : α) (j : ℕ) (d : α) :
    (xs.set i x).getD j d = if j = i then x else xs.getD j d := by
  rcases eq_or_ne j i with rfl | hne
  · rw [if_pos rfl, List.getD_eq_getElem?_getD, List.getElem?_set_self hi, Option.getD_some]
  · rw [if_neg hne, List.getD_eq_getElem?_getD, List.getElem?_set_ne hne.symm,
      ← List.getD_eq_getElem?_getD]

/-- A buffer. -/
abbrev Bytes := List (BitVec 8)

/-- Byte `k` of a word. -/
def byte {n : ℕ} (w : BitVec (8 * n)) (k : ℕ) : BitVec 8 := w.extractLsb' (8 * k) 8

/-- The word with the bytes `f 0`, `f 1` and so on, or-ed together. -/
def pack (n : ℕ) (f : ℕ → BitVec 8) : BitVec (8 * n) :=
  (List.range n).foldl (fun word k => word ||| (f k).setWidth (8 * n) <<< (8 * k)) 0

/-- The word of `n` bytes at `i`. -/
def load (n : ℕ) (x : Bytes) (i : ℕ) : BitVec (8 * n) := pack n fun k => x.getD (i + k) 0

/-- Writing a word of `n` bytes at `i`. -/
def store (n : ℕ) (z : Bytes) (i : ℕ) (w : BitVec (8 * n)) : Bytes :=
  z.mapIdx fun j b => if i ≤ j ∧ j < i + n then byte w (j - i) else b

variable {n m : ℕ} {x z : Bytes} {f : ℕ → BitVec 8} {w : BitVec (8 * n)}

theorem byte_xor (w w' : BitVec (8 * n)) (k : ℕ) : byte (w ^^^ w') k = byte w k ^^^ byte w' k :=
  BitVec.extractLsb'_xor

theorem getLsbD_pack_upTo (f : ℕ → BitVec 8) (m j : ℕ) (hj : j < 8 * n) :
    ((List.range m).foldl (fun word k => word ||| (f k).setWidth (8 * n) <<< (8 * k))
      (0 : BitVec (8 * n))).getLsbD j = (decide (j < 8 * m) && (f (j / 8)).getLsbD (j % 8)) := by
  induction m with
  | zero => simp
  | succ m ih =>
    rw [List.range_succ, List.foldl_append, List.foldl_cons, List.foldl_nil, BitVec.getLsbD_or, ih]
    rcases lt_or_ge j (8 * m) with hlt | hge
    · have hlt' : j < 8 * (m + 1) := by omega
      simp [hlt, hlt']
    · rcases lt_or_ge j (8 * (m + 1)) with hlt' | hge'
      · have hdiv : j / 8 = m := by omega
        have hmod : j % 8 = j - 8 * m := by omega
        simp [hlt', hj, hdiv, hmod, Nat.not_lt.mpr hge]
      · have hzero : (f m).getLsbD (j - 8 * m) = false := BitVec.getLsbD_of_ge _ _ (by omega)
        simp [Nat.not_lt.mpr hge, Nat.not_lt.mpr hge', hj, hzero]

theorem byte_pack {k : ℕ} (hk : k < n) (f : ℕ → BitVec 8) : byte (pack n f) k = f k := by
  refine BitVec.eq_of_getLsbD_eq fun j hj => ?_
  have hlt : 8 * k + j < 8 * n := by omega
  have hdiv : (8 * k + j) / 8 = k := by omega
  have hmod : (8 * k + j) % 8 = j := by omega
  rw [byte, BitVec.getLsbD_extractLsb', pack, getLsbD_pack_upTo f n _ hlt, hdiv, hmod]
  simp [hj, hlt]

theorem byte_load {k : ℕ} (hk : k < n) (x : Bytes) (i : ℕ) :
    byte (load n x i) k = x.getD (i + k) 0 := byte_pack hk _

/-! ### Xor-ing into a buffer -/

/-- `f` xored into the first `n` bytes. -/
def xorFirst (z : Bytes) (f : ℕ → BitVec 8) (n : ℕ) : Bytes :=
  z.mapIdx fun i b => if i < n then b ^^^ f i else b

@[simp] theorem length_xorFirst : (xorFirst z f n).length = z.length := List.length_mapIdx

theorem getElem?_xorFirst (z : Bytes) (f : ℕ → BitVec 8) (n i : ℕ) :
    (xorFirst z f n)[i]? = z[i]?.map fun b => if i < n then b ^^^ f i else b := List.getElem?_mapIdx

theorem getD_xorFirst {i : ℕ} (hi : i < z.length) :
    (xorFirst z f n).getD i 0 = if i < n then z.getD i 0 ^^^ f i else z.getD i 0 := by
  rw [List.getD_eq_getElem?_getD, List.getD_eq_getElem?_getD, getElem?_xorFirst,
    List.getElem?_eq_getElem hi]
  rfl

@[simp] theorem xorFirst_zero : xorFirst z f 0 = z := by
  refine List.ext_getElem? fun i => ?_
  rw [getElem?_xorFirst]
  simp

theorem xorFirst_xorFirst (z : Bytes) (f g : ℕ → BitVec 8) (n : ℕ) :
    xorFirst (xorFirst z f n) g n = xorFirst z (fun i => g i ^^^ f i) n := by
  refine List.ext_getElem? fun i => ?_
  rw [getElem?_xorFirst, getElem?_xorFirst, getElem?_xorFirst, Option.map_map]
  congr 1
  funext b
  rcases lt_or_ge i n with hlt | hge
  · simp only [Function.comp_apply, if_pos hlt, BitVec.xor_assoc, BitVec.xor_comm (g i)]
  · simp only [Function.comp_apply, if_neg (Nat.not_lt.mpr hge)]

theorem xorFirst_comm (z : Bytes) (f g : ℕ → BitVec 8) (m n : ℕ) :
    xorFirst (xorFirst z f m) g n = xorFirst (xorFirst z g n) f m := by
  refine List.ext_getElem? fun i => ?_
  rw [getElem?_xorFirst, getElem?_xorFirst, getElem?_xorFirst, getElem?_xorFirst, Option.map_map,
    Option.map_map]
  congr 1
  funext b
  simp only [Function.comp_apply]
  split_ifs
  · rw [BitVec.xor_assoc, BitVec.xor_comm (f i), ← BitVec.xor_assoc]
  all_goals rfl

/-- **A word xored in at the place reached moves it on.** -/
theorem xorFirst_store {w : BitVec (8 * m)} (hw : ∀ k < m, byte w k = f (n + k)) :
    store m (xorFirst z f n) n (load m (xorFirst z f n) n ^^^ w) = xorFirst z f (n + m) := by
  refine List.ext_getElem? fun j => ?_
  rw [store, List.getElem?_mapIdx, getElem?_xorFirst, getElem?_xorFirst]
  rcases hz : z[j]? with _ | b
  · rfl
  have hj : j < z.length := (List.getElem?_eq_some_iff.mp hz).1
  have hb : z.getD j 0 = b := by rw [List.getD_eq_getElem?_getD, hz, Option.getD_some]
  simp only [Option.map_some]
  congr 1
  rcases lt_or_ge j n with hlt | hge
  · have hnot : ¬ (n ≤ j ∧ j < n + m) := by omega
    rw [if_neg hnot, if_pos hlt, if_pos (by omega)]
  obtain ⟨k, rfl⟩ := Nat.exists_eq_add_of_le hge
  rcases lt_or_ge k m with hk | hk
  · rw [if_pos ⟨hge, by omega⟩, if_pos (by omega), Nat.add_sub_cancel_left, byte_xor, byte_load hk,
      hw k hk, getD_xorFirst hj, if_neg (by omega), hb]
  · have hnot : ¬ (n ≤ n + k ∧ n + k < n + m) := by omega
    rw [if_neg hnot, if_neg (by omega), if_neg (by omega)]

/-- The byte at `i` xored in. -/
def xorByte (z : Bytes) (f : ℕ → BitVec 8) (i : ℕ) : Bytes := z.modify i fun b => b ^^^ f i

theorem xorByte_downTo (k : ℕ) (z : Bytes) (f : ℕ → BitVec 8) (n : ℕ) :
    (List.range k).foldr (fun i z => xorByte z f (n + i)) (xorFirst z f n) =
      xorFirst z f (n + k) := by
  -- the bytes at the places of a list
  have hdone : ∀ l : List ℕ, l.Nodup → ∀ (z' : Bytes) (j : ℕ),
      (l.foldr (fun i z => xorByte z f (n + i)) z')[j]? =
        z'[j]?.map fun b => if ∃ i ∈ l, j = n + i then b ^^^ f j else b := by
    intro l hl z' j
    induction l with
    | nil => simp
    | cons a l ih =>
      obtain ⟨ha, hl⟩ := List.nodup_cons.mp hl
      rw [List.foldr_cons, xorByte, List.getElem?_modify, ih hl, Option.map_eq_map, Option.map_map]
      congr 1
      funext b
      rcases eq_or_ne (n + a) j with rfl | hne
      · simp [ha]
      · simp [hne, hne.symm]
  refine List.ext_getElem? fun j => ?_
  rw [hdone _ List.nodup_range, getElem?_xorFirst, getElem?_xorFirst, Option.map_map]
  congr 1
  funext b
  have hiff : (∃ i ∈ List.range k, j = n + i) ↔ n ≤ j ∧ j < n + k := by
    constructor
    · rintro ⟨i, hi, rfl⟩
      have := List.mem_range.mp hi
      omega
    · rintro ⟨hle, hlt⟩
      exact ⟨j - n, List.mem_range.mpr (by omega), by omega⟩
  simp only [Function.comp_apply, hiff]
  rcases lt_or_ge j n with hlt | hge
  · have hnot : ¬ (n ≤ j ∧ j < n + k) := by omega
    rw [if_neg hnot, if_pos hlt, if_pos (by omega)]
  rcases lt_or_ge j (n + k) with hlt | hge'
  · rw [if_pos ⟨hge, hlt⟩, if_neg (by omega), if_pos hlt]
  · have hnot : ¬ (n ≤ j ∧ j < n + k) := by omega
    rw [if_neg hnot, if_neg (by omega), if_neg (by omega)]

end RemotePlay.Lib.ByteMemory
