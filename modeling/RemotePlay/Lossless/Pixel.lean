import RemotePlay.Config
import RemotePlay.Lib.Median
import Mathlib.Tactic.IntervalCases
import Mathlib.Data.UInt

/-! # Pixels and residuals

The lossless encoder sends a sample as its difference from a predicted one, both cut to the top `b`
bits.  The symbol is the difference modulo `2 ^ b`, taken as a signed number and moved up by 128
(`residual_toNat`), so the receiver that knows the top bits of the prediction gets those of the
sample (`unresidual_residual`), and every symbol is among those the table for `b` bits was made for
(`freq_residual`). -/

namespace RemotePlay.Lossless

open RemotePlay.Lib

/-- `LosslessTblName`, by the number of bits of the samples. -/
inductive TblName
  | tbl8 | tbl6 | tbl5 | tbl4
  deriving DecidableEq, Repr

namespace TblName

/-- The bits of the samples that a table is for. -/
def bits : TblName → ℕ
  | tbl8 => 8
  | tbl6 => 6
  | tbl5 => 5
  | tbl4 => 4

/-- How far a sample is shifted down. -/
def shift (t : TblName) : ℕ := 8 - t.bits

/-- The top bits of a sample. -/
def trunc (t : TblName) (v : UInt8) : UInt8 := v >>> UInt8.ofNat t.shift

theorem trunc_toNat (t : TblName) (v : UInt8) : (t.trunc v).toNat = v.toNat / 2 ^ t.shift := by
  cases t <;> simp [trunc, shift, bits, Nat.shiftRight_eq_div_pow]

theorem trunc_lt (t : TblName) (v : UInt8) : (t.trunc v).toNat < 2 ^ t.bits := by
  have := v.toNat_lt
  rw [trunc_toNat]
  cases t <;> simp only [shift, bits] <;> omega

theorem trunc_zero (t : TblName) : t.trunc 0 = 0 := by cases t <;> rfl

end TblName

/-! ### The encoder's side -/

/-- `median_3`. -/
def median3 (a b c : UInt8) : UInt8 :=
  a + b + c - max (max a b) c - min (min a b) c

/-- The difference of a sample from the predicted one, as it is looked up in the table. -/
def residual (t : TblName) (c p : UInt8) : UInt8 :=
  if t.bits < 8 then
    let s := UInt8.ofNat t.shift
    let d := ((c >>> s) - (p >>> s)) <<< s
    UInt8.ofBitVec (d.toBitVec.sshiftRight t.shift) + 128
  else c - p + 128

/-- The predicted sample, from those above, to the left, and above the left one; `mid` when there is
neither.  The last is there whenever the first two are. -/
def predict (mid : UInt8) : Option UInt8 → Option UInt8 → Option UInt8 → UInt8
  | none, none, _ => mid
  | none, some l, _ => l
  | some t, none, _ => t
  | some t, some l, tl => median3 t l (tl.getD 0)

/-- `pred_pixel`. -/
def predPixel (c : UInt8) (t l tl : Option UInt8) (b : TblName) : UInt8 :=
  residual b c (predict 128 t l tl)

/-- The sample's top bits from the symbol and the top bits of the prediction. -/
def unresidual (t : TblName) (y p : UInt8) : UInt8 :=
  UInt8.ofNat ((y.toNat + p.toNat + 128) % 2 ^ t.bits)

/-! ### What it computes -/

theorem toNat_max (a b : UInt8) : (max a b).toNat = max a.toNat b.toNat := by
  have h : max a b = if a ≤ b then b else a := rfl
  rw [h, apply_ite UInt8.toNat, Nat.max_def]
  rfl

theorem toNat_min (a b : UInt8) : (min a b).toNat = min a.toNat b.toNat := by
  have h : min a b = if a ≤ b then a else b := rfl
  rw [h, apply_ite UInt8.toNat, Nat.min_def]
  rfl

/-- The wrapped sum and differences are the median after all. -/
theorem median3_toNat (a b c : UInt8) :
    (median3 a b c).toNat = median a.toNat b.toNat c.toNat := by
  have ha := a.toNat_lt
  have hb := b.toNat_lt
  have hc := c.toNat_lt
  rw [← median_eq_sub]
  unfold median3
  simp only [UInt8.toNat_sub, UInt8.toNat_add, toNat_max, toNat_min]
  omega

/-- **The median of truncated samples is the truncated median.** -/
theorem trunc_median3 (t : TblName) (a b c : UInt8) :
    t.trunc (median3 a b c) = median3 (t.trunc a) (t.trunc b) (t.trunc c) := by
  have hmono : Monotone fun n : ℕ => n / 2 ^ t.shift := fun m n h => Nat.div_le_div_right h
  rw [← UInt8.toNat_inj, TblName.trunc_toNat, median3_toNat, median3_toNat]
  simp only [TblName.trunc_toNat]
  exact map_median hmono _ _ _

theorem toNat_sshiftRight_sub {s : ℕ} (hs : s < 8) {x y : UInt8} (hx : x.toNat < 2 ^ (8 - s))
    (hy : y.toNat < 2 ^ (8 - s)) :
    (UInt8.ofBitVec (((x - y) <<< UInt8.ofNat s).toBitVec.sshiftRight s) + 128).toNat =
      128 - 2 ^ (7 - s) + (x.toNat + 2 ^ (8 - s) - y.toNat + 2 ^ (7 - s)) % 2 ^ (8 - s) := by
  have hmsb : ∀ z : BitVec 8, z.msb = decide (2 ^ 7 ≤ z.toNat) := fun z => BitVec.msb_eq_decide z
  rw [UInt8.toNat_add, UInt8.toNat_ofBitVec, BitVec.toNat_sshiftRight, hmsb]
  simp only [UInt8.toNat_toBitVec, UInt8.toNat_shiftLeft, UInt8.toNat_sub,
    Nat.shiftRight_eq_div_pow, Nat.shiftLeft_eq]
  interval_cases s <;> simp at hx hy ⊢ <;> split_ifs <;> omega

/-- **The symbol is the difference of the top bits modulo `2 ^ b`**, as a signed number, plus
128. -/
theorem residual_toNat (t : TblName) (c p : UInt8) : (residual t c p).toNat =
    128 - 2 ^ (t.bits - 1) + ((t.trunc c).toNat + 2 ^ t.bits - (t.trunc p).toNat +
      2 ^ (t.bits - 1)) % 2 ^ t.bits := by
  have hc := t.trunc_lt c
  have hp := t.trunc_lt p
  cases t with
  | tbl8 =>
    simp only [residual, TblName.trunc_toNat, TblName.bits, TblName.shift, UInt8.toNat_add,
      UInt8.toNat_sub, lt_irrefl, ↓reduceIte]
    have := c.toNat_lt
    have := p.toNat_lt
    simp
    omega
  | tbl6 => exact toNat_sshiftRight_sub (by decide : 2 < 8) hc hp
  | tbl5 => exact toNat_sshiftRight_sub (by decide : 3 < 8) hc hp
  | tbl4 => exact toNat_sshiftRight_sub (by decide : 4 < 8) hc hp

/-- **The receiver gets the top bits back.** -/
theorem unresidual_residual (t : TblName) (c p : UInt8) :
    unresidual t (residual t c p) (t.trunc p) = t.trunc c := by
  have hc := t.trunc_lt c
  have hp := t.trunc_lt p
  rw [← UInt8.toNat_inj, unresidual, residual_toNat, UInt8.toNat_ofNat']
  cases t <;> simp only [TblName.bits] at hc hp ⊢ <;> omega

theorem trunc_predict (b : TblName) (mid : UInt8) (t l tl : Option UInt8) :
    b.trunc (predict mid t l tl) =
      predict (b.trunc mid) (t.map b.trunc) (l.map b.trunc) (tl.map b.trunc) := by
  rcases t with _ | t <;> rcases l with _ | l <;> rcases tl with _ | tl <;>
    simp only [predict, Option.map_none, Option.map_some, Option.getD_none, Option.getD_some,
      trunc_median3, TblName.trunc_zero]

/-! ### The symbols with a code -/

/-- `set_tbl`: the frequencies the table for `bits` bits is made from.  `count i` is the truncated
floating-point weight of the difference `i`. -/
def setTbl (count : ℕ → ℕ) (bits : ℕ) : ℕ → ℕ :=
  let stop := 1 <<< (bits - 1)
  let freq := (List.range (stop + 1)).foldl
    (fun freq i => Function.update (Function.update freq (128 + i) (count i)) (128 - i) (count i))
    (fun _ => 0)
  Function.update freq (128 + stop) 0

theorem setTbl_fill (count : ℕ → ℕ) (hcount : ∀ i, 0 < count i) (n y : ℕ) :
    0 < (List.range n).foldl (fun freq i =>
        Function.update (Function.update freq (128 + i) (count i)) (128 - i) (count i))
      (fun _ => 0) y ↔ ∃ i < n, y = 128 + i ∨ y = 128 - i := by
  induction n with
  | zero => simp
  | succ n ih =>
    rw [List.range_succ, List.foldl_append, List.foldl_cons, List.foldl_nil]
    have hn := hcount n
    by_cases h1 : y = 128 - n
    · subst h1
      rw [Function.update_self]
      exact iff_of_true hn ⟨n, n.lt_succ_self, Or.inr rfl⟩
    by_cases h2 : y = 128 + n
    · subst h2
      rw [Function.update_of_ne h1, Function.update_self]
      exact iff_of_true hn ⟨n, n.lt_succ_self, Or.inl rfl⟩
    rw [Function.update_of_ne h1, Function.update_of_ne h2, ih]
    constructor
    · rintro ⟨i, hi, h⟩
      exact ⟨i, by omega, h⟩
    · rintro ⟨i, hi, h⟩
      rcases Nat.lt_succ_iff_lt_or_eq.mp hi with hi | rfl
      · exact ⟨i, hi, h⟩
      · exact (h.elim h2 h1).elim

/-- **The symbols of the table**: `128 - 2 ^ (b - 1)` up to `128 + 2 ^ (b - 1)`, the last left
out. -/
theorem setTbl_pos (count : ℕ → ℕ) (hcount : ∀ i, 0 < count i) (t : TblName) (y : ℕ) :
    0 < setTbl count t.bits y ↔
      128 - 2 ^ (t.bits - 1) ≤ y ∧ y < 128 + 2 ^ (t.bits - 1) := by
  have hfill := setTbl_fill count hcount (1 <<< (t.bits - 1) + 1) y
  have hle : 2 ^ (t.bits - 1) ≤ 128 := by cases t <;> decide
  simp only [setTbl]
  rw [Nat.one_shiftLeft] at hfill ⊢
  by_cases h : y = 128 + 2 ^ (t.bits - 1)
  · subst h
    rw [Function.update_self]
    omega
  rw [Function.update_of_ne h, hfill]
  constructor
  · rintro ⟨i, hi, h⟩
    omega
  · intro hy
    rcases le_total 128 y with h | h
    · exact ⟨y - 128, by omega, by omega⟩
    · exact ⟨128 - y, by omega, by omega⟩

/-- **Every symbol has a frequency in its table.** -/
theorem setTbl_residual (count : ℕ → ℕ) (hcount : ∀ i, 0 < count i) (t : TblName) (c p : UInt8) :
    0 < setTbl count t.bits (residual t c p).toNat := by
  rw [setTbl_pos count hcount, residual_toNat]
  cases t <;> simp only [TblName.bits] <;> omega

end RemotePlay.Lossless
