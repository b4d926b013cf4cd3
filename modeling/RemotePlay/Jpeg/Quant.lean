import RemotePlay.Jpeg.Dct
import RemotePlay.Lib.Reciprocal
import Mathlib.Data.Nat.Prime.Basic

/-! # Quantisation

A coefficient is divided by its divisor, to the nearest, by multiplying with a reciprocal.  The
divisor is the scaled entry of the quality's table times the scale the fast DCT left in the
coefficient.  The multiplication divides exactly (`quantizeCoef_eq`) and larger divisors give
smaller results, so the coefficients of quality 100 bound those of every other (`quant_within`). -/

namespace RemotePlay.Jpeg

open RemotePlay.Lib

/-! ### Tables -/

/-- The scale factors of the transform, with 14 fraction bits. -/
def AANSCALES : List ℕ :=
  [16384, 22725, 21407, 19266, 16384, 12873, 8867, 4520, 22725, 31521, 29692, 26722, 22725, 17855,
    12299, 6270, 21407, 29692, 27969, 25172, 21407, 16819, 11585, 5906, 19266, 26722, 25172, 22654,
    19266, 15137, 10426, 5315, 16384, 22725, 21407, 19266, 16384, 12873, 8867, 4520, 12873, 17855,
    16819, 15137, 12873, 10114, 6967, 3552, 8867, 12299, 11585, 10426, 8867, 6967, 4799, 2446,
    4520, 6270, 5906, 5315, 4520, 3552, 2446, 1247]

/-- The basic table for luminance. -/
def STD_LUMINANCE_QUANT_TBL : List ℕ :=
  [16, 11, 10, 16, 24, 40, 51, 61, 12, 12, 14, 19, 26, 58, 60, 55, 14, 13, 16, 24, 40, 57, 69, 56,
    14, 17, 22, 29, 51, 87, 80, 62, 18, 22, 37, 56, 68, 109, 103, 77, 24, 35, 55, 64, 81, 104, 113,
    92, 49, 64, 78, 87, 103, 121, 120, 101, 72, 92, 95, 98, 112, 100, 103, 99]

/-- The basic table for chrominance. -/
def STD_CHROMINANCE_QUANT_TBL : List ℕ :=
  [17, 18, 24, 47, 99, 99, 99, 99, 18, 21, 26, 66, 99, 99, 99, 99, 24, 26, 56, 99, 99, 99, 99, 99,
    47, 66, 99, 99, 99, 99, 99, 99, 99, 99, 99, 99, 99, 99, 99, 99, 99, 99, 99, 99, 99, 99, 99, 99,
    99, 99, 99, 99, 99, 99, 99, 99, 99, 99, 99, 99, 99, 99, 99, 99]

/-- An entry of a table of 64. -/
def tblAt (tbl : List ℕ) (i : Fin 64) : ℕ := tbl.getD i 0

/-- The number of a quantisation table, `NUM_QUANT_TBLS` of them. -/
inductive TblNo
  | luminance | chrominance
  deriving DecidableEq, Repr

/-- The basic table, which the quality scales. -/
def TblNo.basicTable : TblNo → List ℕ
  | luminance => STD_LUMINANCE_QUANT_TBL
  | chrominance => STD_CHROMINANCE_QUANT_TBL

/-- A quality setting, 1 to 100. -/
structure Quality where
  val : ℕ
  pos : 0 < val
  le : val ≤ 100

/-- The quality delta mode builds its tables with. -/
def Quality.best : Quality := ⟨100, by decide, by decide⟩

/-- `quality_scaling`, in percent. -/
def qualityScaling (quality : ℕ) : ℕ := if quality < 50 then 5000 / quality else 200 - quality * 2

/-- `set_quant_table`: an entry of a scaled table. -/
def setQuantTable (basic_table : List ℕ) (scale_factor : ℕ) (i : Fin 64) : ℕ :=
  let temp := (tblAt basic_table i * scale_factor + 50) / 100
  if temp ≤ 0 then 1 else if temp > 255 then 255 else temp

/-- `quant_val` after `set_quality`. -/
def quantVal (q : Quality) (t : TblNo) : Fin 64 → ℕ :=
  setQuantTable t.basicTable (qualityScaling q.val)

/-- `descale`: a shift that rounds to the nearest. -/
def descale (x n : ℕ) : ℕ := (x + 1 <<< (n - 1)) >>> n

/-- The divisor of a coefficient, `CONST_BITS - 3` being 11. -/
def divisor (q : Quality) (t : TblNo) (i : Fin 64) : ℕ :=
  descale (quantVal q t i * tblAt AANSCALES i) 11

/-! ### Reciprocals -/

/-- One test of `flss`: a word with none of the bits of the mask is moved up. -/
def flssStep (w mask : ℕ) (s : ℕ × ℕ) : ℕ × ℕ :=
  if s.2 &&& mask = 0 then (s.1 - w, s.2 <<< w) else s

/-- The number of bits of a 16-bit word. -/
def flss (val : ℕ) : ℕ :=
  if val = 0 then 0
  else (flssStep 1 0x8000 (flssStep 2 0xc000 (flssStep 4 0xf000 (flssStep 8 0xff00 (16, val))))).1

/-- `DivisorPart` and the shift that goes with it. -/
structure DivisorPart where
  recip : ℕ
  corr : ℕ
  shift : ℕ
  deriving DecidableEq, Repr

/-- `compute_reciprocal`.  `recip` is read back as a `u16`, so the cast to `i16` keeps it. -/
def computeReciprocal (divisor : ℕ) : DivisorPart :=
  if divisor = 1 then ⟨1, 0, 0⟩
  else
    let b := flss divisor
    let r := 16 + b - 1
    let fq := 2 ^ r / divisor
    let fr := 2 ^ r % divisor
    let c := divisor / 2
    if fr = 0 then ⟨(fq >>> 1) % 2 ^ 16, c, r - 1⟩
    else if fr ≤ divisor / 2 then ⟨fq % 2 ^ 16, c + 1, r⟩
    else ⟨(fq + 1) % 2 ^ 16, c, r⟩

/-! ### One coefficient -/

/-- `v ^ sign1` for a mask of all zeros or all ones. -/
def xorSign (v sign1 : ℤ) : ℤ := if sign1 = 0 then v else -v - 1

/-- A value kept in a `u32`. -/
def u32 (x : ℤ) : Option ℤ := if 0 ≤ x ∧ x < 2 ^ 32 then some x else none

/-- The part of `do_quantize`'s loop that divides.  Shifting by 32 or more is undefined. -/
def quantizeCoef (d : DivisorPart) (shift : ℕ) (temp : ℤ) : Option ℤ := do
  let sign1 := temp >>> (15 : ℕ)
  let abs := xorSign (← i16 (temp + sign1)) sign1
  let product ← u32 ((abs + d.corr) * d.recip)
  if shift < 32 then
    i16 (xorSign (← i16 (product >>> shift)) sign1 - sign1)
  else none

/-! ### Multiplying with the reciprocal divides -/

theorem and_high_eq_zero {v k : ℕ} (hv : v < 2 ^ 16) (hk : k ≤ 16) :
    v &&& (2 ^ (16 - k) - 1) <<< k = 0 ↔ v < 2 ^ k := by
  have hshift : v &&& (2 ^ (16 - k) - 1) <<< k = ((v >>> k) &&& (2 ^ (16 - k) - 1)) <<< k := by
    refine Nat.eq_of_testBit_eq fun j => ?_
    simp only [Nat.testBit_and, Nat.testBit_shiftLeft, Nat.testBit_shiftRight]
    by_cases hj : k ≤ j
    · simp [hj]
    · simp [hj]
  have hlt : v / 2 ^ k < 2 ^ (16 - k) := by
    rw [Nat.div_lt_iff_lt_mul (Nat.two_pow_pos k), ← Nat.pow_add, Nat.sub_add_cancel hk]
    exact hv
  rw [hshift, Nat.and_two_pow_sub_one_eq_mod, Nat.shiftRight_eq_div_pow, Nat.mod_eq_of_lt hlt,
    Nat.shiftLeft_eq, Nat.mul_eq_zero, Nat.div_eq_zero_iff]
  have := Nat.two_pow_pos k
  omega

/-- A word moved up to at least `2 ^ k`, and the number of its bits left below 16. -/
structure FlssInv (v k : ℕ) (s : ℕ × ℕ) : Prop where
  le : s.1 ≤ 16
  eq : s.2 = v * 2 ^ (16 - s.1)
  lower : 2 ^ k ≤ s.2
  upper : s.2 < 2 ^ 16

theorem flssStep_inv {v w k : ℕ} {s : ℕ × ℕ} (hv : 0 < v) (hw : k + 2 * w = 16)
    (h : FlssInv v k s) : FlssInv v (k + w) (flssStep w ((2 ^ w - 1) <<< (k + w)) s) := by
  obtain ⟨hle, heq, hlo, hhi⟩ := h
  have htest : s.2 &&& (2 ^ w - 1) <<< (k + w) = 0 ↔ s.2 < 2 ^ (k + w) := by
    have := and_high_eq_zero hhi (by omega : k + w ≤ 16)
    rwa [show 16 - (k + w) = w by omega] at this
  unfold flssStep
  by_cases ht : s.2 < 2 ^ (k + w)
  · rw [if_pos (htest.mpr ht)]
    -- as the word is not zero it cannot have been moved up by more than 16 in all
    have hs : w ≤ s.1 := by
      by_contra hlt
      have : 2 ^ (k + w) ≤ v * 2 ^ (16 - s.1) :=
        (Nat.pow_le_pow_right (by decide) (by omega)).trans (Nat.le_mul_of_pos_left _ hv)
      omega
    refine ⟨by simp only; omega, ?_, ?_, ?_⟩
    · simp only [Nat.shiftLeft_eq]
      rw [heq, Nat.mul_assoc, ← Nat.pow_add, show 16 - (s.1 - w) = 16 - s.1 + w by omega]
    · simp only [Nat.shiftLeft_eq]
      rw [Nat.pow_add]
      exact Nat.mul_le_mul_right _ hlo
    · simp only [Nat.shiftLeft_eq]
      calc s.2 * 2 ^ w < 2 ^ (k + w) * 2 ^ w := (Nat.mul_lt_mul_right (Nat.two_pow_pos w)).mpr ht
        _ = 2 ^ 16 := by rw [← Nat.pow_add, show k + w + w = 16 by omega]
  · rw [if_neg (htest.not.mpr ht)]
    exact ⟨hle, heq, not_lt.mp ht, hhi⟩

theorem flss_spec {v : ℕ} (h0 : 0 < v) (hv : v < 2 ^ 16) :
    0 < flss v ∧ 2 ^ (flss v - 1) ≤ v ∧ v < 2 ^ flss v := by
  have h : FlssInv v 0 (16, v) := ⟨le_rfl, by simp, h0, hv⟩
  have h := flssStep_inv h0 (w := 8) rfl h
  have h := flssStep_inv h0 (w := 4) rfl h
  have h := flssStep_inv h0 (w := 2) rfl h
  have h := flssStep_inv h0 (w := 1) rfl h
  obtain ⟨hle, heq, hlo, hhi⟩ := h
  rw [heq] at hlo hhi
  have hf : flss v = (flssStep 1 ((2 ^ 1 - 1) <<< (0 + 8 + 4 + 2 + 1))
      (flssStep 2 ((2 ^ 2 - 1) <<< (0 + 8 + 4 + 2)) (flssStep 4 ((2 ^ 4 - 1) <<< (0 + 8 + 4))
        (flssStep 8 ((2 ^ 8 - 1) <<< (0 + 8)) (16, v))))).1 := if_neg h0.ne'
  rw [← hf] at hle hlo hhi
  have hpos : 0 < flss v := by
    by_contra hz
    rw [Nat.eq_zero_of_not_pos hz] at hhi
    omega
  have hsum : 2 ^ flss v * 2 ^ (16 - flss v) = 2 ^ 16 := by
    rw [← Nat.pow_add, Nat.add_sub_cancel' hle]
  have hsum' : 2 ^ (flss v - 1) * 2 ^ (16 - flss v) = 2 ^ (0 + 8 + 4 + 2 + 1) := by
    rw [← Nat.pow_add, show flss v - 1 + (16 - flss v) = 15 by omega]
  refine ⟨hpos, ?_, ?_⟩
  · exact Nat.le_of_mul_le_mul_right (hsum'.trans_le hlo) (Nat.two_pow_pos _)
  · exact Nat.lt_of_mul_lt_mul_right (hhi.trans_le hsum.ge)

theorem eq_two_pow_of_dvd {d r k : ℕ} (h : d ∣ 2 ^ r) (hlo : 2 ^ k ≤ d) (hhi : d < 2 * 2 ^ k) :
    d = 2 ^ k := by
  obtain ⟨j, -, rfl⟩ := (Nat.dvd_prime_pow Nat.prime_two).mp h
  rw [← Nat.pow_succ'] at hhi
  have h1 := (Nat.pow_le_pow_iff_right (by decide : 1 < 2)).mp hlo
  have h2 := (Nat.pow_lt_pow_iff_right (by decide : 1 < 2)).mp hhi
  rw [show j = k by omega]

/-- **Multiplying with the reciprocal divides, rounding to the nearest.** -/
theorem computeReciprocal_spec {d n : ℕ} (h0 : 0 < d) (hd : d < 2 ^ 15) (hn : n ≤ 2 ^ 15) :
    (n + (computeReciprocal d).corr) * (computeReciprocal d).recip /
      2 ^ (computeReciprocal d).shift = roundDiv n d := by
  by_cases h1 : d = 1
  · subst h1
    simp [computeReciprocal, roundDiv]
  obtain ⟨hb, hlo, hhi⟩ := flss_spec h0 (by omega : d < 2 ^ 16)
  obtain ⟨k, hk⟩ := Nat.exists_eq_add_one.mpr hb
  have hr : 16 + flss d - 1 = 16 + k := by omega
  rw [hk, Nat.add_sub_cancel] at hlo
  rw [hk, Nat.pow_succ'] at hhi
  have hN : 2 ^ (16 + k) = 65536 * 2 ^ k := by rw [Nat.pow_add]
  have hdiv : d * (2 ^ (16 + k) / d) + 2 ^ (16 + k) % d = 2 ^ (16 + k) := Nat.div_add_mod ..
  have hmod : 2 ^ (16 + k) % d < d := Nat.mod_lt _ h0
  simp only [computeReciprocal, if_neg h1, hr]
  by_cases hfr : 2 ^ (16 + k) % d = 0
  · -- a power of two: the reciprocal is halved to fit
    have hdk : d = 2 ^ k := eq_two_pow_of_dvd (Nat.dvd_of_mod_eq_zero hfr) hlo hhi
    have hq : 2 ^ (16 + k) / d = 65536 := by
      rw [hN, hdk, Nat.mul_div_cancel _ (Nat.two_pow_pos k)]
    have hs : 2 ^ (16 + k - 1) = 32768 * 2 ^ k := by
      rw [show 16 + k - 1 = 15 + k by omega, Nat.pow_add]
    rw [if_pos hfr, hq]
    show (n + d / 2) * 32768 / 2 ^ (16 + k - 1) = roundDiv n d
    rw [hs, Nat.mul_comm _ 32768, Nat.mul_div_mul_left _ _ (by decide), ← hdk, roundDiv]
  have hdk : 2 ^ k < d := by
    refine lt_of_le_of_ne hlo fun heq => hfr ?_
    rw [← heq, hN, Nat.mul_mod_left]
  rw [if_neg hfr]
  generalize hq : 2 ^ (16 + k) / d = q at hdiv ⊢
  generalize hf : 2 ^ (16 + k) % d = f at hdiv hmod hfr ⊢
  have hm : n + d / 2 + 1 ≤ 65536 := by omega
  by_cases hhalf : f ≤ d / 2
  · have hq16 : q < 2 ^ 16 := by
      by_contra hge
      have : d * 65536 ≤ d * q := Nat.mul_le_mul_left d (not_lt.mp hge)
      omega
    rw [if_pos hhalf, Nat.mod_eq_of_lt hq16]
    refine mul_recip_down h0 hdiv (Nat.pos_of_ne_zero hfr) ?_
    calc (n + d / 2 + 1) * f ≤ 65536 * 2 ^ k := Nat.mul_le_mul hm (by omega)
      _ = 2 ^ (16 + k) := hN.symm
  · have hq16 : q + 1 < 2 ^ 16 := by
      by_contra hge
      have : d * 65536 ≤ d * (q + 1) := Nat.mul_le_mul_left d (not_lt.mp hge)
      rw [Nat.mul_add, mul_one] at this
      omega
    rw [if_neg hhalf, Nat.mod_eq_of_lt hq16]
    show (n + d / 2) * (q + 1) / 2 ^ (16 + k) = roundDiv n d
    refine mul_recip_up h0 (e := d - f) (by rw [Nat.mul_add, mul_one]; omega) ?_
    calc (n + d / 2) * (d - f) ≤ (n + d / 2) * 2 ^ k := Nat.mul_le_mul_left _ (by omega)
      _ < 65536 * 2 ^ k := (Nat.mul_lt_mul_right (Nat.two_pow_pos k)).mpr (by omega)
      _ = 2 ^ (16 + k) := hN.symm

theorem computeReciprocal_lt {d : ℕ} (h0 : 0 < d) (hd : d < 2 ^ 15) :
    (computeReciprocal d).recip < 2 ^ 16 ∧ (computeReciprocal d).corr ≤ 2 ^ 14 := by
  have hpow : 0 < 2 ^ 16 := Nat.two_pow_pos 16
  simp only [computeReciprocal]
  split_ifs
  · exact ⟨by decide, by decide⟩
  · exact ⟨Nat.mod_lt _ hpow, by simp only; omega⟩
  · exact ⟨Nat.mod_lt _ hpow, by simp only; omega⟩
  · exact ⟨Nat.mod_lt _ hpow, by simp only; omega⟩

/-- A quotient rounded to the nearest, the sign apart, and cut by `m` bits. -/
def quant (d m : ℕ) (x : ℤ) : ℤ := x.sign * (roundDiv x.natAbs d / 2 ^ m : ℕ)

theorem roundDiv_le {n d : ℕ} (hd : 0 < d) : roundDiv n d ≤ n := by
  have h := roundDiv_mono (le_refl n) Nat.one_pos hd
  have h1 : roundDiv n 1 = n := Nat.div_one _
  rwa [h1] at h

/-- **A coefficient is divided, to the nearest**, and cut by the bits shifted out on top. -/
theorem quantizeCoef_eq {d m : ℕ} {x : ℤ} (h0 : 0 < d) (hd : d < 2 ^ 15)
    (hm : (computeReciprocal d).shift + m < 32) (hx : -32767 ≤ x ∧ x ≤ 32767) :
    quantizeCoef (computeReciprocal d) ((computeReciprocal d).shift + m) x =
      some (quant d m x) := by
  have habs : xorSign (x + x >>> (15 : ℕ)) (x >>> (15 : ℕ)) = x.natAbs := by
    rw [Int.shiftRight_eq_div_pow, xorSign]
    split_ifs with hs <;> omega
  have hin : i16 (x + x >>> (15 : ℕ)) = some (x + x >>> (15 : ℕ)) := by
    refine i16_eq ?_
    rw [Int.shiftRight_eq_div_pow]
    omega
  obtain ⟨hrecip, hcorr⟩ := computeReciprocal_lt h0 hd
  have hspec := computeReciprocal_spec h0 hd (by omega : x.natAbs ≤ 2 ^ 15)
  generalize computeReciprocal d = p at hm hrecip hcorr hspec ⊢
  have hprod : u32 (((x.natAbs : ℤ) + p.corr) * p.recip) =
      some (((x.natAbs + p.corr) * p.recip : ℕ) : ℤ) := by
    have hlt : (x.natAbs + p.corr) * p.recip < 2 ^ 16 * 2 ^ 16 :=
      Nat.mul_lt_mul_of_lt_of_le (by omega) hrecip.le (Nat.two_pow_pos 16)
    rw [u32, if_pos, Nat.cast_mul, Nat.cast_add]
    exact ⟨by positivity, by exact_mod_cast hlt⟩
  have hshift : (((x.natAbs + p.corr) * p.recip : ℕ) : ℤ) >>> (p.shift + m) =
      (roundDiv x.natAbs d / 2 ^ m : ℕ) := by
    rw [Int.shiftRight_eq_div_pow, ← hspec, Nat.div_div_eq_div_mul, ← Nat.pow_add]
    rfl
  have hle : roundDiv x.natAbs d / 2 ^ m ≤ x.natAbs :=
    (Nat.div_le_self _ _).trans (roundDiv_le h0)
  simp only [quantizeCoef, hin, habs, hprod, hshift, if_pos hm, Option.bind_eq_bind,
    Option.bind_some, quant]
  generalize roundDiv x.natAbs d / 2 ^ m = y at hle ⊢
  rw [i16_bind (by omega), Int.shiftRight_eq_div_pow, xorSign, i16_eq_some]
  rcases lt_trichotomy x 0 with hneg | rfl | hpos
  · rw [Int.sign_eq_neg_one_of_neg hneg, if_neg (by omega)]
    omega
  · simp
    omega
  · rw [Int.sign_eq_one_of_pos hpos, if_pos (by omega)]
    omega

theorem computeReciprocal_shift {d k : ℕ} (h0 : 0 < d) (hd : d < 2 ^ k) (hk : k ≤ 15) :
    (computeReciprocal d).shift ≤ 15 + k := by
  have hpow : 2 ^ k ≤ 2 ^ 15 := Nat.pow_le_pow_right (by decide) hk
  obtain ⟨hb, hlo, -⟩ := flss_spec h0 (by omega : d < 2 ^ 16)
  have := (Nat.pow_lt_pow_iff_right (by decide : 1 < 2)).mp (hlo.trans_lt hd)
  simp only [computeReciprocal]
  split_ifs <;> simp only <;> omega

/-- **Quantisation is rounded division**, and an extra shift divides its result once more.  The
parts fit the 16 bits they are stored in. -/
theorem quantizeCoef_rounds {d l : ℕ} {x : ℤ} (h0 : 0 < d) (hd : d ≤ 32767)
    (hx : -32768 < x ∧ x ≤ 32767) :
    (computeReciprocal d).recip < 2 ^ 16 ∧ (computeReciprocal d).corr < 2 ^ 15 ∧
      quantizeCoef (computeReciprocal d) (computeReciprocal d).shift x =
        some (x.sign * ((x.natAbs + d / 2) / d : ℕ)) ∧
      ((computeReciprocal d).shift + l < 32 →
        quantizeCoef (computeReciprocal d) ((computeReciprocal d).shift + l) x =
          some ((x.sign * ((x.natAbs + d / 2) / d : ℕ)).tdiv (2 ^ l))) := by
  have hd' : d < 2 ^ 15 := by omega
  obtain ⟨hrecip, hcorr⟩ := computeReciprocal_lt h0 hd'
  have hshift := computeReciprocal_shift h0 hd' le_rfl
  have hquant : ∀ m, (computeReciprocal d).shift + m < 32 →
      quantizeCoef (computeReciprocal d) ((computeReciprocal d).shift + m) x = some (quant d m x) :=
    fun m hm => quantizeCoef_eq h0 hd' hm (by omega)
  refine ⟨hrecip, by omega, ?_, fun hl => ?_⟩
  · have h := hquant 0 (by omega)
    rwa [quant, Nat.pow_zero, Nat.div_one, Nat.add_zero] at h
  · have hcut : ((roundDiv x.natAbs d / 2 ^ l : ℕ) : ℤ) =
        Int.tdiv (roundDiv x.natAbs d : ℕ) (2 ^ l) := by
      rw [Int.tdiv_eq_ediv_of_nonneg (Int.natCast_nonneg _)]
      norm_cast
    rw [hquant l hl, quant, hcut, ← roundDiv]
    rcases lt_trichotomy x 0 with hneg | rfl | hpos
    · rw [Int.sign_eq_neg_one_of_neg hneg, neg_one_mul, neg_one_mul, Int.neg_tdiv]
    · simp
    · rw [Int.sign_eq_one_of_pos hpos, one_mul, one_mul]

/-- The smallest dividend that 6 divides up, and 7 after it with a shift. -/
theorem quantizeCoef_rounds_three :
    quantizeCoef (computeReciprocal 6) (computeReciprocal 6).shift (-3) = some (-1) ∧
      quantizeCoef (computeReciprocal 6) ((computeReciprocal 6).shift + 1) (-21) = some (-2) := by
  obtain ⟨-, -, h, -⟩ := @quantizeCoef_rounds 6 0 (-3) (by decide) (by decide) (by decide)
  obtain ⟨-, -, -, h'⟩ := @quantizeCoef_rounds 6 1 (-21) (by decide) (by decide) (by decide)
  exact ⟨h, h' (by decide)⟩

/-! ### How large the results get -/

theorem quantVal_bounds (q : Quality) (t : TblNo) (i : Fin 64) :
    1 ≤ quantVal q t i ∧ quantVal q t i ≤ 255 := by
  simp only [quantVal, setQuantTable]
  split_ifs <;> omega

/-- The divisors of quality 100. -/
def baseDivisor (i : Fin 64) : ℕ := descale (tblAt AANSCALES i) 11

theorem divisor_best (t : TblNo) : divisor Quality.best t = baseDivisor := by
  cases t <;> decide

theorem divisor_bounds (q : Quality) (t : TblNo) (i : Fin 64) :
    baseDivisor i ≤ divisor q t i ∧ divisor q t i < 2 ^ 12 := by
  have hA : tblAt AANSCALES i ≤ 31521 := by revert i; decide
  obtain ⟨h1, h255⟩ := quantVal_bounds q t i
  simp only [baseDivisor, divisor, descale, Nat.shiftRight_eq_div_pow, Nat.shiftLeft_eq]
  have hlo : tblAt AANSCALES i ≤ quantVal q t i * tblAt AANSCALES i :=
    Nat.le_mul_of_pos_left _ h1
  have hhi : quantVal q t i * tblAt AANSCALES i ≤ 255 * 31521 := Nat.mul_le_mul h255 hA
  omega

theorem baseDivisor_pos (i : Fin 64) : 0 < baseDivisor i := by revert i; decide

/-- A range with zero in it, divided. -/
def quantRange (d : ℕ) (r : ℤ × ℤ) : ℤ × ℤ :=
  (-(roundDiv r.1.natAbs d : ℤ), (roundDiv r.2.natAbs d : ℤ))

/-- **Larger divisors and more bits shifted out leave a result within the same range.** -/
theorem quant_within {d₀ d m : ℕ} {r : ℤ × ℤ} {x : ℤ} (h0 : 0 < d₀) (hd : d₀ ≤ d)
    (hx : Within r x) (hlo : r.1 ≤ 0) (hhi : 0 ≤ r.2) :
    Within (quantRange d₀ r) (quant d m x) := by
  obtain ⟨hx1, hx2⟩ := hx
  have hcut : roundDiv x.natAbs d / 2 ^ m ≤ roundDiv x.natAbs d := Nat.div_le_self _ _
  rcases lt_trichotomy x 0 with hneg | rfl | hpos
  · have := roundDiv_mono (by omega : x.natAbs ≤ r.1.natAbs) h0 hd
    simp only [Within, quantRange, quant, Int.sign_eq_neg_one_of_neg hneg]
    generalize roundDiv x.natAbs d / 2 ^ m = y at hcut ⊢
    omega
  · simp only [Within, quantRange, quant, Int.sign_zero]
    omega
  · have := roundDiv_mono (by omega : x.natAbs ≤ r.2.natAbs) h0 hd
    simp only [Within, quantRange, quant, Int.sign_eq_one_of_pos hpos]
    generalize roundDiv x.natAbs d / 2 ^ m = y at hcut ⊢
    omega

/-- The range of a quantised coefficient of a block of samples, at any quality. -/
def coefRange (i : Fin 64) : ℤ × ℤ := quantRange (baseDivisor i) (dctRange i)

theorem dctRange_bounds : ∀ i, (dctRange i).1 ≤ 0 ∧ 0 ≤ (dctRange i).2 ∧
    -16384 ≤ (dctRange i).1 ∧ (dctRange i).2 ≤ 16384 := by
  decide

theorem quant_within_coefRange {q : Quality} {t : TblNo} {i : Fin 64} {m : ℕ} {x : ℤ}
    (hx : Within (dctRange i) x) : Within (coefRange i) (quant (divisor q t i) m x) :=
  quant_within (baseDivisor_pos i) (divisor_bounds q t i).1 hx (dctRange_bounds i).1
    (dctRange_bounds i).2.1

theorem coefRange_zero : coefRange 0 = (-1024, 1016) := by decide

theorem coefRange_seven : coefRange 7 = (-1020, 1024) := by decide

/-- **Every AC coefficient but one has at most 10 bits.** -/
theorem coefRange_ac : ∀ i, i ≠ 0 → i ≠ 7 → -1022 ≤ (coefRange i).1 ∧ (coefRange i).2 ≤ 1022 := by
  decide

/-! ### The coefficient that can have 11 -/

/-- Coefficient 7 is not scaled down at quality 100, and for luminance at 99. -/
theorem quantVal_seven (q : Quality) (t : TblNo) :
    quantVal q t 7 = 1 ↔ q.val = 100 ∨ q.val = 99 ∧ t = .luminance := by
  obtain ⟨q, hpos, hle⟩ := q
  have hscale : qualityScaling q = 200 - q * 2 ∨ 3 ≤ qualityScaling q ∧ q < 50 := by
    unfold qualityScaling
    split_ifs with h
    · right
      exact ⟨(Nat.le_div_iff_mul_le hpos).mpr (by omega), h⟩
    · exact Or.inl rfl
  have h7 : tblAt STD_LUMINANCE_QUANT_TBL 7 = 61 := rfl
  have h7' : tblAt STD_CHROMINANCE_QUANT_TBL 7 = 99 := rfl
  cases t
  · simp only [quantVal, setQuantTable, TblNo.basicTable, h7, and_true]
    split_ifs <;> omega
  · simp only [quantVal, setQuantTable, TblNo.basicTable, h7', reduceCtorEq, and_false, or_false]
    split_ifs <;> omega

/-- **Coefficient 7 has at most 10 bits unless its divisor is 2 and it was at least 2047.** -/
theorem quant_seven {q : Quality} {t : TblNo} {x : ℤ} (hx : Within (dctRange 7) x) :
    quant (divisor q t 7) 0 x ≤ 1023 ↔ ¬(quantVal q t 7 = 1 ∧ 2047 ≤ x) := by
  have hrange : dctRange 7 = (-2040, 2048) := by decide
  rw [hrange] at hx
  obtain ⟨h1, h255⟩ := quantVal_bounds q t 7
  have hdiv : divisor q t 7 = (quantVal q t 7 * 4520 + 1024) / 2048 := by
    simp only [divisor, descale, Nat.shiftRight_eq_div_pow, Nat.shiftLeft_eq]
    rfl
  simp only [Within] at hx
  rcases lt_trichotomy x 0 with hneg | rfl | hpos
  · simp only [quant, Int.sign_eq_neg_one_of_neg hneg]
    omega
  · simp [quant]
  · simp only [quant, Int.sign_eq_one_of_pos hpos, Nat.pow_zero, Nat.div_one, one_mul]
    by_cases hq : quantVal q t 7 = 1
    · have h2 : divisor q t 7 = 2 := by rw [hdiv, hq]
      rw [h2, roundDiv]
      omega
    · have h4 : 4 ≤ divisor q t 7 := by rw [hdiv]; omega
      have := roundDiv_mono (by omega : x.natAbs ≤ 2048) (by decide : 0 < 4) h4
      have : roundDiv 2048 4 = 512 := rfl
      omega

end RemotePlay.Jpeg
