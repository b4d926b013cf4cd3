import RemotePlay.Jpeg.Quant
import Mathlib.Order.Monotone.Basic

/-! # Delta mode

In delta mode a block is quantised with the divisors of quality 100 and cut by the bits its level
shifts out; what is sent is the difference from the block before in the same place, which is first
brought to the new level.  A block kept at a level is one of full precision cut to it (`Kept`), so
it can be brought to another level within the range of a block of samples (`rescaled_within`), and
`forward_dct` never overflows (`deltaDct_eq`). -/

namespace RemotePlay.Jpeg

open RemotePlay.Lib

/-! ### The quantiser -/

/-- `rescale_prev`.  `c & mask` is the remainder. -/
def rescalePrev (rescale shr : Bool) (c : ℤ) (s : ℕ) : Option ℤ :=
  if rescale then
    if shr then
      let off : ℤ := if c < 0 ∧ c % 2 ^ s > 0 then 1 else 0
      i16 ((c >>> s) + off)
    else i16 (c <<< s)
  else some c

/-- `do_quantize` at one coefficient: the new values of `inout`, `prev` and `next`. -/
def doQuantizeCoef (delta_q update_prev rescale shr : Bool) (div_part : DivisorPart) (shift : ℕ)
    (inout prev : ℤ) (rp_shift : ℕ) (next : ℤ) : Option (ℤ × ℤ × ℤ) := do
  let temp ← quantizeCoef div_part shift inout
  if delta_q then
    let prev ← rescalePrev rescale shr prev rp_shift
    let diff ← i16 (temp - prev)
    if update_prev then return (diff, temp, next) else return (diff, prev, temp)
  else return (temp, prev, next)

/-- `do_quantize`. -/
def doQuantize (delta_q update_prev rescale shr : Bool) (inout : JBlock)
    (div_parts : Fin 64 → DivisorPart) (div_shifts : Fin 64 → ℕ) (prev : JBlock)
    (rp_shifts : Fin 64 → ℕ) (next : JBlock) : Option (JBlock × JBlock × JBlock) := do
  let f ← allSome fun i => doQuantizeCoef delta_q update_prev rescale shr (div_parts i)
    (div_shifts i) (inout i) (prev i) (rp_shifts i) (next i)
  return (fun i => (f i).1, fun i => (f i).2.1, fun i => (f i).2.2)

/-- `forward_dct`. -/
def forwardDct (delta_q update_prev rescale shr : Bool) (w : Window)
    (div_parts : Fin 64 → DivisorPart) (div_shifts : Fin 64 → ℕ) (prev : JBlock)
    (rp_shifts : Fin 64 → ℕ) (next : JBlock) : Option (JBlock × JBlock × JBlock) := do
  let output ← fdctIfast w.doConvsamp
  doQuantize delta_q update_prev rescale shr output div_parts div_shifts prev rp_shifts next

/-- `set_divisors`. -/
def divParts (q : Quality) (t : TblNo) (i : Fin 64) : DivisorPart :=
  computeReciprocal (divisor q t i)

/-- A block of samples, transformed and divided. -/
def quantBlock (q : Quality) (t : TblNo) (m : Fin 64 → ℕ) (w : Window) : JBlock :=
  fun i => quant (divisor q t i) (m i) (dct w.doConvsamp i)

theorem quantBlock_within (q : Quality) (t : TblNo) (m : Fin 64 → ℕ) (w : Window) (i : Fin 64) :
    Within (coefRange i) (quantBlock q t m w i) :=
  quant_within_coefRange (dct_within w.doConvsamp_bounds i)

/-- **The division never overflows**, with a shift within the word. -/
theorem quantizeCoef_dct {q : Quality} {t : TblNo} {m : Fin 64 → ℕ} (w : Window) {i : Fin 64}
    (hm : (divParts q t i).shift + m i < 32) :
    quantizeCoef (divParts q t i) ((divParts q t i).shift + m i) (dct w.doConvsamp i) =
      some (quantBlock q t m w i) := by
  have hx := dct_within w.doConvsamp_bounds i
  have hb := dctRange_bounds i
  have hd := divisor_bounds q t i
  have hpos := baseDivisor_pos i
  refine quantizeCoef_eq (by omega) (by omega) hm ?_
  simp only [Within] at hx
  omega

theorem divParts_shift_le (q : Quality) (t : TblNo) (i : Fin 64) :
    (divParts q t i).shift ≤ 27 := by
  have hd := divisor_bounds q t i
  exact computeReciprocal_shift ((baseDivisor_pos i).trans_le hd.1) hd.2 (by decide)

theorem divParts_best_shift_le (t : TblNo) (i : Fin 64) :
    (divParts Quality.best t i).shift ≤ 19 := by
  have hlt : ∀ i, baseDivisor i < 2 ^ 4 := by decide
  rw [divParts, divisor_best]
  exact computeReciprocal_shift (baseDivisor_pos i) (hlt i) (by decide)

/-! ### Plain mode -/

/-- What is sent in plain mode. -/
def plainDct (q : Quality) (t : TblNo) (w : Window) : Option JBlock :=
  (forwardDct false false false false w (divParts q t) (fun i => (divParts q t i).shift) 0 0 0).map
    Prod.fst

/-- **In plain mode nothing overflows.** -/
theorem plainDct_eq (q : Quality) (t : TblNo) (w : Window) :
    plainDct q t w = some (quantBlock q t 0 w) := by
  have hq : ∀ i, quantizeCoef (divParts q t i) (divParts q t i).shift (dct w.doConvsamp i) =
      some (quantBlock q t 0 w i) := fun i => by
    have hle := divParts_shift_le q t i
    have hlt : (divParts q t i).shift + (0 : Fin 64 → ℕ) i < 32 := by
      show (divParts q t i).shift + 0 < 32
      omega
    exact quantizeCoef_dct w hlt
  have hall : (allSome fun i => doQuantizeCoef false false false false (divParts q t i)
      (divParts q t i).shift (dct w.doConvsamp i) 0 0 0) =
        some fun i => (quantBlock q t 0 w i, 0, 0) :=
    allSome_eq_some.mpr fun i => by
      rw [doQuantizeCoef, hq i]
      rfl
  simp only [plainDct, forwardDct, fdctIfast_eq w.doConvsamp_bounds, Option.bind_eq_bind,
    Option.bind_some, doQuantize, Pi.zero_apply, hall]
  rfl

/-! ### Levels -/

/-- A level of delta quantisation, `DELTA_Q_COUNT` of them. -/
abbrev Level := Fin 32

/-- `delta_q_tbls`: the bits each level shifts out, rounded logarithms of the standard tables less a
part for each level, and so no more for a higher level. -/
structure DeltaQTbls where
  tbl : Level → TblNo → Fin 64 → ℕ
  anti : ∀ t i, Antitone fun d => tbl d t i
  le : ∀ d t i, tbl d t i ≤ 7

/-- The logarithm of `b` to base 2 less `7 * d / 32`, rounded, and 0 below that. -/
def roundLog2 (b d : ℕ) : ℕ :=
  ((List.range' 1 7).filter fun k => 2 ^ (32 * k + 7 * d) ≤ b ^ 32 * 2 ^ 16).length

theorem roundLog2_anti (b : ℕ) : Antitone (roundLog2 b) := by
  intro d d' hd
  refine (List.monotone_filter_right _ fun k hk => ?_).length_le
  rw [decide_eq_true_eq] at hk ⊢
  exact (Nat.pow_le_pow_right (by decide) (by omega)).trans hk

/-- `once_delta_q_tbls`, its floats done in whole numbers. -/
def onceDeltaQTbls : DeltaQTbls where
  tbl d t i := roundLog2 (tblAt t.basicTable i) d.val
  anti t i := fun _ _ hd => roundLog2_anti _ hd
  le _ _ _ := (List.length_filter_le _ _).trans (by rw [List.length_range'])

namespace DeltaQTbls

variable (T : DeltaQTbls)

/-- `div_delta_q_shifts`. -/
def divShifts (d : Level) (t : TblNo) (i : Fin 64) : ℕ :=
  (divParts Quality.best t i).shift + T.tbl d t i

/-- `rp_shifts`, for a new level `d` after `p`. -/
def rpShifts (p d : Level) (t : TblNo) (i : Fin 64) : ℕ :=
  if p < d then T.tbl p t i - T.tbl d t i else T.tbl d t i - T.tbl p t i

/-- What `compress` does to a block that is not cached: what is sent, and the block kept. -/
def deltaDct (t : TblNo) (p d : Level) (w : Window) (prev : JBlock) : Option (JBlock × JBlock) :=
  (forwardDct true true (p != d) (d < p) w (divParts Quality.best t) (T.divShifts d t) prev
    (T.rpShifts p d t) 0).map fun r => (r.1, r.2.1)

/-- A block kept at a level. -/
def Kept (t : TblNo) (p : Level) (prev : JBlock) : Prop :=
  ∀ i, ∃ c, Within (coefRange i) c ∧ prev i = c.tdiv (2 ^ T.tbl p t i)

/-- The block kept at level `p`, brought to level `d`. -/
def rescaled (t : TblNo) (p d : Level) (prev : JBlock) : JBlock := fun i =>
  if p < d then prev i * 2 ^ (T.tbl p t i - T.tbl d t i)
  else (prev i).tdiv (2 ^ (T.tbl d t i - T.tbl p t i))

end DeltaQTbls

/-! ### Cutting -/

theorem quant_eq_tdiv (d m : ℕ) (x : ℤ) : quant d m x = (quant d 0 x).tdiv (2 ^ m) := by
  simp only [quant, Nat.pow_zero, Nat.div_one]
  rcases lt_trichotomy x 0 with hneg | rfl | hpos
  · rw [Int.sign_eq_neg_one_of_neg hneg, neg_one_mul, neg_one_mul, Int.neg_tdiv]
    simp
  · simp
  · rw [Int.sign_eq_one_of_pos hpos, one_mul, one_mul]
    simp

theorem coefRange_small : ∀ i, (coefRange i).1 ≤ 0 ∧ 0 ≤ (coefRange i).2 ∧
    -1024 ≤ (coefRange i).1 ∧ (coefRange i).2 ≤ 1024 := by
  decide

theorem within_tdiv_mul {r : ℤ × ℤ} {c : ℤ} {a b : ℕ} (hb : b ≤ a) (hr : r.1 ≤ 0 ∧ 0 ≤ r.2)
    (hc : Within r c) : Within r (c.tdiv (2 ^ a) * 2 ^ b) := by
  -- for a number that is not negative the result is between zero and it
  have hpos : ∀ x : ℤ, 0 ≤ x → 0 ≤ x.tdiv (2 ^ a) * 2 ^ b ∧ x.tdiv (2 ^ a) * 2 ^ b ≤ x := by
    intro x hx
    rw [Int.tdiv_eq_ediv_of_nonneg hx]
    have hq : 0 ≤ x / 2 ^ a := Int.ediv_nonneg hx (by positivity)
    refine ⟨mul_nonneg hq (by positivity), ?_⟩
    calc x / 2 ^ a * 2 ^ b ≤ x / 2 ^ a * 2 ^ a :=
          mul_le_mul_of_nonneg_left (pow_le_pow_right₀ (by decide) hb) hq
      _ ≤ x := Int.ediv_mul_le x (by positivity)
  obtain ⟨h1, h2⟩ := hc
  rcases le_total 0 c with h0 | h0
  · have := hpos c h0
    simp only [Within]
    omega
  · have := hpos (-c) (by omega)
    rw [Int.neg_tdiv, neg_mul] at this
    simp only [Within]
    omega

theorem tdiv_tdiv_two_pow (c : ℤ) (a b : ℕ) :
    (c.tdiv (2 ^ a)).tdiv (2 ^ b) = c.tdiv (2 ^ (a + b)) := by
  have hpos : ∀ x : ℤ, 0 ≤ x → (x.tdiv (2 ^ a)).tdiv (2 ^ b) = x.tdiv (2 ^ (a + b)) := by
    intro x hx
    have hq : 0 ≤ x / 2 ^ a := Int.ediv_nonneg hx (by positivity)
    rw [Int.tdiv_eq_ediv_of_nonneg hx, Int.tdiv_eq_ediv_of_nonneg hq,
      Int.tdiv_eq_ediv_of_nonneg hx, Int.ediv_ediv_of_nonneg (by positivity), pow_add]
  rcases le_total 0 c with h0 | h0
  · exact hpos c h0
  · have := hpos (-c) (by omega)
    rw [Int.neg_tdiv, Int.neg_tdiv, Int.neg_tdiv] at this
    exact neg_injective this

/-- The shift with its correction cuts towards zero. -/
theorem shiftRight_add_off (c : ℤ) (s : ℕ) :
    (c >>> s) + (if c < 0 ∧ c % 2 ^ s > 0 then 1 else 0) = c.tdiv (2 ^ s) := by
  have hpos : (0 : ℤ) < 2 ^ s := by positivity
  have hshift : c >>> s = c / 2 ^ s := by
    rw [Int.shiftRight_eq_div_pow]
    norm_cast
  have hmod := Int.emod_nonneg c hpos.ne'
  rw [hshift, Int.tdiv_eq_ediv, Int.sign_eq_one_of_pos hpos]
  congr 1
  by_cases h0 : 0 ≤ c
  · rw [if_neg (by omega), if_pos (Or.inl h0)]
  · by_cases h1 : c % 2 ^ s = 0
    · rw [if_neg (by omega), if_pos (Or.inr (Int.dvd_of_emod_eq_zero h1))]
    · rw [if_pos (by omega), if_neg]
      exact not_or.mpr ⟨h0, fun hdvd => h1 (Int.emod_eq_zero_of_dvd hdvd)⟩

namespace DeltaQTbls

variable (T : DeltaQTbls)

/-! ### A block kept -/

theorem kept_zero (t : TblNo) (p : Level) : T.Kept t p 0 := fun i =>
  ⟨0, ⟨(coefRange_small i).1, (coefRange_small i).2.1⟩, by simp⟩

theorem kept_quantBlock (t : TblNo) (p : Level) (w : Window) :
    T.Kept t p (quantBlock Quality.best t (T.tbl p t) w) := fun i =>
  ⟨quantBlock Quality.best t 0 w i, quantBlock_within _ _ _ w i, quant_eq_tdiv _ _ _⟩

/-- **A block kept is within the range of a block of samples on every level.** -/
theorem rescaled_within {t : TblNo} {p d : Level} {prev : JBlock} (h : T.Kept t p prev)
    (i : Fin 64) : Within (coefRange i) (T.rescaled t p d prev i) := by
  obtain ⟨c, hc, heq⟩ := h i
  have hr : (coefRange i).1 ≤ 0 ∧ 0 ≤ (coefRange i).2 :=
    ⟨(coefRange_small i).1, (coefRange_small i).2.1⟩
  unfold rescaled
  split_ifs with hpd
  · rw [heq]
    exact within_tdiv_mul (Nat.sub_le _ _) hr hc
  · rw [heq, tdiv_tdiv_two_pow]
    have := within_tdiv_mul (Nat.zero_le (T.tbl p t i + (T.tbl d t i - T.tbl p t i))) hr hc
    rwa [pow_zero, mul_one] at this

theorem rescalePrev_eq {t : TblNo} {p d : Level} {prev : JBlock} (h : T.Kept t p prev)
    (i : Fin 64) : rescalePrev (p != d) (d < p) (prev i) (T.rpShifts p d t i) =
      some (T.rescaled t p d prev i) := by
  have hr := coefRange_small i
  have hin := T.rescaled_within (d := d) h i
  simp only [Within] at hin
  unfold rescalePrev
  rcases lt_trichotomy p d with hlt | rfl | hgt
  · have hne : (p != d) = true := by simp [hlt.ne]
    have hshr : ¬decide (d < p) = true := by simp [hlt.le]
    have heq : T.rescaled t p d prev i = prev i <<< (T.tbl p t i - T.tbl d t i) := by
      rw [rescaled, if_pos hlt, Int.shiftLeft_eq]
    rw [if_pos hne, if_neg hshr, rpShifts, if_pos hlt, ← heq]
    exact i16_eq (by omega)
  · have hne : ¬(p != p) = true := by simp
    rw [if_neg hne, rescaled, if_neg (lt_irrefl p), Nat.sub_self, pow_zero, Int.tdiv_one]
  · have hne : (p != d) = true := by simp [hgt.ne']
    have hshr : decide (d < p) = true := by simp [hgt]
    have heq : T.rescaled t p d prev i = (prev i).tdiv (2 ^ (T.tbl d t i - T.tbl p t i)) := by
      rw [rescaled, if_neg hgt.not_gt]
    rw [if_pos hne, if_pos hshr, rpShifts, if_neg hgt.not_gt]
    simp only
    rw [shiftRight_add_off, ← heq]
    exact i16_eq (by omega)

/-- **In delta mode nothing overflows**: what is sent is the difference of the block at the new
level from the block kept, brought to that level. -/
theorem deltaDct_eq {t : TblNo} {p d : Level} {prev : JBlock} (h : T.Kept t p prev) (w : Window) :
    T.deltaDct t p d w prev =
      some (fun i => quantBlock Quality.best t (T.tbl d t) w i - T.rescaled t p d prev i,
        quantBlock Quality.best t (T.tbl d t) w) := by
  have hq : ∀ i, quantizeCoef (divParts Quality.best t i) (T.divShifts d t i)
      (dct w.doConvsamp i) = some (quantBlock Quality.best t (T.tbl d t) w i) := fun i => by
    have := divParts_best_shift_le t i
    have := T.le d t i
    exact quantizeCoef_dct w (by omega)
  have hdiff : ∀ i, i16 (quantBlock Quality.best t (T.tbl d t) w i - T.rescaled t p d prev i) =
      some (quantBlock Quality.best t (T.tbl d t) w i - T.rescaled t p d prev i) := fun i => by
    have hr := coefRange_small i
    have h1 := quantBlock_within Quality.best t (T.tbl d t) w i
    have h2 := T.rescaled_within (d := d) h i
    simp only [Within] at h1 h2
    exact i16_eq (by omega)
  have hall : (allSome fun i => doQuantizeCoef true true (p != d) (d < p)
      (divParts Quality.best t i) (T.divShifts d t i) (dct w.doConvsamp i) (prev i)
      (T.rpShifts p d t i) 0) = some fun i =>
        (quantBlock Quality.best t (T.tbl d t) w i - T.rescaled t p d prev i,
          quantBlock Quality.best t (T.tbl d t) w i, 0) :=
    allSome_eq_some.mpr fun i => by
      simp only [doQuantizeCoef, hq i, T.rescalePrev_eq h i, hdiff i, Option.bind_eq_bind,
        Option.bind_some, if_true]
      rfl
  simp only [deltaDct, forwardDct, fdctIfast_eq w.doConvsamp_bounds, Option.bind_eq_bind,
    Option.bind_some, doQuantize, Pi.zero_apply, hall]
  rfl

/-! ### Frame after frame -/

/-- The blocks of one place over frames, each with its level: the last level and the block kept. -/
def deltaRun (t : TblNo) : Level × JBlock → List (Level × Window) → Option (Level × JBlock)
  | s, [] => some s
  | s, (d, w) :: fs => do
    let (_, prev) ← T.deltaDct t s.1 d w s.2
    deltaRun t (d, prev) fs

/-- **A block is kept at the level it was last sent at**, and no frame overflows. -/
theorem deltaRun_kept {t : TblNo} {s : Level × JBlock} (h : T.Kept t s.1 s.2)
    (fs : List (Level × Window)) :
    ∃ s', T.deltaRun t s fs = some s' ∧ T.Kept t s'.1 s'.2 := by
  induction fs generalizing s with
  | nil => exact ⟨s, rfl, h⟩
  | cons f fs ih =>
    obtain ⟨d, w⟩ := f
    obtain ⟨s', hs', hk⟩ := ih (s := (d, quantBlock Quality.best t (T.tbl d t) w))
      (T.kept_quantBlock t d w)
    refine ⟨s', ?_, hk⟩
    rw [deltaRun, T.deltaDct_eq h]
    exact hs'

end DeltaQTbls

end RemotePlay.Jpeg
