import RemotePlay.Jpeg.Level

/-! # The cached blocks

`compute_dq` quantises a few blocks at full precision before it chooses the level of the frame, and
keeps what it computed.  It brings the blocks kept at those places to full precision as well.  When
`compress` comes to such a place it cuts the cached block and difference to the level instead of
quantising again; a difference cut is not the difference of the cut blocks, and the offsets make up
for it (`cacheHit_eq`). -/

namespace RemotePlay.Jpeg

open RemotePlay.Lib

/-- The last level, at full precision. -/
def lastLevel : Level := 31

namespace DeltaQTbls

variable (T : DeltaQTbls)

/-- `delta_q0_tbls`. -/
def deltaQ0 (d : Level) (t : TblNo) (i : Fin 64) : ℕ := T.tbl d t i - T.tbl lastLevel t i

/-- `compute_dq` for one block: the cached difference, the block kept, and the cached block. -/
def computeDqBlock (t : TblNo) (p : Level) (w : Window) (prev : JBlock) :
    Option (JBlock × JBlock × JBlock) :=
  if p = lastLevel then
    forwardDct true false false false w (divParts Quality.best t) (T.divShifts lastLevel t) prev
      (T.deltaQ0 p t) 0
  else
    forwardDct true false true false w (divParts Quality.best t) (T.divShifts lastLevel t) prev
      (T.deltaQ0 p t) 0

end DeltaQTbls

/-- One coefficient of a cached block cut by `m` bits: what is sent and what is kept. -/
def cacheHitCoef (rescale shr : Bool) (m : ℕ) (cache next prev : ℤ) : Option (ℤ × ℤ) := do
  let off_next : ℤ := if next < 0 ∧ next % 2 ^ m > 0 then 1 else 0
  let off_prev : ℤ := if prev < 0 ∧ prev % 2 ^ m > 0 then 1 else 0
  let off_diff : ℤ := if prev % 2 ^ m > next % 2 ^ m then 1 else 0
  let off := if rescale && shr then off_next - off_prev + off_diff else off_next
  return (← i16 ((cache >>> m) + off), ← i16 ((next >>> m) + off_next))

/-- What `compress` does with a cached block: what is sent and what is kept. -/
def DeltaQTbls.cacheHit (T : DeltaQTbls) (t : TblNo) (p d : Level) (cache next prev : JBlock) :
    Option (JBlock × JBlock) :=
  if d = lastLevel then some (cache, next)
  else (allSome fun i => cacheHitCoef (p != d) (d < p) (T.deltaQ0 d t i) (cache i) (next i)
    (prev i)).map fun f => (fun i => (f i).1, fun i => (f i).2)

/-! ### Differences cut -/

/-- **A difference cut, with its offsets, is the difference of the cut numbers.** -/
theorem sub_shiftRight_off (x y : ℤ) (m : ℕ) :
    ((x - y) >>> m) + ((if x < 0 ∧ x % 2 ^ m > 0 then 1 else 0) -
      (if y < 0 ∧ y % 2 ^ m > 0 then 1 else 0) + if y % 2 ^ m > x % 2 ^ m then 1 else 0) =
      x.tdiv (2 ^ m) - y.tdiv (2 ^ m) := by
  have hpos : (0 : ℤ) < 2 ^ m := by positivity
  have hshift : ∀ z : ℤ, z >>> m = z / 2 ^ m := fun z => by
    rw [Int.shiftRight_eq_div_pow]
    norm_cast
  have hx := Int.emod_add_mul_ediv x (2 ^ m)
  have hy := Int.emod_add_mul_ediv y (2 ^ m)
  have hx0 := Int.emod_nonneg x hpos.ne'
  have hy0 := Int.emod_nonneg y hpos.ne'
  have hx1 := Int.emod_lt_of_pos x hpos
  have hy1 := Int.emod_lt_of_pos y hpos
  -- the quotient of the difference is short by one when the remainders are the wrong way round
  have hdiff : (x - y) / 2 ^ m + (if y % 2 ^ m > x % 2 ^ m then 1 else 0) =
      x / 2 ^ m - y / 2 ^ m := by
    split_ifs with hlt
    · have heq : x - y = (x % 2 ^ m - y % 2 ^ m + 2 ^ m) + 2 ^ m * (x / 2 ^ m - y / 2 ^ m - 1) := by
        linarith [hx, hy, mul_sub (2 ^ m : ℤ) (x / 2 ^ m - y / 2 ^ m) 1,
          mul_sub (2 ^ m : ℤ) (x / 2 ^ m) (y / 2 ^ m)]
      rw [heq, Int.add_mul_ediv_left _ _ hpos.ne', Int.ediv_eq_zero_of_lt (by omega) (by omega)]
      ring
    · have heq : x - y = (x % 2 ^ m - y % 2 ^ m) + 2 ^ m * (x / 2 ^ m - y / 2 ^ m) := by
        linarith [hx, hy, mul_sub (2 ^ m : ℤ) (x / 2 ^ m) (y / 2 ^ m)]
      rw [heq, Int.add_mul_ediv_left _ _ hpos.ne', Int.ediv_eq_zero_of_lt (by omega) (by omega)]
      ring
  rw [← shiftRight_add_off x, ← shiftRight_add_off y, hshift, hshift, hshift]
  linarith

theorem sub_shiftRight_of_dvd {x y : ℤ} {m : ℕ} (h : (2 : ℤ) ^ m ∣ y) :
    ((x - y) >>> m) + (if x < 0 ∧ x % 2 ^ m > 0 then 1 else 0) =
      x.tdiv (2 ^ m) - y / 2 ^ m := by
  have hx0 := Int.emod_nonneg x (by positivity : (2 : ℤ) ^ m ≠ 0)
  have hy : y % 2 ^ m = 0 := Int.emod_eq_zero_of_dvd h
  have hoff := sub_shiftRight_off x y m
  rw [hy, if_neg (by omega : ¬(y < 0 ∧ (0 : ℤ) > 0)), if_neg (by omega : ¬(0 : ℤ) > x % 2 ^ m),
    sub_zero, add_zero, Int.tdiv_eq_ediv_of_dvd h] at hoff
  exact hoff

namespace DeltaQTbls

variable (T : DeltaQTbls)

/-! ### What is cached -/

theorem rescaled_lastLevel {p : Level} (t : TblNo) (prev : JBlock) (i : Fin 64) :
    T.rescaled t p lastLevel prev i = prev i * 2 ^ T.deltaQ0 p t i := by
  have hp : p ≤ lastLevel := Nat.lt_succ_iff.mp p.isLt
  unfold rescaled
  split_ifs with hlt
  · rfl
  · have heq : p = lastLevel := le_antisymm hp (not_lt.mp hlt)
    rw [deltaQ0, heq, Nat.sub_self, pow_zero, Int.tdiv_one, mul_one]

/-- **`compute_dq` caches a block at full precision** and its difference from the block kept, which
it leaves at full precision. -/
theorem computeDqBlock_eq {t : TblNo} {p : Level} {prev : JBlock} (h : T.Kept t p prev)
    (w : Window) : T.computeDqBlock t p w prev =
      some (fun i => quantBlock Quality.best t (T.tbl lastLevel t) w i -
          T.rescaled t p lastLevel prev i,
        T.rescaled t p lastLevel prev, quantBlock Quality.best t (T.tbl lastLevel t) w) := by
  have hq : ∀ i, quantizeCoef (divParts Quality.best t i) (T.divShifts lastLevel t i)
      (dct w.doConvsamp i) = some (quantBlock Quality.best t (T.tbl lastLevel t) w i) := fun i => by
    have := divParts_best_shift_le t i
    have := T.le lastLevel t i
    exact quantizeCoef_dct w (by omega)
  have hprev : ∀ i, rescalePrev (p != lastLevel) false (prev i) (T.deltaQ0 p t i) =
      some (T.rescaled t p lastLevel prev i) := fun i => by
    have hr := coefRange_small i
    have hin := T.rescaled_within (d := lastLevel) h i
    simp only [Within] at hin
    rw [T.rescaled_lastLevel] at hin ⊢
    unfold rescalePrev
    rcases eq_or_ne p lastLevel with rfl | hne
    · rw [bne_self_eq_false, if_neg Bool.false_ne_true, deltaQ0, Nat.sub_self, pow_zero, mul_one]
    · rw [bne_iff_ne.mpr hne, if_pos rfl, if_neg Bool.false_ne_true, Int.shiftLeft_eq]
      exact i16_eq (by omega)
  have hdiff : ∀ i, i16 (quantBlock Quality.best t (T.tbl lastLevel t) w i -
      T.rescaled t p lastLevel prev i) = some (quantBlock Quality.best t (T.tbl lastLevel t) w i -
        T.rescaled t p lastLevel prev i) := fun i => by
    have hr := coefRange_small i
    have h1 := quantBlock_within Quality.best t (T.tbl lastLevel t) w i
    have h2 := T.rescaled_within (d := lastLevel) h i
    simp only [Within] at h1 h2
    exact i16_eq (by omega)
  have hall : (allSome fun i => doQuantizeCoef true false (p != lastLevel) false
      (divParts Quality.best t i) (T.divShifts lastLevel t i) (dct w.doConvsamp i) (prev i)
      (T.deltaQ0 p t i) 0) = some fun i =>
        (quantBlock Quality.best t (T.tbl lastLevel t) w i - T.rescaled t p lastLevel prev i,
          T.rescaled t p lastLevel prev i,
          quantBlock Quality.best t (T.tbl lastLevel t) w i) :=
    allSome_eq_some.mpr fun i => by
      simp only [doQuantizeCoef, hq i, hprev i, hdiff i, Option.bind_eq_bind, Option.bind_some,
        if_true, Bool.false_eq_true, if_false]
      rfl
  have hflag : T.computeDqBlock t p w prev = forwardDct true false (p != lastLevel) false w
      (divParts Quality.best t) (T.divShifts lastLevel t) prev (T.deltaQ0 p t) 0 := by
    unfold computeDqBlock
    rcases eq_or_ne p lastLevel with rfl | hne
    · rw [if_pos rfl, bne_self_eq_false]
    · rw [if_neg hne, bne_iff_ne.mpr hne]
  simp only [hflag, forwardDct, fdctIfast_eq w.doConvsamp_bounds, Option.bind_eq_bind,
    Option.bind_some, doQuantize, Pi.zero_apply, hall]
  rfl

/-! ### A cached block cut to a level -/

theorem tbl_eq_add (d : Level) (t : TblNo) (i : Fin 64) :
    T.tbl d t i = T.tbl lastLevel t i + T.deltaQ0 d t i := by
  have hd : d ≤ lastLevel := Nat.lt_succ_iff.mp d.isLt
  have := T.anti t i hd
  simp only at this
  rw [deltaQ0]
  omega

theorem quantBlock_tdiv (d : Level) (t : TblNo) (w : Window) (i : Fin 64) :
    (quantBlock Quality.best t (T.tbl lastLevel t) w i).tdiv (2 ^ T.deltaQ0 d t i) =
      quantBlock Quality.best t (T.tbl d t) w i := by
  have hlast := quant_eq_tdiv (divisor Quality.best t i) (T.tbl lastLevel t i)
    (dct w.doConvsamp i)
  have hd := quant_eq_tdiv (divisor Quality.best t i) (T.tbl d t i) (dct w.doConvsamp i)
  simp only [quantBlock]
  rw [hlast, hd, tdiv_tdiv_two_pow, ← T.tbl_eq_add]

theorem rescaled_tdiv {p d : Level} (hdp : d ≤ p) (t : TblNo) (prev : JBlock) (i : Fin 64) :
    (T.rescaled t p lastLevel prev i).tdiv (2 ^ T.deltaQ0 d t i) = T.rescaled t p d prev i := by
  have hanti := T.anti t i hdp
  simp only at hanti
  have hp := T.tbl_eq_add p t i
  have hd := T.tbl_eq_add d t i
  have hsplit : T.deltaQ0 d t i = T.deltaQ0 p t i + (T.tbl d t i - T.tbl p t i) := by omega
  rw [T.rescaled_lastLevel, rescaled, if_neg (not_lt.mpr hdp), hsplit, pow_add, mul_comm (prev i)]
  exact Int.mul_tdiv_mul_of_pos _ _ (by positivity)

/-- At a level as high or higher nothing is cut off. -/
theorem rescaled_eq_mul {p d : Level} (hpd : p ≤ d) (t : TblNo) (prev : JBlock) (i : Fin 64) :
    T.rescaled t p lastLevel prev i = T.rescaled t p d prev i * 2 ^ T.deltaQ0 d t i := by
  have hanti := T.anti t i hpd
  simp only at hanti
  have hp := T.tbl_eq_add p t i
  have hd := T.tbl_eq_add d t i
  have hsplit : T.deltaQ0 p t i = (T.tbl p t i - T.tbl d t i) + T.deltaQ0 d t i := by omega
  rw [T.rescaled_lastLevel, hsplit, pow_add, ← mul_assoc]
  congr 1
  unfold rescaled
  split_ifs with hlt
  · rfl
  · rw [le_antisymm hpd (not_lt.mp hlt), Nat.sub_self, pow_zero, Int.tdiv_one, mul_one]

/-- **The cut of the cached difference**, with the offsets for the way the level went, is the
difference at the level. -/
theorem cacheHitCoef_eq {t : TblNo} {p d : Level} {prev : JBlock} (h : T.Kept t p prev)
    (w : Window) (i : Fin 64) :
    cacheHitCoef (p != d) (d < p) (T.deltaQ0 d t i)
        (quantBlock Quality.best t (T.tbl lastLevel t) w i - T.rescaled t p lastLevel prev i)
        (quantBlock Quality.best t (T.tbl lastLevel t) w i) (T.rescaled t p lastLevel prev i) =
      some (quantBlock Quality.best t (T.tbl d t) w i - T.rescaled t p d prev i,
        quantBlock Quality.best t (T.tbl d t) w i) := by
  have hr := coefRange_small i
  have hnext := quantBlock_within Quality.best t (T.tbl d t) w i
  have hprev := T.rescaled_within (d := d) h i
  simp only [Within] at hnext hprev
  have hcut := shiftRight_add_off (quantBlock Quality.best t (T.tbl lastLevel t) w i)
    (T.deltaQ0 d t i)
  rw [T.quantBlock_tdiv] at hcut
  unfold cacheHitCoef
  simp only [hcut, i16_eq (show -32768 ≤ quantBlock Quality.best t (T.tbl d t) w i ∧
    quantBlock Quality.best t (T.tbl d t) w i ≤ 32767 by omega)]
  rcases lt_or_ge d p with hdp | hpd
  · have hflag : ((p != d) && decide (d < p)) = true := by simp [hdp, hdp.ne']
    rw [if_pos hflag, sub_shiftRight_off, T.quantBlock_tdiv, T.rescaled_tdiv hdp.le,
      i16_eq (by omega)]
    rfl
  · have hflag : ¬((p != d) && decide (d < p)) = true := by simp [hpd]
    have hdvd : (2 : ℤ) ^ T.deltaQ0 d t i ∣ T.rescaled t p lastLevel prev i :=
      ⟨_, by rw [T.rescaled_eq_mul hpd, mul_comm]⟩
    rw [if_neg hflag, sub_shiftRight_of_dvd hdvd, T.quantBlock_tdiv, T.rescaled_eq_mul hpd,
      Int.mul_ediv_cancel _ (by positivity), i16_eq (by omega)]
    rfl

/-- **A hit leaves what the plain way would have left.** -/
theorem cacheHit_eq {t : TblNo} {p d : Level} {prev : JBlock} (h : T.Kept t p prev) (w : Window) :
    ((T.computeDqBlock t p w prev).bind fun c => T.cacheHit t p d c.1 c.2.2 c.2.1) =
      T.deltaDct t p d w prev := by
  rw [T.computeDqBlock_eq h, Option.bind_some, T.deltaDct_eq h]
  unfold cacheHit
  split_ifs with hd
  · rw [hd]
  · rw [allSome_eq_some.mpr fun i => T.cacheHitCoef_eq h w i]
    rfl

end DeltaQTbls

end RemotePlay.Jpeg
