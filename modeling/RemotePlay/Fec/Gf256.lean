import RemotePlay.Lib.BitPoly
import RemotePlay.Lib.ByteMemory
import Mathlib.RingTheory.AdjoinRoot
import Mathlib.Algebra.CharP.Algebra
import Mathlib.Algebra.Field.ZMod
import Mathlib.Tactic.ComputeDegree

/-! # The tables of `gf256.cpp`

`gf256_init_` fills the tables of exponents and logarithms from the polynomial, and from these the
multiplication and division tables.  They compute in GF(2)[X] / (X⁸ + X⁶ + X³ + X² + 1), where the
bits of a byte are the coefficients (`tables_field`): 2, which denotes `X`, runs through all bytes
but zero (`exists_exp`), so that each of them has a logarithm. -/

namespace RemotePlay.Fec

open RemotePlay.Lib.BitPoly
open RemotePlay.Lib.ByteMemory (getD_set)

/-! ### Initialization -/

/-- `GF256_GEN_POLY`. -/
def GF256_GEN_POLY : List ℕ :=
  [0x8e, 0x95, 0x96, 0xa6, 0xaf, 0xb1, 0xb2, 0xb4, 0xb8, 0xc3, 0xc6, 0xd4, 0xe1, 0xe7, 0xf3, 0xfa]

/-- The index of the polynomial in use. -/
def kDefaultPolynomialIndex : ℕ := 3

/-- `gf256_poly_init` with the default index. -/
def polynomial : ℕ := GF256_GEN_POLY.getD kDefaultPolynomialIndex 0 <<< 1 ||| 1

/-- `GF256_EXP_TABLE` and `GF256_LOG_TABLE`. -/
structure ExpLog where
  exptab : List (BitVec 8)
  logtab : List ℕ

/-- `next` of `gf256_explog_init`. -/
def nextExp (poly : ℕ) (e : BitVec 8) : BitVec 8 :=
  BitVec.ofNat 8 (if 256 ≤ e.toNat * 2 then (e.toNat * 2) ^^^ poly else e.toNat * 2)

/-- `gf256_explog_init`, up to the first loop. -/
def expLogStart : ExpLog where
  exptab := (List.replicate (512 * 2 + 1) 0).set 0 1
  logtab := (List.replicate 256 0).set 0 512

/-- The first loop of `gf256_explog_init`, at `jj`. -/
def expLogStep (poly : ℕ) (tabs : ExpLog) (jj : ℕ) : ExpLog :=
  let next := nextExp poly (tabs.exptab.getD (jj - 1) 0)
  { exptab := tabs.exptab.set jj next
    logtab := tabs.logtab.set next.toNat jj }

/-- `gf256_explog_init`. -/
def gf256_explog_init (poly : ℕ) : ExpLog :=
  let tabs := (List.range' 1 254).foldl (expLogStep poly) expLogStart
  let exptab := tabs.exptab.set 255 (tabs.exptab.getD 0 0)
  let logtab := tabs.logtab.set (exptab.getD 255 0).toNat 255
  let exptab := (List.range' 256 254).foldl
    (fun exptab jj => exptab.set jj (exptab.getD (jj % 255) 0)) exptab
  let exptab := exptab.set 510 1
  let exptab := (List.range' 511 509).foldl (fun exptab jj => exptab.set jj 0) exptab
  { exptab := exptab, logtab := logtab }

/-- The tables of the context. -/
def tables : ExpLog := gf256_explog_init polynomial

/-- Reading `GF256_EXP_TABLE`. -/
def expAt (i : ℕ) : BitVec 8 := tables.exptab.getD i 0

/-- Reading `GF256_LOG_TABLE`. -/
def logAt (x : BitVec 8) : ℕ := tables.logtab.getD x.toNat 0

/-- `GF256_MUL_TABLE`, as `gf256_muldiv_init` fills row `y`. -/
def gf256_mul (x y : BitVec 8) : BitVec 8 :=
  if y = 0 then 0
  else if x = 0 then 0
  else expAt (logAt x + logAt y % 256)

/-- `GF256_DIV_TABLE`. -/
def gf256_div (x y : BitVec 8) : BitVec 8 :=
  if y = 0 then 0
  else if x = 0 then 0
  else expAt (logAt x + (255 - logAt y % 256))

/-- `GF256_INV_TABLE`. -/
def gf256_inv (x : BitVec 8) : BitVec 8 := gf256_div 1 x

/-- `GF256_SQR_TABLE`. -/
def gf256_sqr (x : BitVec 8) : BitVec 8 := gf256_mul x x

/-- `gf256_add`. -/
def gf256_add (x y : BitVec 8) : BitVec 8 := x ^^^ y

/-! ### The orbit of 2 -/

/-- What the exponents are the iterates of. -/
def double (e : BitVec 8) : BitVec 8 := nextExp polynomial e

/-- The exponents. -/
def exp (i : ℕ) : BitVec 8 := double^[i] 1

theorem exp_succ (i : ℕ) : exp (i + 1) = double (exp i) := Function.iterate_succ_apply' double i 1

theorem exp_255 : exp 255 = 1 := by decide +kernel

theorem minimalPeriod_double : Function.minimalPeriod double 1 = 255 := by
  refine minimalPeriod_eq exp_255 fun p hprime hdvd => ?_
  have hcases : p = 3 ∨ p = 5 ∨ p = 17 := by
    have hmem : p ∈ Nat.primeFactorsList 255 :=
      (Nat.mem_primeFactorsList (by decide)).mpr ⟨hprime, hdvd⟩
    have hlist : Nat.primeFactorsList 255 = [3, 5, 17] := by decide +kernel
    rw [hlist] at hmem
    simpa using hmem
  rcases hcases with rfl | rfl | rfl
  · decide +kernel
  · decide +kernel
  · decide +kernel

theorem exp_inj {i j : ℕ} (hi : i < 255) (hj : j < 255) (h : exp i = exp j) : i = j :=
  (Function.iterate_eq_iterate_iff_of_lt_minimalPeriod (by rw [minimalPeriod_double]; exact hi)
    (by rw [minimalPeriod_double]; exact hj)).mp h

theorem exp_mod (i : ℕ) : exp (i % 255) = exp i := by
  have h := Function.iterate_mod_minimalPeriod_eq (f := double) (x := 1) (n := i)
  rwa [minimalPeriod_double] at h

theorem double_zero : double 0 = 0 := by decide +kernel

theorem exp_ne_zero (i : ℕ) : exp i ≠ 0 := by
  intro h
  -- zero stays zero, and the orbit returns to one
  have hzero : ∀ k, exp (i + k) = 0 := by
    intro k
    induction k with
    | zero => exact h
    | succ k ih => rw [← Nat.add_assoc, exp_succ, ih, double_zero]
  have hone : exp (i + (255 - i % 255)) = 1 := by
    rw [← exp_mod, ← exp_255, ← exp_mod 255]
    congr 1
    omega
  rw [hzero] at hone
  exact absurd hone (by decide)

/-- **Every byte but zero is an exponent.** -/
theorem exists_exp {y : BitVec 8} (hy : y ≠ 0) : ∃ i < 255, exp i = y := by
  let _ : Fintype (BitVec 8) :=
    Fintype.ofEquiv (Fin (2 ^ 8)) ⟨BitVec.ofFin, BitVec.toFin, fun _ => rfl, fun _ => rfl⟩
  have hcard : Fintype.card (BitVec 8) = Function.minimalPeriod double 1 + 1 := by
    rw [minimalPeriod_double, Fintype.ofEquiv_card, Fintype.card_fin]
  obtain ⟨i, hi, heq⟩ := exists_iterate_eq hcard exp_ne_zero hy
  rw [minimalPeriod_double] at hi
  exact ⟨i, hi, heq⟩

/-! ### What the tables hold -/

/-- The tables after `n` rounds of the first loop. -/
structure ExpLog.Filled (n : ℕ) (tabs : ExpLog) : Prop where
  length_exptab : tabs.exptab.length = 1025
  length_logtab : tabs.logtab.length = 256
  exptab : ∀ j ≤ n, tabs.exptab.getD j 0 = exp j
  logtab : ∀ j, 0 < j → j ≤ n → tabs.logtab.getD (exp j).toNat 0 = j

theorem filled_start : expLogStart.Filled 0 where
  length_exptab := by rw [expLogStart, List.length_set, List.length_replicate]
  length_logtab := by rw [expLogStart, List.length_set, List.length_replicate]
  exptab j hj := by
    obtain rfl := Nat.le_zero.mp hj
    rfl
  logtab j hj hj' := by omega

theorem ExpLog.Filled.step {n : ℕ} {tabs : ExpLog} (h : tabs.Filled n) (hn : n < 254) :
    (expLogStep polynomial tabs (n + 1)).Filled (n + 1) := by
  have hnext : nextExp polynomial (tabs.exptab.getD (n + 1 - 1) 0) = exp (n + 1) := by
    rw [Nat.add_sub_cancel, h.exptab n le_rfl, exp_succ]
    rfl
  have hlen := h.length_exptab
  have hlen' := h.length_logtab
  have hlt : (exp (n + 1)).toNat < 256 := (exp (n + 1)).isLt
  unfold expLogStep
  dsimp only
  rw [hnext]
  constructor
  · rw [List.length_set, hlen]
  · rw [List.length_set, hlen']
  · intro j hj
    dsimp only
    rw [getD_set _ (by omega)]
    split_ifs with heq
    · rw [heq]
    · exact h.exptab j (by omega)
  · intro j hj hj'
    dsimp only
    rw [getD_set _ (by omega)]
    split_ifs with heq
    · exact (exp_inj (by omega) (by omega) (BitVec.eq_of_toNat_eq heq)).symm
    · have hne : j ≠ n + 1 := fun h => heq (by rw [h])
      exact h.logtab j hj (by omega)

theorem filled_run {n : ℕ} (hn : n ≤ 254) :
    ((List.range' 1 n).foldl (expLogStep polynomial) expLogStart).Filled n := by
  induction n with
  | zero => exact filled_start
  | succ n ih =>
    rw [List.range'_concat, List.foldl_append, List.foldl_cons, List.foldl_nil,
      show 1 + 1 * n = n + 1 by omega]
    exact (ih (by omega)).step (by omega)

theorem ExpLog.Filled.close {tabs : ExpLog} (h : tabs.Filled 254) {j : ℕ} (hj : j < 256) :
    (tabs.exptab.set 255 (tabs.exptab.getD 0 0)).getD j 0 = exp j := by
  have hlen := h.length_exptab
  rw [getD_set _ (by omega), h.exptab 0 (by omega)]
  split_ifs with heq
  · rw [heq, exp_255]
    rfl
  · exact h.exptab j (by omega)

theorem logAt_exp {i : ℕ} (hi : 0 < i) (hi' : i ≤ 255) : logAt (exp i) = i := by
  have h := filled_run le_rfl
  have hlen := h.length_logtab
  unfold logAt tables gf256_explog_init
  dsimp only
  rw [h.close (by decide), getD_set _ (by rw [hlen]; exact (exp 255).isLt)]
  split_ifs with heq
  · have hmod : exp (i % 255) = exp (255 % 255) := by
      rw [exp_mod, exp_mod, BitVec.eq_of_toNat_eq heq]
    have := exp_inj (Nat.mod_lt _ (by decide)) (Nat.mod_lt _ (by decide)) hmod
    omega
  · have hne : i ≠ 255 := fun h => heq (by rw [h])
    exact h.logtab i hi (by omega)

theorem repeat_run {exptab : List (BitVec 8)} (hlen : exptab.length = 1025)
    (h : ∀ j < 256, exptab.getD j 0 = exp j) {n : ℕ} (hn : n ≤ 254) :
    ((List.range' 256 n).foldl (fun exptab jj => exptab.set jj (exptab.getD (jj % 255) 0))
        exptab).length = 1025 ∧
      ∀ j < 256 + n, ((List.range' 256 n).foldl
        (fun exptab jj => exptab.set jj (exptab.getD (jj % 255) 0)) exptab).getD j 0 = exp j := by
  induction n with
  | zero => exact ⟨hlen, h⟩
  | succ n ih =>
    obtain ⟨hlen, ih⟩ := ih (by omega)
    rw [List.range'_concat, List.foldl_append, List.foldl_cons, List.foldl_nil]
    refine ⟨by rw [List.length_set, hlen], fun j hj => ?_⟩
    rw [getD_set _ (by omega)]
    split_ifs with heq
    · rw [heq, ih _ (by omega), exp_mod]
    · exact ih j (by omega)

theorem clear_run {exptab : List (BitVec 8)} (hlen : exptab.length = 1025) {n : ℕ} (hn : n ≤ 509)
    {j : ℕ} (hj : j < 511) :
    ((List.range' 511 n).foldl (fun exptab jj => exptab.set jj 0) exptab).length = 1025 ∧
      ((List.range' 511 n).foldl (fun exptab jj => exptab.set jj 0) exptab).getD j 0 =
        exptab.getD j 0 := by
  induction n with
  | zero => exact ⟨hlen, rfl⟩
  | succ n ih =>
    obtain ⟨hlen, ih⟩ := ih (by omega)
    rw [List.range'_concat, List.foldl_append, List.foldl_cons, List.foldl_nil]
    refine ⟨by rw [List.length_set, hlen], ?_⟩
    rw [getD_set _ (by omega), if_neg (by omega), ih]

theorem expAt_eq {i : ℕ} (hi : i ≤ 510) : expAt i = exp i := by
  have h := filled_run le_rfl
  have hlen := h.length_exptab
  obtain ⟨hlen', hrepeat⟩ :=
    repeat_run (by rw [List.length_set, hlen]) (fun j hj => h.close hj) le_rfl
  unfold expAt tables gf256_explog_init
  dsimp only
  rw [(clear_run (by rw [List.length_set, hlen']) le_rfl (by omega)).2, getD_set _ (by omega)]
  split_ifs with heq
  · rw [heq, ← exp_mod]
    rfl
  · exact hrepeat i (by omega)

/-- A byte other than zero has a logarithm. -/
theorem exists_log {y : BitVec 8} (hy : y ≠ 0) :
    ∃ i, 0 < i ∧ i ≤ 255 ∧ exp i = y ∧ logAt y = i := by
  obtain ⟨i, hi, rfl⟩ := exists_exp hy
  rcases Nat.eq_zero_or_pos i with rfl | hpos
  · refine ⟨255, by decide, le_rfl, exp_255, ?_⟩
    have h := logAt_exp (i := 255) (by decide) le_rfl
    rwa [exp_255] at h
  · exact ⟨i, hpos, by omega, rfl, logAt_exp hpos (by omega)⟩

theorem gf256_mul_exp {i j : ℕ} : gf256_mul (exp i) (exp j) = exp (i + j) := by
  obtain ⟨a, ha, ha', hea, hla⟩ := exists_log (exp_ne_zero i)
  obtain ⟨b, hb, hb', heb, hlb⟩ := exists_log (exp_ne_zero j)
  have hmod : ∀ {k l : ℕ}, exp k = exp l → k % 255 = l % 255 := fun h =>
    exp_inj (Nat.mod_lt _ (by decide)) (Nat.mod_lt _ (by decide)) (by rw [exp_mod, exp_mod, h])
  have hai := hmod hea
  have hbj := hmod heb
  unfold gf256_mul
  rw [if_neg (exp_ne_zero j), if_neg (exp_ne_zero i), hla, hlb, Nat.mod_eq_of_lt (by omega),
    expAt_eq (by omega), ← exp_mod, ← exp_mod (i + j), Nat.add_mod, hai, hbj, ← Nat.add_mod]

theorem gf256_div_exp {i j : ℕ} : gf256_mul (gf256_div (exp i) (exp j)) (exp j) = exp i := by
  obtain ⟨a, ha, ha', hea, hla⟩ := exists_log (exp_ne_zero i)
  obtain ⟨b, hb, hb', heb, hlb⟩ := exists_log (exp_ne_zero j)
  have hdiv : gf256_div (exp i) (exp j) = exp (a + (255 - b)) := by
    unfold gf256_div
    rw [if_neg (exp_ne_zero j), if_neg (exp_ne_zero i), hla, hlb, Nat.mod_eq_of_lt (by omega),
      expAt_eq (by omega)]
  have hsum : a + (255 - b) + b = a + 255 := by omega
  rw [hdiv, ← heb, gf256_mul_exp, ← hea, ← exp_mod, hsum, Nat.add_mod_right, exp_mod]

/-! ### The field -/

section Field

open Polynomial

/-- X⁸ + X⁶ + X³ + X² + 1. -/
noncomputable def modulus : (ZMod 2)[X] := X ^ 8 + X ^ 6 + X ^ 3 + X ^ 2 + 1

/-- GF(2)[X] / (X⁸ + X⁶ + X³ + X² + 1). -/
abbrev GF256 : Type := AdjoinRoot modulus

/-- What a byte denotes: its bits are coefficients. -/
noncomputable def denote (x : BitVec 8) : GF256 := den (AdjoinRoot.root modulus) x

theorem degree_modulus : modulus.degree = 8 := by
  unfold modulus
  compute_degree!

instance : Nontrivial GF256 := AdjoinRoot.nontrivial modulus (by rw [degree_modulus]; decide)

instance : CharP GF256 2 := charP_of_injective_algebraMap (algebraMap (ZMod 2) GF256).injective 2

theorem eval₂_modulus {S : Type*} [CommRing S] (φ : ZMod 2 →+* S) (r : S) :
    modulus.eval₂ φ r = r ^ 8 + r ^ 6 + r ^ 3 + r ^ 2 + 1 := by
  unfold modulus
  simp only [eval₂_add, eval₂_X_pow, eval₂_one]

theorem root_pow_eight : AdjoinRoot.root modulus ^ 8 = denote 0x4d := by
  have hroot := AdjoinRoot.eval₂_root modulus
  have htwo : (2 : GF256) = 0 := CharTwo.two_eq_zero
  have hbits : denote 0x4d = 1 + AdjoinRoot.root modulus ^ 2 + AdjoinRoot.root modulus ^ 3 +
      AdjoinRoot.root modulus ^ 6 := by
    unfold denote den
    simp [Finset.sum_range_succ]
  rw [eval₂_modulus] at hroot
  rw [hbits]
  linear_combination hroot - (1 + AdjoinRoot.root modulus ^ 2 + AdjoinRoot.root modulus ^ 3 +
    AdjoinRoot.root modulus ^ 6) * htwo

theorem denote_zero : denote 0 = 0 := den_zero

theorem denote_one : denote 1 = 1 := den_one

theorem denote_xor (x y : BitVec 8) : denote (x ^^^ y) = denote x + denote y := den_xor x y

theorem double_eq : ∀ e : BitVec 8, double e = e <<< 1 ^^^ if e.getLsbD 7 then 0x4d else 0 := by
  decide +kernel

theorem denote_double (e : BitVec 8) : denote (double e) = AdjoinRoot.root modulus * denote e := by
  have hshift := den_shiftLeft (r := AdjoinRoot.root modulus) e
  rw [double_eq, denote_xor]
  refine Eq.trans ?_ hshift.symm
  congr 1
  split_ifs
  · exact root_pow_eight.symm
  · exact denote_zero

theorem denote_exp (i : ℕ) : denote (exp i) = AdjoinRoot.root modulus ^ i := by
  induction i with
  | zero => exact denote_one
  | succ i ih => rw [exp_succ, denote_double, ih, pow_succ']

theorem denote_ne_zero {y : BitVec 8} (hy : y ≠ 0) : denote y ≠ 0 := by
  obtain ⟨i, hi, rfl⟩ := exists_exp hy
  intro hzero
  have hone : denote (exp 255) = 1 := by rw [exp_255, denote_one]
  rw [denote_exp, show 255 = i + (255 - i) by omega, pow_add, ← denote_exp i, hzero,
    zero_mul] at hone
  exact zero_ne_one hone

theorem denote_injective : Function.Injective denote := by
  intro x y h
  by_contra hne
  have hxor : x ^^^ y ≠ 0 := fun h0 => hne (BitVec.xor_eq_zero_iff.mp h0)
  refine denote_ne_zero hxor ?_
  rw [denote_xor, h, CharTwo.add_self_eq_zero]

/-- **The table is multiplication.** -/
theorem denote_mul (x y : BitVec 8) : denote (gf256_mul x y) = denote x * denote y := by
  rcases eq_or_ne y 0 with rfl | hy
  · rw [denote_zero, mul_zero]
    exact denote_zero
  rcases eq_or_ne x 0 with rfl | hx
  · rw [denote_zero, zero_mul, gf256_mul, if_neg hy, if_pos rfl, denote_zero]
  obtain ⟨i, -, rfl⟩ := exists_exp hx
  obtain ⟨j, -, rfl⟩ := exists_exp hy
  rw [gf256_mul_exp, denote_exp, denote_exp, denote_exp, pow_add]

theorem gf256_mul_one (x : BitVec 8) : gf256_mul x 1 = x := by
  refine denote_injective ?_
  rw [denote_mul, denote_one, mul_one]

theorem gf256_mul_zero (x : BitVec 8) : gf256_mul x 0 = 0 := if_pos rfl

theorem denote_div {x y : BitVec 8} (hy : y ≠ 0) :
    denote (gf256_div x y) * denote y = denote x := by
  rcases eq_or_ne x 0 with rfl | hx
  · rw [gf256_div, if_neg hy, if_pos rfl, denote_zero, zero_mul]
  obtain ⟨i, -, rfl⟩ := exists_exp hx
  obtain ⟨j, -, rfl⟩ := exists_exp hy
  rw [← denote_mul, gf256_div_exp]

theorem denote_mul_cancel {c : BitVec 8} (hc : c ≠ 0) {a b : GF256}
    (h : denote c * a = denote c * b) : a = b := by
  have hinv : denote (gf256_div 1 c) * denote c = 1 := by rw [denote_div hc, denote_one]
  calc a = denote (gf256_div 1 c) * (denote c * a) := by rw [← mul_assoc, hinv, one_mul]
    _ = denote (gf256_div 1 c) * (denote c * b) := by rw [h]
    _ = b := by rw [← mul_assoc, hinv, one_mul]

theorem denote_surjective : Function.Surjective denote := by
  intro a
  have hmem : a ∈ Algebra.adjoin (ZMod 2) ({AdjoinRoot.root modulus} : Set GF256) := by
    rw [AdjoinRoot.adjoinRoot_eq_top]
    exact Algebra.mem_top
  induction hmem using Algebra.adjoin_induction with
  | mem a ha =>
    rw [Set.mem_singleton_iff] at ha
    refine ⟨exp 1, ?_⟩
    rw [denote_exp, pow_one, ha]
  | algebraMap c =>
    fin_cases c
    · exact ⟨0, denote_zero.trans (map_zero _).symm⟩
    · exact ⟨1, denote_one.trans (map_one _).symm⟩
  | add a b _ _ iha ihb =>
    obtain ⟨x, rfl⟩ := iha
    obtain ⟨y, rfl⟩ := ihb
    exact ⟨x ^^^ y, denote_xor x y⟩
  | mul a b _ _ iha ihb =>
    obtain ⟨x, rfl⟩ := iha
    obtain ⟨y, rfl⟩ := ihb
    exact ⟨gf256_mul x y, denote_mul x y⟩

/-- **The bytes are the field of 256 elements**, and the tables its operations. -/
theorem tables_field : Function.Bijective denote ∧ IsField GF256 ∧
    (∀ x y, denote (gf256_add x y) = denote x + denote y) ∧
    (∀ x y, denote (gf256_mul x y) = denote x * denote y) ∧
    (∀ x, denote (gf256_sqr x) = denote x ^ 2) ∧
    (∀ x y, y ≠ 0 → denote (gf256_div x y) * denote y = denote x) ∧
    (∀ x, x ≠ 0 → denote (gf256_inv x) * denote x = 1) := by
  refine ⟨⟨denote_injective, denote_surjective⟩, ?_, denote_xor, denote_mul, fun x => ?_,
    fun x y => denote_div, fun x hx => ?_⟩
  · refine ⟨⟨0, 1, zero_ne_one⟩, mul_comm, fun {a} ha => ?_⟩
    obtain ⟨x, rfl⟩ := denote_surjective a
    have hx : x ≠ 0 := fun h => ha (by rw [h, denote_zero])
    refine ⟨denote (gf256_inv x), ?_⟩
    rw [mul_comm, gf256_inv, denote_div hx, denote_one]
  · rw [gf256_sqr, denote_mul, sq]
  · rw [gf256_inv, denote_div hx, denote_one]

end Field

end RemotePlay.Fec
