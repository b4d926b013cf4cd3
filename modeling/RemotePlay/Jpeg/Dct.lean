import RemotePlay.Jpeg.Block
import Mathlib.Algebra.BigOperators.Fin
import Mathlib.Algebra.Order.BigOperators.Group.Finset
import Mathlib.Tactic.FinCases

/-! # The fast DCT

`fdct_ifast` runs one butterfly over the rows and then over the columns.  Words as small as those
met here never overflow it (`fdct1_eq`).  The even and odd outputs are linear up to the floors of
the fixed-point products, so each is within a known range (`butterfly_bounds`); `range` is what two
passes make of a sample.  One of them is larger than its share of the real transform: output 7 of a
row can reach 256, in nine ways only (`row7_eq_peak`). -/

namespace RemotePlay.Jpeg

/-- `0.382683433` in 256ths. -/
def FIX_0_382683433 : ℤ := 98
/-- `0.541196100` in 256ths. -/
def FIX_0_541196100 : ℤ := 139
/-- `0.707106781` in 256ths. -/
def FIX_0_707106781 : ℤ := 181
/-- `1.306562965` in 256ths. -/
def FIX_1_306562965 : ℤ := 334

/-- `multiply`. -/
def multiply (v c : ℤ) : Option ℤ := i16 ((v * c) >>> (8 : ℕ))

/-- One turn of either loop of `fdct_ifast`. -/
def fdct1 (x : Fin 8 → ℤ) : Option (Fin 8 → ℤ) := do
  let tmp0 ← i16 (x 0 + x 7)
  let tmp7 ← i16 (x 0 - x 7)
  let tmp1 ← i16 (x 1 + x 6)
  let tmp6 ← i16 (x 1 - x 6)
  let tmp2 ← i16 (x 2 + x 5)
  let tmp5 ← i16 (x 2 - x 5)
  let tmp3 ← i16 (x 3 + x 4)
  let tmp4 ← i16 (x 3 - x 4)
  -- even part
  let tmp10 ← i16 (tmp0 + tmp3)
  let tmp13 ← i16 (tmp0 - tmp3)
  let tmp11 ← i16 (tmp1 + tmp2)
  let tmp12 ← i16 (tmp1 - tmp2)
  let out0 ← i16 (tmp10 + tmp11)
  let out4 ← i16 (tmp10 - tmp11)
  let z1 ← multiply (← i16 (tmp12 + tmp13)) FIX_0_707106781
  let out2 ← i16 (tmp13 + z1)
  let out6 ← i16 (tmp13 - z1)
  -- odd part
  let tmp10 ← i16 (tmp4 + tmp5)
  let tmp11 ← i16 (tmp5 + tmp6)
  let tmp12 ← i16 (tmp6 + tmp7)
  let z5 ← multiply (← i16 (tmp10 - tmp12)) FIX_0_382683433
  let z2 ← i16 ((← multiply tmp10 FIX_0_541196100) + z5)
  let z4 ← i16 ((← multiply tmp12 FIX_1_306562965) + z5)
  let z3 ← multiply tmp11 FIX_0_707106781
  let z11 ← i16 (tmp7 + z3)
  let z13 ← i16 (tmp7 - z3)
  let out5 ← i16 (z13 + z2)
  let out3 ← i16 (z13 - z2)
  let out1 ← i16 (z11 + z4)
  let out7 ← i16 (z11 - z4)
  return ![out0, out1, out2, out3, out4, out5, out6, out7]

/-- `fdct_ifast`: the rows, then the columns. -/
def fdctIfast (inout : JBlock) : Option JBlock := do
  let rows ← allSome fun u => fdct1 (inout.row u)
  let cols ← allSome fun v => fdct1 fun u => rows u v
  return fun i => cols (colOf i) (rowOf i)

/-! ### One pass -/

/-- What one pass computes when nothing overflows. -/
def butterfly (x : Fin 8 → ℤ) : Fin 8 → ℤ :=
  let z1 := (x 1 + x 6 - (x 2 + x 5) + (x 0 + x 7 - (x 3 + x 4))) * 181 / 256
  let z5 := (x 3 - x 4 + (x 2 - x 5) - (x 1 - x 6 + (x 0 - x 7))) * 98 / 256
  let z2 := (x 3 - x 4 + (x 2 - x 5)) * 139 / 256 + z5
  let z4 := (x 1 - x 6 + (x 0 - x 7)) * 334 / 256 + z5
  let z3 := (x 2 - x 5 + (x 1 - x 6)) * 181 / 256
  ![x 0 + x 7 + (x 3 + x 4) + (x 1 + x 6 + (x 2 + x 5)),
    x 0 - x 7 + z3 + z4,
    x 0 + x 7 - (x 3 + x 4) + z1,
    x 0 - x 7 - z3 - z2,
    x 0 + x 7 + (x 3 + x 4) - (x 1 + x 6 + (x 2 + x 5)),
    x 0 - x 7 - z3 + z2,
    x 0 + x 7 - (x 3 + x 4) - z1,
    x 0 - x 7 + z3 - z4]

theorem multiply_eq {v c : ℤ} (h : -32768 ≤ v * c / 256 ∧ v * c / 256 ≤ 32767) :
    multiply v c = some (v * c / 256) := by
  have hs : (v * c) >>> (8 : ℕ) = v * c / 256 := by rw [Int.shiftRight_eq_div_pow]; rfl
  rw [multiply, hs, i16_eq h]

theorem multiply_bind {α : Type} {v c : ℤ} (h : -32768 ≤ v * c / 256 ∧ v * c / 256 ≤ 32767)
    (f : ℤ → Option α) : (multiply v c).bind f = f (v * c / 256) := by
  rw [multiply_eq h, Option.bind_some]

/-- **A pass over words of at most 12 bits does not overflow.** -/
theorem fdct1_eq {x : Fin 8 → ℤ} (h : ∀ k, -2048 ≤ x k ∧ x k ≤ 2048) :
    fdct1 x = some (butterfly x) := by
  have h0 := h 0
  have h1 := h 1
  have h2 := h 2
  have h3 := h 3
  have h4 := h 4
  have h5 := h 5
  have h6 := h 6
  have h7 := h 7
  delta fdct1 FIX_0_382683433 FIX_0_541196100 FIX_0_707106781 FIX_1_306562965
  repeat
    first
    | refine (i16_bind (by omega) _).trans ?_
    | refine (multiply_bind (by omega) _).trans ?_
  rfl

/-! ### How large the outputs get -/

/-- The sum of an output's weights, in 256ths. -/
def gain : Fin 8 → ℤ := ![2048, 2572, 2472, 2184, 2048, 1460, 1024, 512]

/-- How many of the floors in an output can lower it. -/
def floorsDown : Fin 8 → ℤ := ![0, 3, 1, 0, 0, 2, 0, 1]
/-- How many of them can raise it. -/
def floorsUp : Fin 8 → ℤ := ![0, 0, 0, 3, 0, 1, 1, 2]

/-- The range of an output for inputs in a range. -/
def range (u : Fin 8) (r : ℤ × ℤ) : ℤ × ℤ :=
  if u = 0 then (8 * r.1, 8 * r.2)
  else (-((gain u * (r.2 - r.1) + 510 * floorsDown u) / 512),
    (gain u * (r.2 - r.1) + 510 * floorsUp u) / 512)

/-- A word in a range. -/
def Within (r : ℤ × ℤ) (x : ℤ) : Prop := r.1 ≤ x ∧ x ≤ r.2

instance (r : ℤ × ℤ) (x : ℤ) : Decidable (Within r x) := inferInstanceAs (Decidable (_ ∧ _))

theorem floor_256 (n : ℤ) : 256 * (n / 256) ≤ n ∧ n ≤ 256 * (n / 256) + 255 := by
  omega

/-- Without the floors an output other than the first is a sum of differences of inputs. -/
theorem butterfly_scaled {x : Fin 8 → ℤ} {lo hi : ℤ} (h : ∀ k, lo ≤ x k ∧ x k ≤ hi) {u : Fin 8}
    (hu : u ≠ 0) : -(gain u * (hi - lo) + 510 * floorsDown u) ≤ 512 * butterfly x u ∧
      512 * butterfly x u ≤ gain u * (hi - lo) + 510 * floorsUp u := by
  obtain ⟨h0, h0'⟩ := h 0
  obtain ⟨h1, h1'⟩ := h 1
  obtain ⟨h2, h2'⟩ := h 2
  obtain ⟨h3, h3'⟩ := h 3
  obtain ⟨h4, h4'⟩ := h 4
  obtain ⟨h5, h5'⟩ := h 5
  obtain ⟨h6, h6'⟩ := h 6
  obtain ⟨h7, h7'⟩ := h 7
  obtain ⟨f1, f1'⟩ := floor_256 ((x 1 + x 6 - (x 2 + x 5) + (x 0 + x 7 - (x 3 + x 4))) * 181)
  obtain ⟨f5, f5'⟩ := floor_256 ((x 3 - x 4 + (x 2 - x 5) - (x 1 - x 6 + (x 0 - x 7))) * 98)
  obtain ⟨f2, f2'⟩ := floor_256 ((x 3 - x 4 + (x 2 - x 5)) * 139)
  obtain ⟨f4, f4'⟩ := floor_256 ((x 1 - x 6 + (x 0 - x 7)) * 334)
  obtain ⟨f3, f3'⟩ := floor_256 ((x 2 - x 5 + (x 1 - x 6)) * 181)
  fin_cases u
  · exact absurd rfl hu
  all_goals
    simp only [butterfly, gain, floorsDown, floorsUp, Fin.reduceFinMk, Matrix.cons_val]
    constructor <;> linarith

/-- **The outputs of a pass.** -/
theorem butterfly_within {x : Fin 8 → ℤ} {r : ℤ × ℤ} (h : ∀ k, Within r (x k)) (u : Fin 8) :
    Within (range u r) (butterfly x u) := by
  by_cases hu : u = 0
  · subst hu
    have h0 := h 0
    have h1 := h 1
    have h2 := h 2
    have h3 := h 3
    have h4 := h 4
    have h5 := h 5
    have h6 := h 6
    have h7 := h 7
    simp only [Within, range, if_pos, butterfly, Matrix.cons_val_zero] at *
    omega
  · obtain ⟨hlo, hhi⟩ := butterfly_scaled h hu
    simp only [Within, range, if_neg hu]
    generalize gain u * (r.2 - r.1) = g at hlo hhi ⊢
    omega

/-! ### Both passes -/

/-- What both passes compute when nothing overflows. -/
def dct (b : JBlock) : JBlock := fun i =>
  butterfly (fun u => butterfly (b.row u) (colOf i)) (rowOf i)

/-- The range of a coefficient of a block of samples. -/
def dctRange (i : Fin 64) : ℤ × ℤ := range (rowOf i) (range (colOf i) (-128, 127))

/-- **The transform of a block of samples does not overflow.** -/
theorem fdctIfast_eq {b : JBlock} (h : ∀ i, Within (-128, 127) (b i)) :
    fdctIfast b = some (dct b) := by
  have hrow : ∀ u v, Within (range v (-128, 127)) (butterfly (b.row u) v) :=
    fun u v => butterfly_within (fun k => h (at_ u k)) v
  have hsmall : ∀ v, -2048 ≤ (range v (-128, 127)).1 ∧ (range v (-128, 127)).2 ≤ 2048 := by
    decide
  have h1 : (allSome fun u => fdct1 (b.row u)) = some fun u => butterfly (b.row u) := by
    refine allSome_eq_some.mpr fun u => fdct1_eq fun k => ?_
    have := h (at_ u k)
    simp only [Within, JBlock.row] at this ⊢
    omega
  have h2 : (allSome fun v => fdct1 fun u => butterfly (b.row u) v) =
      some fun v => butterfly fun u => butterfly (b.row u) v := by
    exact allSome_eq_some.mpr fun v => fdct1_eq fun u =>
      ⟨(hsmall v).1.trans (hrow u v).1, (hrow u v).2.trans (hsmall v).2⟩
  simp only [fdctIfast, h1, h2, Option.bind_eq_bind, Option.bind_some]
  rfl

theorem dct_within {b : JBlock} (h : ∀ i, Within (-128, 127) (b i)) (i : Fin 64) :
    Within (dctRange i) (dct b i) :=
  butterfly_within (fun u => butterfly_within (fun k => h (at_ u k)) (colOf i)) (rowOf i)

theorem butterfly_zero (x : Fin 8 → ℤ) : butterfly x 0 = ∑ u, x u := by
  simp only [butterfly, Matrix.cons_val_zero, Fin.sum_univ_eight]
  omega

theorem dct_seven (b : JBlock) : dct b 7 = ∑ u, butterfly (b.row u) 7 :=
  butterfly_zero fun u => butterfly (b.row u) 7

/-! ### Output 7 of a row -/

/-- The differences output 7 is made of, from the middle of the row outwards. -/
structure Diffs where
  d4 : ℤ
  d5 : ℤ
  d6 : ℤ
  d7 : ℤ

/-- The differences of a row. -/
def diffs (x : Fin 8 → ℤ) : Diffs := ⟨x 3 - x 4, x 2 - x 5, x 1 - x 6, x 0 - x 7⟩

/-- Output 7. -/
def row7 (d : Diffs) : ℤ :=
  d.d7 + (d.d5 + d.d6) * 181 / 256 -
    ((d.d6 + d.d7) * 334 / 256 + (d.d4 + d.d5 - (d.d6 + d.d7)) * 98 / 256)

theorem butterfly_seven (x : Fin 8 → ℤ) : butterfly x 7 = row7 (diffs x) := by
  simp only [butterfly, row7, diffs, Matrix.cons_val]

/-- Differences listed in a table, as the first three and what the last can be. -/
def Diffs.listed (d : Diffs) (tbl : List (ℤ × ℤ × ℤ × List ℤ)) : Bool :=
  tbl.any fun p => p.1 == d.d4 && p.2.1 == d.d5 && p.2.2.1 == d.d6 && p.2.2.2.contains d.d7

/-- The differences for which output 7 is 256. -/
def peaks : List (ℤ × ℤ × ℤ × List ℤ) :=
  [(-255, 255, -255, [245, 248, 250, 251, 253, 254]), (-255, 255, -252, [255]),
    (-254, 255, -255, [251, 254])]

/-- Those for which it is 255. -/
def nearPeaks : List (ℤ × ℤ × ℤ × List ℤ) :=
  [(-255, 251, -255, [254]), (-255, 252, -252, [255]), (-255, 253, -255, [248, 251, 254]),
    (-255, 253, -254, [247, 250, 253, 255]), (-255, 253, -253, [246, 249, 252, 254, 255]),
    (-255, 254, -255, [241, 244, 245, 247, 248, 249, 250, 251, 252, 253, 254, 255]),
    (-255, 254, -254, [240, 243, 244, 246, 247, 248, 249, 250, 251, 252, 253, 254, 255]),
    (-255, 254, -253, [255]), (-255, 254, -252, [254, 255]), (-255, 254, -251, [253, 254]),
    (-255, 255, -255, [232, 235, 237, 238, 240, 241, 242, 243, 244, 246, 247, 249, 252, 255]),
    (-255, 255, -254, [244, 247, 249, 250, 252, 253, 255]),
    (-255, 255, -253, [243, 246, 248, 249, 251, 252, 254, 255]),
    (-255, 255, -252, [242, 245, 247, 248, 250, 251, 253, 254]), (-255, 255, -251, [254]),
    (-255, 255, -250, [253]), (-255, 255, -249, [252, 255]), (-254, 253, -253, [255]),
    (-254, 254, -255, [245, 248, 250, 251, 253, 254]),
    (-254, 254, -254, [244, 247, 249, 250, 252, 253, 255]), (-254, 254, -252, [255]),
    (-254, 254, -251, [254]),
    (-254, 255, -255, [238, 241, 243, 244, 245, 246, 247, 248, 249, 250, 252, 253, 255]),
    (-254, 255, -254, [250, 253]), (-254, 255, -253, [249, 252, 255]),
    (-254, 255, -252, [248, 251, 254, 255]), (-253, 254, -255, [251, 254]),
    (-253, 254, -254, [250, 253]),
    (-253, 255, -255, [244, 245, 247, 248, 250, 251, 252, 253, 254, 255]),
    (-253, 255, -252, [255]), (-252, 255, -255, [245, 248, 251, 253, 254]),
    (-251, 255, -255, [254])]

theorem listed_iff {d : Diffs} {tbl : List (ℤ × ℤ × ℤ × List ℤ)} : d.listed tbl = true ↔
    ∃ p ∈ tbl, p.1 = d.d4 ∧ p.2.1 = d.d5 ∧ p.2.2.1 = d.d6 ∧ d.d7 ∈ p.2.2.2 := by
  simp [Diffs.listed, and_assoc]

/-- How far the differences are from those output 7 would be largest for, weighted. -/
def Diffs.deficit (d : Diffs) : ℤ :=
  98 * (255 + d.d4) + 83 * (255 - d.d5) + 55 * (255 + d.d6) + 20 * (255 - d.d7)

theorem row7_deficit (d : Diffs) : 256 * row7 d ≤ 65280 + 510 - d.deficit := by
  simp only [row7, Diffs.deficit]
  omega

/-- Differences of two samples. -/
def Diffs.Small (d : Diffs) : Prop :=
  -255 ≤ d.d4 ∧ d.d5 ≤ 255 ∧ -255 ≤ d.d6 ∧ d.d7 ≤ 255

theorem listed_near : ∀ a : Fin 6, ∀ b : Fin 7, 98 * a.val + 83 * b.val ≤ 510 →
    ∀ c : Fin 10, 98 * a.val + 83 * b.val + 55 * c.val ≤ 510 →
    ∀ e : Fin 26, 98 * a.val + 83 * b.val + 55 * c.val + 20 * e.val ≤ 510 →
      (row7 ⟨a - 255, 255 - b, c - 255, 255 - e⟩ = 256 →
        Diffs.listed ⟨a - 255, 255 - b, c - 255, 255 - e⟩ peaks = true) ∧
      (row7 ⟨a - 255, 255 - b, c - 255, 255 - e⟩ = 255 →
        Diffs.listed ⟨a - 255, 255 - b, c - 255, 255 - e⟩ nearPeaks = true) := by
  decide +kernel

theorem listed_of_row7 {d : Diffs} (hd : d.Small) (h : 255 ≤ row7 d) :
    (row7 d = 256 → d.listed peaks = true) ∧ (row7 d = 255 → d.listed nearPeaks = true) := by
  have hdef := row7_deficit d
  obtain ⟨d4, d5, d6, d7⟩ := d
  simp only [Diffs.Small, Diffs.deficit] at hd h hdef
  have hnear := listed_near ⟨(255 + d4).toNat, by omega⟩ ⟨(255 - d5).toNat, by omega⟩
    (by simp only; omega) ⟨(255 + d6).toNat, by omega⟩ (by simp only; omega)
    ⟨(255 - d7).toNat, by omega⟩ (by simp only; omega)
  have h4 : ((255 + d4).toNat : ℤ) - 255 = d4 := by omega
  have h5 : 255 - ((255 - d5).toNat : ℤ) = d5 := by omega
  have h6 : ((255 + d6).toNat : ℤ) - 255 = d6 := by omega
  have h7 : 255 - ((255 - d7).toNat : ℤ) = d7 := by omega
  simpa only [h4, h5, h6, h7] using hnear

theorem row7_of_listed {d : Diffs} {tbl : List (ℤ × ℤ × ℤ × List ℤ)} {n : ℤ}
    (htbl : ∀ p ∈ tbl, ∀ e ∈ p.2.2.2, row7 ⟨p.1, p.2.1, p.2.2.1, e⟩ = n)
    (h : d.listed tbl = true) : row7 d = n := by
  obtain ⟨p, hp, h4, h5, h6, h7⟩ := listed_iff.mp h
  have := htbl p hp _ h7
  rwa [h4, h5, h6] at this

/-- **Output 7 of a row is 256 for the differences of the first table only**, -/
theorem row7_eq_peak {d : Diffs} (hd : d.Small) : row7 d = 256 ↔ d.listed peaks = true :=
  ⟨fun h => (listed_of_row7 hd (by omega)).1 h, row7_of_listed (by decide)⟩

theorem row7_eq_nearPeak {d : Diffs} (hd : d.Small) :
    row7 d = 255 ↔ d.listed nearPeaks = true :=
  ⟨fun h => (listed_of_row7 hd (by omega)).2 h, row7_of_listed (by decide)⟩

/-! ### Blocks whose coefficient 7 is extreme -/

/-- Rows whose differences are all in the first table, but for at most one in the second. -/
def PeakBlock (d : Fin 8 → Diffs) : Prop :=
  (∀ u, (d u).listed peaks = true ∨ (d u).listed nearPeaks = true) ∧
    ∀ u u', (d u).listed peaks = false → (d u').listed peaks = false → u = u'

instance (d : Fin 8 → Diffs) : Decidable (PeakBlock d) := inferInstanceAs (Decidable (_ ∧ _))

/-- Eight terms of at most 256 come within one of the most they can only if all but one are 256. -/
theorem sum_ge_2047 {f : Fin 8 → ℤ} (hf : ∀ u, f u ≤ 256) : 2047 ≤ ∑ u, f u ↔
    (∀ u, f u = 256 ∨ f u = 255) ∧ ∀ u u', f u ≠ 256 → f u' ≠ 256 → u = u' := by
  have hgap : ∑ u, (256 - f u) = 2048 - ∑ u, f u := by
    rw [Finset.sum_sub_distrib]; rfl
  constructor
  · intro h
    have hone : ∀ u, 256 - f u ≤ ∑ u, (256 - f u) := fun u =>
      Finset.single_le_sum (fun u _ => sub_nonneg.mpr (hf u)) (Finset.mem_univ u)
    refine ⟨fun u => ?_, fun u u' hu hu' => ?_⟩
    · have := hone u
      have := hf u
      omega
    · by_contra hne
      have htwo : (256 - f u) + (256 - f u') ≤ ∑ u, (256 - f u) := by
        rw [← Finset.sum_pair (f := fun u => 256 - f u) hne]
        exact Finset.sum_le_sum_of_subset_of_nonneg (Finset.subset_univ _)
          fun u _ _ => sub_nonneg.mpr (hf u)
      have := hf u
      have := hf u'
      omega
  · rintro ⟨hnear, hone⟩
    have hle : ∑ u, (256 - f u) ≤ 1 := by
      by_cases hall : ∀ u, f u = 256
      · rw [Finset.sum_eq_zero fun u _ => by rw [hall u, sub_self]]
        decide
      obtain ⟨u, hu⟩ := not_forall.mp hall
      rw [Finset.sum_eq_single u]
      · rcases hnear u with h | h <;> omega
      · intro u' _ hne
        by_contra hu'
        exact hne (hone u' u (fun h => hu' (by rw [h, sub_self])) hu)
      · exact fun h => absurd (Finset.mem_univ u) h
    omega

theorem diffs_small {x : Fin 8 → ℤ} (h : ∀ k, Within (-128, 127) (x k)) : (diffs x).Small := by
  have h0 := h 0
  have h1 := h 1
  have h2 := h 2
  have h3 := h 3
  have h4 := h 4
  have h5 := h 5
  have h6 := h 6
  have h7 := h 7
  simp only [Within, Diffs.Small, diffs] at *
  omega

/-- **When coefficient 7 is as large as 2047.** -/
theorem dct_seven_ge {b : JBlock} (h : ∀ i, Within (-128, 127) (b i)) :
    2047 ≤ dct b 7 ↔ PeakBlock fun u => diffs (b.row u) := by
  have hle : ∀ u, butterfly (b.row u) 7 ≤ 256 := fun u =>
    (butterfly_within (fun k => h (at_ u k)) 7).2
  have hpeak : ∀ u, butterfly (b.row u) 7 = 256 ↔ (diffs (b.row u)).listed peaks = true :=
    fun u => by rw [butterfly_seven]; exact row7_eq_peak (diffs_small fun k => h (at_ u k))
  have hnear : ∀ u, butterfly (b.row u) 7 = 255 ↔ (diffs (b.row u)).listed nearPeaks = true :=
    fun u => by rw [butterfly_seven]; exact row7_eq_nearPeak (diffs_small fun k => h (at_ u k))
  rw [dct_seven, sum_ge_2047 hle]
  simp only [hpeak, hnear, ne_eq, Bool.not_eq_true, PeakBlock]

end RemotePlay.Jpeg
