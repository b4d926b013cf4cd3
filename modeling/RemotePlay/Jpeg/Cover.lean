import RemotePlay.Jpeg.Level
import RemotePlay.Jpeg.EntropyTables

/-! # Which blocks have codes

The standard AC tables have codes for ten bits.  Every AC coefficient of a block of samples has at
most ten, at every quality, but coefficient 7, which has eleven when its divisor is 2 and nearly
every row of the block is one of the few that round up (`plainOk_iff`).  The differences of delta
mode have at most eleven bits, and its tables have codes for these (`deltaOk`). -/

namespace RemotePlay.Jpeg

/-- Every symbol `encode_one_block` looks up has a code. -/
def HasCodes (dq : Bool) (t : TblNo) (block : JBlock) (last_dc_val : ℤ) : Prop :=
  ∃ dc ac, dcDerivedTbl dq t = some dc ∧ acDerivedTbl dq t = some ac ∧
    0 < dc.ehufsi (dcItem (block 0) last_dc_val).sym ∧
      ∀ item ∈ blockAcItems block, 0 < ac.ehufsi item.sym

theorem hasCodes_iff {dq : Bool} {t : TblNo} {block : JBlock} {last : ℤ} :
    HasCodes dq t block last ↔ (dcItem (block 0) last).sym < (if dq then 13 else 12) ∧
      ∀ item ∈ blockAcItems block, item.sym ∈ acSymbols (if dq then 11 else 10) := by
  obtain ⟨dc, hdc, hdcs⟩ := dcDerivedTbl_spec dq t
  obtain ⟨ac, hac, hacs⟩ := acDerivedTbl_spec dq t
  simp only [HasCodes, hdc, hac, Option.some.injEq, exists_and_left, exists_eq_left', hdcs, hacs]

/-- **Small coefficients have codes.** -/
theorem hasCodes_of_bits {dq : Bool} {t : TblNo} {block : JBlock} {last : ℤ}
    (hdc : (block 0 - last).natAbs < 2 ^ if dq then 12 else 11)
    (hac : ∀ i, i ≠ 0 → (block i).natAbs < 2 ^ if dq then 11 else 10) :
    HasCodes dq t block last := by
  refine hasCodes_iff.mpr ⟨?_, acItems_mem (fun v hv => ?_) ⟨0, rfl⟩⟩
  · have h : (dcItem (block 0) last).sym ≤ if dq then 12 else 11 := nbits_le hdc
    cases dq <;> simp only [if_true, Bool.false_eq_true, if_false] at h ⊢ <;> omega
  · obtain ⟨i, hi, rfl⟩ := mem_acValues.mp hv
    exact hac i hi

/-! ### Plain mode -/

/-- The DC value a block's is sent as the difference from: that of the block before it, 0 at the
start. -/
def plainLast (q : Quality) (t : TblNo) : Option Window → Option ℤ
  | none => some 0
  | some w => (plainDct q t w).map (· 0)

/-- In plain mode nothing overflows and every symbol has a code. -/
def PlainOk (q : Quality) (t : TblNo) (last : Option Window) (w : Window) : Prop :=
  ∃ l block, plainLast q t last = some l ∧ plainDct q t w = some block ∧ HasCodes false t block l

/-- The differences in the rows of a block that coefficient 7 depends on. -/
def sampleDiffs (w : Window) (u : Fin 8) : Diffs := diffs fun v => (w.samples u v : ℤ)

theorem sampleDiffs_eq (w : Window) (u : Fin 8) : diffs (w.doConvsamp.row u) = sampleDiffs w u := by
  simp only [sampleDiffs, diffs, JBlock.row, w.doConvsamp_eq]
  ring_nf

theorem quantBlock_ac {q : Quality} {t : TblNo} {m : Fin 64 → ℕ} {w : Window} {i : Fin 64}
    (h0 : i ≠ 0) (h7 : i ≠ 7) : (quantBlock q t m w i).natAbs < 2 ^ 10 := by
  have h := quantBlock_within q t m w i
  have hac := coefRange_ac i h0 h7
  simp only [Within] at h
  omega

theorem quantBlock_dc (q : Quality) (t : TblNo) (m : Fin 64 → ℕ) (w : Window) :
    Within (-1024, 1016) (quantBlock q t m w 0) :=
  coefRange_zero ▸ quantBlock_within q t m w 0

/-- **Coefficient 7 has eleven bits** at the best qualities, in the extreme blocks. -/
theorem quantBlock_seven {q : Quality} {t : TblNo} {w : Window} :
    (quantBlock q t 0 w 7).natAbs < 2 ^ 10 ↔
      ¬((q.val = 100 ∨ q.val = 99 ∧ t = .luminance) ∧ PeakBlock (sampleDiffs w)) := by
  have hx := dct_within w.doConvsamp_bounds 7
  have hr := quantBlock_within q t 0 w 7
  have hpeak := dct_seven_ge w.doConvsamp_bounds
  simp only [sampleDiffs_eq] at hpeak
  rw [← quantVal_seven, ← hpeak, ← quant_seven hx]
  rw [coefRange_seven] at hr
  simp only [Within] at hr
  show (quantBlock q t 0 w 7).natAbs < 1024 ↔ quantBlock q t 0 w 7 ≤ 1023
  omega

/-- **When plain mode has codes for a block.** -/
theorem plainOk_iff {q : Quality} {t : TblNo} {last : Option Window} {w : Window} :
    PlainOk q t last w ↔
      ¬((q.val = 100 ∨ q.val = 99 ∧ t = .luminance) ∧ PeakBlock (sampleDiffs w)) := by
  have hlast : ∃ l, plainLast q t last = some l ∧ Within (-1024, 1016) l := by
    cases last with
    | none => exact ⟨0, rfl, by decide⟩
    | some w' => exact ⟨_, by rw [plainLast, plainDct_eq]; rfl, quantBlock_dc q t 0 w'⟩
  obtain ⟨l, hl, hlw⟩ := hlast
  have hdcw := quantBlock_dc q t 0 w
  simp only [Within] at hlw hdcw
  rw [← quantBlock_seven]
  simp only [PlainOk, hl, plainDct_eq, Option.some.injEq, exists_and_left, exists_eq_left']
  constructor
  · intro h
    by_contra hbig
    -- the coefficient is looked up under a size that has no code
    have hmem : quantBlock q t 0 w 7 ∈ acValues (quantBlock q t 0 w) :=
      mem_acValues.mpr ⟨7, by decide, rfl⟩
    obtain ⟨item, hi, run, hsym, hrun⟩ := exists_large_item hmem (not_lt.mp hbig) ⟨0, rfl⟩
    have hno : ∀ r < 16, r * 16 + 11 ∉ acSymbols 10 := by decide
    have hr := quantBlock_within q t 0 w 7
    rw [coefRange_seven] at hr
    simp only [Within] at hr
    have hle : (valueBits (quantBlock q t 0 w 7)).2 ≤ 11 := nbits_le (by omega)
    have hlt : 10 < (valueBits (quantBlock q t 0 w 7)).2 := lt_nbits (not_lt.mp hbig)
    have := (hasCodes_iff.mp h).2 item hi
    rw [hsym, show (valueBits (quantBlock q t 0 w 7)).2 = 11 by omega] at this
    exact hno run hrun this
  · intro h7
    refine hasCodes_of_bits (by simp only [Bool.false_eq_true, if_false]; omega) fun i hi => ?_
    by_cases hi7 : i = 7
    · exact hi7 ▸ h7
    · exact quantBlock_ac hi hi7

theorem neZero_samples : @NeZero ℕ Zero.ofOfNat0 256 := Nat.instNeZeroSucc

/-- A block of equal rows with the differences output 7 is largest for. -/
def peakWindow : Window where
  width := DCTSIZE
  input k := @Fin.ofNat 256 neZero_samples ([255, 0, 255, 0, 255, 0, 255, 4].getD (k % 8) 0)
  ypos := 0
  xpos := 0
  inside := Nat.zero_le DCTSIZE

/-- **At quality 100 a block of such rows has a coefficient without a code.** -/
theorem peakWindow_no_code : ¬PlainOk Quality.best .luminance none peakWindow := by
  rw [plainOk_iff, not_not]
  exact ⟨Or.inl rfl, by decide⟩

/-! ### Delta mode -/

/-- What is sent for a block after earlier frames, the first of them being compared with a block of
zeros. -/
def deltaSend (T : DeltaQTbls) (t : TblNo) (d : Level)
    (f : Level × List (Level × Window) × Window) : Option JBlock := do
  let s ← T.deltaRun t (f.1, 0) f.2.1
  let (output, _) ← T.deltaDct t s.1 d f.2.2 s.2
  return output

/-- The DC coefficient sent before, zero at the start. -/
def deltaLast (T : DeltaQTbls) (t : TblNo) (d : Level) :
    Option (Level × List (Level × Window) × Window) → Option ℤ
  | none => some 0
  | some f => (deltaSend T t d f).map (· 0)

/-- In delta mode nothing overflows and every symbol has a code. -/
def DeltaOk (T : DeltaQTbls) (t : TblNo) (d : Level)
    (last : Option (Level × List (Level × Window) × Window))
    (f : Level × List (Level × Window) × Window) : Prop :=
  ∃ l block, deltaLast T t d last = some l ∧ deltaSend T t d f = some block ∧
    HasCodes true t block l

/-- What is sent is the difference of two blocks within the range of a block of samples. -/
theorem deltaSend_eq (T : DeltaQTbls) (t : TblNo) (d : Level)
    (f : Level × List (Level × Window) × Window) : ∃ block, deltaSend T t d f = some block ∧
      ∀ i, ∃ x y, Within (coefRange i) x ∧ Within (coefRange i) y ∧ block i = x - y := by
  obtain ⟨s, hs, hk⟩ := T.deltaRun_kept (s := (f.1, 0)) (T.kept_zero t f.1) f.2.1
  refine ⟨_, ?_, fun i => ⟨_, _, quantBlock_within Quality.best t (T.tbl d t) f.2.2 i,
    T.rescaled_within (d := d) hk i, rfl⟩⟩
  rw [deltaSend, hs, Option.bind_eq_bind, Option.bind_some, T.deltaDct_eq hk]
  rfl

/-- **Delta mode has codes for every block.** -/
theorem deltaOk (T : DeltaQTbls) (t : TblNo) (d : Level)
    (last : Option (Level × List (Level × Window) × Window))
    (f : Level × List (Level × Window) × Window) : DeltaOk T t d last f := by
  have hdc : ∀ {x : ℤ}, Within (coefRange 0) x → Within (-1024, 1016) x := fun h =>
    coefRange_zero ▸ h
  have hlast : ∃ l, deltaLast T t d last = some l ∧ -2040 ≤ l ∧ l ≤ 2040 := by
    cases last with
    | none => exact ⟨0, rfl, by decide, by decide⟩
    | some f' =>
      obtain ⟨block, hb, hxy⟩ := deltaSend_eq T t d f'
      obtain ⟨x, y, hx, hy, heq⟩ := hxy 0
      have hx := hdc hx
      have hy := hdc hy
      simp only [Within] at hx hy
      exact ⟨block 0, by rw [deltaLast, hb]; rfl, by omega, by omega⟩
  obtain ⟨l, hl, hlw⟩ := hlast
  obtain ⟨block, hb, hxy⟩ := deltaSend_eq T t d f
  refine ⟨l, block, hl, hb, hasCodes_of_bits ?_ fun i hi => ?_⟩
  · obtain ⟨x, y, hx, hy, heq⟩ := hxy 0
    have hx := hdc hx
    have hy := hdc hy
    simp only [Within] at hx hy
    simp only [if_true]
    omega
  · obtain ⟨x, y, hx, hy, heq⟩ := hxy i
    simp only [Within] at hx hy
    simp only [if_true]
    by_cases h7 : i = 7
    · subst h7
      rw [coefRange_seven] at hx hy
      omega
    · have := coefRange_ac i hi h7
      omega

/-! ### Both modes -/

/-- **When every symbol looked up has a code**: always in delta mode, and in plain mode but for the
extreme blocks at the best qualities. -/
theorem codes_iff (t : TblNo) :
    (∀ (q : Quality) (last : Option Window) (w : Window), PlainOk q t last w ↔
      ¬((q.val = 100 ∨ q.val = 99 ∧ t = .luminance) ∧ PeakBlock (sampleDiffs w))) ∧
    ∀ (T : DeltaQTbls) (d : Level) (last : Option (Level × List (Level × Window) × Window))
      (f : Level × List (Level × Window) × Window), DeltaOk T t d last f :=
  ⟨fun _ _ _ => plainOk_iff, fun T => deltaOk T t⟩

end RemotePlay.Jpeg
