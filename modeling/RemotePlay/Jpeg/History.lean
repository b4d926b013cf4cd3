import RemotePlay.Jpeg.CacheRow
import RemotePlay.Work.Adaptive

/-! # Where the blocks of the frame before are kept

In delta mode each block is compared with what was kept of it, in an array of the screen that has
two halves when every second column is sent.  The place is found step by step: the half in `encode`,
the slice of the thread there too, the row in `process`, the MCU in `do_process` and the block in
`compress`.  It comes out as a function of the block alone, whatever the partition
(`threadAccesses_ok`).  A checkerboard is not encoded, so it has no blocks. -/

namespace RemotePlay.Jpeg

open RemotePlay.Work

/-- The components of an image. -/
def MAX_COMPONENTS : ℕ := 3
/-- The coefficients of a block. -/
def DCTSIZE2 : ℕ := DCTSIZE * DCTSIZE

/-- The coefficients kept for the top screen. -/
def DELTA_Q_PREV_COEFFS_TOP_N : ℕ := GSP_SCREEN_WIDTH * GSP_SCREEN_HEIGHT_TOP_2X * MAX_COMPONENTS
/-- The coefficients kept for the bottom screen. -/
def DELTA_Q_PREV_COEFFS_BOT_N : ℕ := GSP_SCREEN_WIDTH * GSP_SCREEN_HEIGHT_BOTTOM * MAX_COMPONENTS

/-- The length of `dq_prev_coeffs_top` or `dq_prev_coeffs_bot`. -/
def dqPrevCoeffsN (is_top : Bool) : ℕ :=
  if is_top then DELTA_Q_PREV_COEFFS_TOP_N else DELTA_Q_PREV_COEFFS_BOT_N

/-- `add` of a pointer to blocks.  A pointer is the number of coefficients before it. -/
def addBlocks (prev n : ℕ) : ℕ := prev + n * DCTSIZE2

section

variable (j : JpegScreen)

/-- `prev` in `encode`. -/
def encodePrev (even_odd : Bool) (restart_interval thread_index : ℕ) : ℕ :=
  let prev := match j.downsample with
    | .checker | .evenOdd => dqPrevCoeffsN j.is_top / 2 * even_odd.toNat
    | _ => 0
  addBlocks prev (restart_interval * maxBlocksInMcu j.ss * thread_index)

/-- `prev` in `process`. -/
def processPrev (prev row_i : ℕ) : ℕ := addBlocks prev (row_i * j.mcusPerRow * maxBlocksInMcu j.ss)

/-- `prev` in `do_process`. -/
def doProcessPrev (prev mcu_col_num : ℕ) : ℕ := addBlocks prev (mcu_col_num * maxBlocksInMcu j.ss)

/-- `prev` in `compress`. -/
def compressPrev (prev blkn : ℕ) : ℕ := addBlocks prev blkn

end

/-- A block of a slice, and where it is kept. -/
structure BlockAccess where
  row_i : ℕ
  place : Place
  prev : ℕ

/-- The blocks a thread encodes, in order. -/
def threadAccesses (j : JpegScreen) (p : RowPartition j.mcuRows) (even_odd : Bool) (t : ℕ) :
    List BlockAccess :=
  let prev := encodePrev j even_odd (j.restartInterval p.v_adjusted) t
  (List.range (j.encodedRows (j.sliceLines p t))).flatMap fun row_i =>
    (rowPlaces j.ss j.mcusPerRow).map fun b =>
      let prev := doProcessPrev j (processPrev j prev row_i) b.mcu
      ⟨row_i, b, compressPrev prev (b.blkn j.ss)⟩

/-! ### The address of a block -/

/-- The blocks before one, by its MCU row, its MCU column and its index in the MCU. -/
def blockIndex (j : JpegScreen) (row col blkn : ℕ) : ℕ :=
  (row * j.mcusPerRow + col) * maxBlocksInMcu j.ss + blkn

/-- The half of the array. -/
def halfStart (j : JpegScreen) (even_odd : Bool) : ℕ :=
  if j.downsample = .evenOdd ∧ even_odd then dqPrevCoeffsN j.is_top / 2 else 0

/-- Where a block is kept. -/
def historyAddr (j : JpegScreen) (even_odd : Bool) (row col blkn : ℕ) : ℕ :=
  addBlocks (halfStart j even_odd) (blockIndex j row col blkn)

theorem rowPlaces_lt {ss : ChromaSs} {mcus_per_row : ℕ} {b : Place}
    (hb : b ∈ rowPlaces ss mcus_per_row) :
    b.mcu < mcus_per_row ∧ b.blkn ss < maxBlocksInMcu ss := by
  simp only [rowPlaces, mcuPlaces, List.mem_flatMap, List.mem_map, List.mem_range,
    List.mem_finRange, true_and] at hb
  obtain ⟨mcu, hmcu, ci, y, hy, x, hx, rfl⟩ := hb
  refine ⟨hmcu, ?_⟩
  cases ss <;> fin_cases ci <;>
    simp [Place.blkn, blknStart, maxBlocksInMcu, compInfos, CompInfo.blocks, CompInfo.h_samp_factor,
      CompInfo.v_samp_factor] at hy hx ⊢ <;> omega

theorem encodedRows_le (j : JpegScreen) (p : RowPartition j.mcuRows) (t : ℕ) :
    j.encodedRows (j.sliceLines p t) ≤ p.iCount t := by
  have hpos := j.linesPerRow_pos
  have hlines : j.sliceLines p t ≤ j.linesPerRow * p.iCount t := by
    unfold JpegScreen.sliceLines
    omega
  unfold JpegScreen.encodedRows
  generalize j.sliceLines p t = lines at hlines ⊢
  have hdiv := Nat.div_add_mod lines j.linesPerRow
  split_ifs with hrem
  · have hlt : j.linesPerRow * (lines / j.linesPerRow) < j.linesPerRow * p.iCount t := by omega
    exact Nat.lt_of_mul_lt_mul_left hlt
  · exact Nat.div_le_of_le_mul hlines

theorem restartInterval_mul (j : JpegScreen) (p : RowPartition j.mcuRows) {t : ℕ}
    (ht : t < p.core_count.get) :
    j.restartInterval p.v_adjusted * t = p.iStart t * j.mcusPerRow := by
  rcases Nat.eq_zero_or_pos t with rfl | h0
  · rw [RowPartition.iStart_zero, Nat.zero_mul, Nat.mul_zero]
  have hle : p.v_adjusted ≤ j.mcuRows := by
    have htotal := p.total
    have := Nat.mul_le_mul_left p.v_adjusted (by omega : 1 ≤ p.core_count.get - 1)
    omega
  have hsmall : p.v_adjusted * j.mcusPerRow ≤ 100 * 30 :=
    Nat.mul_le_mul (hle.trans j.mcuRows_le) j.mcusPerRow_le
  rw [JpegScreen.restartInterval, Nat.mod_eq_of_lt (by omega), RowPartition.iStart,
    Nat.mul_right_comm]

/-- **The address is that of the block**: the slice of the thread and the row in it make the row of
the frame. -/
theorem prev_eq_historyAddr {j : JpegScreen} {p : RowPartition j.mcuRows} {even_odd : Bool} {t : ℕ}
    (ht : t < p.core_count.get) {a : BlockAccess} (ha : a ∈ threadAccesses j p even_odd t) :
    a.prev = historyAddr j even_odd (p.iStart t + a.row_i) a.place.mcu (a.place.blkn j.ss) := by
  obtain ⟨row_i, -, ha⟩ := List.mem_flatMap.mp ha
  obtain ⟨b, -, rfl⟩ := List.mem_map.mp ha
  have hhalf : (match j.downsample with
      | .checker | .evenOdd => dqPrevCoeffsN j.is_top / 2 * even_odd.toNat
      | _ => 0) = halfStart j even_odd := by
    have hchecker := j.not_checker
    unfold halfStart
    cases hds : j.downsample <;> cases even_odd <;> simp [hds] at hchecker ⊢
  have hstart : j.restartInterval p.v_adjusted * maxBlocksInMcu j.ss * t =
      p.iStart t * j.mcusPerRow * maxBlocksInMcu j.ss := by
    rw [Nat.mul_right_comm, restartInterval_mul j p ht]
  simp only [compressPrev, doProcessPrev, processPrev, encodePrev, hhalf, hstart, historyAddr,
    addBlocks, blockIndex]
  ring

/-! ### The array -/

/-- A block of the screen. -/
structure BlockInside (j : JpegScreen) (row col blkn : ℕ) : Prop where
  row : row < j.mcuRows
  col : col < j.mcusPerRow
  blkn : blkn < maxBlocksInMcu j.ss

theorem access_inside {j : JpegScreen} {p : RowPartition j.mcuRows} {even_odd : Bool} {t : ℕ}
    (ht : t < p.core_count.get) {a : BlockAccess} (ha : a ∈ threadAccesses j p even_odd t) :
    BlockInside j (p.iStart t + a.row_i) a.place.mcu (a.place.blkn j.ss) := by
  obtain ⟨row_i, hrow, ha⟩ := List.mem_flatMap.mp ha
  obtain ⟨b, hb, rfl⟩ := List.mem_map.mp ha
  obtain ⟨hcol, hblkn⟩ := rowPlaces_lt hb
  have hle := encodedRows_le j p t
  have hshare := p.iStart_add_iCount_le ht
  rw [List.mem_range] at hrow
  exact ⟨by simp only; omega, hcol, hblkn⟩

theorem mul_add_lt {a b m n : ℕ} (ha : a < m) (hb : b < n) : a * n + b < m * n := by
  have h := Nat.mul_le_mul_right n (Nat.succ_le_of_lt ha)
  rw [Nat.succ_mul] at h
  omega

theorem mul_add_inj {a b a' b' n : ℕ} (hb : b < n) (hb' : b' < n) (h : a * n + b = a' * n + b') :
    a = a' ∧ b = b' := by
  have hmod := congrArg (· % n) h
  simp only [Nat.mul_add_mod_self_right, Nat.mod_eq_of_lt hb, Nat.mod_eq_of_lt hb'] at hmod
  subst hmod
  exact ⟨Nat.eq_of_mul_eq_mul_right (Nat.zero_lt_of_lt hb) (Nat.add_right_cancel h), rfl⟩

theorem blockIndex_lt {j : JpegScreen} {row col blkn : ℕ} (h : BlockInside j row col blkn) :
    blockIndex j row col blkn < j.mcuRows * j.mcusPerRow * maxBlocksInMcu j.ss :=
  mul_add_lt (mul_add_lt h.row h.col) h.blkn

theorem blockIndex_inj {j : JpegScreen} {row col blkn row' col' blkn' : ℕ}
    (h : BlockInside j row col blkn) (h' : BlockInside j row' col' blkn')
    (heq : blockIndex j row col blkn = blockIndex j row' col' blkn') :
    row = row' ∧ col = col' ∧ blkn = blkn' := by
  obtain ⟨hmcu, hblkn⟩ := mul_add_inj h.blkn h'.blkn heq
  obtain ⟨hrow, hcol⟩ := mul_add_inj h.col h'.col hmcu
  exact ⟨hrow, hcol, hblkn⟩

/-- **All blocks fit**, in a half of the array when there are two phases; some configurations leave
nothing over. -/
theorem blocks_fit (j : JpegScreen) :
    j.mcuRows * j.mcusPerRow * maxBlocksInMcu j.ss * DCTSIZE2 ≤
      if j.downsample = .evenOdd then dqPrevCoeffsN j.is_top / 2 else dqPrevCoeffsN j.is_top := by
  obtain ⟨ss, downsample, is_top, width, hchecker⟩ := j
  cases is_top <;> cases width <;> cases downsample <;> cases ss <;> first
    | exact absurd rfl hchecker
    | decide +revert

/-- The coefficients of a block. -/
def Apart (prev prev' : ℕ) : Prop := prev + DCTSIZE2 ≤ prev' ∨ prev' + DCTSIZE2 ≤ prev

theorem historyAddr_end {j : JpegScreen} {row col blkn : ℕ} (h : BlockInside j row col blkn)
    (even_odd : Bool) :
    historyAddr j even_odd row col blkn + DCTSIZE2 ≤
      halfStart j even_odd + if j.downsample = .evenOdd then dqPrevCoeffsN j.is_top / 2
        else dqPrevCoeffsN j.is_top := by
  have hfit := blocks_fit j
  have hmul := Nat.mul_le_mul_right DCTSIZE2 (Nat.succ_le_of_lt (blockIndex_lt h))
  rw [Nat.succ_mul] at hmul
  unfold historyAddr addBlocks
  omega

/-- **Every block is kept within the array.** -/
theorem historyAddr_le {j : JpegScreen} {row col blkn : ℕ} (h : BlockInside j row col blkn)
    (even_odd : Bool) :
    historyAddr j even_odd row col blkn + DCTSIZE2 ≤ dqPrevCoeffsN j.is_top := by
  have hend := historyAddr_end h even_odd
  unfold halfStart at hend
  by_cases hds : j.downsample = .evenOdd
  · rw [if_pos hds] at hend
    split_ifs at hend <;> omega
  · rw [if_neg hds, if_neg fun h => hds h.1] at hend
    omega

/-- **Different blocks are kept in different places.** -/
theorem historyAddr_apart {j : JpegScreen} {row col blkn row' col' blkn' : ℕ}
    (h : BlockInside j row col blkn) (h' : BlockInside j row' col' blkn')
    (hne : (row, col, blkn) ≠ (row', col', blkn')) (even_odd : Bool) :
    Apart (historyAddr j even_odd row col blkn) (historyAddr j even_odd row' col' blkn') := by
  have hindex : blockIndex j row col blkn ≠ blockIndex j row' col' blkn' := by
    intro heq
    obtain ⟨rfl, rfl, rfl⟩ := blockIndex_inj h h' heq
    exact hne rfl
  unfold Apart historyAddr addBlocks
  rcases Nat.lt_or_gt_of_ne hindex with hlt | hlt
  · have := Nat.mul_le_mul_right DCTSIZE2 (Nat.succ_le_of_lt hlt)
    rw [Nat.succ_mul] at this
    omega
  · have := Nat.mul_le_mul_right DCTSIZE2 (Nat.succ_le_of_lt hlt)
    rw [Nat.succ_mul] at this
    omega

/-- **The phases are kept apart.** -/
theorem historyAddr_phases {j : JpegScreen} (hj : j.downsample = .evenOdd)
    {row col blkn row' col' blkn' : ℕ} (h : BlockInside j row col blkn) :
    historyAddr j false row col blkn + DCTSIZE2 ≤ historyAddr j true row' col' blkn' := by
  have hend := historyAddr_end h false
  rw [halfStart, if_neg (by simp), if_pos hj, Nat.zero_add] at hend
  have hstart : halfStart j true = dqPrevCoeffsN j.is_top / 2 := if_pos ⟨hj, rfl⟩
  refine hend.trans ?_
  rw [historyAddr, addBlocks, hstart]
  exact Nat.le_add_right _ _

/-- What is asked of the places of the blocks of a screen. -/
structure HistoryOk (j : JpegScreen) (addr : Bool → ℕ → ℕ → ℕ → ℕ) : Prop where
  /-- The place depends on nothing but the block, neither on the partition nor on the thread. -/
  block : ∀ (p : RowPartition j.mcuRows) (even_odd : Bool), ∀ t < p.core_count.get,
    ∀ a ∈ threadAccesses j p even_odd t,
      BlockInside j (p.iStart t + a.row_i) a.place.mcu (a.place.blkn j.ss) ∧
        a.prev = addr even_odd (p.iStart t + a.row_i) a.place.mcu (a.place.blkn j.ss)
  within : ∀ even_odd row col blkn, BlockInside j row col blkn →
    addr even_odd row col blkn + DCTSIZE2 ≤ dqPrevCoeffsN j.is_top
  distinct : ∀ even_odd row col blkn row' col' blkn', BlockInside j row col blkn →
    BlockInside j row' col' blkn' → (row, col, blkn) ≠ (row', col', blkn') →
      Apart (addr even_odd row col blkn) (addr even_odd row' col' blkn')
  phases : j.downsample = .evenOdd → ∀ row col blkn row' col' blkn', BlockInside j row col blkn →
    BlockInside j row' col' blkn' → Apart (addr false row col blkn) (addr true row' col' blkn')

/-- **The history of a screen is addressed by block**, for every configuration and every partition:
each block has a place of its own in the array, which all threads that ever encode it agree on, and
the two phases have a half each. -/
theorem historyOk (j : JpegScreen) : HistoryOk j (historyAddr j) := by
  refine ⟨?_, ?_, ?_, ?_⟩
  · intro p even_odd t ht a ha
    exact ⟨access_inside ht ha, prev_eq_historyAddr ht ha⟩
  · intro even_odd row col blkn h
    exact historyAddr_le h even_odd
  · intro even_odd row col blkn row' col' blkn' h h' hne
    exact historyAddr_apart h h' hne even_odd
  · intro hj row col blkn row' col' blkn' h h'
    exact Or.inl (historyAddr_phases hj h)

/-- With all chroma and both eyes the last block ends where the array does. -/
example : historyAddr ⟨.ss444, .none, true, .both, by decide⟩ false 99 29 2 + DCTSIZE2 =
    DELTA_Q_PREV_COEFFS_TOP_N := by rfl

end RemotePlay.Jpeg
