import RemotePlay.Work.Partition
import Mathlib.Data.List.Forall2
import Mathlib.Tactic.Linarith

/-! # The partitioner over a run of frames

The frames of both screens move one `LAST_ROW_LAST_N`.  Whatever it is, the last thread gets a share
of at least one row and at most an even one, so the others get at least as many
(`initWorkRows_spec`), and over any run of frames every slice but the last is as long as the restart
interval announces (`workRun_ok`). -/

namespace RemotePlay.Work

/-! ### One call -/

theorem share_bounds {n next range : ℕ} (hn : 0 < n) (h0 : 0 < next) (hr : next ≤ range) :
    0 < (n * next + range - 1) / range ∧ (n * next + range - 1) / range ≤ n := by
  have hrange : 0 < range := h0.trans_le hr
  have hpos : 0 < n * next := Nat.mul_pos hn h0
  have hle : n * next ≤ n * range := Nat.mul_le_mul_left n hr
  constructor
  · exact Nat.div_pos (by omega) hrange
  · have hlt : n * next + range - 1 < (n + 1) * range := by
      rw [Nat.succ_mul]
      omega
    rw [Nat.mul_comm (n + 1)] at hlt
    exact Nat.lt_succ_iff.mp (Nat.div_lt_of_lt_mul hlt)

theorem nextLastN_spec {core_count_other range curr : ℕ} (hrange : core_count_other < range)
    (h0 : 0 < curr) (hle : curr ≤ range) (t_last : Bool) :
    ∃ next, nextLastN core_count_other range curr t_last = some next ∧ 0 < next ∧
      next ≤ range := by
  cases t_last with
  | false =>
    refine ⟨if curr > 1 then curr - 1 else 1, rfl, ?_⟩
    split_ifs <;> omega
  | true =>
    refine ⟨if curr < range - core_count_other then curr + core_count_other else range, ?_, ?_⟩
    · rw [nextLastN, if_pos rfl, sub32, if_pos hrange.le]
      rfl
    · split_ifs <;> omega

/-- An even partition leaves rows for the last thread. -/
def Enough (core_count : CoreCount) (mcu_rows : ℕ) : Prop :=
  (mcu_rows + core_count.get - 1) / core_count.get * (core_count.get - 1) < mcu_rows

instance (core_count : CoreCount) (mcu_rows : ℕ) : Decidable (Enough core_count mcu_rows) :=
  inferInstanceAs (Decidable (_ < _))

/-- What the rows handed out satisfy: `v` for every thread but the last and `v_last` for it. -/
structure RowsOk (core_count : CoreCount) (mcu_rows v v_last : ℕ) : Prop where
  pos : 0 < v
  last_pos : 0 < v_last
  last_le : v_last ≤ v
  total : v * (core_count.get - 1) + v_last = mcu_rows

theorem even_rowsOk {core_count : CoreCount} {mcu_rows : ℕ} (h : Enough core_count mcu_rows) :
    RowsOk core_count mcu_rows ((mcu_rows + core_count.get - 1) / core_count.get)
      (mcu_rows - (mcu_rows + core_count.get - 1) / core_count.get * (core_count.get - 1)) := by
  unfold Enough at h
  cases core_count <;> refine ⟨?_, ?_, ?_, ?_⟩ <;> simp only [CoreCount.get] at h ⊢ <;> omega

theorem less_rowsOk {core_count : CoreCount} {mcu_rows rows_last : ℕ}
    (h : Enough core_count mcu_rows) (hc : 1 < core_count.get) (h0 : 0 < rows_last)
    (hle : rows_last ≤
      mcu_rows - (mcu_rows + core_count.get - 1) / core_count.get * (core_count.get - 1)) :
    RowsOk core_count mcu_rows ((mcu_rows - rows_last) / (core_count.get - 1))
      (mcu_rows - (mcu_rows - rows_last) / (core_count.get - 1) * (core_count.get - 1)) := by
  unfold Enough at h
  cases core_count <;> refine ⟨?_, ?_, ?_, ?_⟩ <;> simp only [CoreCount.get] at h hc hle ⊢ <;>
    omega

/-- **One call of `init_work`**: no subtraction goes below zero, `LAST_ROW_LAST_N` stays in its
range, and the rows handed out are in order. -/
theorem initWorkRows_spec {core_count : CoreCount} {mcu_rows : ℕ} (h : Enough core_count mcu_rows)
    {range curr : ℕ} (hrange : core_count.get - 1 < range) (hcurr : curr ≤ range) (t_last : Bool) :
    ∃ next v v_last, initWorkRows mcu_rows core_count range curr t_last = some (next, v, v_last) ∧
      (0 < next ∧ next ≤ range) ∧ RowsOk core_count mcu_rows v v_last := by
  have heven := even_rowsOk h
  have hn : sub32 mcu_rows ((mcu_rows + core_count.get - 1) / core_count.get *
      (core_count.get - 1)) = some _ := if_pos (le_of_lt h)
  by_cases hadapt : curr > 0 ∧ core_count.get > 1
  · obtain ⟨next, hnext, h0, hle⟩ := nextLastN_spec hrange hadapt.1 hcurr t_last
    obtain ⟨hs0, hsle⟩ := share_bounds heven.last_pos h0 hle
    have hless := less_rowsOk h hadapt.2 hs0 hsle
    refine ⟨next, _, _, ?_, ⟨h0, hle⟩, hless⟩
    have htotal := hless.total
    simp only [initWorkRows, hn, Option.bind_eq_bind, Option.bind_some, if_pos hadapt, hnext]
    rw [sub32, if_pos (hsle.trans (Nat.sub_le _ _)), Option.bind_some, sub32,
      if_pos (Nat.le.intro htotal), Option.bind_some]
  · refine ⟨range, _, _, ?_, ⟨by omega, le_rfl⟩, heven⟩
    simp only [initWorkRows, hn, Option.bind_eq_bind, Option.bind_some, if_neg hadapt]

/-- The partition of one call. -/
def RowsOk.partition {core_count : CoreCount} {mcu_rows v v_last : ℕ}
    (h : RowsOk core_count mcu_rows v v_last) : RowPartition mcu_rows :=
  ⟨core_count, v, v_last, h.total⟩

/-! ### The slices of a JPEG frame -/

/-- The JPEG configuration of a screen; a checkerboard is not encoded. -/
structure JpegScreen where
  ss : ChromaSs
  downsample : Downsample
  is_top : Bool
  width : TopScreenWidth
  not_checker : downsample ≠ .checker

namespace JpegScreen

variable (j : JpegScreen)

/-- The lines of the screen. -/
def height : ℕ := rpScreenHeight j.is_top j.width
/-- `mcu_rows`. -/
def mcuRows : ℕ := jpegMcuRows j.ss j.downsample j.height
/-- The lines of an MCU. -/
def mcuColSize : ℕ := if j.ss = .ss420 then 16 else 8
/-- The pixels of an MCU in a line. -/
def mcuRowSize : ℕ := if j.ss = .ss444 then 8 else 16

/-- `downsample_screen_width`. -/
def screenWidth : ℕ := match j.downsample with
  | .quarter | .evenOdd => GSP_SCREEN_WIDTH / 2
  | _ => GSP_SCREEN_WIDTH

/-- `mcus_per_row`. -/
def mcusPerRow : ℕ := (j.screenWidth + j.mcuRowSize - 1) / j.mcuRowSize

/-- The lines of the image that make up a block row. -/
def linesPerRow : ℕ := j.mcuColSize * if j.downsample = .quarter then 2 else 1

/-- The lines of a thread's slice, `j_start..cmp::min(j_start + j_count, src_len)` in
`send_frame`. -/
def sliceLines {rows : ℕ} (p : RowPartition rows) (t : ℕ) : ℕ :=
  min (j.linesPerRow * p.iStart t + j.linesPerRow * p.iCount t) j.height -
    j.linesPerRow * p.iStart t

/-- The block rows `encode` makes of a slice; `process_rem` encodes a part of a row only for a
quarter of the screen with chroma subsampled both ways. -/
def encodedRows (lines : ℕ) : ℕ :=
  lines / j.linesPerRow +
    if (j.downsample = .quarter ∧ j.ss = .ss420) ∧ lines % j.linesPerRow > 0 then 1 else 0

/-- The MCUs that a thread encodes. -/
def encodedMcus {rows : ℕ} (p : RowPartition rows) (t : ℕ) : ℕ :=
  j.encodedRows (j.sliceLines p t) * j.mcusPerRow

/-- `restart_interval`, an `u16`. -/
def restartInterval (v_adjusted : ℕ) : ℕ := v_adjusted * j.mcusPerRow % 2 ^ 16

theorem height_le : j.height ≤ 800 := by
  unfold height rpScreenHeight
  split_ifs <;> decide

theorem mcusPerRow_le : j.mcusPerRow ≤ 30 := by
  unfold mcusPerRow screenWidth mcuRowSize
  cases j.downsample <;> cases j.ss <;> decide

theorem linesPerRow_pos : 0 < j.linesPerRow := by
  unfold linesPerRow mcuColSize
  split_ifs <;> decide

theorem linesPerRow_mul_le {k : ℕ} (h : k < j.mcuRows) : j.linesPerRow * k ≤ j.height := by
  unfold mcuRows jpegMcuRows at h
  unfold linesPerRow mcuColSize
  cases hss : j.ss <;> cases hds : j.downsample <;> simp [hss, hds] at h ⊢ <;> omega

theorem mcuRows_le : j.mcuRows ≤ 100 := by
  have h := j.height_le
  unfold mcuRows jpegMcuRows
  simp only
  split_ifs <;> omega

/-- **Every thread but the last encodes a restart interval.** -/
theorem encodedMcus_eq {core_count : CoreCount} {v v_last : ℕ}
    (h : RowsOk core_count j.mcuRows v v_last) {t : ℕ} (ht : t + 1 < core_count.get) :
    j.encodedMcus h.partition t = j.restartInterval v := by
  have hcount : h.partition.iCount t = v := by
    rw [RowPartition.iCount, if_neg]
    · rfl
    · show t ≠ core_count.get - 1
      omega
  have hend : h.partition.iStart t + v < j.mcuRows := by
    have htotal := h.total
    have hlast := h.last_pos
    have hmul : v * (t + 1) ≤ v * (core_count.get - 1) := Nat.mul_le_mul_left v (by omega)
    rw [Nat.mul_succ] at hmul
    show v * t + v < j.mcuRows
    omega
  have hlines : j.sliceLines h.partition t = j.linesPerRow * v := by
    have hle := j.linesPerRow_mul_le hend
    rw [Nat.mul_add] at hle
    rw [sliceLines, hcount, min_eq_left hle, Nat.add_sub_cancel_left]
  have hrows : j.encodedRows (j.linesPerRow * v) = v := by
    rw [encodedRows, Nat.mul_div_cancel_left v j.linesPerRow_pos, Nat.mul_mod_right,
      if_neg (fun hc => absurd hc.2 (lt_irrefl 0)), Nat.add_zero]
  have hsmall : v * j.mcusPerRow ≤ 100 * 30 := by
    have := j.mcuRows_le
    exact Nat.mul_le_mul (by omega) j.mcusPerRow_le
  rw [encodedMcus, hlines, hrows, restartInterval, Nat.mod_eq_of_lt (by omega)]

end JpegScreen

/-! ### A run of frames -/

/-- What a call of `init_work` finds: the block rows of the frame's screen, and whether the last
thread has already finished the frame before. -/
structure FrameObs (core_count : CoreCount) where
  mcu_rows : ℕ
  t_last : Bool
  enough : Enough core_count mcu_rows

/-- The calls of `init_work` for the frames of both screens: the new `LAST_ROW_LAST_N` and the rows
handed out for each. -/
def workRun {core_count : CoreCount} (range : ℕ) :
    ℕ → List (FrameObs core_count) → Option (List (ℕ × ℕ × ℕ))
  | _, [] => some []
  | curr, f :: fs => do
    let r ← initWorkRows f.mcu_rows core_count range curr f.t_last
    let rest ← workRun range r.1 fs
    some (r :: rest)

/-- `LAST_ROW_LAST_N` after the frames of a run, from the value 0 that `init` stores. -/
def lastRowLastN {core_count : CoreCount} (range : ℕ) (fs : List (FrameObs core_count)) :
    Option ℕ :=
  fs.foldlM
    (fun curr f => (initWorkRows f.mcu_rows core_count range curr f.t_last).map Prod.fst) 0

theorem lastRowLastN_spec {core_count : CoreCount} {range : ℕ} (hrange : core_count.get - 1 < range)
    (fs : List (FrameObs core_count)) :
    ∃ curr, lastRowLastN range fs = some curr ∧ curr ≤ range := by
  have hfrom : ∀ curr ≤ range, ∃ curr', fs.foldlM (fun curr f =>
      (initWorkRows f.mcu_rows core_count range curr f.t_last).map Prod.fst) curr = some curr' ∧
        curr' ≤ range := by
    induction fs with
    | nil => exact fun curr hcurr => ⟨curr, rfl, hcurr⟩
    | cons f fs ih =>
      intro curr hcurr
      obtain ⟨next, v, v_last, hstep, ⟨-, hle⟩, -⟩ :=
        initWorkRows_spec f.enough hrange hcurr f.t_last
      rw [List.foldlM_cons, hstep]
      exact ih next hle
  exact hfrom 0 (Nat.zero_le _)

/-- What holds of a frame of a run. -/
structure FrameOk {core_count : CoreCount} (range : ℕ) (f : FrameObs core_count)
    (r : ℕ × ℕ × ℕ) : Prop where
  next_pos : 0 < r.1
  next_le : r.1 ≤ range
  rows : RowsOk core_count f.mcu_rows r.2.1 r.2.2
  start : rows.partition.iStart 0 = 0
  contiguous : ∀ t, t + 1 < core_count.get →
    rows.partition.iStart (t + 1) = rows.partition.iStart t + rows.partition.iCount t
  finish : rows.partition.iStart (core_count.get - 1) +
    rows.partition.iCount (core_count.get - 1) = f.mcu_rows
  interval : ∀ j : JpegScreen, j.mcuRows = f.mcu_rows → ∀ t, t + 1 < core_count.get →
    j.encodedMcus rows.partition t = j.restartInterval r.2.1

theorem lastRestartRange_pos (core_count : CoreCount) (delta_prog : Bool) :
    core_count.get - 1 < lastRestartRange delta_prog := by
  cases core_count <;> cases delta_prog <;> decide

theorem workRun_from {core_count : CoreCount} {range curr : ℕ}
    (hrange : core_count.get - 1 < range) (hcurr : curr ≤ range) (fs : List (FrameObs core_count)) :
    ∃ res, workRun range curr fs = some res ∧ List.Forall₂ (FrameOk range) fs res := by
  induction fs generalizing curr with
  | nil => exact ⟨[], rfl, List.Forall₂.nil⟩
  | cons f fs ih =>
    obtain ⟨next, v, v_last, hstep, ⟨h0, hle⟩, hrows⟩ :=
      initWorkRows_spec f.enough hrange hcurr f.t_last
    obtain ⟨res, hrun, hok⟩ := ih hle
    refine ⟨(next, v, v_last) :: res, ?_, List.Forall₂.cons ⟨h0, hle, hrows, ?_, ?_, ?_, ?_⟩ hok⟩
    · rw [workRun, hstep]
      simp only [Option.bind_eq_bind, Option.bind_some, hrun]
    · exact RowPartition.iStart_zero _
    · exact fun t ht => RowPartition.iStart_succ hrows.partition ht
    · exact RowPartition.iStart_last hrows.partition
    · rintro j hj t ht
      obtain ⟨mcu_rows, t_last, enough⟩ := f
      obtain rfl : j.mcuRows = mcu_rows := hj
      exact j.encodedMcus_eq hrows ht

/-- **Over any run of frames** from the value 0 that `init` stores, no subtraction goes below zero,
`LAST_ROW_LAST_N` stays in its range, the slices are contiguous from the first row to the last, none
is empty, the last is no longer than the others, and the others are a restart interval long. -/
theorem workRun_ok (core_count : CoreCount) (delta_prog : Bool) (fs : List (FrameObs core_count)) :
    ∃ res, workRun (lastRestartRange delta_prog) 0 fs = some res ∧
      List.Forall₂ (FrameOk (lastRestartRange delta_prog)) fs res :=
  workRun_from (lastRestartRange_pos core_count delta_prog) (Nat.zero_le _) fs

end RemotePlay.Work
