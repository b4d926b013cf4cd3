import RemotePlay.Config

/-! # Rows of a frame

`init_work` divides the block rows of a frame among the encoder threads.  The last thread's share is
adapted from frame to frame: `LAST_ROW_LAST_N`, between 1 and `last_restart_range`, goes up when the
last thread has already finished the frame before (`LAST_ROW_LAST_W` is that frame's slot) and down
otherwise, and the last thread receives that fraction of an even share.  Subtractions are those of
`u32`: one that would go below zero fails. -/

namespace RemotePlay.Work

/-- Subtraction of `u32`. -/
def sub32 (a b : ℕ) : Option ℕ := if b ≤ a then some (a - b) else none

/-- `shared.last_restart_range`. -/
def lastRestartRange (delta_prog : Bool) : ℕ := if delta_prog then 64 else 32

/-- The block rows of a JPEG screen that is not sampled as a checkerboard: the screen's height over
the height of an MCU, rounded up (`set_comp_infos`). -/
def jpegMcuRows (ss : ChromaSs) (downsample : Downsample) (height : ℕ) : ℕ :=
  let height := if downsample = .quarter then height / 2 else height
  let mcu_col_size := if ss = .ss420 then 16 else 8
  (height + mcu_col_size - 1) / mcu_col_size

/-- The next value of `LAST_ROW_LAST_N`; `t_last` says that the last thread has already finished the
frame before. -/
def nextLastN (core_count_other range curr : ℕ) (t_last : Bool) : Option ℕ :=
  if t_last then do
    let d ← sub32 range core_count_other
    some (if curr < d then curr + core_count_other else range)
  else some (if curr > 1 then curr - 1 else 1)

/-- `init_work`: from the block rows of the frame, the core count and the current
`LAST_ROW_LAST_N`, the new `LAST_ROW_LAST_N`, the rows of every thread but the last and the rows of
the last. -/
def initWorkRows (mcu_rows : ℕ) (core_count : CoreCount) (range curr : ℕ) (t_last : Bool) :
    Option (ℕ × ℕ × ℕ) := do
  let core_count_all := core_count.get
  let core_count_other := core_count_all - 1
  let mcu_rows_per_thread := (mcu_rows + core_count_all - 1) / core_count_all
  let n_last ← sub32 mcu_rows (mcu_rows_per_thread * core_count_other)
  if curr > 0 ∧ core_count_all > 1 then
    let next ← nextLastN core_count_other range curr t_last
    let rows_last := (n_last * next + range - 1) / range
    let rows := (← sub32 mcu_rows rows_last) / core_count_other
    let rows_last ← sub32 mcu_rows (rows * core_count_other)
    some (next, rows, rows_last)
  else some (range, mcu_rows_per_thread, n_last)

/-- The partitions of a run of frames of one screen, from the value 0 that `init` stores in
`LAST_ROW_LAST_N`; each frame brings one observation `t_last`. -/
def rowsRun (mcu_rows : ℕ) (core_count : CoreCount) (range : ℕ) :
    ℕ → List Bool → Option (List (ℕ × ℕ))
  | _, [] => some []
  | curr, t_last :: obs => do
    let (next, v_adjusted, v_last_adjusted) ← initWorkRows mcu_rows core_count range curr t_last
    let rest ← rowsRun mcu_rows core_count range next obs
    some ((v_adjusted, v_last_adjusted) :: rest)

end RemotePlay.Work
