import RemotePlay.Jpeg.File
import RemotePlay.Prep.Image

/-! # From the screen to the file

`encode` pre-processes the lines of its slice, eight turns for each MCU row, and reads the blocks of
the row from `bufs.prep`.  What it reads are the blocks of the image (`bufWindow_eq`), so that the
threads write the file of the image, whatever their buffers held before (`sourceFile_read`). -/

namespace RemotePlay.Jpeg

open RemotePlay.Lib RemotePlay.Lib.Raster RemotePlay.Encode RemotePlay.Work RemotePlay.Prep
open RemotePlay.Lossless (SAMP_FACTOR DOWNSAMPLE_FACTOR)

/-- `max_h_samp_factor` and `max_v_samp_factor`. -/
def maxHSampFactor (ss : ChromaSs) : ℕ :=
  ((List.finRange 3).map fun ci => (compInfos ss ci).h_samp_factor).foldr max 1

/-- `max_v_samp_factor`. -/
def maxVSampFactor (ss : ChromaSs) : ℕ :=
  ((List.finRange 3).map fun ci => (compInfos ss ci).v_samp_factor).foldr max 1

/-- `hss` and `vss`. -/
def hss (ss : ChromaSs) : Bool := maxHSampFactor ss == SAMP_FACTOR
/-- Chroma is subsampled by lines. -/
def vss (ss : ChromaSs) : Bool := maxVSampFactor ss == SAMP_FACTOR

theorem hss_eq (ss : ChromaSs) : hss ss = decide (ss ≠ .ss444) := by cases ss <;> rfl
theorem vss_eq (ss : ChromaSs) : vss ss = decide (ss = .ss420) := by cases ss <;> rfl

theorem hss_of_vss (ss : ChromaSs) : vss ss → hss ss := by
  rw [hss_eq, vss_eq, decide_eq_true_iff, decide_eq_true_iff]
  rintro rfl
  exact ChromaSs.noConfusion

/-! ### Encoding -/

section

variable (P : PacketDataSize) (rel_stream : Bool) (q : Quality) (j : JpegScreen) (info : Info)

/-- What `forward_dct` passes to `do_convsamp`: its assertion holds, and the rows of the block are
in the component's part of `bufs.prep`. -/
def bufWindow (bufs : WorkerBufs) (ci : Fin 3) (ypos xpos : ℕ) : Option Window :=
  let samp := hss j.ss &&
    if vss j.ss then needSubsampCi true true ci else needSubsampCi true false ci
  let width := downsampleScreenWidth j.downsample
  let width := if samp then width / SAMP_FACTOR else width
  if h : xpos ≤ width ∧
      width * (ypos + DCTSIZE) ≤ bufSize j.downsample (hss j.ss) (vss j.ss) ci then
    some ⟨width, fun a => ((bufs ci).buf a).toFin, ypos, xpos, h.1⟩
  else none

/-- `compress` in plain mode. -/
def compressBufs (bufs : WorkerBufs) (mcu_col_num : ℕ) : Option (List JBlock) :=
  (mcuPlaces j.ss mcu_col_num).mapM fun b => do
    let w ← bufWindow j bufs b.ci b.ypos (b.xpos j.ss)
    plainDct q (compInfos j.ss b.ci).quant_tbl_no w

/-- `do_process` in plain mode. -/
def doProcessBufs (bufs : WorkerBufs) (w : McuWorker) : Option McuWorker :=
  (List.range j.mcusPerRow).foldlM (fun w mcu_col_num => do
    let mcu ← compressBufs q j bufs mcu_col_num
    encodeMcu P rel_stream (mcuComps j.ss) w mcu) w

/-- A turn of the loop of `process_rem`. -/
def processRow (s : List Line × WorkerBufs × McuWorker) (_ : ℕ) :
    Option (List Line × WorkerBufs × McuWorker) := do
  let (input, bufs) ← preProcess info j.downsample (hss j.ss) (vss j.ss) DCTSIZE 0 s.1 s.2.1
  let w ← doProcessBufs P rel_stream q j bufs s.2.2
  return (input, bufs, w)

/-- The part of a row at the end of a quarter of the screen. -/
def processEnd (rem : ℕ) (s : List Line × WorkerBufs × McuWorker) : Option McuWorker :=
  if (j.downsample = .quarter ∧ vss j.ss) ∧ rem > 0 then do
    let (ok, _, bufs) ← preProcessQuarterRem info DCTSIZE rem s.1 s.2.1
    if ok then doProcessBufs P rel_stream q j bufs s.2.2 else return s.2.2
  else return s.2.2

/-- `encode` in plain mode. -/
def encodeLines (d : HeaderData) (src : List Line) (bufs : WorkerBufs) (thread_index : ℕ)
    (dst : WorkerDst) : Option WorkerDst := do
  let dst := if !rel_stream ∧ thread_index = 0 then writeHeaders P d dst else dst
  let w := resetMcu ⟨BitEncoderState.reset, fun _ => 0, dst⟩
  let f := DCTSIZE * linesPerTurn j.downsample (vss j.ss)
  let s ← (List.range (src.length / f)).foldlM (processRow P rel_stream q j info) (src, bufs, w)
  let w ← processEnd P rel_stream q j info (src.length % f) s
  let w ← flushMcu P rel_stream w
  let dst :=
    if !rel_stream then
      if thread_index = d.core_count.get - 1 then writeTrailer P w.dst
      else writeRst P thread_index w.dst
    else w.dst
  return dst.term P

/-- The lines of a thread's slice. -/
def sliceSrc (p : RowPartition j.mcuRows) (frame : ℕ → Line) (t : ℕ) : List Line :=
  linesFrom frame (j.linesPerRow * p.iStart t) (j.sliceLines p t)

/-- What the threads send of a frame; `bufs` is what their buffers hold. -/
def encodeSource (p : RowPartition j.mcuRows) (frame : ℕ → Line) (bufs : ℕ → WorkerBufs) :
    Option (List (List UInt8)) :=
  (List.range p.core_count.get).mapM fun t =>
    (encodeLines P rel_stream q j info (headerData q j p.core_count p.v_adjusted)
      (sliceSrc j p frame t) (bufs t) t ⟨0, P.val, [], [], []⟩).map fun dst => dst.sent.flatten

end

/-! ### The windows of the image -/

section

variable (j : JpegScreen) (info : Info) (frame : ℕ → Line)

/-- The turns that the lines of the screen are enough for. -/
def wholeTurns : ℕ := j.height / linesPerTurn j.downsample (vss j.ss)

/-- The samples of component `ci` in MCU row `r`; rows missing at the end are those before it,
mirrored. -/
def rowSample (r : ℕ) (ci : Fin 3) (l x : ℕ) : UInt8 :=
  image info frame j.downsample (hss j.ss) (vss j.ss) pconvert ci
    (mirrored (wholeTurns j * compRows (vss j.ss) ci) (8 * r * compRows (vss j.ss) ci + l)) x

/-- The blocks of the image in MCU row `r`. -/
def rowPlanes (r : ℕ) : Planes := fun ci ypos xpos =>
  let width := compWidth j.downsample (hss j.ss) (vss j.ss) ci
  ⟨width, fun a => (rowSample j info frame r ci (a / width) (a % width)).toFin, ypos,
    min xpos width, Nat.min_le_right _ _⟩

end

theorem Window.doConvsamp_congr {w w' : Window} (h : ∀ u v, w.samples u v = w'.samples u v) :
    w.doConvsamp = w'.doConvsamp := by
  funext i
  rw [← at_rowOf_colOf i, w.doConvsamp_eq, w'.doConvsamp_eq, h]

theorem place_inside (j : JpegScreen) {k : ℕ} (hk : k < j.mcusPerRow) {b : Place}
    (hb : b ∈ mcuPlaces j.ss k) : b.xpos j.ss ≤ compWidth j.downsample (hss j.ss) (vss j.ss) b.ci ∧
      b.ypos + 8 ≤ 8 * compRows (vss j.ss) b.ci := by
  simp only [mcuPlaces, List.mem_flatMap, List.mem_map, List.mem_range] at hb
  obtain ⟨ci, -, y, hy, x, hx, rfl⟩ := hb
  obtain ⟨ss, downsample, is_top, width, hne⟩ := j
  unfold JpegScreen.mcusPerRow JpegScreen.screenWidth JpegScreen.mcuRowSize at hk
  simp only [Place.xpos, Place.ypos, DCTSIZE] at *
  cases ss <;> cases downsample <;> fin_cases ci <;>
    simp [compInfos, CompInfo.h_samp_factor, CompInfo.v_samp_factor, compWidth, compRows,
      needSubsampCi, hss_eq, vss_eq, downsampleScreenWidth, GSP_SCREEN_WIDTH, SAMP_FACTOR,
      DOWNSAMPLE_FACTOR] at * <;> omega

variable {j : JpegScreen} {info : Info} {frame : ℕ → Line}

/-- `bufs.prep` holds the rows of the image in MCU row `r`. -/
def HoldsRow (j : JpegScreen) (info : Info) (frame : ℕ → Line) (r : ℕ) (bufs : WorkerBufs) : Prop :=
  ∀ ci, ∃ m, (bufs ci).buf = fillRows m 0 (compWidth j.downsample (hss j.ss) (vss j.ss) ci)
    (8 * compRows (vss j.ss) ci) (rowSample j info frame r ci)

/-- **A block read from the buffer is the block of the image.** -/
theorem bufWindow_eq {r : ℕ} {bufs : WorkerBufs} (h : HoldsRow j info frame r bufs) {k : ℕ}
    (hk : k < j.mcusPerRow) {b : Place} (hb : b ∈ mcuPlaces j.ss k) :
    ∃ w, bufWindow j bufs b.ci b.ypos (b.xpos j.ss) = some w ∧
      w.doConvsamp = (rowPlanes j info frame r b.ci b.ypos (b.xpos j.ss)).doConvsamp := by
  obtain ⟨hx, hy⟩ := place_inside j hk hb
  obtain ⟨m, hbuf⟩ := h b.ci
  have hsamp : (hss j.ss && if vss j.ss then needSubsampCi true true b.ci
      else needSubsampCi true false b.ci) = needSubsampCi (hss j.ss) (vss j.ss) b.ci := by
    have hv := hss_of_vss j.ss
    revert hv
    cases hss j.ss <;> cases vss j.ss <;> simp [needSubsampCi]
  have hw : (if needSubsampCi (hss j.ss) (vss j.ss) b.ci then
      downsampleScreenWidth j.downsample / SAMP_FACTOR else downsampleScreenWidth j.downsample) =
        compWidth j.downsample (hss j.ss) (vss j.ss) b.ci := by
    rw [compWidth]
    split_ifs
    · rfl
    · exact (Nat.div_one _).symm
  have hsize : compWidth j.downsample (hss j.ss) (vss j.ss) b.ci * (b.ypos + DCTSIZE) ≤
      bufSize j.downsample (hss j.ss) (vss j.ss) b.ci := by
    rw [bufSize_eq j.downsample (hss_of_vss j.ss), Nat.mul_comm]
    exact Nat.mul_le_mul_right _ hy
  refine ⟨⟨compWidth j.downsample (hss j.ss) (vss j.ss) b.ci, fun a => ((bufs b.ci).buf a).toFin,
    b.ypos, b.xpos j.ss, hx⟩, ?_, ?_⟩
  · simp only [bufWindow, hsamp, hw]
    exact dif_pos ⟨hx, hsize⟩
  · refine Window.doConvsamp_congr fun u v => ?_
    have hread : ∀ x < compWidth j.downsample (hss j.ss) (vss j.ss) b.ci,
        (bufs b.ci).buf (compWidth j.downsample (hss j.ss) (vss j.ss) b.ci * (b.ypos + u) + x) =
          rowSample j info frame r b.ci
            ((compWidth j.downsample (hss j.ss) (vss j.ss) b.ci * (b.ypos + u) + x) /
              compWidth j.downsample (hss j.ss) (vss j.ss) b.ci)
            ((compWidth j.downsample (hss j.ss) (vss j.ss) b.ci * (b.ypos + u) + x) %
              compWidth j.downsample (hss j.ss) (vss j.ss) b.ci) := by
      intro x hx
      have hget := fillRows_get (m := m) (p := 0) (g := rowSample j info frame r b.ci)
        (show b.ypos + u < 8 * compRows (vss j.ss) b.ci by omega) hx
      rw [Nat.zero_add, Nat.mul_comm (b.ypos + u), ← hbuf] at hget
      rw [hget, Nat.mul_add_div (by omega), Nat.div_eq_of_lt hx, Nat.mul_add_mod,
        Nat.mod_eq_of_lt hx, Nat.add_zero]
    simp only [Window.samples, Window.sampleAt, Window.read, rowPlanes, Window.selfDct,
      Nat.min_eq_left hx]
    split_ifs with hin hdct
    · rw [hread _ hin]
    · rw [hread _ (by omega)]
      exact if_pos hdct
    · exact if_neg hdct

theorem doProcessBufs_eq (P : PacketDataSize) (rel_stream : Bool) (q : Quality) {r : ℕ}
    {bufs : WorkerBufs} (h : HoldsRow j info frame r bufs) (w : McuWorker) :
    doProcessBufs P rel_stream q j bufs w =
    doProcess P rel_stream q j (rowPlanes j info frame r) w := by
  have hcompress : ∀ k < j.mcusPerRow,
      compressBufs q j bufs k = compress q j (rowPlanes j info frame r) k := by
    intro k hk
    rw [compress_eq]
    refine mapM_eq_some fun b hb => ?_
    obtain ⟨w, hw, hconv⟩ := bufWindow_eq h hk hb
    rw [hw, Option.bind_eq_bind, Option.bind_some, plainDct_eq]
    unfold quantBlock
    rw [hconv]
  unfold doProcessBufs doProcess
  exact foldlM_congr (fun k hk w => by rw [hcompress k (List.mem_range.mp hk)]) w

/-! ### The rows of a slice -/

theorem linesPerRow_eq (j : JpegScreen) :
    j.linesPerRow = DCTSIZE * linesPerTurn j.downsample (vss j.ss) := by
  unfold JpegScreen.linesPerRow JpegScreen.mcuColSize linesPerTurn
  rw [vss_eq, ← Nat.mul_assoc]
  cases j.ss <;> rfl

theorem height_mod (j : JpegScreen) : j.height % 32 = 0 ∨ j.height % 32 = 16 := by
  unfold JpegScreen.height rpScreenHeight
  cases j.is_top <;> cases j.width <;> decide

section

variable (info : Info) (frame : ℕ → Line) (P : PacketDataSize) (rel_stream : Bool) (q : Quality)

/-- **A whole row**: its lines are taken and its MCUs encoded. -/
theorem processRow_eq {r : ℕ} (h : j.linesPerRow * (r + 1) ≤ j.height) (n k : ℕ) (bufs : WorkerBufs)
    (w : McuWorker) : ∃ bufs', processRow P rel_stream q j info
        (linesFrom frame (j.linesPerRow * r) (j.linesPerRow + n), bufs, w) k =
      (doProcess P rel_stream q j (rowPlanes j info frame r) w).map fun w =>
        (linesFrom frame (j.linesPerRow * (r + 1)) n, bufs', w) := by
  have hu : 0 < linesPerTurn j.downsample (vss j.ss) := by
    have := j.linesPerRow_pos
    rw [linesPerRow_eq] at this
    exact Nat.pos_of_mul_pos_left this
  have hturns : 8 * r + 8 ≤ wholeTurns j := by
    rw [linesPerRow_eq] at h
    rw [wholeTurns, Nat.le_div_iff_mul_le hu]
    exact le_of_eq_of_le (by unfold DCTSIZE; ring) h
  obtain ⟨bufs', hrun, hshows⟩ := preProcess_eq info frame j.not_checker (hss_of_vss j.ss)
    (Nat.zero_add 8).le (8 * r) n bufs
  have hholds : HoldsRow j info frame r bufs' := by
    intro ci
    refine ⟨(bufs ci).buf, (hshows ci).trans ?_⟩
    rw [Nat.zero_mul, Nat.zero_mul]
    refine fillRows_congr fun l hl x _ => ?_
    have hlt : 8 * r * compRows (vss j.ss) ci + l < wholeTurns j * compRows (vss j.ss) ci := by
      have := Nat.mul_le_mul_right (compRows (vss j.ss) ci) hturns
      rw [Nat.add_mul] at this
      omega
    rw [rowSample, mirrored, if_pos hlt]
  have hlines : ∀ i, linesPerTurn j.downsample (vss j.ss) * (8 * i) = j.linesPerRow * i :=
    fun i => by
    rw [linesPerRow_eq]
    unfold DCTSIZE
    ring
  have hnext : 8 * r + 8 = 8 * (r + 1) := rfl
  have hrow : linesPerTurn j.downsample (vss j.ss) * 8 = j.linesPerRow := by
    rw [← Nat.mul_one 8, hlines, Nat.mul_one]
  rw [hnext, hlines, hlines, hrow] at hrun
  refine ⟨bufs', ?_⟩
  rw [processRow]
  erw [hrun]
  rw [Option.bind_eq_bind, Option.bind_some]
  simp only [doProcessBufs_eq P rel_stream q hholds]
  cases doProcess P rel_stream q j (rowPlanes j info frame r) w <;> rfl

theorem foldlM_processRow {start n : ℕ}
    (h : ∀ i < n, j.linesPerRow * (start + i + 1) ≤ j.height) (rest : ℕ)
    (bufs : WorkerBufs) (w : McuWorker) : ∃ bufs',
    (List.range n).foldlM (processRow P rel_stream q j info)
        (linesFrom frame (j.linesPerRow * start) (j.linesPerRow * n + rest), bufs, w) =
      ((List.range n).foldlM (fun w i =>
        doProcess P rel_stream q j (rowPlanes j info frame (start + i)) w) w).map fun w =>
        (linesFrom frame (j.linesPerRow * (start + n)) rest, bufs', w) := by
  induction n generalizing rest with
  | zero => exact ⟨bufs, by rw [Nat.mul_zero, Nat.zero_add, Nat.add_zero]; rfl⟩
  | succ n ih =>
    obtain ⟨bufs1, hrun⟩ := ih (fun i hi => h i (Nat.lt_succ_of_lt hi)) (j.linesPerRow + rest)
    rw [Nat.mul_succ, Nat.add_assoc, List.range_succ, List.foldlM_append, List.foldlM_append, hrun]
    cases (List.range n).foldlM (fun w i =>
        doProcess P rel_stream q j (rowPlanes j info frame (start + i)) w) w with
    | none => exact ⟨bufs1, rfl⟩
    | some w1 =>
      obtain ⟨bufs2, hrow⟩ :=
        processRow_eq info frame P rel_stream q (h n (Nat.lt_succ_self n)) rest n bufs1 w1
      refine ⟨bufs2, ?_⟩
      simp only [Option.map_some, Option.bind_eq_bind, Option.bind_some, List.foldlM_cons, hrow,
        List.foldlM_nil]
      cases doProcess P rel_stream q j (rowPlanes j info frame (start + n)) w1 <;> rfl

/-- **The end of a quarter of the screen**: four turns, and the rows missing. -/
theorem processEnd_eq {r : ℕ} (hend : j.downsample = .quarter ∧ vss j.ss)
    (h : j.linesPerRow * r + 16 = j.height) (bufs : WorkerBufs) (w : McuWorker) :
    processEnd P rel_stream q j info 16 (linesFrom frame (j.linesPerRow * r) 16, bufs, w) =
      doProcess P rel_stream q j (rowPlanes j info frame r) w := by
  have hhss : hss j.ss = true := hss_of_vss j.ss hend.2
  have hrow : j.linesPerRow = 32 := by
    rw [linesPerRow_eq, hend.1, hend.2]
    rfl
  have hturns : wholeTurns j = 8 * r + 4 := by
    have hu : linesPerTurn j.downsample (vss j.ss) = 4 := by
      rw [hend.1, hend.2]
      rfl
    rw [hrow] at h
    rw [wholeTurns, hu]
    omega
  obtain ⟨bufs', hrun, hbuf⟩ :=
    preProcessQuarterRem_eq info frame (n := 4) le_rfl (by decide) (8 * r) bufs
  have hholds : HoldsRow j info frame r bufs' := by
    intro ci
    refine ⟨(bufs ci).buf, ?_⟩
    rw [hbuf, hend.1, hend.2, hhss]
    refine fillRows_congr fun l hl x _ => ?_
    rw [rowSample, hturns, hend.1, hend.2, hhss, Nat.add_mul,
      mirrored_add _ (by rw [← Nat.mul_assoc]; exact hl)]
  have hlines : 4 * (8 * r) = j.linesPerRow * r := by
    rw [hrow]
    ring
  rw [hlines] at hrun
  rw [processEnd, if_pos ⟨hend, by decide⟩]
  erw [hrun]
  exact doProcessBufs_eq P rel_stream q hholds w

theorem wholeRow_le (p : RowPartition j.mcuRows) {t i : ℕ}
    (hi : i < j.sliceLines p t / j.linesPerRow) :
    j.linesPerRow * (p.iStart t + i + 1) ≤ j.height := by
  have hmul : j.linesPerRow * (i + 1) ≤ j.linesPerRow * (j.sliceLines p t / j.linesPerRow) :=
    Nat.mul_le_mul_left _ hi
  have hle := hmul.trans (Nat.mul_div_le (j.sliceLines p t) j.linesPerRow)
  have hpos : 0 < j.linesPerRow * (i + 1) := Nat.mul_pos j.linesPerRow_pos (Nat.succ_pos i)
  rw [Nat.add_assoc, Nat.mul_add]
  unfold JpegScreen.sliceLines at hle
  omega

theorem halfRow_eq (p : RowPartition j.mcuRows) {t : ℕ} (hend : j.downsample = .quarter ∧ vss j.ss)
    (hpos : j.sliceLines p t % j.linesPerRow > 0) :
    j.sliceLines p t % j.linesPerRow = 16 ∧
      j.linesPerRow * (p.iStart t + j.sliceLines p t / j.linesPerRow) + 16 = j.height := by
  have hrow : j.linesPerRow = 32 := by
    rw [linesPerRow_eq, hend.1, hend.2]
    rfl
  have hmod := height_mod j
  unfold JpegScreen.sliceLines at hpos ⊢
  rw [hrow] at hpos ⊢
  omega

/-- **The rows of a slice are those of the image**, the whole ones and the end. -/
theorem foldlM_slice (p : RowPartition j.mcuRows) (t : ℕ) (bufs : WorkerBufs) (w : McuWorker) :
    ((List.range (j.sliceLines p t / j.linesPerRow)).foldlM (processRow P rel_stream q j info)
        (sliceSrc j p frame t, bufs, w)).bind
        (processEnd P rel_stream q j info (j.sliceLines p t % j.linesPerRow)) =
      (sliceRows j p (rowPlanes j info frame) t).foldlM
        (fun w win => doProcess P rel_stream q j win w) w := by
  have hle := fun i => @wholeRow_le j p t i
  have hend := @halfRow_eq j p t
  have hrows : j.encodedRows (j.sliceLines p t) = j.sliceLines p t / j.linesPerRow +
      if (j.downsample = .quarter ∧ vss j.ss) ∧ j.sliceLines p t % j.linesPerRow > 0 then 1
      else 0 := by
    simp only [JpegScreen.encodedRows, vss_eq, decide_eq_true_eq]
  have hlines := (Nat.div_add_mod (j.sliceLines p t) j.linesPerRow).symm
  generalize j.sliceLines p t / j.linesPerRow = n at *
  generalize j.sliceLines p t % j.linesPerRow = rest at *
  obtain ⟨bufs', hrun⟩ := foldlM_processRow info frame P rel_stream q hle rest bufs w
  rw [sliceRows, hrows, sliceSrc, hlines, hrun, List.foldlM_map]
  by_cases he : (j.downsample = .quarter ∧ vss j.ss) ∧ rest > 0
  · obtain ⟨rfl, h16⟩ := hend he.1 he.2
    rw [if_pos he, List.range_succ, List.foldlM_append]
    cases (List.range n).foldlM (fun w i =>
        doProcess P rel_stream q j (rowPlanes j info frame (p.iStart t + i)) w) w with
    | none => rfl
    | some w =>
      rw [Option.map_some, Option.bind_some, processEnd_eq info frame P rel_stream q he.1 h16]
      exact (bind_pure _).symm
  · rw [if_neg he, Nat.add_zero]
    cases (List.range n).foldlM (fun w i =>
        doProcess P rel_stream q j (rowPlanes j info frame (p.iStart t + i)) w) w with
    | none => rfl
    | some w => exact if_neg he

/-- **What a thread writes is of its rows of the image.** -/
theorem encodeLines_eq (p : RowPartition j.mcuRows) (d : HeaderData) (t : ℕ) (bufs : WorkerBufs)
    (dst : WorkerDst) :
    encodeLines P rel_stream q j info d (sliceSrc j p frame t) bufs t dst =
      encode P rel_stream q j d (sliceRows j p (rowPlanes j info frame) t) t dst := by
  have hf : DCTSIZE * linesPerTurn j.downsample (vss j.ss) = j.linesPerRow :=
    (linesPerRow_eq j).symm
  have hlength : (sliceSrc j p frame t).length = j.sliceLines p t := by
    rw [sliceSrc, linesFrom, List.length_map, List.length_range']
  unfold encodeLines encode
  simp only [hf, hlength]
  rw [← foldlM_slice info frame P rel_stream q p t bufs]
  cases (List.range (j.sliceLines p t / j.linesPerRow)).foldlM
    (processRow P rel_stream q j info) _ <;> rfl

/-- What the threads send is of the image, whatever their buffers held. -/
theorem encodeSource_eq (p : RowPartition j.mcuRows) (bufs : ℕ → WorkerBufs) :
    encodeSource P rel_stream q j info p frame bufs =
      encodeFrame P rel_stream q j p (rowPlanes j info frame) := by
  unfold encodeSource encodeFrame
  simp only [encodeLines_eq]

end

/-- **Every frame of a run is a file of the screen**: whatever frames went before it, whether or not
the last thread has finished the one before, and whatever the buffers held, the threads write a file
from which a decoder reads the coefficients of the image of the screen, if no block of it has a
coefficient without a code. -/
theorem sourceFile_read (P : PacketDataSize) (q : Quality) (core_count : CoreCount)
    (fs : List (FrameObs core_count)) (t_last : Bool) (j : JpegScreen) (info : Info)
    (frame : ℕ → Line) (bufs : ℕ → WorkerBufs)
    (hpeak : ∀ r < j.mcuRows, NoPeak q j (rowPlanes j info frame r)) :
    ∃ curr next v v_last, lastRowLastN (lastRestartRange false) fs = some curr ∧
      initWorkRows j.mcuRows core_count (lastRestartRange false) curr t_last =
        some (next, v, v_last) ∧
      ∃ h : RowsOk core_count j.mcuRows v v_last, ∃ outs,
        encodeSource P false q j info h.partition frame bufs = some outs ∧
        readFile outs.flatten = some ⟨frameHdr j,
          (List.finRange 3).map fun ci => quantVal q (compInfos j.ss ci).quant_tbl_no,
          (List.range j.mcuRows).flatMap fun r => (List.range j.mcusPerRow).map
            (mcuOf q j (rowPlanes j info frame r))⟩ := by
  have hrange := lastRestartRange_pos core_count false
  obtain ⟨curr, hcurr, hle⟩ := lastRowLastN_spec hrange fs
  obtain ⟨next, v, v_last, hrows, -, hok⟩ :=
    initWorkRows_spec (enough core_count j) hrange hle t_last
  obtain ⟨outs, houts, hread⟩ := readFile_encodeFrame P q j hok (rowPlanes j info frame) hpeak
  refine ⟨curr, next, v, v_last, hcurr, hrows, hok, outs, ?_, hread⟩
  rw [encodeSource_eq]
  exact houts

/-- A quarter of the top screen, with chroma subsampled both ways. -/
def quarterScreen : JpegScreen := ⟨.ss420, .quarter, true, .left, by decide⟩

/-- On three cores at quality 50, any frame of RGB565 pixels. -/
theorem sourceFile_read_three : ∃ curr next v v_last,
    lastRowLastN (lastRestartRange false) ([] : List (FrameObs .three)) = some curr ∧
      initWorkRows quarterScreen.mcuRows .three (lastRestartRange false) curr true =
        some (next, v, v_last) ∧
      ∃ h : RowsOk .three quarterScreen.mcuRows v v_last, ∃ outs,
        encodeSource (packetDataSize false false) false ⟨50, by decide, by decide⟩ quarterScreen
          ⟨.rgb565, false⟩ h.partition (fun l k => UInt8.ofNat (l * k))
          (fun _ _ => ⟨fun _ => 1, fun _ => 2, fun _ => 3⟩) = some outs ∧
        readFile outs.flatten = some ⟨frameHdr quarterScreen,
          (List.finRange 3).map fun ci =>
            quantVal ⟨50, by decide, by decide⟩ (compInfos .ss420 ci).quant_tbl_no,
          (List.range quarterScreen.mcuRows).flatMap fun r =>
            (List.range quarterScreen.mcusPerRow).map
            (mcuOf ⟨50, by decide, by decide⟩ quarterScreen
              (rowPlanes quarterScreen ⟨.rgb565, false⟩ (fun l k => UInt8.ofNat (l * k)) r))⟩ :=
  sourceFile_read (packetDataSize false false) ⟨50, by decide, by decide⟩ .three [] true
    quarterScreen ⟨.rgb565, false⟩ (fun l k => UInt8.ofNat (l * k))
    (fun _ _ => ⟨fun _ => 1, fun _ => 2, fun _ => 3⟩)
    fun _ _ _ _ h => h.1.elim (by decide) fun h => absurd h.1 (by decide)

end RemotePlay.Jpeg
