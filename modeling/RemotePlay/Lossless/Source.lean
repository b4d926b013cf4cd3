import RemotePlay.Lossless.Sync
import RemotePlay.Lossless.Code
import RemotePlay.Prep.Image

/-! # From the screen to the streams of the lossless mode

With the reliable stream `lossless_encode` pre-processes the lines of a step into one of the two
halves of `bufs.prep` and encodes the step at once.  The samples it leaves there are those of the
image (`preProcess_bufs`), so that the receiver gets from the bytes of the threads the top bits of
the image of the screen, frame by frame (`sourceFrame_read`) or over a run of delta-coded frames
(`sourceRun_read`). -/

namespace RemotePlay.Lossless

open RemotePlay.Lib RemotePlay.Lib.Raster RemotePlay.Work RemotePlay.Encode RemotePlay.Jpeg
  RemotePlay.Prep

/-! ### The encoder -/

/-- A frame: its partition, its format and phase, the lines of the screen, and what the threads'
buffers hold. -/
structure SourceFrame (s : Screen) where
  p : RowPartition s.rows
  info : Info
  frame : ℕ → Line
  bufs : ℕ → WorkerBufs

/-- A frame as it is sent: what its header says, and the bytes of its threads. -/
structure Sent (s : Screen) where
  p : RowPartition s.rows
  even_odd : Bool
  bytes : List (List UInt8)

section Encoder

variable (P : PacketDataSize) (cfg : Cfg) (tbls : TblName → HuffTbl × DerivedTbl)
    (delta_prog : Bool)

/-- `ehufsi`. -/
def codeLen (t : TblName) (y : UInt8) : ℕ := (tbls t).2.ehufsi y.toNat

/-- `do_process` with the reliable stream. -/
def doProcess (prep : Prep) (i base : ℕ) (prev : Hist) : Hist × List Put :=
  if delta_prog then compressedDeltaEncode cfg (codeLen tbls) prep i (base + i * cfg.pStep) prev
  else (prev, compressedEncode cfg prep i)

/-- A turn of the loop of `process`. -/
def processStep (info : Info) (base : ℕ) (st : List Line × WorkerBufs × EncodeBuffer × Hist)
    (i : ℕ) : Option (List Line × WorkerBufs × EncodeBuffer × Hist) := do
  let (src, bufs) ← Prep.preProcess info cfg.downsample cfg.hss cfg.vss 1 (i % 2) st.1 st.2.1
  let (prev, ps) := doProcess cfg tbls delta_prog (fun c => (bufs c).buf) i base st.2.2.2
  return (src, bufs, ps.foldl (Put.run P tbls) st.2.2.1, prev)

/-- `lossless_encode` with the reliable stream. -/
def losslessEncode (info : Info) (src : List Line) (bufs : WorkerBufs) (base : ℕ) (prev : Hist)
    (dst : WorkerDst) : Option (Hist × WorkerDst) := do
  let e := EncodeBuffer.init 0 BitEncoderState.reset dst true
  let st ← (List.range (src.length / cfg.rowsPerStep)).foldlM
    (processStep P cfg tbls delta_prog info base) (src, bufs, e, prev)
  let dst ← finish P st.2.2.1
  return (st.2.2.2, dst)

variable {s : Screen}

/-- The lines of a thread's slice. -/
def SourceFrame.sliceSrc (f : SourceFrame s) (t : ℕ) : List Line :=
  linesFrom f.frame (LOSSLESS_BLOCK_SIZE * f.p.iStart t)
    (min (LOSSLESS_BLOCK_SIZE * f.p.iCount t)
      (LOSSLESS_BLOCK_SIZE * s.rows - LOSSLESS_BLOCK_SIZE * f.p.iStart t))

/-- A thread, after those before it. -/
def sourceThread (f : SourceFrame s) (st : Hist × List (List UInt8)) (t : ℕ) :
    Option (Hist × List (List UInt8)) := do
  let base := phaseBase cfg s f.info.even_odd +
    f.p.v_adjusted * LOSSLESS_BLOCK_SIZE * cfg.screenWidth * MAX_COMPONENTS * t
  let (prev, dst) ← losslessEncode P cfg tbls delta_prog f.info (f.sliceSrc t) (f.bufs t) base st.1
    ⟨0, P.val, [], [], []⟩
  return (prev, st.2 ++ [dst.sent.flatten])

/-- A frame: its threads one after another, with what they keep. -/
def encodeSourceFrame (f : SourceFrame s) (prev : Hist) : Option (Hist × Sent s) := do
  let (prev, bytes) ← (List.range f.p.core_count.get).foldlM
    (sourceThread P cfg tbls delta_prog f) (prev, [])
  return (prev, ⟨f.p, f.info.even_odd, bytes⟩)

/-- The frames of a screen, one after the other. -/
def encodeSourceRun : List (SourceFrame s) → Hist → Option (List (Sent s))
  | [], _ => some []
  | f :: fs, prev => do
    let (prev, m) ← encodeSourceFrame P cfg tbls true f prev
    let ms ← encodeSourceRun fs prev
    return m :: ms

end Encoder

/-! ### The receiver -/

section Receiver

variable (cfg : Cfg) (huff : TblName → HuffTbl) (delta_prog : Bool) {s : Screen}

/-- What comes in a row. -/
def rowKinds (cr : CompIndex × ℕ) : List Kind :=
  if delta_prog then
    (List.range (cfg.width cr.1 / DELTA_BLOCK_WIDTH_COUNT)).flatMap fun _ =>
      .flag :: List.replicate DELTA_BLOCK_WIDTH_COUNT (.sym (cfg.tbl cr.1))
  else List.replicate (cfg.width cr.1) (.sym (cfg.tbl cr.1))

/-- Reads the stream of thread `t`. -/
def readThread (p : RowPartition s.rows) (bytes : List UInt8) (t : ℕ) : Option (List Put) :=
  readStream huff ((sliceRows cfg (firstStep cfg p t) (stepCount cfg p t)).flatMap
    (rowKinds cfg delta_prog)) bytes

/-- The streams of a frame are read. -/
def readSent (m : Sent s) : Option (Received s) := do
  let pss ← m.bytes.zipIdx.mapM fun (bytes, t) => readThread cfg huff delta_prog m.p bytes t
  return ⟨m.p, m.even_odd, pss⟩

/-- A frame that is not delta-coded. -/
def receiveFrame (m : Sent s) (img : Planes) : Option Planes := do
  let m ← readSent cfg huff false m
  decodeFrame cfg (decodeRow cfg) m.p img m.pss

/-- A run of delta-coded frames. -/
def receiveRun (ms : List (Sent s)) (st : Bool → Planes) : Option (List Planes) := do
  let ms ← ms.mapM (readSent cfg huff true)
  decodeRun cfg ms st

end Receiver

/-! ### The samples of a step -/

section Steps

variable {P : PacketDataSize} {cfg : Cfg} {tbls : TblName → HuffTbl × DerivedTbl}
    {delta_prog : Bool}

/-- The image of a screen. -/
def imageOf (cfg : Cfg) (info : Info) (frame : ℕ → Line) : Planes :=
  image info frame cfg.downsample cfg.hss cfg.vss pconvert

theorem hss_of_vss (cfg : Cfg) : cfg.vss → cfg.hss := by
  unfold Cfg.vss Cfg.hss
  intro h
  rw [of_decide_eq_true h]
  rfl

theorem compWidth_eq (cfg : Cfg) (c : CompIndex) :
    compWidth cfg.downsample cfg.hss cfg.vss c = cfg.width c := by
  have hv := hss_of_vss cfg
  have hne := cfg.not_checker
  unfold compWidth Cfg.width Cfg.needHss Cfg.screenWidth
  revert hv hne
  generalize cfg.hss = h
  generalize cfg.vss = v
  generalize cfg.downsample = d
  revert c
  cases d <;> cases h <;> cases v <;> decide

theorem linesPerTurn_eq (cfg : Cfg) : linesPerTurn cfg.downsample cfg.vss = cfg.rowsPerStep := by
  unfold linesPerTurn Cfg.rowsPerStep
  by_cases hd : cfg.downsample = .quarter <;> cases cfg.vss <;> simp [hd]

/-- **Pre-processing leaves the samples of the step** in its half of the buffer, whatever was
there. -/
theorem preProcess_bufs (cfg : Cfg) (info : Info) (frame : ℕ → Line) (k i n : ℕ)
    (bufs : WorkerBufs) : ∃ bufs', Prep.preProcess info cfg.downsample cfg.hss cfg.vss 1 (i % 2)
        (linesFrom frame (cfg.rowsPerStep * (k + i)) (cfg.rowsPerStep + n)) bufs =
          some (linesFrom frame (cfg.rowsPerStep * (k + i + 1)) n, bufs') ∧
      (fun c => (bufs' c).buf) =
        preProcess cfg (slicePlanes cfg (imageOf cfg info frame) k) i fun c => (bufs c).buf := by
  have hstart : i % 2 + 1 ≤ 8 := by omega
  obtain ⟨bufs', hrun, hshows⟩ := preProcess_eq info frame cfg.not_checker (hss_of_vss cfg) hstart
    (k + i) n bufs
  rw [linesPerTurn_eq, Nat.mul_one] at hrun
  refine ⟨bufs', hrun, ?_⟩
  funext c a
  have hbuf := congrFun (hshows c) a
  rw [compWidth_eq] at hbuf
  rw [hbuf]
  show (if _ ≤ a ∧ a < _ + 1 * cfg.bh c * cfg.width c then _ else _) = if _ then _ else _
  rw [Nat.one_mul]
  refine if_congr Iff.rfl ?_ rfl
  show imageOf cfg info frame c ((k + i) * cfg.bh c + _) _ =
    imageOf cfg info frame c (k * cfg.bh c + (i * cfg.bh c + _)) _
  rw [Nat.add_mul, Nat.add_assoc]
  rfl

/-- What is emitted for the steps of a slice from step `i` on, and what is kept. -/
def sliceSteps (cfg : Cfg) (tbls : TblName → HuffTbl × DerivedTbl) (delta_prog : Bool)
    (img : Planes) (base i n : ℕ) (prep : Prep) (prev : Hist) : Hist × List Put :=
  if delta_prog then deltaSteps cfg (codeLen tbls) img base i n prep prev
  else (prev, encodeSteps cfg img i n prep)

theorem sliceSteps_succ (img : Planes) (base i n : ℕ) (prep : Prep) (prev : Hist) :
    sliceSteps cfg tbls delta_prog img base i (n + 1) prep prev =
      let prep := preProcess cfg img i prep
      let res := doProcess cfg tbls delta_prog prep i base prev
      let rest := sliceSteps cfg tbls delta_prog img base (i + 1) n prep res.1
      (rest.1, res.2 ++ rest.2) := by
  cases delta_prog <;> rfl

variable (P cfg tbls delta_prog) in
/-- **The steps of a slice.** -/
theorem foldlM_processStep (info : Info) (frame : ℕ → Line) (base k i n rest : ℕ)
    (bufs : WorkerBufs) (e : EncodeBuffer) (prev : Hist) : ∃ bufs',
    (List.range' i n).foldlM (processStep P cfg tbls delta_prog info base)
        (linesFrom frame (cfg.rowsPerStep * (k + i)) (cfg.rowsPerStep * n + rest), bufs, e, prev) =
      let res := sliceSteps cfg tbls delta_prog (slicePlanes cfg (imageOf cfg info frame) k)
        base i n (fun c => (bufs c).buf) prev
      some (linesFrom frame (cfg.rowsPerStep * (k + i + n)) rest, bufs',
        res.2.foldl (Put.run P tbls) e, res.1) := by
  induction n generalizing i bufs e prev with
  | zero =>
    refine ⟨bufs, ?_⟩
    rw [Nat.mul_zero, Nat.zero_add]
    cases delta_prog <;> rfl
  | succ n ih =>
    obtain ⟨bufs1, hrun, hbufs⟩ :=
      preProcess_bufs cfg info frame k i (cfg.rowsPerStep * n + rest) bufs
    obtain ⟨bufs2, hrest⟩ := ih (i + 1) bufs1
      ((doProcess cfg tbls delta_prog (fun c => (bufs1 c).buf) i base prev).2.foldl
      (Put.run P tbls) e) (doProcess cfg tbls delta_prog (fun c => (bufs1 c).buf) i base prev).1
    have hlines : cfg.rowsPerStep * (n + 1) + rest =
        cfg.rowsPerStep + (cfg.rowsPerStep * n + rest) := by
      ring
    have hend : k + (i + 1) + n = k + i + (n + 1) := by ring
    refine ⟨bufs2, ?_⟩
    rw [List.range'_succ, List.foldlM_cons, processStep, hlines, hrun, sliceSteps_succ, ← hbufs]
    rw [hend] at hrest
    simp only [List.foldl_append]
    exact hrest

theorem sliceSrc_eq (cfg : Cfg) {s : Screen} (f : SourceFrame s) (t : ℕ) : ∃ rest,
    f.sliceSrc t = linesFrom f.frame (cfg.rowsPerStep * firstStep cfg f.p t)
      (cfg.rowsPerStep * stepCount cfg f.p t + rest) ∧
    (f.sliceSrc t).length / cfg.rowsPerStep = stepCount cfg f.p t := by
  have hlen : (f.sliceSrc t).length = min (LOSSLESS_BLOCK_SIZE * f.p.iCount t)
      (LOSSLESS_BLOCK_SIZE * s.rows - LOSSLESS_BLOCK_SIZE * f.p.iStart t) := by
    rw [SourceFrame.sliceSrc, linesFrom, List.length_map, List.length_range']
  have hcount : (f.sliceSrc t).length / cfg.rowsPerStep = stepCount cfg f.p t := by
    rw [hlen]
    rfl
  have hstart : cfg.rowsPerStep * firstStep cfg f.p t = LOSSLESS_BLOCK_SIZE * f.p.iStart t := by
    refine Nat.mul_div_cancel' (Dvd.dvd.mul_right ?_ _)
    rcases cfg.rowsPerStep_cases with h | h | h <;> rw [h] <;> decide
  refine ⟨(f.sliceSrc t).length % cfg.rowsPerStep, ?_, hcount⟩
  rw [← hcount, Nat.div_add_mod, hlen, hstart]
  rfl

/-- What a thread emits for its slice of the image. -/
def threadSteps (cfg : Cfg) (tbls : TblName → HuffTbl × DerivedTbl) (delta_prog : Bool) {s : Screen}
    (f : SourceFrame s) (t : ℕ) (prev : Hist) : Hist × List Put :=
  sliceSteps cfg tbls delta_prog
    (slicePlanes cfg (imageOf cfg f.info f.frame) (firstStep cfg f.p t))
    (phaseBase cfg s f.info.even_odd +
      f.p.v_adjusted * LOSSLESS_BLOCK_SIZE * cfg.screenWidth * MAX_COMPONENTS * t) 0
    (stepCount cfg f.p t) (fun c => (f.bufs t c).buf) prev

/-- **A thread sends what it emits for its slice of the image.** -/
theorem sourceThread_eq {s : Screen} (f : SourceFrame s) (st : Hist × List (List UInt8)) (t : ℕ) :
    sourceThread P cfg tbls delta_prog f st t =
      (finish P ((threadSteps cfg tbls delta_prog f t st.1).2.foldl (Put.run P tbls)
        (EncodeBuffer.init 0 BitEncoderState.reset ⟨0, P.val, [], [], []⟩ true))).map fun dst =>
        ((threadSteps cfg tbls delta_prog f t st.1).1, st.2 ++ [dst.sent.flatten]) := by
  obtain ⟨rest, hsrc, hcount⟩ := sliceSrc_eq cfg f t
  obtain ⟨bufs', hrun⟩ := foldlM_processStep P cfg tbls delta_prog f.info f.frame
    (phaseBase cfg s f.info.even_odd +
      f.p.v_adjusted * LOSSLESS_BLOCK_SIZE * cfg.screenWidth * MAX_COMPONENTS * t)
    (firstStep cfg f.p t) 0 (stepCount cfg f.p t) rest (f.bufs t)
    (EncodeBuffer.init 0 BitEncoderState.reset ⟨0, P.val, [], [], []⟩ true) st.1
  rw [Nat.add_zero, ← hsrc] at hrun
  rw [sourceThread, losslessEncode, hcount, List.range_eq_range', hrun]
  simp only [Option.bind_eq_bind, Option.bind_some, threadSteps]
  cases finish P _ <;> rfl

end Steps

/-! ### Reading a thread back -/

/-- Tables that the receiver has too, with codes for all residuals. -/
structure Ready (tbls : TblName → HuffTbl × DerivedTbl) : Prop where
  accepted : Accepted tbls
  code : ∀ t c p, 0 < codeLen tbls t (residual t c p)

section Puts

variable {P : PacketDataSize} {cfg : Cfg} {tbls : TblName → HuffTbl × DerivedTbl}
    {delta_prog : Bool}

/-- What can be emitted for the given rows. -/
structure Emitted (cfg : Cfg) (tbls : TblName → HuffTbl × DerivedTbl) (delta_prog : Bool)
    (l : List (CompIndex × ℕ)) (ps : List Put) : Prop where
  hasCode : ∀ p ∈ ps, HasCode tbls p
  kinds : ps.map Put.kind = l.flatMap (rowKinds cfg delta_prog)

theorem Emitted.nil : Emitted cfg tbls delta_prog [] [] :=
  ⟨fun _ hp => absurd hp List.not_mem_nil, rfl⟩

theorem Emitted.cons {cr : CompIndex × ℕ} {l : List (CompIndex × ℕ)} {ps qs : List Put}
    (h : Emitted cfg tbls delta_prog [cr] ps) (h' : Emitted cfg tbls delta_prog l qs) :
    Emitted cfg tbls delta_prog (cr :: l) (ps ++ qs) := by
  refine ⟨fun p hp => (List.mem_append.mp hp).elim (h.hasCode p) (h'.hasCode p), ?_⟩
  rw [List.map_append, h.kinds, h'.kinds, List.flatMap_singleton, List.flatMap_cons]

theorem emitted_encRow (h : Ready tbls) (img : Planes) (r0 : CompIndex → ℕ) (cr : CompIndex × ℕ) :
    Emitted cfg tbls false [cr] (encRow cfg img r0 cr) := by
  constructor
  · intro p hp
    obtain ⟨y, hy, rfl⟩ := List.mem_map.mp hp
    obtain ⟨x, -, rfl⟩ := List.mem_map.mp hy
    exact h.code _ _ _
  · rw [List.flatMap_singleton, encRow, List.map_map]
    refine List.eq_replicate_iff.mpr ⟨?_, fun k hk => ?_⟩
    · rw [List.length_map, rowSyms, List.length_map, List.length_range']
    · obtain ⟨y, -, rfl⟩ := List.mem_map.mp hk
      rfl

theorem emitted_encDeltaRow (h : Ready tbls) (len : TblName → UInt8 → ℕ) (r0 : CompIndex → ℕ)
    (src old : Planes) (cr : CompIndex × ℕ) :
    Emitted cfg tbls true [cr] (encDeltaRow cfg len r0 src old cr) := by
  constructor
  · intro p hp
    obtain ⟨j, -, hp⟩ := List.mem_flatMap.mp hp
    rcases List.mem_cons.mp hp with rfl | hp
    · trivial
    · obtain ⟨y, hy, rfl⟩ := List.mem_map.mp hp
      obtain ⟨x, -, rfl⟩ := List.mem_map.mp hy
      exact h.code _ _ _
  · rw [List.flatMap_singleton, rowKinds, if_pos rfl, encDeltaRow, List.map_flatMap]
    refine List.flatMap_congr fun j _ => ?_
    rw [encChunk, List.map_cons, List.map_map]
    refine congrArg (Kind.flag :: ·) (List.eq_replicate_iff.mpr ⟨?_, fun k hk => ?_⟩)
    · rw [List.length_map, chunkSyms, List.length_map, List.length_range']
    · obtain ⟨y, -, rfl⟩ := List.mem_map.mp hk
      rfl

variable (cfg)

theorem emitted_keepRows (h : Ready tbls) (len : TblName → UInt8 → ℕ) (r0 : CompIndex → ℕ)
    (src : Planes) (base : ℕ) (l : List (CompIndex × ℕ)) (prev : Hist) :
    Emitted cfg tbls true l (keepRows cfg len r0 src base l prev).2 := by
  induction l generalizing prev with
  | nil => exact .nil
  | cons cr l ih => exact (emitted_encDeltaRow h len r0 src _ cr).cons (ih _)

theorem emitted_encRows (h : Ready tbls) (img : Planes) (r0 : CompIndex → ℕ)
    (l : List (CompIndex × ℕ)) : Emitted cfg tbls false l (l.flatMap (encRow cfg img r0)) := by
  induction l with
  | nil => exact .nil
  | cons cr l ih => exact (emitted_encRow h img r0 cr).cons ih

variable (P delta_prog)

/-- **What a thread emits is of the rows of its slice.** -/
theorem emitted_threadSteps (h : Ready tbls) {s : Screen} (f : SourceFrame s) (t : ℕ)
    (prev : Hist) :
    Emitted cfg tbls delta_prog (sliceRows cfg (firstStep cfg f.p t) (stepCount cfg f.p t))
      (threadSteps cfg tbls delta_prog f t prev).2 := by
  have hzero : ∀ {i : ℕ}, i = 0 → 0 < i → False := fun h0 hi => (Nat.ne_of_gt hi) h0
  cases delta_prog with
  | false =>
    show Emitted cfg tbls false _ (encodeSteps cfg _ 0 _ _)
    rw [encodeSteps_slice]
    exact emitted_encRows cfg h _ _ _
  | true =>
    show Emitted cfg tbls true _ (deltaSteps cfg _ _ _ 0 _ _ prev).2
    rw [deltaSteps_eq cfg _ _ _ 0 _ _ prev fun hi => (hzero rfl hi).elim]
    have hrows := emitted_keepRows cfg h (codeLen tbls) (fun _ => 0)
      (slicePlanes cfg (imageOf cfg f.info f.frame) (firstStep cfg f.p t))
      (phaseBase cfg s f.info.even_odd +
        f.p.v_adjusted * LOSSLESS_BLOCK_SIZE * cfg.screenWidth * MAX_COMPONENTS * t)
      (sliceRows cfg 0 (stepCount cfg f.p t)) prev
    refine ⟨hrows.hasCode, hrows.kinds.trans ?_⟩
    rw [sliceRows_map cfg (firstStep cfg f.p t), List.flatMap_map]
    rfl

/-- **The bytes of a thread are read back.** -/
theorem sourceThread_read (h : Ready tbls) {s : Screen} (f : SourceFrame s)
    (st : Hist × List (List UInt8)) (t : ℕ) : ∃ bytes,
    sourceThread P cfg tbls delta_prog f st t =
        some ((threadSteps cfg tbls delta_prog f t st.1).1, st.2 ++ [bytes]) ∧
      readThread cfg (fun t => (tbls t).1) delta_prog f.p bytes t =
        some (threadSteps cfg tbls delta_prog f t st.1).2 := by
  have hemit := emitted_threadSteps cfg delta_prog h f t st.1
  obtain ⟨dst, hdst, hread⟩ := readStream_finish (P := P) h.accepted hemit.hasCode
  refine ⟨dst.sent.flatten, ?_, ?_⟩
  · rw [sourceThread_eq, hdst]
    rfl
  · rw [readThread, ← hemit.kinds]
    exact hread

/-! ### Reading a frame back -/

/-- What the threads emit, one after the other. -/
def frameEmits (cfg : Cfg) (tbls : TblName → HuffTbl × DerivedTbl) (delta_prog : Bool) {s : Screen}
    (f : SourceFrame s) (n : ℕ) (prev : Hist) : Hist × List (List Put) :=
  (List.range n).foldl (fun st t => ((threadSteps cfg tbls delta_prog f t st.1).1,
    st.2 ++ [(threadSteps cfg tbls delta_prog f t st.1).2])) (prev, [])

theorem frameEmits_succ {s : Screen} (f : SourceFrame s) (n : ℕ) (prev : Hist) :
    frameEmits cfg tbls delta_prog f (n + 1) prev =
      let res := threadSteps cfg tbls delta_prog f n (frameEmits cfg tbls delta_prog f n prev).1
      (res.1, (frameEmits cfg tbls delta_prog f n prev).2 ++ [res.2]) := by
  rw [frameEmits, List.range_succ, List.foldl_append]
  rfl

theorem foldlM_sourceThread (h : Ready tbls) {s : Screen} (f : SourceFrame s) (n : ℕ)
    (prev : Hist) :
    ∃ bytes, (List.range n).foldlM (sourceThread P cfg tbls delta_prog f) (prev, []) =
        some ((frameEmits cfg tbls delta_prog f n prev).1, bytes) ∧ bytes.length = n ∧
      bytes.zipIdx.mapM (fun x => readThread cfg (fun t => (tbls t).1) delta_prog f.p x.1 x.2) =
        some (frameEmits cfg tbls delta_prog f n prev).2 := by
  induction n with
  | zero => exact ⟨[], rfl, rfl, rfl⟩
  | succ n ih =>
    obtain ⟨bss, hrun, hlen, hread⟩ := ih
    obtain ⟨bs, hthread, hbs⟩ := sourceThread_read P cfg delta_prog h f
      ((frameEmits cfg tbls delta_prog f n prev).1, bss) n
    refine ⟨bss ++ [bs], ?_, by rw [List.length_append, hlen]; rfl, ?_⟩
    · rw [List.range_succ, List.foldlM_append, hrun, frameEmits_succ]
      simp only [Option.bind_eq_bind, Option.bind_some, List.foldlM_cons, hthread]
      rfl
    · rw [List.zipIdx_append, List.mapM_append, hread, Nat.zero_add, hlen, frameEmits_succ]
      simp only [Option.bind_eq_bind, Option.bind_some, List.zipIdx_singleton, List.mapM_cons, hbs]
      rfl

/-- **The bytes of a frame are read back.** -/
theorem encodeSourceFrame_read (h : Ready tbls) {s : Screen} (f : SourceFrame s) (prev : Hist) :
    ∃ m, encodeSourceFrame P cfg tbls delta_prog f prev =
        some ((frameEmits cfg tbls delta_prog f f.p.core_count.get prev).1, m) ∧
      readSent cfg (fun t => (tbls t).1) delta_prog m = some ⟨f.p, f.info.even_odd,
        (frameEmits cfg tbls delta_prog f f.p.core_count.get prev).2⟩ := by
  obtain ⟨bytes, hrun, -, hread⟩ := foldlM_sourceThread P cfg delta_prog h f f.p.core_count.get prev
  refine ⟨⟨f.p, f.info.even_odd, bytes⟩, ?_, ?_⟩
  · rw [encodeSourceFrame, hrun]
    rfl
  · rw [readSent]
    simp only [hread]
    rfl

end Puts

/-! ### The image -/

theorem exists_ready {count : ℕ → ℕ → ℕ} (hw : ∀ t : TblName, Weights (count t.bits)) :
    ∃ tbls, (∀ t : TblName, losslessTbl (count t.bits) t = some (tbls t)) ∧ Ready tbls := by
  choose huff entropy htbl hentropy hcode using fun t : TblName => losslessTbl_spec (hw t) t
  exact ⟨fun t => (huff t, entropy t), htbl, hentropy, fun t c p => hcode t c p⟩

/-- The weights as `once` computes them, with the square root taken exactly. -/
def sqrtWeights (bits i : ℕ) : ℕ :=
  if 24 ≤ i then 2 else Nat.sqrt (2 ^ (26 - i) * if i = 0 then 2 ^ (9 - bits) else 1)

theorem weights_sqrtWeights (t : TblName) : Weights (sqrtWeights t.bits) where
  rare _ hi := if_pos hi
  two_le i := by
    unfold sqrtWeights
    split_ifs with hi h0
    · exact Nat.le_refl 2
    · subst h0
      exact Nat.le_sqrt.mpr (by cases t <;> decide)
    · refine Nat.le_sqrt.mpr ?_
      calc 2 * 2 ≤ 2 ^ 3 := by decide
        _ ≤ 2 ^ (26 - i) := Nat.pow_le_pow_right Nat.two_pos (by omega)
        _ = 2 ^ (26 - i) * 1 := (Nat.mul_one _).symm
  four_le := by
    rw [sqrtWeights, if_neg (by decide), if_neg (by decide)]
    exact Nat.le_sqrt.mpr (by decide)
  le i h0 := by
    unfold sqrtWeights
    rw [if_neg h0, Nat.mul_one]
    split_ifs with hi
    · decide
    · refine Nat.le_of_lt_succ (Nat.sqrt_lt.mpr ?_)
      calc 2 ^ (26 - i) ≤ 2 ^ 26 := Nat.pow_le_pow_right Nat.two_pos (Nat.sub_le 26 i)
        _ < (2 ^ 13 + 1) * (2 ^ 13 + 1) := by decide
  zero_le := by
    rw [sqrtWeights, if_neg (by decide), if_pos rfl]
    exact Nat.le_of_lt_succ (Nat.sqrt_lt.mpr (by cases t <;> decide))

/-- Every second pixel of a line, with chroma subsampled both ways and a bias. -/
def bottomCfg : Cfg := ⟨.ss420, .evenOdd, .bias1, by decide⟩

/-- A frame of the bottom screen, for two threads. -/
def bottomFrame (even_odd : Bool) : SourceFrame ⟨false, .left⟩ :=
  ⟨⟨.two, 10, 10, rfl⟩, ⟨.rgb565, even_odd⟩, fun l k => UInt8.ofNat (l * k),
    fun _ _ => ⟨fun _ => 1, fun _ => 2, fun _ => 3⟩⟩

/-- **A frame is read back from its bytes**: whatever the partition, the format and the lines of the
screen, and whatever was in the buffers and in the receiver's planes, the tables are made, the
threads write their bytes, and the receiver gets from them the top bits of every sample of the
image. -/
theorem sourceFrame_read (P : PacketDataSize) (cfg : Cfg) {count : ℕ → ℕ → ℕ}
    (hw : ∀ t : TblName, Weights (count t.bits)) {s : Screen} (f : SourceFrame s) (prev : Hist)
    (img : Planes) :
    ∃ tbls, (∀ t : TblName, losslessTbl (count t.bits) t = some (tbls t)) ∧ ∃ m img',
      encodeSourceFrame P cfg tbls false f prev = some (prev, m) ∧
      receiveFrame cfg (fun t => (tbls t).1) m img = some img' ∧
      ∀ c r x, Valid cfg s c r x →
        img' c r x = (cfg.tbl c).trunc (imageOf cfg f.info f.frame c r x) := by
  obtain ⟨tbls, htbls, hready⟩ := exists_ready hw
  have hemits : frameEmits cfg tbls false f f.p.core_count.get prev =
      (prev, (List.range f.p.core_count.get).map fun t =>
        encodeSlice cfg f.p (imageOf cfg f.info f.frame) t fun c => (f.bufs t c).buf) := by
    generalize f.p.core_count.get = n
    induction n with
    | zero => rfl
    | succ n ih =>
      rw [frameEmits_succ, ih, List.range_succ, List.map_append]
      rfl
  obtain ⟨m, hm, hread⟩ := encodeSourceFrame_read P cfg false hready f prev
  rw [hemits] at hm hread
  obtain ⟨img', h1, h2⟩ := decodeThreads_spec f.p
    (fun img t => decodeSlice cfg (decodeRow cfg) (firstStep cfg f.p t) (stepCount cfg f.p t) img
      (encodeSlice cfg f.p (imageOf cfg f.info f.frame) t fun c => (f.bufs t c).buf)) img
    (fun img1 t _ _ => by
      rw [encodeSlice, encodeSteps_slice]
      exact decodeSlice_spec cfg fun next c img' rest hr _ h => decodeRow_spec rest hr h)
  refine ⟨tbls, htbls, m, img', hm, ?_, fun c r x hv => ?_⟩
  · rw [receiveFrame, hread, Option.bind_eq_bind, Option.bind_some, decodeFrame_map]
    exact h1
  · rw [h2 c r x hv.2, if_pos ⟨Nat.zero_le _, hv.1⟩]

theorem sourceFrame_read_bottom :
    ∃ tbls, (∀ t : TblName, losslessTbl (sqrtWeights t.bits) t = some (tbls t)) ∧ ∃ m img',
      encodeSourceFrame (packetDataSize true true) bottomCfg tbls false (bottomFrame true)
        (fun _ => 0) = some (fun _ => 0, m) ∧
      receiveFrame bottomCfg (fun t => (tbls t).1) m (fun _ _ _ => 7) = some img' ∧
      ∀ c r x, Valid bottomCfg ⟨false, .left⟩ c r x → img' c r x = (bottomCfg.tbl c).trunc
        (imageOf bottomCfg ⟨.rgb565, true⟩ (bottomFrame true).frame c r x) :=
  sourceFrame_read _ _ weights_sqrtWeights (bottomFrame true) (fun _ => 0) (fun _ _ _ => 7)

/-- A frame as the delta coder sees it. -/
def SourceFrame.deltaFrame (cfg : Cfg) {s : Screen} (f : SourceFrame s) : DeltaFrame s :=
  ⟨f.p, f.info.even_odd, imageOf cfg f.info f.frame, fun t c => (f.bufs t c).buf⟩

/-- **The bytes of a run are those of the delta coder.** -/
theorem encodeSourceRun_read (P : PacketDataSize) (cfg : Cfg)
    {tbls : TblName → HuffTbl × DerivedTbl} (h : Ready tbls) {s : Screen}
    (fs : List (SourceFrame s)) (prev : Hist) : ∃ ms,
    encodeSourceRun P cfg tbls fs prev = some ms ∧
      ms.mapM (readSent cfg (fun t => (tbls t).1) true) =
        some (encodeRun cfg (codeLen tbls) (fs.map fun f => f.deltaFrame cfg) prev).2 := by
  induction fs generalizing prev with
  | nil => exact ⟨[], rfl, rfl⟩
  | cons f fs ih =>
    obtain ⟨m, hm, hread⟩ := encodeSourceFrame_read P cfg true h f prev
    have hframe : frameEmits cfg tbls true f f.p.core_count.get prev =
        (List.range (f.deltaFrame cfg).p.core_count.get).foldl
          (deltaThread cfg (codeLen tbls) (f.deltaFrame cfg)) (prev, []) := rfl
    obtain ⟨ms, hms, hreads⟩ := ih (frameEmits cfg tbls true f f.p.core_count.get prev).1
    refine ⟨m :: ms, ?_, ?_⟩
    · rw [encodeSourceRun, hm]
      simp only [Option.bind_eq_bind, Option.bind_some, hms]
      rfl
    · rw [List.mapM_cons, hread]
      simp only [Option.bind_eq_bind, Option.bind_some, hreads]
      rw [hframe]
      rfl

/-- **A run of delta-coded frames is read back from its bytes**: from the zeroed state, whatever the
frames of the screen are, their partitions, formats and phases, and whatever the threads' buffers
hold, the receiver gets the top bits of every sample of the image of every frame. -/
theorem sourceRun_read (P : PacketDataSize) (cfg : Cfg) {count : ℕ → ℕ → ℕ}
    (hw : ∀ t : TblName, Weights (count t.bits)) {s : Screen} (fs : List (SourceFrame s)) :
    ∃ tbls, (∀ t : TblName, losslessTbl (count t.bits) t = some (tbls t)) ∧ ∃ ms imgs,
      encodeSourceRun P cfg tbls fs (fun _ => 0) = some ms ∧
      receiveRun cfg (fun t => (tbls t).1) ms (fun _ _ _ _ => 0) = some imgs ∧
      List.Forall₂ (fun f img => ∀ c r x, Valid cfg s c r x →
        img c r x = (cfg.tbl c).trunc (imageOf cfg f.info f.frame c r x)) fs imgs := by
  obtain ⟨tbls, htbls, hready⟩ := exists_ready hw
  obtain ⟨ms, hms, hread⟩ := encodeSourceRun_read P cfg hready fs fun _ => 0
  have hsync : InSync cfg s (fun _ => 0) fun _ _ _ _ => 0 :=
    fun e c r x _ => (cfg.tbl c).trunc_zero.symm
  obtain ⟨imgs, himgs, hall⟩ :=
    @decodeRun_spec cfg (codeLen tbls) s (fs.map fun f => f.deltaFrame cfg) _ _ hsync
  refine ⟨tbls, htbls, ms, imgs, hms, ?_, List.forall₂_map_left_iff.mp hall⟩
  rw [receiveRun, hread]
  exact himgs

theorem sourceRun_read_bottom :
    ∃ tbls, (∀ t : TblName, losslessTbl (sqrtWeights t.bits) t = some (tbls t)) ∧ ∃ ms imgs,
      encodeSourceRun (packetDataSize true true) bottomCfg tbls
        [bottomFrame false, bottomFrame true]
        (fun _ => 0) = some ms ∧
      receiveRun bottomCfg (fun t => (tbls t).1) ms (fun _ _ _ _ => 0) = some imgs ∧
      List.Forall₂ (fun f img => ∀ c r x, Valid bottomCfg ⟨false, .left⟩ c r x →
        img c r x = (bottomCfg.tbl c).trunc (imageOf bottomCfg f.info f.frame c r x))
        [bottomFrame false, bottomFrame true] imgs :=
  sourceRun_read _ _ weights_sqrtWeights [bottomFrame false, bottomFrame true]

end RemotePlay.Lossless
