import RemotePlay.Config
import RemotePlay.Lib.Threads

/-! # Dispatching frames

The screen thread captures the two screens, one at a time, into image buffers by DMA, and the
encoder threads encode what has been captured, each a slice of it.  Two work slots are used in
turn.  The first thread to arrive at a frame leads it: it fills in the slot's `BlitCtx`, skips the
frame if nothing has changed, which makes the screen thread capture again for this thread only, and
otherwise releases the other threads.  While a frame is encoded one of the threads asks for the next
one to be captured.

Every acquire and release, and every access to a flag or an index that threads share, is a step of
its own; a semaphore is its count.  The threads are not reset, and what else they wait for only
delays them. A state also remembers which threads have led a frame, how many frames have been
released to all threads, the image buffers in use, and what each thread has encoded. -/

namespace RemotePlay.Work.Dispatch

open Function (update)

/-- `next_wrapped` of a `Ranged<2>`: `WorkIndex` or `ImgWorkIndex`. -/
def nextWrapped (i : ℕ) : ℕ := (i + 1) % WORK_COUNT

/-- An image buffer: an element of `bufs` in `IMG_INFOS`. -/
structure ImgBuf where
  is_top : Bool
  index : ℕ
  deriving DecidableEq, Repr

/-- `BlitCtx`, and the number of frames that had been released when it was filled in. -/
structure BlitCtx where
  is_top : Bool
  src : ImgBuf
  should_capture : Bool
  frame : ℕ

/-- Where the screen thread is. -/
inductive ScreenPc
  /-- Waiting for `screen_ready`. -/
  | waitReady
  /-- About to read `work_index`. -/
  | readIndex
  /-- About to read `work_done_flag`. -/
  | checkFlag (w : ℕ)
  /-- Waiting for `work_done`. -/
  | waitDone (w : ℕ)
  /-- About to set `work_done_flag`. -/
  | setFlag (w : ℕ)
  /-- In `do_screen`: about to read `work_index`. -/
  | doScreen
  /-- About to read `img_info`. -/
  | readImg (is_top : Bool) (w : ℕ)
  /-- About to start the DMA. -/
  | capture (is_top : Bool) (w : ℕ) (img : ImgBuf)
  /-- About to store the slot's `WorkReadyParams`. -/
  | setParams (is_top : Bool) (w : ℕ)
  /-- About to read `skip_frames`. -/
  | readSkip (w : ℕ)
  /-- About to release `thread_ready` of the thread that skipped. -/
  | releaseOne
  /-- About to release `thread_ready` of each thread from `j` on. -/
  | releaseAll (j : ℕ)
  deriving DecidableEq, Repr

/-- Where an encoder thread is. -/
inductive EncoderPc
  /-- Waiting for `thread_ready`. -/
  | waitThread
  /-- About to swap `work_ready_flag`. -/
  | swapReady
  /-- About to fill in `BlitCtx`. -/
  | initBctx
  /-- Waiting for the DMA. -/
  | sync
  /-- In `skip_frame`. -/
  | skipFrame
  /-- About to set `skip_frames`. -/
  | skipSet
  /-- About to store `thread_index`. -/
  | skipIndex
  /-- About to release `screen_ready` after a skip. -/
  | skipRelease
  /-- Waiting for `thread_ready` after a skip. -/
  | skipWait
  /-- About to go on to the screen's next image buffer. -/
  | imgNext
  /-- About to clear `skip_frames`. -/
  | clearSkip
  /-- About to clear `work_done_flag`. -/
  | clearFlag
  /-- About to release `work_ready` of each other thread from `j` on. -/
  | releaseWork (j : ℕ)
  /-- Waiting for `work_ready`. -/
  | waitWork
  /-- Encoding. -/
  | encode
  /-- About to go on to the next `work_index`. -/
  | capNext
  /-- About to release `screen_ready`. -/
  | capRelease
  /-- The last to be done: about to clear `work_done_count`. -/
  | clearCount
  /-- About to clear `work_ready_flag`. -/
  | clearReady
  /-- About to release `work_done`. -/
  | releaseDone
  deriving DecidableEq, Repr

/-- An encoder thread, with how many frames it is done with, and the work index and the frame of
each that it has begun to encode. -/
structure Encoder where
  work_index : ℕ
  pc : EncoderPc
  frame : ℕ
  encoded : List (ℕ × ℕ)

end Dispatch

open Dispatch Function

/-- **The shared variables and the threads.**  `thread_ready` and `work_ready` are those of
`SYN_HANDLES.threads`, `work_ready_flag` to `work_done` those of `SYN_HANDLES.works`, and
`work_index` to `skip_frames` those of `PARAMS`; of `WorkReadyParams` there is `is_top`.  The last
three are remembered: the threads that led a frame, how many frames have been released, and the
buffers of those that have been captured and neither skipped nor done. -/
structure Dispatch (c : CoreCount) where
  screen_ready : ℕ
  thread_ready : Fin c.get → ℕ
  work_ready : Fin c.get → ℕ
  work_ready_flag : ℕ → Bool
  work_done_count : ℕ → ℕ
  work_done_flag : ℕ → Bool
  work_done : ℕ → ℕ
  work_index : ℕ
  thread_index : Fin c.get
  work_ready_params : ℕ → Bool
  skip_frames : ℕ → Bool
  blit_ctxes : ℕ → BlitCtx
  img_index : Bool → ℕ
  screen : ScreenPc
  encoders : Fin c.get → Encoder
  leads : ℕ → List (Fin c.get)
  released : ℕ
  captured : ℕ → Option ImgBuf

namespace Dispatch

variable {c : CoreCount}

/-- `init_syn_handles` and the `init` functions. -/
def start (c : CoreCount) : Dispatch c where
  screen_ready := 1
  thread_ready _ := 0
  work_ready _ := 0
  work_ready_flag _ := false
  work_done_count _ := 0
  work_done_flag _ := false
  work_done _ := 1
  work_index := 0
  thread_index := ⟨0, c.get_pos⟩
  work_ready_params _ := false
  skip_frames _ := false
  blit_ctxes _ := ⟨false, ⟨false, 0⟩, false, 0⟩
  img_index _ := 0
  screen := .waitReady
  encoders _ := ⟨0, .waitThread, 0, []⟩
  leads _ := []
  released := 0
  captured _ := none

/-- `rp_need_core_syn!`. -/
def needCoreSyn (c : CoreCount) : Bool := c ≠ .one

variable (s : Dispatch c)

/-- `img_info`. -/
def imgInfo (is_top : Bool) : ImgBuf := ⟨is_top, s.img_index is_top⟩

/-- `img_info_prev`. -/
def imgInfoPrev (is_top : Bool) : ImgBuf := ⟨is_top, nextWrapped (s.img_index is_top)⟩

/-- A step of the screen thread: `ok` says whether a screen could be captured, and `is_top` which
one is chosen. -/
def screenStep (ok is_top : Bool) : Option (Dispatch c) :=
  match s.screen with
  | .waitReady =>
    if 0 < s.screen_ready then
      some { s with screen_ready := s.screen_ready - 1, screen := .readIndex }
    else none
  | .readIndex => some { s with screen := .checkFlag s.work_index }
  | .checkFlag w =>
    some { s with screen := if s.work_done_flag w = true then .doScreen else .waitDone w }
  | .waitDone w =>
    if 0 < s.work_done w then
      some { s with work_done := update s.work_done w (s.work_done w - 1), screen := .setFlag w }
    else none
  | .setFlag w =>
    some { s with work_done_flag := update s.work_done_flag w true, screen := .doScreen }
  | .doScreen =>
    if ok = true then some { s with screen := .readImg is_top s.work_index } else some s
  | .readImg is_top w => some { s with screen := .capture is_top w (s.imgInfo is_top) }
  | .capture is_top w img =>
    if ok = true then
      some { s with
        captured := update s.captured s.released (some img), screen := .setParams is_top w }
    else some { s with screen := .doScreen }
  | .setParams is_top w =>
    some { s with
      work_ready_params := update s.work_ready_params w is_top, screen := .readSkip w }
  | .readSkip w =>
    some { s with screen := if s.skip_frames w = true then .releaseOne else .releaseAll 0 }
  | .releaseOne =>
    some { s with
      thread_ready := update s.thread_ready s.thread_index (s.thread_ready s.thread_index + 1)
      screen := .waitReady }
  | .releaseAll j =>
    if h : j < c.get then
      some { s with
        thread_ready := update s.thread_ready ⟨j, h⟩ (s.thread_ready ⟨j, h⟩ + 1)
        screen := if j + 1 < c.get then .releaseAll (j + 1) else .waitReady }
    else none

/-- A thread goes on within a frame. -/
def goto (t : Fin c.get) (pc : EncoderPc) : Dispatch c :=
  { s with encoders := update s.encoders t { s.encoders t with pc := pc } }

/-- A thread begins to encode from its slot's `BlitCtx`. -/
def begin (t : Fin c.get) : Dispatch c :=
  let e := s.encoders t
  let encoded := e.encoded ++ [(e.work_index, (s.blit_ctxes e.work_index).frame)]
  { s with encoders := update s.encoders t { e with pc := .encode, encoded := encoded } }

/-- A thread goes on to the next frame. -/
def finish (t : Fin c.get) : Dispatch c :=
  let e := s.encoders t
  let e := { e with
    pc := .waitThread, work_index := nextWrapped e.work_index, frame := e.frame + 1 }
  { s with encoders := update s.encoders t e }

/-- A step of an encoder thread: `choice` says whether it skips a frame, or asks for a capture. -/
def encoderStep (t : Fin c.get) (choice : Bool) : Option (Dispatch c) :=
  let w := (s.encoders t).work_index
  match (s.encoders t).pc with
  | .waitThread =>
    if 0 < s.thread_ready t then
      some ({ s with
        thread_ready := update s.thread_ready t (s.thread_ready t - 1) }.goto t .swapReady)
    else none
  | .swapReady =>
    if needCoreSyn c = true ∧ s.work_ready_flag w = true then some (s.goto t .waitWork)
    else
      some ({ s with
        work_ready_flag := update s.work_ready_flag w (s.work_ready_flag w || needCoreSyn c)
        leads := update s.leads (s.encoders t).frame (s.leads (s.encoders t).frame ++ [t]) }.goto t
          .initBctx)
  | .initBctx =>
    let is_top := s.work_ready_params w
    some ({ s with
      blit_ctxes := update s.blit_ctxes w ⟨is_top, s.imgInfo is_top, false, s.released⟩ }.goto
        t .sync)
  | .sync => some (s.goto t .skipFrame)
  | .skipFrame => some (s.goto t (if choice = true then .skipSet else .imgNext))
  | .skipSet =>
    some ({ s with
      skip_frames := update s.skip_frames w true
      captured := update s.captured (s.blit_ctxes w).frame none }.goto t .skipIndex)
  | .skipIndex => some ({ s with thread_index := t }.goto t .skipRelease)
  | .skipRelease => some ({ s with screen_ready := s.screen_ready + 1 }.goto t .skipWait)
  | .skipWait =>
    if 0 < s.thread_ready t then
      some ({ s with
        thread_ready := update s.thread_ready t (s.thread_ready t - 1) }.goto t .initBctx)
    else none
  | .imgNext =>
    let is_top := (s.blit_ctxes w).is_top
    some ({ s with img_index := update s.img_index is_top (nextWrapped (s.img_index is_top)) }.goto
    t
      .clearSkip)
  | .clearSkip => some ({ s with skip_frames := update s.skip_frames w false }.goto t .clearFlag)
  | .clearFlag =>
    let s := { s with
      work_done_flag := update s.work_done_flag w false, released := s.released + 1 }
    some (if needCoreSyn c = true then s.goto t (.releaseWork 0) else s.begin t)
  | .releaseWork j =>
    if h : j < c.get then
      if (⟨j, h⟩ : Fin c.get) = t then some (s.goto t (.releaseWork (j + 1)))
      else
        some ({ s with
          work_ready := update s.work_ready ⟨j, h⟩ (s.work_ready ⟨j, h⟩ + 1) }.goto t
            (.releaseWork (j + 1)))
    else some (s.begin t)
  | .waitWork =>
    if 0 < s.work_ready t then
      some ({ s with work_ready := update s.work_ready t (s.work_ready t - 1) }.begin t)
    else none
  | .encode =>
    if choice = true then
      let b := s.blit_ctxes w
      some ({ s with blit_ctxes := update s.blit_ctxes w { b with should_capture := true } }.goto t
        (if b.should_capture = true then .encode else .capNext))
    else
      let f := s.work_done_count w
      let s := { s with work_done_count := update s.work_done_count w (f + 1) }
      some (if f = c.get - 1 then s.goto t .clearCount else s.finish t)
  | .capNext => some ({ s with work_index := nextWrapped s.work_index }.goto t .capRelease)
  | .capRelease => some ({ s with screen_ready := s.screen_ready + 1 }.goto t .encode)
  | .clearCount =>
    some ({ s with work_done_count := update s.work_done_count w 0 }.goto t .clearReady)
  | .clearReady =>
    some ({ s with work_ready_flag := update s.work_ready_flag w false }.goto t .releaseDone)
  | .releaseDone =>
    some ({ s with
      work_done := update s.work_done w (s.work_done w + 1)
      captured := update s.captured (s.blit_ctxes w).frame none }.finish t)

/-- A step of the screen thread or of an encoder thread. -/
def Step (s s' : Dispatch c) : Prop :=
  (∃ ok is_top, s.screenStep ok is_top = some s') ∨ ∃ t choice, s.encoderStep t choice = some s'

end Dispatch

end RemotePlay.Work
