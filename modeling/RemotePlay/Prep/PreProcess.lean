import RemotePlay.Prep.Color
import RemotePlay.Lossless.Plane
import RemotePlay.Lib.Raster
import Mathlib.Tactic.FinCases

/-! # Pre-processing

The lines of the screen go through the buffers of a worker: colour conversion leaves the samples of
a few lines in a component's own buffer, or in its part of `bufs.prep` if they are not to be
averaged, and the averages go from one buffer to the next.  Every access is within the size of its
buffer. -/

namespace RemotePlay.Prep

open RemotePlay.Lossless RemotePlay.Lib.Raster

/-- The rows of blocks. -/
def DCTSIZE : ℕ := 8

/-- `downsample_screen_width`. -/
def downsampleScreenWidth : Downsample → ℕ
  | .quarter | .evenOdd => GSP_SCREEN_WIDTH / DOWNSAMPLE_FACTOR
  | _ => GSP_SCREEN_WIDTH

/-- `need_subsamp_ci`. -/
def needSubsampCi (h_samp v_samp : Bool) (ci : CompIndex) : Bool := (h_samp || v_samp) && ci ≠ 0

/-! ### The buffers -/

/-- `worker_buf_comps_size`. -/
def workerBufCompsSize (width : ℕ) : ℕ :=
  width * SAMP_FACTOR * DCTSIZE + width / SAMP_FACTOR * DCTSIZE * (MAX_COMPONENTS - 1)

/-- The part of a component that `WorkerBufComps::get` and `get_mut` return, by its start and its
end. -/
def getMut (size : ℕ) (ci : CompIndex) (h_samp v_samp : Bool) : Option (ℕ × ℕ) :=
  match h_samp, v_samp with
  | true, true =>
    let width_dct := size / MAX_COMPONENTS
    let y_size := width_dct * SAMP_FACTOR
    let u_v_size := (size - y_size) / (MAX_COMPONENTS - 1)
    match ci with
    | 2 => some (y_size + u_v_size, size)
    | 1 => some (y_size, y_size + u_v_size)
    | _ => some (0, y_size)
  | true, false =>
    let width_dct := size / MAX_COMPONENTS
    let y_size := width_dct
    let u_v_size := width_dct / SAMP_FACTOR
    match ci with
    | 2 => some (y_size + u_v_size, y_size + u_v_size * 2)
    | 1 => some (y_size, y_size + u_v_size)
    | _ => some (0, y_size)
  | false, true => none
  | false, false =>
    let width_dct := size / MAX_COMPONENTS
    some (width_dct * ci, width_dct * (ci + 1))

/-- The buffers of a component: its own one, the one of `prep.quarter`, and its part of
`bufs.prep`. -/
structure CompBufs where
  color : ℕ → UInt8
  prep : ℕ → UInt8
  buf : ℕ → UInt8

/-- `WorkerBufs`: the parts of the components do not overlap (`getMut_apart`). -/
abbrev WorkerBufs := CompIndex → CompBufs

/-- The sizes of the buffers. -/
def colorSize (downsample : Downsample) : ℕ :=
  downsampleScreenWidth (if downsample = .evenOdd then .evenOdd else .none) * SAMP_FACTOR

/-- The size of a part of `prep.quarter`. -/
def prepSize : ℕ := downsampleScreenWidth .quarter * DOWNSAMPLE_FACTOR

/-- The size of a component's part of `bufs.prep`. -/
def bufSize (downsample : Downsample) (h_samp v_samp : Bool) (ci : CompIndex) : ℕ :=
  match getMut (workerBufCompsSize (downsampleScreenWidth downsample)) ci h_samp v_samp with
  | some (lo, hi) => hi - lo
  | none => 0

/-- A loop over the components. -/
def forComps (f : CompIndex → CompBufs → Option CompBufs) (bufs : WorkerBufs) : Option WorkerBufs :=
  (List.finRange 3).foldlM (fun bufs ci => do
    let b ← f ci (bufs ci)
    return Function.update bufs ci b) bufs

/-- The parts of the components are inside `bufs.prep` and do not overlap. -/
theorem getMut_apart (downsample : Downsample) (h_samp v_samp : Bool) {ci ci' : CompIndex}
    (hlt : ci < ci') :
    ∀ p ∈ getMut (workerBufCompsSize (downsampleScreenWidth downsample)) ci h_samp v_samp,
    ∀ p' ∈ getMut (workerBufCompsSize (downsampleScreenWidth downsample)) ci' h_samp v_samp,
      p.2 ≤ p'.1 ∧ p'.2 ≤ workerBufCompsSize (downsampleScreenWidth downsample) := by
  revert ci ci'
  cases downsample <;> cases h_samp <;> cases v_samp <;> decide

theorem forComps_eq {f : CompIndex → CompBufs → Option CompBufs} {bufs g : WorkerBufs}
    (h : ∀ ci, f ci (bufs ci) = some (g ci)) : forComps f bufs = some g := by
  have hcomps : (List.finRange 3) = [0, 1, 2] := rfl
  have h1 : Function.update bufs 0 (g 0) 1 = bufs 1 := rfl
  have h2 : Function.update (Function.update bufs 0 (g 0)) 1 (g 1) 2 = bufs 2 := rfl
  simp only [forComps, hcomps, List.foldlM_cons, List.foldlM_nil, h 0, Option.bind_eq_bind,
    Option.bind_some, h1, h 1, h2, h 2, Option.pure_def, Option.some.injEq]
  funext ci
  fin_cases ci <;> rfl

theorem forComps_exists {f : CompIndex → CompBufs → Option CompBufs} {bufs : WorkerBufs}
    {Q : CompIndex → CompBufs → Prop} (h : ∀ ci, ∃ b, f ci (bufs ci) = some b ∧ Q ci b) :
    ∃ bufs', forComps f bufs = some bufs' ∧ ∀ ci, Q ci (bufs' ci) := by
  choose g hg hQ using h
  exact ⟨g, forComps_eq hg, hQ⟩

/-! ### Colour conversion -/

/-- `StartStep`: all pixels of a line, or every second one. -/
inductive StartStep
  | normal | even | odd
  deriving DecidableEq, Repr

/-- `get_start_step`. -/
def StartStep.start : StartStep → ℕ
  | .odd => 1
  | _ => 0

/-- The distance of the pixels taken. -/
def StartStep.step : StartStep → ℕ
  | .normal => 1
  | _ => 2

/-- `out_width`. -/
def StartStep.outWidth (s : StartStep) : ℕ := GSP_SCREEN_WIDTH / s.step

/-- A line of the source, of `pitch` bytes. -/
abbrev Line := ℕ → UInt8

/-- `color.ptr`: the buffer of the component, or a place in its part of `bufs.prep`. -/
inductive ColorPtr
  | own
  | prep (at_ : ℕ)

/-- What of `Info` is read. -/
structure Info where
  color_space : ColorSpace
  even_odd : Bool

section

variable (info : Info)

/-- The bytes of a pixel, within the line. -/
def readPixel (input : Line) (x : ℕ) : Option Rgb :=
  let P := getBppForFormat info.color_space
  if (x + 1) * P ≤ GSP_SCREEN_WIDTH * P then
    some (pixelComps info.color_space fun k => input (x * P + k))
  else none

section

variable (downsample : Downsample) (h_samp v_samp : Bool)

/-- A sample written at `color.ptr`. -/
def CompBufs.put (ci : CompIndex) (ptr : ColorPtr) (a : ℕ) (v : UInt8) (b : CompBufs) :
    Option CompBufs :=
  match ptr with
  | .own => do
    let color ← write (colorSize downsample) b.color a v
    return { b with color := color }
  | .prep at_ => do
    let buf ← write (bufSize downsample h_samp v_samp ci) b.buf (at_ + a) v
    return { b with buf := buf }

/-- A pixel in `cconvert` and `cconvert2`. -/
def cconvertPixel (start_step : StartStep) (ptr : CompIndex → ColorPtr) (i : ℕ)
    (input : Line) (bufs : WorkerBufs) (x : ℕ) : Option WorkerBufs := do
  let p ← readPixel info input (x * start_step.step + start_step.start)
  forComps (fun ci => CompBufs.put downsample h_samp v_samp ci (ptr ci)
    (start_step.outWidth * i + x) (pconvert p ci)) bufs

/-- A line in `cconvert` and `cconvert2`. -/
def cconvertLine (start_step : StartStep) (ptr : CompIndex → ColorPtr) (i : ℕ)
    (input : Line) (bufs : WorkerBufs) : Option WorkerBufs :=
  (List.range start_step.outWidth).foldlM
    (cconvertPixel info downsample h_samp v_samp start_step ptr i input) bufs

/-- The next line, if there is one; the lines left are returned too. -/
def cconvertNext (start_step : StartStep) (ptr : CompIndex → ColorPtr)
    (s : List Line × WorkerBufs) (i : ℕ) : Option (List Line × WorkerBufs) :=
  match s.1 with
  | [] => some s
  | line :: input => do
    let bufs ← cconvertLine info downsample h_samp v_samp start_step ptr i line s.2
    return (input, bufs)

/-- `cconvert` and `cconvert2`. -/
def cconvert (N : ℕ) (start_step : StartStep) (ptr : CompIndex → ColorPtr)
    (input : List Line) (bufs : WorkerBufs) : Option (List Line × WorkerBufs) :=
  (List.range N).foldlM (cconvertNext info downsample h_samp v_samp start_step ptr) (input, bufs)

/-- `color.ptr` of a component. -/
def colorPtr (S : ℕ) (start_step : StartStep) (output_base : ℕ) (ci : CompIndex) : ColorPtr :=
  if downsample = .quarter ∨ needSubsampCi h_samp v_samp ci then .own
  else .prep (output_base * S * start_step.outWidth)

/-- `color_convert`. -/
def colorConvert (S : ℕ) (start_step : StartStep) (input : List Line)
    (output_base : ℕ) (bufs : WorkerBufs) : Option (List Line × WorkerBufs) :=
  cconvert info downsample h_samp v_samp S start_step
    (colorPtr downsample h_samp v_samp S start_step output_base) input bufs

end

/-- `color_convert_full`. -/
def colorConvertFull (S : ℕ) (h_samp v_samp : Bool) (input : List Line) (output_base : ℕ) :=
  colorConvert info .none h_samp v_samp S .normal input output_base

/-- `color_convert_even_odd`. -/
def colorConvertEvenOdd (S : ℕ) (h_samp v_samp : Bool) (input : List Line) (output_base : ℕ) :=
  if info.even_odd = false then
    colorConvert info .evenOdd h_samp v_samp S .even input output_base
  else colorConvert info .evenOdd h_samp v_samp S .odd input output_base

/-- `color_convert_quarter_vsamp` and `color_convert_quarter_novsamp`. -/
def colorConvertQuarter (h_samp v_samp : Bool) (input : List Line) :=
  colorConvert info .quarter h_samp v_samp DOWNSAMPLE_FACTOR .normal input 0

end

/-! ### Averages -/

/-- A turn of `h2v1_downsample`, which goes from `input` to the place `at_` of a buffer. -/
def h2v1Step (input : ℕ → Option UInt8) (size at_ : ℕ) (s : (ℕ → UInt8) × ℕ) (k : ℕ) :
    Option ((ℕ → UInt8) × ℕ) := do
  let input0 ← input (2 * k)
  let input1 ← input (2 * k + 1)
  let output ← write size s.1 (at_ + k) (UInt8.ofNat ((input0.toNat + input1.toNat + s.2) >>> 1))
  return (output, s.2 ^^^ 1)

/-- `h2v1_downsample`. -/
def h2v1Downsample (width : ℕ) (input : ℕ → Option UInt8) (size : ℕ) (output : ℕ → UInt8)
    (at_ : ℕ) : Option (ℕ → UInt8) := do
  let s ← (List.range (width / SAMP_FACTOR)).foldlM (h2v1Step input size at_) (output, 0)
  return s.1

/-- A turn of `h2v2_downsample`. -/
def h2v2Step (width : ℕ) (input : ℕ → Option UInt8) (size at_ : ℕ) (s : (ℕ → UInt8) × ℕ) (k : ℕ) :
    Option ((ℕ → UInt8) × ℕ) := do
  let input00 ← input (2 * k)
  let input01 ← input (2 * k + 1)
  let input10 ← input (width + 2 * k)
  let input11 ← input (width + (2 * k + 1))
  let output ← write size s.1 (at_ + k) (UInt8.ofNat
    ((input00.toNat + input01.toNat + input10.toNat + input11.toNat + s.2) >>> 2))
  return (output, s.2 ^^^ 3)

/-- `h2v2_downsample`. -/
def h2v2Downsample (width : ℕ) (input : ℕ → Option UInt8) (size : ℕ) (output : ℕ → UInt8)
    (at_ : ℕ) : Option (ℕ → UInt8) := do
  let s ← (List.range (width / SAMP_FACTOR)).foldlM (h2v2Step width input size at_) (output, 1)
  return s.1

section

variable (h_samp v_samp : Bool)

/-- What `downsample_full`, `downsample_quarter` and `downsample_even_odd` do for a component, from
the buffer that `input` reads. -/
def downsampleComp (downsample : Downsample) (input : CompBufs → ℕ → Option UInt8) (output_base : ℕ)
    (ci : CompIndex) (b : CompBufs) : Option CompBufs :=
  if needSubsampCi h_samp v_samp ci then do
    let width := downsampleScreenWidth downsample
    let out_width := width / SAMP_FACTOR
    let size := bufSize downsample h_samp v_samp ci
    let buf ←
      if v_samp then h2v2Downsample width (input b) size b.buf (output_base * out_width)
      else h2v1Downsample width (input b) size b.buf (output_base * out_width)
    return { b with buf := buf }
  else some b

/-- `downsample_full`. -/
def downsampleFull (bufs : WorkerBufs) (output_base : ℕ) : Option WorkerBufs :=
  forComps (downsampleComp h_samp v_samp .none (fun b => read (colorSize .none) b.color)
    output_base) bufs

/-- `downsample_even_odd`. -/
def downsampleEvenOdd (bufs : WorkerBufs) (output_base : ℕ) : Option WorkerBufs :=
  forComps (downsampleComp h_samp v_samp .evenOdd (fun b => read (colorSize .evenOdd) b.color)
    output_base) bufs

/-- `downsample_quarter`. -/
def downsampleQuarter (output_base : ℕ) (ci : CompIndex) (b : CompBufs) : Option CompBufs :=
  downsampleComp h_samp v_samp .quarter (fun b => read prepSize b.prep) output_base ci b

/-- The average of the lines in the component's own buffer, in `prep.quarter`. -/
def quarterToPrep (at_ : ℕ) (b : CompBufs) : Option CompBufs := do
  let prep ← h2v2Downsample (downsampleScreenWidth .none) (read (colorSize .quarter) b.color)
    prepSize b.prep at_
  return { b with prep := prep }

/-- It, in the component's part of `bufs.prep`. -/
def quarterToBuf (at_ : ℕ) (ci : CompIndex) (b : CompBufs) : Option CompBufs := do
  let buf ← h2v2Downsample (downsampleScreenWidth .none) (read (colorSize .quarter) b.color)
    (bufSize .quarter h_samp v_samp ci) b.buf at_
  return { b with buf := buf }

/-- It, in the one or the other. -/
def quarterAvg (prep_at buf_at : ℕ) (ci : CompIndex) (b : CompBufs) : Option CompBufs :=
  if needSubsampCi h_samp v_samp ci then quarterToPrep prep_at b
  else quarterToBuf h_samp v_samp buf_at ci b

end

/-! ### The functions that `encode` calls -/

/-- Turns of a loop over `output_base`. -/
def forBases (n start : ℕ) (f : List Line → WorkerBufs → ℕ → Option (List Line × WorkerBufs))
    (input : List Line) (bufs : WorkerBufs) : Option (List Line × WorkerBufs) :=
  (List.range n).foldlM (fun s k => f s.1 s.2 (start + k)) (input, bufs)

section

variable (info : Info)

/-- A turn of `pre_process_full` and `pre_process_full_novsamp`. -/
def fullTurn (S : ℕ) (h_samp v_samp : Bool) (input : List Line) (bufs : WorkerBufs)
    (output_base : ℕ) : Option (List Line × WorkerBufs) := do
  let (input, bufs) ← colorConvertFull info S h_samp v_samp input output_base bufs
  let bufs ← downsampleFull h_samp v_samp bufs output_base
  return (input, bufs)

/-- `pre_process_full`. -/
def preProcessFull (count start : ℕ) := forBases count start (fullTurn info SAMP_FACTOR true true)

/-- `pre_process_full_novsamp`. -/
def preProcessFullNovsamp (h_samp : Bool) (count start : ℕ) :=
  forBases count start (fullTurn info 1 h_samp false)

/-- A turn of `pre_process_even_odd` and `pre_process_even_odd_novsamp`. -/
def evenOddTurn (S : ℕ) (h_samp v_samp : Bool) (input : List Line) (bufs : WorkerBufs)
    (output_base : ℕ) : Option (List Line × WorkerBufs) := do
  let (input, bufs) ← colorConvertEvenOdd info S h_samp v_samp input output_base bufs
  let bufs ← downsampleEvenOdd h_samp v_samp bufs output_base
  return (input, bufs)

/-- `pre_process_even_odd`. -/
def preProcessEvenOdd (count start : ℕ) :=
  forBases count start (evenOddTurn info SAMP_FACTOR true true)

/-- `pre_process_even_odd_novsamp`. -/
def preProcessEvenOddNovsamp (h_samp : Bool) (count start : ℕ) :=
  forBases count start (evenOddTurn info 1 h_samp false)

/-- A turn of the loop over `prep_base` in `do_pre_process_quarter`. -/
def quarterTurn (output_base : ℕ) (s : List Line × WorkerBufs) (prep_base : ℕ) :
    Option (List Line × WorkerBufs) := do
  let out_width := downsampleScreenWidth .none / SAMP_FACTOR
  let (input, bufs) ← colorConvertQuarter info true true s.1 s.2
  let bufs ← forComps (quarterAvg true true (out_width * prep_base)
    (out_width * (output_base * SAMP_FACTOR + prep_base))) bufs
  return (input, bufs)

/-- `do_pre_process_quarter`. -/
def doPreProcessQuarter (input : List Line) (bufs : WorkerBufs) (output_base : ℕ) :
    Option (List Line × WorkerBufs) := do
  let s ← (List.range SAMP_FACTOR).foldlM (quarterTurn info output_base) (input, bufs)
  let bufs ← forComps (downsampleQuarter true true output_base) s.2
  return (s.1, bufs)

/-- `pre_process_quarter`. -/
def preProcessQuarter (count start : ℕ) := forBases count start (doPreProcessQuarter info)

/-- A component in `pre_process_quarter_novsamp`. -/
def quarterNovsampComp (output_base : ℕ) (ci : CompIndex) (b : CompBufs) : Option CompBufs := do
  let out_width := downsampleScreenWidth .none / SAMP_FACTOR
  let b ← quarterAvg true false 0 (out_width * output_base) ci b
  downsampleQuarter true false output_base ci b

/-- A turn of `pre_process_quarter_novsamp`. -/
def quarterNovsampTurn (input : List Line) (bufs : WorkerBufs) (output_base : ℕ) :
    Option (List Line × WorkerBufs) := do
  let (input, bufs) ← colorConvertQuarter info true false input bufs
  let bufs ← forComps (quarterNovsampComp output_base) bufs
  return (input, bufs)

/-- `pre_process_quarter_novsamp`. -/
def preProcessQuarterNovsamp (count start : ℕ) := forBases count start (quarterNovsampTurn info)

/-- A turn of `pre_process_quarter_nohsamp_novsamp`. -/
def quarterNosampTurn (input : List Line) (bufs : WorkerBufs) (output_base : ℕ) :
    Option (List Line × WorkerBufs) := do
  let out_width := downsampleScreenWidth .none / SAMP_FACTOR
  let (input, bufs) ← colorConvertQuarter info false false input bufs
  let bufs ← forComps (quarterToBuf false false (out_width * output_base)) bufs
  return (input, bufs)

/-- `pre_process_quarter_nohsamp_novsamp`. -/
def preProcessQuarterNohsampNovsamp (count start : ℕ) :=
  forBases count start (quarterNosampTurn info)

/-- The one of these that is called for a screen. -/
def preProcess (downsample : Downsample) (hss vss : Bool) (count start : ℕ) :
    List Line → WorkerBufs → Option (List Line × WorkerBufs) :=
  match downsample with
  | .quarter =>
    if vss then preProcessQuarter info count start
    else if hss then preProcessQuarterNovsamp info count start
    else preProcessQuarterNohsampNovsamp info count start
  | .evenOdd =>
    if vss then preProcessEvenOdd info count start
    else if hss then preProcessEvenOddNovsamp info true count start
    else preProcessEvenOddNovsamp info false count start
  | _ =>
    if vss then preProcessFull info count start
    else if hss then preProcessFullNovsamp info true count start
    else preProcessFullNovsamp info false count start

/-- The row that `pre_process_quarter_rem` copies for `i` and `j`. -/
def copyRow (n i vs width size : ℕ) (buf : ℕ → UInt8) (j : ℕ) : Option (ℕ → UInt8) :=
  let k := i - n
  -- `l` does not go below 0
  if k ≤ n ∧ j + 1 ≤ (n - k) * vs then
    let l := (n - k) * vs - j - 1
    let m := i * vs + j
    copy size buf (width * l) (width * m) width
  else none

/-- Its rows of a component for `i`. -/
def copyRows (n i : ℕ) (ci : CompIndex) (b : CompBufs) : Option CompBufs := do
  let samp_factor := if needSubsampCi true true ci then SAMP_FACTOR else 1
  let width := downsampleScreenWidth .quarter / samp_factor
  let vs := SAMP_FACTOR / samp_factor
  let buf ← (List.range vs).foldlM (copyRow n i vs width (bufSize .quarter true true ci)) b.buf
  return { b with buf := buf }

/-- `pre_process_quarter_rem`. -/
def preProcessQuarterRem (count src_count : ℕ) (input : List Line) (bufs : WorkerBufs) :
    Option (Bool × List Line × WorkerBufs) := do
  let n := src_count / (SAMP_FACTOR * DOWNSAMPLE_FACTOR)
  let (input, bufs) ← forBases n 0 (doPreProcessQuarter info) input bufs
  if n = 0 then return (false, input, bufs)
  else do
    let bufs ← (List.range' n (count - n)).foldlM (fun bufs i => forComps (copyRows n i) bufs) bufs
    return (true, input, bufs)

end

end RemotePlay.Prep
