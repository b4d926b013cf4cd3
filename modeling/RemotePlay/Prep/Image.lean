import RemotePlay.Prep.PreProcess

/-! # The image that is encoded

Every component of the image is made of the pixels of the screen: each, each second of a line, or
the averages of four, and the averages of two or four of these where chroma is subsampled.
Pre-processing leaves the rows of the image in `bufs.prep`, whatever was in the buffers before
(`preProcess_eq`). -/

namespace RemotePlay.Prep

open RemotePlay.Lossless RemotePlay.Lib.Raster

/-! ### The image -/

/-- Averages of two samples of a row; halves go down and up by turns. -/
def avg2 (f : Plane) : Plane := fun l x =>
  UInt8.ofNat (((f l (2 * x)).toNat + (f l (2 * x + 1)).toNat + x % 2) / 2)

/-- Averages of two samples of two rows. -/
def avg4 (f : Plane) : Plane := fun l x =>
  UInt8.ofNat (((f (2 * l) (2 * x)).toNat + (f (2 * l) (2 * x + 1)).toNat +
    (f (2 * l + 1) (2 * x)).toNat + (f (2 * l + 1) (2 * x + 1)).toNat + (1 + x % 2)) / 4)

section

variable (info : Info) (src : ℕ → Line)

/-- The pixels of the screen. -/
def pixel (l x : ℕ) : Rgb :=
  pixelComps info.color_space fun k => src l (x * getBppForFormat info.color_space + k)

/-- The samples of the pixels. -/
def samples (conv : Rgb → CompIndex → UInt8) : Planes := fun ci l x => conv (pixel info src l x) ci

/-- The image before chroma is subsampled. -/
def fullImage (downsample : Downsample) (conv : Rgb → CompIndex → UInt8) : Planes := fun ci =>
  match downsample with
  | .quarter => avg4 (samples info src conv ci)
  | .evenOdd => fun l x => samples info src conv ci l (x * 2 + if info.even_odd then 1 else 0)
  | _ => samples info src conv ci

/-- The image. -/
def image (downsample : Downsample) (h_samp v_samp : Bool) (conv : Rgb → CompIndex → UInt8) :
    Planes := fun ci =>
  if needSubsampCi h_samp v_samp ci then
    if v_samp then avg4 (fullImage info src downsample conv ci)
    else avg2 (fullImage info src downsample conv ci)
  else fullImage info src downsample conv ci

/-- Lines of the source, from line `l` on. -/
def linesFrom (l n : ℕ) : List Line := (List.range' l n).map src

end

/-- The columns of a component, and its rows for each `output_base`. -/
def compWidth (downsample : Downsample) (h_samp v_samp : Bool) (ci : CompIndex) : ℕ :=
  downsampleScreenWidth downsample / if needSubsampCi h_samp v_samp ci then SAMP_FACTOR else 1

/-- The rows of a component that a turn leaves. -/
def compRows (v_samp : Bool) (ci : CompIndex) : ℕ := if v_samp ∧ ci = 0 then SAMP_FACTOR else 1

theorem bufSize_eq (downsample : Downsample) {h_samp v_samp : Bool} (hv : v_samp → h_samp)
    (ci : CompIndex) : bufSize downsample h_samp v_samp ci =
      8 * compRows v_samp ci * compWidth downsample h_samp v_samp ci := by
  revert ci hv
  cases downsample <;> cases h_samp <;> cases v_samp <;> decide

variable {info : Info} {src : ℕ → Line}

theorem linesFrom_succ (l n : ℕ) : linesFrom src l (n + 1) = src l :: linesFrom src (l + 1) n := rfl

/-! ### Averages -/

theorem h2v1Downsample_eq {width size at_ l : ℕ} {input : ℕ → Option UInt8} {F : Plane}
    (hin : ∀ x < width, input x = some (F l x)) (hsize : at_ + width / SAMP_FACTOR ≤ size)
    (output : ℕ → UInt8) : h2v1Downsample width input size output at_ =
      some (fill output at_ (width / SAMP_FACTOR) (avg2 F l)) := by
  have hstep : ∀ k < width / SAMP_FACTOR,
      h2v1Step input size at_ (fill output at_ k (avg2 F l), k % 2) k =
        some (fill output at_ (k + 1) (avg2 F l), (k + 1) % 2) := by
    intro k hk
    have hlt : 2 * k + 1 < width := by
      unfold SAMP_FACTOR at hk
      omega
    have hbias : k % 2 ^^^ 1 = (k + 1) % 2 := by
      rcases Nat.mod_two_eq_zero_or_one k with h | h <;> rw [Nat.add_mod, h] <;> rfl
    simp only [h2v1Step, hin _ (Nat.lt_of_succ_lt hlt), hin _ hlt, Option.bind_eq_bind,
      Option.bind_some, write_eq (show at_ + k < size by omega), hbias, ← update_fill]
    rfl
  have hrun := foldlM_range_eq (fun k => (fill output at_ k (avg2 F l), k % 2)) hstep
  rw [fill_zero] at hrun
  rw [h2v1Downsample, hrun]
  rfl

theorem h2v2Downsample_eq {width size at_ l : ℕ} {input : ℕ → Option UInt8} {F : Plane}
    (hin : ∀ x < width, input x = some (F (2 * l) x))
    (hin' : ∀ x < width, input (width + x) = some (F (2 * l + 1) x))
    (hsize : at_ + width / SAMP_FACTOR ≤ size) (output : ℕ → UInt8) :
    h2v2Downsample width input size output at_ =
      some (fill output at_ (width / SAMP_FACTOR) (avg4 F l)) := by
  have hstep : ∀ k < width / SAMP_FACTOR,
      h2v2Step width input size at_ (fill output at_ k (avg4 F l), 1 + k % 2) k =
        some (fill output at_ (k + 1) (avg4 F l), 1 + (k + 1) % 2) := by
    intro k hk
    have hlt : 2 * k + 1 < width := by
      unfold SAMP_FACTOR at hk
      omega
    have hbias : (1 + k % 2) ^^^ 3 = 1 + (k + 1) % 2 := by
      rcases Nat.mod_two_eq_zero_or_one k with h | h <;> rw [Nat.add_mod, h] <;> rfl
    simp only [h2v2Step, hin _ (Nat.lt_of_succ_lt hlt), hin _ hlt, hin' _ (Nat.lt_of_succ_lt hlt),
      hin' _ hlt, Option.bind_eq_bind, Option.bind_some, write_eq (show at_ + k < size by omega),
      hbias, ← update_fill, Nat.shiftRight_eq_div_pow]
    rfl
  have hrun := foldlM_range_eq (fun k => (fill output at_ k (avg4 F l), 1 + k % 2)) hstep
  have h0 : 1 + 0 % 2 = 1 := rfl
  rw [fill_zero, h0] at hrun
  rw [h2v2Downsample, hrun]
  rfl

/-! ### Colour conversion -/

/-- The samples at `color.ptr` replaced. -/
def CompBufs.fillAt (ptr : ColorPtr) (a n : ℕ) (f : ℕ → UInt8) (b : CompBufs) : CompBufs :=
  match ptr with
  | .own => { b with color := fill b.color a n f }
  | .prep at_ => { b with buf := fill b.buf (at_ + a) n f }

/-- Rows at `color.ptr`. -/
def CompBufs.fillRowsAt (ptr : ColorPtr) (w n : ℕ) (g : Plane) (b : CompBufs) : CompBufs :=
  match ptr with
  | .own => { b with color := fillRows b.color 0 w n g }
  | .prep at_ => { b with buf := fillRows b.buf at_ w n g }

/-- There is room for `n` samples there. -/
def ColorPtr.Room (downsample : Downsample) (h_samp v_samp : Bool) (ci : CompIndex) (n : ℕ) :
    ColorPtr → Prop
  | .own => n ≤ colorSize downsample
  | .prep at_ => at_ + n ≤ bufSize downsample h_samp v_samp ci

section

variable {downsample : Downsample} {h_samp v_samp : Bool}

theorem ColorPtr.Room.mono {ci : CompIndex} {ptr : ColorPtr} {m n : ℕ}
    (h : ptr.Room downsample h_samp v_samp ci n) (hle : m ≤ n) :
    ptr.Room downsample h_samp v_samp ci m := by
  cases ptr with
  | own => exact hle.trans h
  | prep at_ => exact (Nat.add_le_add_left hle at_).trans h

theorem put_fillAt {ci : CompIndex} {ptr : ColorPtr} {a n : ℕ}
    (h : ptr.Room downsample h_samp v_samp ci (a + n + 1)) (f : ℕ → UInt8) (b : CompBufs) :
    CompBufs.put downsample h_samp v_samp ci ptr (a + n) (f n) (b.fillAt ptr a n f) =
      some (b.fillAt ptr a (n + 1) f) := by
  cases ptr with
  | own =>
    have hlt : a + n < colorSize downsample := h
    simp only [CompBufs.put, CompBufs.fillAt, write_eq hlt, Option.bind_eq_bind, Option.bind_some,
      update_fill]
    rfl
  | prep at_ =>
    have hlt : at_ + a + n < bufSize downsample h_samp v_samp ci := by
      have h' : at_ + (a + n + 1) ≤ bufSize downsample h_samp v_samp ci := h
      omega
    simp only [CompBufs.put, CompBufs.fillAt, ← Nat.add_assoc, write_eq hlt, Option.bind_eq_bind,
      Option.bind_some, update_fill]
    rfl

theorem fillAt_zero (ptr : ColorPtr) (a : ℕ) (f : ℕ → UInt8) (b : CompBufs) :
    b.fillAt ptr a 0 f = b := by
  cases ptr <;> simp only [CompBufs.fillAt, fill_zero]

theorem fillRowsAt_zero (ptr : ColorPtr) (w : ℕ) (g : Plane) (b : CompBufs) :
    b.fillRowsAt ptr w 0 g = b := by
  cases ptr <;> simp only [CompBufs.fillRowsAt, fillRows_zero]

theorem fillRowsAt_succ (ptr : ColorPtr) (w n : ℕ) (g : Plane) (b : CompBufs) :
    (b.fillRowsAt ptr w n g).fillAt ptr (w * n) w (g n) = b.fillRowsAt ptr w (n + 1) g := by
  cases ptr with
  | own =>
    have h := fill_fillRows (m := b.color) (p := 0) (w := w) (n := n) (g := g)
    rw [Nat.zero_add, Nat.mul_comm n w] at h
    simp only [CompBufs.fillAt, CompBufs.fillRowsAt, h]
  | prep at_ =>
    simp only [CompBufs.fillAt, CompBufs.fillRowsAt, Nat.mul_comm w n, fill_fillRows]

theorem readPixel_eq (l : ℕ) {x : ℕ} (h : x < GSP_SCREEN_WIDTH) :
    readPixel info (src l) x = some (pixel info src l x) :=
  if_pos (Nat.mul_le_mul_right _ h)

theorem step_lt (start_step : StartStep) {x : ℕ} (h : x < start_step.outWidth) :
    x * start_step.step + start_step.start < GSP_SCREEN_WIDTH := by
  unfold StartStep.outWidth GSP_SCREEN_WIDTH at h
  unfold GSP_SCREEN_WIDTH
  cases start_step <;> simp only [StartStep.step, StartStep.start] at h ⊢ <;> omega

section

variable {start_step : StartStep} {ptr : CompIndex → ColorPtr}

/-- The samples that are taken. -/
def taken (info : Info) (src : ℕ → Line) (start_step : StartStep) : Planes :=
  fun ci l x => samples info src pconvert ci l (x * start_step.step + start_step.start)

theorem taken_normal :
    taken info src .normal = samples info src pconvert := by
  funext ci l x
  exact congrArg (samples info src pconvert ci l) (Nat.mul_one x)

theorem cconvertLine_eq {i : ℕ} (l : ℕ)
    (hroom : ∀ ci, (ptr ci).Room downsample h_samp v_samp ci
      (start_step.outWidth * i + start_step.outWidth)) (bufs : WorkerBufs) :
    cconvertLine info downsample h_samp v_samp start_step ptr i (src l) bufs =
      some fun ci => (bufs ci).fillAt (ptr ci) (start_step.outWidth * i) start_step.outWidth
        (taken info src start_step ci l) := by
  have hstep : ∀ x < start_step.outWidth,
      cconvertPixel info downsample h_samp v_samp start_step ptr i (src l)
        (fun ci => (bufs ci).fillAt (ptr ci) (start_step.outWidth * i) x
          (taken info src start_step ci l)) x =
        some fun ci => (bufs ci).fillAt (ptr ci) (start_step.outWidth * i) (x + 1)
          (taken info src start_step ci l) := by
    intro x hx
    rw [cconvertPixel, readPixel_eq l (step_lt start_step hx), Option.bind_eq_bind,
      Option.bind_some]
    exact forComps_eq fun ci => put_fillAt ((hroom ci).mono (by omega))
      (taken info src start_step ci l) (bufs ci)
  have hrun := foldlM_range_eq (fun n ci => (bufs ci).fillAt (ptr ci) (start_step.outWidth * i) n
    (taken info src start_step ci l)) hstep
  simp only [fillAt_zero] at hrun
  exact hrun

/-- **Lines are converted** to rows at `color.ptr`. -/
theorem cconvert_eq {N : ℕ} (l n : ℕ)
    (hroom : ∀ ci, (ptr ci).Room downsample h_samp v_samp ci (start_step.outWidth * N))
    (bufs : WorkerBufs) :
    cconvert info downsample h_samp v_samp N start_step ptr (linesFrom src l (N + n)) bufs =
      some (linesFrom src (l + N) n, fun ci => (bufs ci).fillRowsAt (ptr ci) start_step.outWidth N
        fun i => taken info src start_step ci (l + i)) := by
  have hstep : ∀ i < N, cconvertNext info downsample h_samp v_samp start_step ptr
      (linesFrom src (l + i) (N - i + n), fun ci => (bufs ci).fillRowsAt (ptr ci)
        start_step.outWidth i fun i => taken info src start_step ci (l + i)) i =
      some (linesFrom src (l + (i + 1)) (N - (i + 1) + n), fun ci => (bufs ci).fillRowsAt (ptr ci)
        start_step.outWidth (i + 1) fun i => taken info src start_step ci (l + i)) := by
    intro i hi
    have hsub : N - i + n = N - (i + 1) + n + 1 := by omega
    have hle : start_step.outWidth * i + start_step.outWidth ≤ start_step.outWidth * N := by
      rw [← Nat.mul_succ]
      exact Nat.mul_le_mul_left _ hi
    simp only [hsub, linesFrom_succ, cconvertNext, Option.bind_eq_bind, Option.bind_some,
      cconvertLine_eq (l + i) fun ci => (hroom ci).mono hle]
    exact congrArg some (Prod.ext rfl (funext fun ci => fillRowsAt_succ (ptr ci) _ i
      (fun i => taken info src start_step ci (l + i)) (bufs ci)))
  have hrun := foldlM_range_eq (fun i => (linesFrom src (l + i) (N - i + n), fun ci =>
    (bufs ci).fillRowsAt (ptr ci) start_step.outWidth i fun i =>
      taken info src start_step ci (l + i))) hstep
  simp only [Nat.sub_zero, Nat.sub_self, Nat.zero_add, Nat.add_zero, fillRowsAt_zero] at hrun
  exact hrun

end

end

/-! ### A turn of `output_base` -/

/-- The rows of the image that belong to `count` turns, from turn `m` of the frame on, are put in
`bufs.prep` for the turns from `start` on. -/
def Shows (img : Planes) (downsample : Downsample) (h_samp v_samp : Bool) (start count m : ℕ)
    (bufs bufs' : WorkerBufs) : Prop :=
  ∀ ci, (bufs' ci).buf = fillRows (bufs ci).buf
    (start * compRows v_samp ci * compWidth downsample h_samp v_samp ci)
    (compWidth downsample h_samp v_samp ci) (count * compRows v_samp ci)
    fun j => img ci (m * compRows v_samp ci + j)

section

variable {downsample : Downsample} {h_samp v_samp : Bool}

theorem compRows_of_need {ci : CompIndex} (h : needSubsampCi h_samp v_samp ci = true) :
    compRows v_samp ci = 1 := by
  refine if_neg fun h0 => ?_
  rw [needSubsampCi, h0.2] at h
  simp at h

theorem compRows_of_not_need {ci : CompIndex} (h : needSubsampCi h_samp v_samp ci = false) :
    compRows v_samp ci = if v_samp then SAMP_FACTOR else 1 := by
  revert h
  cases v_samp <;> cases h_samp <;> revert ci <;> decide

theorem room (downsample : Downsample) {ob : ℕ} (hob : ob < 8) (hv : v_samp → h_samp)
    (ci : CompIndex) : ob * compRows v_samp ci * compWidth downsample h_samp v_samp ci +
      compRows v_samp ci * compWidth downsample h_samp v_samp ci ≤
        bufSize downsample h_samp v_samp ci := by
  rw [bufSize_eq downsample hv, ← Nat.add_mul, ← Nat.succ_mul]
  exact Nat.mul_le_mul_right _ (Nat.mul_le_mul_right _ hob)

/-- **The averages of a component** go to its rows. -/
theorem downsampleComp_eq {input : CompBufs → ℕ → Option UInt8} {F : Plane} {ob m : ℕ}
    (hob : ob < 8) (hv : v_samp → h_samp) {ci : CompIndex}
    (hneed : needSubsampCi h_samp v_samp ci = true) {b : CompBufs}
    (hin : ∀ i < if v_samp then SAMP_FACTOR else 1, ∀ x < downsampleScreenWidth downsample,
      input b (downsampleScreenWidth downsample * i + x) =
        some (F ((if v_samp then SAMP_FACTOR else 1) * m + i) x)) :
    downsampleComp h_samp v_samp downsample input ob ci b = some { b with
      buf := fillRows b.buf (ob * compRows v_samp ci * compWidth downsample h_samp v_samp ci)
        (compWidth downsample h_samp v_samp ci) (1 * compRows v_samp ci)
        fun j => (if v_samp then avg4 F else avg2 F) (m * compRows v_samp ci + j) } := by
  have hroom := room downsample hob hv ci
  have hw :
      compWidth downsample h_samp v_samp ci = downsampleScreenWidth downsample / SAMP_FACTOR := by
    rw [compWidth, if_pos hneed]
  rw [compRows_of_need hneed, hw] at hroom ⊢
  rw [Nat.mul_one, Nat.mul_one, Nat.one_mul] at *
  cases v_samp with
  | true =>
    rw [downsampleComp, if_pos hneed, fillRows_one]
    have h0 := hin 0 Nat.zero_lt_two
    have h1 := hin 1 Nat.one_lt_two
    simp only [Nat.mul_zero, Nat.zero_add, Nat.add_zero, Nat.mul_one, if_true] at h0 h1
    simp only [if_true, h2v2Downsample_eq h0 h1 hroom, Option.bind_eq_bind, Option.bind_some,
      Option.pure_def, Nat.add_zero, Nat.mul_one]
  | false =>
    rw [downsampleComp, if_pos hneed, fillRows_one]
    have h0 := hin 0 Nat.zero_lt_one
    simp only [Nat.mul_zero, Nat.zero_add, Nat.add_zero, Nat.one_mul, Bool.false_eq_true,
      if_false] at h0
    simp only [Bool.false_eq_true, if_false, h2v1Downsample_eq h0 hroom, Option.bind_eq_bind,
      Option.bind_some, Option.pure_def, Nat.add_zero, Nat.mul_one]

theorem image_of_need {conv : Rgb → CompIndex → UInt8} {ci : CompIndex}
    (hneed : needSubsampCi h_samp v_samp ci = true) :
    image info src downsample h_samp v_samp conv ci =
      if v_samp then avg4 (fullImage info src downsample conv ci)
      else avg2 (fullImage info src downsample conv ci) := if_pos hneed

theorem image_of_not_need {conv : Rgb → CompIndex → UInt8} {ci : CompIndex}
    (hneed : needSubsampCi h_samp v_samp ci = false) :
    image info src downsample h_samp v_samp conv ci = fullImage info src downsample conv ci :=
  if_neg (by rw [hneed]; exact Bool.false_ne_true)

theorem colorPtr_of_need {S ob : ℕ} {start_step : StartStep} {ci : CompIndex}
    (hneed : needSubsampCi h_samp v_samp ci = true) :
    colorPtr downsample h_samp v_samp S start_step ob ci = .own :=
  if_pos (Or.inr hneed)

theorem colorPtr_of_not_need {S : ℕ} (hS : S = if v_samp then SAMP_FACTOR else 1)
    (hd : downsample ≠ .quarter) {start_step : StartStep}
    (hwidth : start_step.outWidth = downsampleScreenWidth downsample) (ob : ℕ) {ci : CompIndex}
    (hneed : needSubsampCi h_samp v_samp ci = false) :
    colorPtr downsample h_samp v_samp S start_step ob ci =
        .prep (ob * compRows v_samp ci * compWidth downsample h_samp v_samp ci) ∧
      compRows v_samp ci = S ∧ compWidth downsample h_samp v_samp ci = start_step.outWidth := by
  have hrows : compRows v_samp ci = S := (compRows_of_not_need hneed).trans hS.symm
  have hw : compWidth downsample h_samp v_samp ci = start_step.outWidth := by
    rw [compWidth, hneed, hwidth]
    exact Nat.div_one _
  refine ⟨?_, hrows, hw⟩
  rw [hrows, hw, colorPtr, hneed, if_neg (by simpa using hd)]

theorem colorPtr_room {S : ℕ} (hS : S = if v_samp then SAMP_FACTOR else 1) (hv : v_samp → h_samp)
    (hd : downsample ≠ .quarter)
    (hcolor : downsampleScreenWidth downsample * S ≤ colorSize downsample)
    {start_step : StartStep} (hwidth : start_step.outWidth = downsampleScreenWidth downsample)
    {ob : ℕ} (hob : ob < 8) (ci : CompIndex) :
    (colorPtr downsample h_samp v_samp S start_step ob ci).Room downsample h_samp v_samp ci
      (start_step.outWidth * S) := by
  cases hneed : needSubsampCi h_samp v_samp ci with
  | true =>
    rw [colorPtr_of_need hneed, hwidth]
    exact hcolor
  | false =>
    obtain ⟨hptr, hrows, hw⟩ := colorPtr_of_not_need hS hd hwidth ob hneed
    have h := room downsample hob hv ci
    rw [hptr, Nat.mul_comm]
    rwa [hrows, hw] at h ⊢

theorem convertTurn (info : Info) (src : ℕ → Line) (downsample : Downsample)
    (start_step : StartStep) {S : ℕ} (hS : S = if v_samp then SAMP_FACTOR else 1)
    (hv : v_samp → h_samp) (hd : downsample ≠ .quarter)
    (hcolor : downsampleScreenWidth downsample * S ≤ colorSize downsample)
    (hwidth : start_step.outWidth = downsampleScreenWidth downsample)
    (htaken : taken info src start_step = fullImage info src downsample pconvert)
    {ob : ℕ} (hob : ob < 8) (m n : ℕ) (bufs : WorkerBufs) :
    ∃ bufs1 bufs2, colorConvert info downsample h_samp v_samp S start_step
        (linesFrom src (S * m) (S + n)) ob bufs = some (linesFrom src (S * (m + 1)) n, bufs1) ∧
      forComps (downsampleComp h_samp v_samp downsample
        (fun b => read (colorSize downsample) b.color) ob) bufs1 = some bufs2 ∧
      Shows (image info src downsample h_samp v_samp pconvert) downsample h_samp v_samp ob 1 m
        bufs bufs2 := by
  have hconv : colorConvert info downsample h_samp v_samp S start_step
      (linesFrom src (S * m) (S + n)) ob bufs = some (linesFrom src (S * m + S) n, fun ci =>
        (bufs ci).fillRowsAt (colorPtr downsample h_samp v_samp S start_step ob ci)
          start_step.outWidth S fun i => taken info src start_step ci (S * m + i)) :=
    cconvert_eq (S * m) n (colorPtr_room hS hv hd hcolor hwidth hob) bufs
  have hdown : ∀ ci, ∃ b, downsampleComp h_samp v_samp downsample
      (fun b => read (colorSize downsample) b.color) ob ci
      ((bufs ci).fillRowsAt (colorPtr downsample h_samp v_samp S start_step ob ci)
        start_step.outWidth S fun i => taken info src start_step ci (S * m + i)) = some b ∧
      b.buf = fillRows (bufs ci).buf
        (ob * compRows v_samp ci * compWidth downsample h_samp v_samp ci)
        (compWidth downsample h_samp v_samp ci) (1 * compRows v_samp ci)
        fun j => image info src downsample h_samp v_samp pconvert ci
          (m * compRows v_samp ci + j) := by
    intro ci
    cases hneed : needSubsampCi h_samp v_samp ci with
    | true =>
      rw [colorPtr_of_need hneed]
      refine ⟨_, downsampleComp_eq (F := fullImage info src downsample pconvert ci) (m := m) hob
        hv hneed fun i hi x hx => ?_, ?_⟩
      · rw [← hS] at hi ⊢
        rw [← hwidth] at hx hcolor ⊢
        rw [← htaken]
        exact read_fillRows (g := fun i => taken info src start_step ci (S * m + i)) hi hx
          hcolor
      · rw [image_of_need hneed]
        rfl
    | false =>
      obtain ⟨hptr, hrows, hw⟩ := colorPtr_of_not_need hS hd hwidth ob hneed
      refine ⟨_, if_neg (by rw [hneed]; exact Bool.false_ne_true), ?_⟩
      rw [hptr, image_of_not_need hneed, ← htaken, hrows, hw, Nat.one_mul, Nat.mul_comm S]
      rfl
  obtain ⟨bufs2, hrun, hshows⟩ := forComps_exists hdown
  rw [← Nat.mul_succ] at hconv
  exact ⟨_, bufs2, hconv, hrun, hshows⟩

/-! ### A quarter of the screen -/

theorem quarterLines (info : Info) (src : ℕ → Line) (h_samp v_samp : Bool) (m n : ℕ)
    (bufs : WorkerBufs) :
    ∃ bufs', colorConvert info .quarter h_samp v_samp DOWNSAMPLE_FACTOR .normal
        (linesFrom src (2 * m) (2 + n)) 0 bufs = some (linesFrom src (2 * (m + 1)) n, bufs') ∧
      ∀ ci, (bufs' ci).color = fillRows (bufs ci).color 0 GSP_SCREEN_WIDTH 2
          (fun i => samples info src pconvert ci (2 * m + i)) ∧
        (bufs' ci).prep = (bufs ci).prep ∧ (bufs' ci).buf = (bufs ci).buf := by
  have hptr : ∀ ci, colorPtr .quarter h_samp v_samp DOWNSAMPLE_FACTOR .normal 0 ci = .own :=
    fun ci => if_pos (Or.inl rfl)
  refine ⟨_, cconvert_eq (2 * m) n (fun ci => ?_) bufs, fun ci => ?_⟩
  · rw [hptr]
    exact (by decide : StartStep.outWidth .normal * DOWNSAMPLE_FACTOR ≤ colorSize .quarter)
  · rw [hptr, taken_normal]
    exact ⟨rfl, rfl, rfl⟩

theorem h2v2_quarter {size at_ m : ℕ} {F : Plane} {color output : ℕ → UInt8}
    (hsize : at_ + downsampleScreenWidth .quarter ≤ size) :
    h2v2Downsample (downsampleScreenWidth .none) (read (colorSize .quarter)
        (fillRows color 0 GSP_SCREEN_WIDTH 2 fun i => F (2 * m + i))) size output at_ =
      some (fill output at_ (downsampleScreenWidth .quarter) (avg4 F m)) := by
  have hcolor : GSP_SCREEN_WIDTH * 2 ≤ colorSize .quarter := by decide
  refine h2v2Downsample_eq (fun x hx => ?_) (fun x hx => ?_) hsize output
  · have h := read_fillRows (m := color) (g := fun i => F (2 * m + i)) Nat.zero_lt_two hx hcolor
    rwa [Nat.mul_zero, Nat.zero_add] at h
  · have h := read_fillRows (m := color) (g := fun i => F (2 * m + i)) Nat.one_lt_two hx hcolor
    rwa [Nat.mul_one] at h

theorem quarterAvg_eq (h_samp v_samp : Bool) (prep_at buf_at : ℕ) (ci : CompIndex) {m : ℕ}
    {F : Plane} {b : CompBufs} {color : ℕ → UInt8}
    (hcolor : b.color = fillRows color 0 GSP_SCREEN_WIDTH 2 fun i => F (2 * m + i))
    (hroom : if needSubsampCi h_samp v_samp ci then
        prep_at + downsampleScreenWidth .quarter ≤ prepSize
      else buf_at + downsampleScreenWidth .quarter ≤ bufSize .quarter h_samp v_samp ci) :
    ∃ b', quarterAvg h_samp v_samp prep_at buf_at ci b = some b' ∧
      if needSubsampCi h_samp v_samp ci then b'.buf = b.buf ∧
        b'.prep = fill b.prep prep_at (downsampleScreenWidth .quarter) (avg4 F m)
      else b'.buf = fill b.buf buf_at (downsampleScreenWidth .quarter) (avg4 F m) := by
  unfold quarterAvg
  split_ifs at hroom ⊢
  · rw [quarterToPrep, hcolor, h2v2_quarter hroom]
    exact ⟨_, rfl, rfl, rfl⟩
  · rw [quarterToBuf, hcolor, h2v2_quarter hroom]
    exact ⟨_, rfl, rfl⟩

/-- What `prep_base` up to `k` leaves of a component. -/
def QuarterDone (info : Info) (src : ℕ → Line) (ob m k : ℕ) (ci : CompIndex) (b b' : CompBufs) :
    Prop :=
  if needSubsampCi true true ci then
    b'.buf = b.buf ∧ b'.prep = fillRows b.prep 0 (downsampleScreenWidth .quarter) k fun i =>
      fullImage info src .quarter pconvert ci (2 * m + i)
  else b'.buf = fillRows b.buf (ob * 2 * downsampleScreenWidth .quarter)
    (downsampleScreenWidth .quarter) k fun i =>
      fullImage info src .quarter pconvert ci (2 * m + i)

theorem quarterTurn_eq {ob k : ℕ} (hob : ob < 8) (hk : k < 2) (m n : ℕ) {bufs bufs1 : WorkerBufs}
    (h : ∀ ci, QuarterDone info src ob m k ci (bufs ci) (bufs1 ci)) :
    ∃ bufs2, quarterTurn info ob (linesFrom src (2 * (2 * m + k)) (2 + n), bufs1) k =
        some (linesFrom src (2 * (2 * m + (k + 1))) n, bufs2) ∧
      ∀ ci, QuarterDone info src ob m (k + 1) ci (bufs ci) (bufs2 ci) := by
  obtain ⟨bufs', hlines, hcolor⟩ := quarterLines info src true true (2 * m + k) n bufs1
  have hroom : ∀ ci, if needSubsampCi true true ci then
        downsampleScreenWidth .quarter * k + downsampleScreenWidth .quarter ≤ prepSize
      else downsampleScreenWidth .quarter * (ob * 2 + k) + downsampleScreenWidth .quarter ≤
        bufSize .quarter true true ci := by
    intro ci
    rw [← Nat.mul_succ, ← Nat.mul_succ]
    split_ifs with hneed
    · exact Nat.mul_le_mul_left _ hk
    · have hneed := eq_false_of_ne_true hneed
      rw [bufSize_eq .quarter (fun _ => rfl), compRows_of_not_need hneed, compWidth, hneed,
        Nat.mul_comm]
      exact Nat.mul_le_mul_right _ (by unfold SAMP_FACTOR; simp only [if_true]; omega)
  obtain ⟨bufs2, hrun, hdone⟩ := forComps_exists fun ci =>
    quarterAvg_eq true true _ _ ci (hcolor ci).1 (hroom ci)
  refine ⟨bufs2, ?_, fun ci => ?_⟩
  · rw [quarterTurn, colorConvertQuarter, hlines, Option.bind_eq_bind, Option.bind_some]
    exact congrArg (Option.bind · fun bufs => some (_, bufs)) hrun
  · obtain ⟨-, hprep, hbuf⟩ := hcolor ci
    have hci := h ci
    have hci2 := hdone ci
    unfold QuarterDone at hci ⊢
    split_ifs at hci hci2 ⊢ with hneed
    · have hrow := fill_fillRows (m := (bufs ci).prep) (p := 0)
        (w := downsampleScreenWidth .quarter) (n := k)
        (g := fun i => fullImage info src .quarter pconvert ci (2 * m + i))
      rw [Nat.zero_add, Nat.mul_comm k, ← hci.2, ← hprep] at hrow
      exact ⟨hci2.1.trans (hbuf.trans hci.1), hci2.2.trans hrow⟩
    · have hrow := fill_fillRows (m := (bufs ci).buf) (p := ob * 2 * downsampleScreenWidth .quarter)
        (w := downsampleScreenWidth .quarter) (n := k)
        (g := fun i => fullImage info src .quarter pconvert ci (2 * m + i))
      rw [← hci, ← hbuf, ← Nat.add_mul, Nat.mul_comm (ob * 2 + k)] at hrow
      exact hci2.trans hrow

theorem doPreProcessQuarter_eq (info : Info) (src : ℕ → Line) {ob : ℕ} (hob : ob < 8) (m n : ℕ)
    (bufs : WorkerBufs) :
    ∃ bufs', doPreProcessQuarter info (linesFrom src (4 * m) (4 + n)) bufs ob =
        some (linesFrom src (4 * (m + 1)) n, bufs') ∧
      Shows (image info src .quarter true true pconvert) .quarter true true ob 1 m bufs bufs' := by
  obtain ⟨⟨input, bufs1⟩, hrun, hinput, hdone⟩ := foldlM_range (quarterTurn info ob) (n := 2)
    (fun k s => s.1 = linesFrom src (2 * (2 * m + k)) (4 - 2 * k + n) ∧
      ∀ ci, QuarterDone info src ob m k ci (bufs ci) (s.2 ci))
    (fun k hk s hs => by
      obtain ⟨input, bufs1⟩ := s
      have hinput : input = linesFrom src (2 * (2 * m + k)) (2 + (4 - 2 * (k + 1) + n)) :=
        hs.1.trans (congrArg _ (by omega))
      subst hinput
      obtain ⟨bufs2, hrun, hdone⟩ := quarterTurn_eq hob hk m (4 - 2 * (k + 1) + n) hs.2
      exact ⟨_, hrun, rfl, hdone⟩)
    (s := (linesFrom src (4 * m) (4 + n), bufs))
    ⟨by rw [Nat.add_zero, ← Nat.mul_assoc], fun ci => by
      unfold QuarterDone
      split_ifs
      · exact ⟨rfl, fillRows_zero.symm⟩
      · exact fillRows_zero.symm⟩
  have hinput : input = linesFrom src (4 * (m + 1)) n := by
    rw [show 4 * (m + 1) = 2 * (2 * m + 2) by ring, ← Nat.zero_add n]
    exact hinput
  have hdown : ∀ ci, ∃ b, downsampleQuarter true true ob ci (bufs1 ci) = some b ∧
      b.buf = fillRows (bufs ci).buf
        (ob * compRows true ci * compWidth .quarter true true ci)
        (compWidth .quarter true true ci) (1 * compRows true ci)
        fun j => image info src .quarter true true pconvert ci (m * compRows true ci + j) := by
    intro ci
    have hci := hdone ci
    unfold QuarterDone at hci
    split_ifs at hci with hneed
    · refine ⟨_, downsampleComp_eq (F := fullImage info src .quarter pconvert ci) (m := m) hob
        (fun _ => rfl) hneed fun i hi x hx => ?_, ?_⟩
      · rw [hci.2]
        exact read_fillRows (g := fun i => fullImage info src .quarter pconvert ci (2 * m + i)) hi
          hx (by decide)
      · rw [image_of_need hneed, ← hci.1]
    · have hneed := eq_false_of_ne_true hneed
      refine ⟨_, if_neg (by rw [hneed]; exact Bool.false_ne_true), ?_⟩
      rw [image_of_not_need hneed, compRows_of_not_need hneed, compWidth, hneed, Nat.one_mul,
        Nat.mul_comm m]
      exact hci
  obtain ⟨bufs2, hrun2, hshows⟩ := forComps_exists hdown
  refine ⟨bufs2, ?_, hshows⟩
  rw [doPreProcessQuarter]
  erw [hrun]
  rw [Option.bind_eq_bind, Option.bind_some, hinput]
  exact congrArg (Option.bind · fun bufs => some (_, bufs)) hrun2

theorem quarterNovsampTurn_eq {ob : ℕ} (hob : ob < 8) (m n : ℕ) (bufs : WorkerBufs) :
    ∃ bufs', quarterNovsampTurn info (linesFrom src (2 * m) (2 + n)) bufs ob =
        some (linesFrom src (2 * (m + 1)) n, bufs') ∧
      Shows (image info src .quarter true false pconvert) .quarter true false ob 1 m bufs
        bufs' := by
  obtain ⟨bufs1, hlines, hcolor⟩ := quarterLines info src true false m n bufs
  have hcomp : ∀ ci, ∃ b, quarterNovsampComp ob ci (bufs1 ci) = some b ∧
      b.buf = fillRows (bufs ci).buf
        (ob * compRows false ci * compWidth .quarter true false ci)
        (compWidth .quarter true false ci) (1 * compRows false ci)
        fun j => image info src .quarter true false pconvert ci (m * compRows false ci + j) := by
    intro ci
    obtain ⟨hc, hprep, hbuf⟩ := hcolor ci
    have hrows : compRows false ci = 1 := if_neg (by simp)
    obtain ⟨b, havg, hb⟩ :=
      quarterAvg_eq true false 0 (downsampleScreenWidth .quarter * ob) ci hc (by
        split_ifs with hneed
        · exact (by decide : 0 + downsampleScreenWidth .quarter ≤ prepSize)
        · rw [bufSize_eq .quarter (fun h => absurd h Bool.false_ne_true), hrows, compWidth,
            if_neg hneed, ← Nat.mul_succ, Nat.mul_comm]
          exact Nat.mul_le_mul_right _ hob)
    have hcomp : quarterNovsampComp ob ci (bufs1 ci) = downsampleQuarter true false ob ci b :=
      congrArg (Option.bind · (downsampleQuarter true false ob ci)) havg
    rw [hcomp]
    split_ifs at hb with hneed
    · have hrow :=
        fillRows_one (m := (bufs1 ci).prep) (p := 0) (w := downsampleScreenWidth .quarter)
        (g := fun i => fullImage info src .quarter pconvert ci (m + i))
      refine ⟨_, downsampleComp_eq (F := fullImage info src .quarter pconvert ci) (m := m) hob
        (fun h => absurd h Bool.false_ne_true) hneed fun i hi x hx => ?_, ?_⟩
      · rw [hb.2.trans hrow.symm, if_neg Bool.false_ne_true, Nat.one_mul]
        exact read_fillRows (g := fun i => fullImage info src .quarter pconvert ci (m + i)) hi hx
          (by decide)
      · rw [image_of_need hneed, hb.1, hbuf]
    · refine ⟨_, if_neg hneed, ?_⟩
      have hneed := eq_false_of_ne_true hneed
      rw [image_of_not_need hneed, hb, hbuf, hrows, fillRows_one, compWidth, hneed, Nat.mul_comm]
      simp only [Nat.mul_one, Bool.false_eq_true, if_false, Nat.div_one, Nat.add_zero]
      rfl
  obtain ⟨bufs2, hrun, hshows⟩ := forComps_exists hcomp
  refine ⟨bufs2, ?_, hshows⟩
  rw [quarterNovsampTurn, colorConvertQuarter, hlines, Option.bind_eq_bind, Option.bind_some]
  exact congrArg (Option.bind · fun bufs => some (_, bufs)) hrun

theorem quarterNosamp_eq (info : Info) (src : ℕ → Line) {ob : ℕ} (hob : ob < 8) (m n : ℕ)
    (bufs : WorkerBufs) :
    ∃ bufs1 bufs2, colorConvert info .quarter false false DOWNSAMPLE_FACTOR .normal
        (linesFrom src (2 * m) (2 + n)) 0 bufs = some (linesFrom src (2 * (m + 1)) n, bufs1) ∧
      forComps (quarterToBuf false false (downsampleScreenWidth .none / SAMP_FACTOR * ob)) bufs1 =
        some bufs2 ∧
      Shows (image info src .quarter false false pconvert) .quarter false false ob 1 m bufs
        bufs2 := by
  obtain ⟨bufs1, hlines, hcolor⟩ := quarterLines info src false false m n bufs
  have hneed : ∀ ci, needSubsampCi false false ci = false := fun _ => rfl
  have hcomp : ∀ ci, ∃ b,
      quarterToBuf false false (downsampleScreenWidth .none / SAMP_FACTOR * ob) ci (bufs1 ci) =
        some b ∧
      b.buf = fillRows (bufs ci).buf
        (ob * compRows false ci * compWidth .quarter false false ci)
        (compWidth .quarter false false ci) (1 * compRows false ci)
        fun j => image info src .quarter false false pconvert ci (m * compRows false ci + j) := by
    intro ci
    obtain ⟨hc, hprep, hbuf⟩ := hcolor ci
    have hrows : compRows false ci = 1 := if_neg (by simp)
    obtain ⟨b, havg, hb⟩ :=
      quarterAvg_eq false false 0 (downsampleScreenWidth .quarter * ob) ci hc (by
        rw [hneed, if_neg Bool.false_ne_true,
          bufSize_eq .quarter (fun h => absurd h Bool.false_ne_true), hrows, compWidth, hneed,
          ← Nat.mul_succ, Nat.mul_comm]
        exact Nat.mul_le_mul_right _ hob)
    rw [hneed, if_neg Bool.false_ne_true] at hb
    refine ⟨b, havg, ?_⟩
    rw [image_of_not_need (hneed ci), hb, hbuf, hrows, fillRows_one, compWidth, hneed, Nat.mul_comm]
    simp only [Nat.mul_one, Bool.false_eq_true, if_false, Nat.div_one, Nat.add_zero]
    rfl
  obtain ⟨bufs2, hrun, hshows⟩ := forComps_exists hcomp
  exact ⟨bufs1, bufs2, hlines, hrun, hshows⟩

/-! ### The turns of a screen -/

/-- A turn takes `u` lines and leaves the rows that belong to it. -/
def Turn (f : List Line → WorkerBufs → ℕ → Option (List Line × WorkerBufs)) (src : ℕ → Line)
    (img : Planes) (downsample : Downsample) (h_samp v_samp : Bool) (u : ℕ) : Prop :=
  ∀ ob < 8, ∀ m n bufs, ∃ bufs', f (linesFrom src (u * m) (u + n)) bufs ob =
      some (linesFrom src (u * (m + 1)) n, bufs') ∧
    Shows img downsample h_samp v_samp ob 1 m bufs bufs'

theorem fullTurn_eq {S : ℕ} (hS : S = if v_samp then SAMP_FACTOR else 1) (hv : v_samp → h_samp) :
    Turn (fullTurn info S h_samp v_samp) src (image info src .none h_samp v_samp pconvert) .none
      h_samp v_samp S := by
  intro ob hob m n bufs
  obtain ⟨bufs1, bufs2, hconv, hdown, hshows⟩ :=
    convertTurn info src .none .normal hS hv (by decide)
    (by rw [hS]; cases v_samp <;> decide) rfl taken_normal hob m n bufs
  refine ⟨bufs2, ?_, hshows⟩
  rw [fullTurn, colorConvertFull, hconv, Option.bind_eq_bind, Option.bind_some]
  exact congrArg (Option.bind · fun bufs => some (_, bufs)) hdown

theorem evenOddTurn_eq {S : ℕ} (hS : S = if v_samp then SAMP_FACTOR else 1) (hv : v_samp → h_samp) :
    Turn (evenOddTurn info S h_samp v_samp) src (image info src .evenOdd h_samp v_samp pconvert)
      .evenOdd h_samp v_samp S := by
  intro ob hob m n bufs
  have hcolor : downsampleScreenWidth .evenOdd * S ≤ colorSize .evenOdd := by
    rw [hS]
    cases v_samp <;> decide
  cases heo : info.even_odd with
  | false =>
    obtain ⟨bufs1, bufs2, hconv, hdown, hshows⟩ :=
      convertTurn info src .evenOdd .even hS hv (by decide) hcolor rfl
      (by funext ci l x; rw [taken, fullImage, heo]; rfl) hob m n bufs
    refine ⟨bufs2, ?_, hshows⟩
    rw [evenOddTurn, colorConvertEvenOdd, if_pos heo, hconv, Option.bind_eq_bind, Option.bind_some]
    exact congrArg (Option.bind · fun bufs => some (_, bufs)) hdown
  | true =>
    obtain ⟨bufs1, bufs2, hconv, hdown, hshows⟩ :=
      convertTurn info src .evenOdd .odd hS hv (by decide) hcolor rfl
      (by funext ci l x; rw [taken, fullImage, heo]; rfl) hob m n bufs
    refine ⟨bufs2, ?_, hshows⟩
    rw [evenOddTurn, colorConvertEvenOdd, if_neg (by rw [heo]; exact Bool.true_eq_false_eq_False),
      hconv, Option.bind_eq_bind, Option.bind_some]
    exact congrArg (Option.bind · fun bufs => some (_, bufs)) hdown

theorem Shows.append {img : Planes} {start k m : ℕ} {bufs bufs1 bufs2 : WorkerBufs}
    (h : Shows img downsample h_samp v_samp start k m bufs bufs1)
    (h1 : Shows img downsample h_samp v_samp (start + k) 1 (m + k) bufs1 bufs2) :
    Shows img downsample h_samp v_samp start (k + 1) m bufs bufs2 := by
  intro ci
  have hrows := fillRows_append (m := (bufs ci).buf)
    (p := start * compRows v_samp ci * compWidth downsample h_samp v_samp ci)
    (w := compWidth downsample h_samp v_samp ci) (n := k * compRows v_samp ci)
    (k := 1 * compRows v_samp ci) (g := fun j => img ci (m * compRows v_samp ci + j))
    (e := fun j => img ci ((m + k) * compRows v_samp ci + j))
    fun l _ x _ => congrArg (img ci · x) (by ring)
  rw [← Nat.add_mul, ← Nat.add_mul, ← Nat.add_mul] at hrows
  rw [h1 ci, h ci, hrows]

theorem forBases_eq (start count : ℕ)
    {f : List Line → WorkerBufs → ℕ → Option (List Line × WorkerBufs)} {img : Planes} {u : ℕ}
    (hf : Turn f src img downsample h_samp v_samp u) (h : start + count ≤ 8)
    (m n : ℕ) (bufs : WorkerBufs) :
    ∃ bufs', forBases count start f (linesFrom src (u * m) (u * count + n)) bufs =
        some (linesFrom src (u * (m + count)) n, bufs') ∧
      Shows img downsample h_samp v_samp start count m bufs bufs' := by
  obtain ⟨⟨input, bufs'⟩, hrun, hinput, hshows⟩ := foldlM_range
    (fun s k => f s.1 s.2 (start + k)) (n := count)
    (fun k s => s.1 = linesFrom src (u * (m + k)) (u * (count - k) + n) ∧
      Shows img downsample h_samp v_samp start k m bufs s.2)
    (fun k hk s hs => by
      obtain ⟨input, bufs1⟩ := s
      have hsub : u * (count - k) + n = u + (u * (count - (k + 1)) + n) := by
        rw [← Nat.add_assoc, Nat.add_comm u, ← Nat.mul_succ]
        exact congrArg (u * · + n) (by omega)
      have hinput : input = linesFrom src (u * (m + k)) (u + (u * (count - (k + 1)) + n)) :=
        hs.1.trans (congrArg _ hsub)
      subst hinput
      obtain ⟨bufs2, hrun, hshows⟩ := hf (start + k) (by omega) (m + k)
        (u * (count - (k + 1)) + n) bufs1
      exact ⟨_, hrun, rfl, hs.2.append hshows⟩)
    (s := (linesFrom src (u * m) (u * count + n), bufs))
    ⟨rfl, fun ci => by rw [Nat.zero_mul, fillRows_zero]⟩
  have hinput : input = linesFrom src (u * (m + count)) n :=
    hinput.trans (by rw [Nat.sub_self, Nat.mul_zero, Nat.zero_add])
  exact ⟨bufs', hrun.trans (by rw [hinput]), hshows⟩

end

/-! ### A screen -/

/-- The lines of the source that a turn takes. -/
def linesPerTurn (downsample : Downsample) (vss : Bool) : ℕ :=
  (if vss then SAMP_FACTOR else 1) * if downsample = .quarter then DOWNSAMPLE_FACTOR else 1

/-- **Pre-processing leaves the rows of the image**, whatever was in the buffers, and accesses
nothing outside them. -/
theorem preProcess_eq (info : Info) (src : ℕ → Line) {downsample : Downsample}
    (hd : downsample ≠ .checker) {hss vss : Bool} (hv : vss → hss) {start count : ℕ}
    (h : start + count ≤ 8) (m n : ℕ) (bufs : WorkerBufs) :
    ∃ bufs', preProcess info downsample hss vss count start
        (linesFrom src (linesPerTurn downsample vss * m) (linesPerTurn downsample vss * count + n))
        bufs = some (linesFrom src (linesPerTurn downsample vss * (m + count)) n, bufs') ∧
      Shows (image info src downsample hss vss pconvert) downsample hss vss start count m bufs
        bufs' := by
  have hnosamp : Turn (quarterNosampTurn info) src (image info src .quarter false false pconvert)
      .quarter false false 2 := by
    intro ob hob m n bufs
    obtain ⟨bufs1, bufs2, hlines, hrun, hshows⟩ := quarterNosamp_eq info src hob m n bufs
    refine ⟨bufs2, ?_, hshows⟩
    rw [quarterNosampTurn, colorConvertQuarter, hlines, Option.bind_eq_bind, Option.bind_some]
    exact congrArg (Option.bind · fun bufs => some (_, bufs)) hrun
  cases downsample with
  | checker => exact absurd rfl hd
  | none =>
    cases vss with
    | true =>
      obtain rfl := hv rfl
      exact forBases_eq _ _ (fullTurn_eq rfl fun _ => rfl) h m n bufs
    | false => cases hss <;>
      exact forBases_eq _ _ (fullTurn_eq rfl fun h => absurd h Bool.false_ne_true) h m n bufs
  | evenOdd =>
    cases vss with
    | true =>
      obtain rfl := hv rfl
      exact forBases_eq _ _ (evenOddTurn_eq rfl fun _ => rfl) h m n bufs
    | false => cases hss <;>
      exact forBases_eq _ _ (evenOddTurn_eq rfl fun h => absurd h Bool.false_ne_true) h m n bufs
  | quarter =>
    cases vss with
    | true =>
      obtain rfl := hv rfl
      exact forBases_eq _ _ (fun ob hob => doPreProcessQuarter_eq info src hob) h m n bufs
    | false =>
      cases hss with
      | true => exact forBases_eq _ _ (fun ob hob => quarterNovsampTurn_eq hob) h m n bufs
      | false => exact forBases_eq _ _ hnosamp h m n bufs

/-! ### The end of a quarter of the screen -/

/-- The rows from `n` on go back from the one before. -/
def mirrored (n j : ℕ) : ℕ := if j < n then j else 2 * n - 1 - j

theorem mirrored_add {n l : ℕ} (k : ℕ) (h : l < 2 * n) :
    mirrored (k + n) (k + l) = k + mirrored n l := by
  unfold mirrored
  split_ifs <;> omega

theorem copy_mirrored {size w n t : ℕ} {m : ℕ → UInt8} {g : ℕ → ℕ → UInt8} (hn : n ≤ t)
    (ht : t < 2 * n) (hsize : w * (t + 1) ≤ size) :
    copy size (fillRows m 0 w t fun j => g (mirrored n j)) (w * (2 * n - 1 - t)) (w * t) w =
      some (fillRows m 0 w (t + 1) fun j => g (mirrored n j)) := by
  have hlt : 2 * n - 1 - t < n := by omega
  have hle : w * (2 * n - 1 - t) + w ≤ w * t := by
    rw [← Nat.mul_succ]
    exact Nat.mul_le_mul_left _ (by omega)
  rw [Nat.mul_succ] at hsize
  rw [copy, if_pos ⟨⟨by omega, hsize⟩, Or.inl hle⟩, ← fill_fillRows, Nat.zero_add, Nat.mul_comm t]
  refine congrArg some (fill_congr fun x hx => ?_)
  have hget := fillRows_get (m := m) (p := 0) (g := fun j => g (mirrored n j)) (hlt.trans_le hn) hx
  rw [Nat.zero_add, Nat.mul_comm _ w] at hget
  rw [hget]
  simp only [mirrored, if_pos hlt, if_neg (Nat.not_lt.mpr hn)]

theorem copyRows_eq {n i : ℕ} (hn : n ≤ i) (hi : i < 2 * n) (hi8 : i < 8) {ci : CompIndex}
    {b : CompBufs} {m : ℕ → UInt8} {g : ℕ → ℕ → UInt8}
    (h : b.buf = fillRows m 0 (compWidth .quarter true true ci) (i * compRows true ci)
      fun j => g (mirrored (n * compRows true ci) j)) :
    ∃ b', copyRows n i ci b = some b' ∧
      b'.buf = fillRows m 0 (compWidth .quarter true true ci) ((i + 1) * compRows true ci)
        fun j => g (mirrored (n * compRows true ci) j) := by
  have hvs : SAMP_FACTOR / (if needSubsampCi true true ci then SAMP_FACTOR else 1) =
      compRows true ci := by
    clear h
    revert ci
    decide
  have hk : i - n ≤ n := by omega
  have hnk : (n - (i - n)) * compRows true ci =
      2 * (n * compRows true ci) - i * compRows true ci := by
    rw [← Nat.mul_assoc, ← Nat.sub_mul]
    exact congrArg (· * _) (by omega)
  have hle : i * compRows true ci + compRows true ci ≤ 2 * (n * compRows true ci) := by
    rw [← Nat.succ_mul, ← Nat.mul_assoc]
    exact Nat.mul_le_mul_right _ hi
  have hni := Nat.mul_le_mul_right (compRows true ci) hn
  have hstep : ∀ j < compRows true ci, copyRow n i (compRows true ci)
      (compWidth .quarter true true ci) (bufSize .quarter true true ci)
      (fillRows m 0 (compWidth .quarter true true ci) (i * compRows true ci + j)
        fun j => g (mirrored (n * compRows true ci) j)) j =
      some (fillRows m 0 (compWidth .quarter true true ci) (i * compRows true ci + (j + 1))
        fun j => g (mirrored (n * compRows true ci) j)) := by
    intro j hj
    have hl : 2 * (n * compRows true ci) - i * compRows true ci - j - 1 =
        2 * (n * compRows true ci) - 1 - (i * compRows true ci + j) := by omega
    rw [copyRow, if_pos ⟨hk, by omega⟩, hnk, hl]
    refine copy_mirrored (by omega) (by omega) ?_
    rw [bufSize_eq .quarter (fun _ => rfl), Nat.mul_comm]
    refine Nat.mul_le_mul_right _ ?_
    have := Nat.mul_le_mul_right (compRows true ci) hi8
    rw [Nat.succ_mul] at this
    omega
  have hrun := foldlM_range_eq (fun j => fillRows m 0 (compWidth .quarter true true ci)
    (i * compRows true ci + j) fun j => g (mirrored (n * compRows true ci) j)) hstep
  rw [Nat.add_zero, ← h, ← Nat.succ_mul] at hrun
  refine ⟨{ b with buf := _ }, ?_, rfl⟩
  rw [copyRows, hvs]
  exact congrArg (Option.bind · fun buf => some { b with buf := buf }) hrun

/-- **The rows missing at the end are those before it, mirrored.** -/
theorem preProcessQuarterRem_eq (info : Info) (src : ℕ → Line) {n : ℕ} (hn : 4 ≤ n) (hn8 : n ≤ 8)
    (m : ℕ) (bufs : WorkerBufs) :
    ∃ bufs', preProcessQuarterRem info 8 (4 * n) (linesFrom src (4 * m) (4 * n)) bufs =
        some (true, [], bufs') ∧
      ∀ ci, (bufs' ci).buf = fillRows (bufs ci).buf 0 (compWidth .quarter true true ci)
        (8 * compRows true ci) fun j => image info src .quarter true true pconvert ci
          (m * compRows true ci + mirrored (n * compRows true ci) j) := by
  have hdiv : 4 * n / (SAMP_FACTOR * DOWNSAMPLE_FACTOR) = n := Nat.mul_div_cancel_left n (by decide)
  obtain ⟨bufs1, hrun, hshows⟩ := forBases_eq 0 n
    (fun ob hob => doPreProcessQuarter_eq info src hob) (by omega) m 0 bufs
  have hcopy : ∀ k ≤ 8 - n, ∃ bufs2,
      (List.range' n k).foldlM (fun bufs i => forComps (copyRows n i) bufs) bufs1 = some bufs2 ∧
      ∀ ci, (bufs2 ci).buf = fillRows (bufs ci).buf 0 (compWidth .quarter true true ci)
        ((n + k) * compRows true ci) fun j => image info src .quarter true true pconvert ci
          (m * compRows true ci + mirrored (n * compRows true ci) j) := by
    intro k
    induction k with
    | zero =>
      refine fun _ => ⟨bufs1, rfl, fun ci => ?_⟩
      have hci := hshows ci
      rw [Nat.zero_mul, Nat.zero_mul] at hci
      rw [hci]
      exact fillRows_congr fun l hl x _ => by rw [mirrored, if_pos hl]
    | succ k ih =>
      intro hk
      obtain ⟨bufs2, hrun, hbuf⟩ := ih (by omega)
      obtain ⟨bufs3, hrun3, hbuf3⟩ := forComps_exists fun ci =>
        copyRows_eq (i := n + k) (by omega) (by omega) (by omega)
          (g := fun j => image info src .quarter true true pconvert ci (m * compRows true ci + j))
          (hbuf ci)
      refine ⟨bufs3, ?_, hbuf3⟩
      rw [List.range'_concat, List.foldlM_append, hrun, Option.bind_eq_bind, Option.bind_some,
        List.foldlM_cons, Nat.one_mul]
      exact congrArg (Option.bind · some) hrun3
  obtain ⟨bufs2, hrun2, hbuf⟩ := hcopy (8 - n) le_rfl
  rw [Nat.add_sub_of_le hn8] at hbuf
  refine ⟨bufs2, ?_, hbuf⟩
  rw [Nat.add_zero] at hrun
  rw [preProcessQuarterRem, hdiv, hrun, Option.bind_eq_bind, Option.bind_some]
  simp only [if_neg (show ¬n = 0 by omega)]
  exact congrArg (Option.bind · fun bufs => some (true, [], bufs)) hrun2

end RemotePlay.Prep
