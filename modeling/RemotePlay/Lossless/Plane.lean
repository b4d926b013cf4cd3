import RemotePlay.Lossless.Pixel
import Mathlib.Data.List.Range
import Mathlib.Tactic.Ring

/-! # Sample planes of the lossless encoder

Colour conversion and subsampling leave the samples of a step in the two halves of `bufs.prep`, even
steps in the first and odd ones in the second, so that a step still finds the last rows of the one
before it (`Ring`).  `do_compressed_encode` predicts each sample from its neighbours there; what it
emits for a row is determined by the plane alone (`compressedEncode_eq`). -/

namespace RemotePlay.Lossless

/-! ### Geometry -/

/-- Subsampled chroma has one sample for two, in either direction. -/
def SAMP_FACTOR : ℕ := 2
/-- A screen downsampled has one pixel for two, in either direction. -/
def DOWNSAMPLE_FACTOR : ℕ := 2
/-- The components of an image. -/
def MAX_COMPONENTS : ℕ := 3

/-- `CompIndex`. -/
abbrev CompIndex := Fin 3

/-- The settings of a screen in the lossless mode of the reliable stream. -/
structure Cfg where
  chroma_ss : ChromaSs
  downsample : Downsample
  color_bias : ColorBias
  not_checker : downsample ≠ .checker

namespace Cfg

variable (cfg : Cfg)

/-- Chroma is subsampled along lines. -/
def hss : Bool := cfg.chroma_ss ≠ .ss444

/-- Chroma is subsampled by lines. -/
def vss : Bool := cfg.chroma_ss = .ss420

/-- `need_subsamp_ci`. -/
def needHss (c : CompIndex) : Bool := cfg.hss && c ≠ 0

/-- `downsample_screen_width`. -/
def screenWidth : ℕ :=
  if cfg.downsample = .quarter ∨ cfg.downsample = .evenOdd then GSP_SCREEN_WIDTH / DOWNSAMPLE_FACTOR
  else GSP_SCREEN_WIDTH

/-- `width_x`. -/
def width (c : CompIndex) : ℕ :=
  if cfg.needHss c then cfg.screenWidth / SAMP_FACTOR else cfg.screenWidth

/-- `bw_x`. -/
def bw (c : CompIndex) : ℕ := if cfg.hss ∧ c = 0 then SAMP_FACTOR else 1

/-- `bh_x`: the rows of a component in a step. -/
def bh (c : CompIndex) : ℕ := if cfg.vss ∧ c = 0 then SAMP_FACTOR else 1

/-- The end of the loop over a row's samples. -/
def loopWidth (c : CompIndex) : ℕ :=
  (if cfg.hss then cfg.screenWidth / SAMP_FACTOR else cfg.screenWidth) * cfg.bw c

/-- `bb_x`, as the name of the table. -/
def tbl (c : CompIndex) : TblName :=
  match cfg.color_bias with
  | .none => .tbl8
  | .bias1 => if c = 0 then .tbl6 else .tbl5
  | .bias2 => .tbl4

theorem bh_pos (c : CompIndex) : 0 < cfg.bh c := by
  unfold bh SAMP_FACTOR
  split_ifs <;> omega

theorem loopWidth_eq (c : CompIndex) : cfg.loopWidth c = cfg.width c := by
  unfold loopWidth width bw needHss screenWidth
  cases cfg.hss <;> by_cases h : c = 0
  all_goals simp only [h, Bool.false_and, Bool.true_and, Bool.false_eq_true, false_and, true_and,
    ne_eq, not_true_eq_false, not_false_eq_true, decide_false, decide_true, ↓reduceIte, Nat.mul_one]
  split_ifs <;> rfl

end Cfg

/-! ### What is written -/

/-- A call of `put_bits`: the flag of a chunk, or the code of a symbol in a table. -/
inductive Put
  | flag (b : Bool)
  | sym (t : TblName) (y : UInt8)
  deriving DecidableEq, Repr

/-- The samples of a component, by row and column. -/
abbrev Plane := ℕ → ℕ → UInt8

/-- The samples of all components. -/
abbrev Planes := CompIndex → Plane

/-- `bufs.prep`: the samples of each component, by address. -/
abbrev Prep := CompIndex → ℕ → UInt8

/-- What step `i` of a slice leaves in `bufs.prep`, with `img` the samples of the slice after colour
conversion and subsampling. -/
def preProcess (cfg : Cfg) (img : Planes) (i : ℕ) (prep : Prep) : Prep := fun c a =>
  let lo := i % 2 * cfg.bh c * cfg.width c
  if lo ≤ a ∧ a < lo + cfg.bh c * cfg.width c then
    img c (i * cfg.bh c + (a - lo) / cfg.width c) ((a - lo) % cfg.width c)
  else prep c a

/-- `in_t_c`: where the sample above is, if there is one. -/
def inT (i bh width_c by_ in_c_c : ℕ) : Option ℕ :=
  if by_ > 0 then some (in_c_c - width_c)
  else if i > 0 then
    if i % 2 = 0 then some (in_c_c + width_c * (bh * 2 - 1)) else some (in_c_c - width_c)
  else none

/-- The symbol of the sample at row `by_` of step `i` and column `ix`. -/
def pixelSym (cfg : Cfg) (prep : Prep) (i : ℕ) (c : CompIndex) (by_ ix : ℕ) : UInt8 :=
  let mem := prep c
  let iy := i % 2 * cfg.bh c + by_
  let in_c_c := iy * cfg.width c + ix
  let in_t_c := inT i (cfg.bh c) (cfg.width c) by_ in_c_c
  let in_l_c := if ix > 0 then some (in_c_c - 1) else none
  let in_tl_c := if ix > 0 then in_t_c.map (· - 1) else none
  predPixel (mem in_c_c) (in_t_c.map mem) (in_l_c.map mem) (in_tl_c.map mem) (cfg.tbl c)

/-- `do_compressed_encode`. -/
def compressedEncode (cfg : Cfg) (prep : Prep) (i : ℕ) : List Put :=
  (List.finRange 3).flatMap fun c =>
    (List.range (cfg.bh c)).flatMap fun by_ =>
      (List.range (cfg.loopWidth c)).map fun ix => .sym (cfg.tbl c) (pixelSym cfg prep i c by_ ix)

/-- The steps of a slice from step `i` on. -/
def encodeSteps (cfg : Cfg) (img : Planes) : ℕ → ℕ → Prep → List Put
  | _, 0, _ => []
  | i, n + 1, prep =>
    let prep := preProcess cfg img i prep
    compressedEncode cfg prep i ++ encodeSteps cfg img (i + 1) n prep

/-! ### The two halves of the buffer -/

/-- The rows of step `i` are in its half of the buffer. -/
def Holds (cfg : Cfg) (img : Planes) (i : ℕ) (prep : Prep) : Prop :=
  ∀ c, ∀ b < cfg.bh c, ∀ x < cfg.width c,
    prep c ((i % 2 * cfg.bh c + b) * cfg.width c + x) = img c (i * cfg.bh c + b) x

/-- When step `i` is encoded, its rows and those of the step before are in the buffer. -/
structure Ring (cfg : Cfg) (img : Planes) (i : ℕ) (prep : Prep) : Prop where
  curr : Holds cfg img i prep
  prev : 0 < i → Holds cfg img (i - 1) prep

theorem offset_lt {b bh w x : ℕ} (hb : b < bh) (hx : x < w) : b * w + x < bh * w :=
  calc b * w + x < (b + 1) * w := by rw [Nat.add_mul]; omega
    _ ≤ bh * w := Nat.mul_le_mul_right _ hb

/-- **Preparing a step keeps the rows of the step before.** -/
theorem ring_preProcess {cfg : Cfg} {img : Planes} {i : ℕ} {prep : Prep}
    (h : 0 < i → Holds cfg img (i - 1) prep) : Ring cfg img i (preProcess cfg img i prep) := by
  constructor
  · intro c b hb x hx
    have hlt := offset_lt hb hx
    simp only [preProcess]
    rw [Nat.add_mul, Nat.add_assoc, if_pos ⟨Nat.le_add_right _ _, by omega⟩,
      Nat.add_sub_cancel_left, Nat.add_comm (b * cfg.width c), Nat.add_mul_div_right _ _ (by omega),
      Nat.div_eq_of_lt hx, Nat.add_mul_mod_self_right, Nat.mod_eq_of_lt hx, Nat.zero_add]
  · intro hi c b hb x hx
    have hlt := offset_lt hb hx
    rw [← h hi c b hb x hx]
    simp only [preProcess]
    rw [if_neg]
    rcases Nat.mod_two_eq_zero_or_one i with h0 | h0
    · have h1 : (i - 1) % 2 = 1 := by omega
      rw [h0, h1, Nat.add_mul, Nat.one_mul, Nat.zero_mul, Nat.zero_mul]
      omega
    · have h1 : (i - 1) % 2 = 0 := by omega
      rw [h0, h1, Nat.add_mul, Nat.one_mul, Nat.zero_mul, Nat.zero_mul]
      omega

/-! ### What is emitted for a row -/

/-- The prediction of a sample from its neighbours in the plane; `r0` is the first row of the
slice. -/
def planePred (mid : UInt8) (plane : Plane) (r0 r x : ℕ) : UInt8 :=
  predict mid (if r = r0 then none else some (plane (r - 1) x))
    (if x = 0 then none else some (plane r (x - 1)))
    (if r = r0 ∨ x = 0 then none else some (plane (r - 1) (x - 1)))

theorem inT_eq {cfg : Cfg} {img : Planes} {i : ℕ} {prep : Prep} (h : Ring cfg img i prep)
    {c : CompIndex} {b : ℕ} (hb : b < cfg.bh c) (hr : i * cfg.bh c + b ≠ 0) : ∃ k,
    (∀ x, inT i (cfg.bh c) (cfg.width c) b ((i % 2 * cfg.bh c + b) * cfg.width c + x) =
      some (k * cfg.width c + x)) ∧
    ∀ x < cfg.width c, prep c (k * cfg.width c + x) = img c (i * cfg.bh c + b - 1) x := by
  have hbh := cfg.bh_pos c
  rcases Nat.eq_zero_or_pos b with rfl | hb0
  · -- the first row of the step: the last row of the step before
    have hi : 0 < i := by
      rcases Nat.eq_zero_or_pos i with rfl | hi
      · simp at hr
      · exact hi
    refine ⟨(i - 1) % 2 * cfg.bh c + (cfg.bh c - 1), fun x => ?_, fun x hx => ?_⟩
    · simp only [inT, lt_irrefl, ↓reduceIte, if_pos hi]
      rcases Nat.mod_two_eq_zero_or_one i with h0 | h0
      · have h1 : (i - 1) % 2 = 1 := by omega
        rw [if_pos h0, h0, h1, Option.some.injEq, Nat.mul_comm (cfg.width c),
          show 1 * cfg.bh c + (cfg.bh c - 1) = cfg.bh c * 2 - 1 by omega]
        ring
      · have h1 : (i - 1) % 2 = 0 := by omega
        have hle : cfg.width c ≤ cfg.bh c * cfg.width c := Nat.le_mul_of_pos_left _ hbh
        rw [if_neg (by omega), h0, h1, Option.some.injEq, Nat.zero_mul, Nat.zero_add, Nat.one_mul,
          Nat.add_zero, Nat.sub_mul, Nat.one_mul]
        omega
    · rw [h.prev hi c _ (by omega) x hx]
      have hstep : i * cfg.bh c = (i - 1) * cfg.bh c + cfg.bh c := by
        rw [← Nat.succ_mul, Nat.succ_eq_add_one, Nat.sub_add_cancel hi]
      exact congrArg (img c · x) (by omega)
  · refine ⟨i % 2 * cfg.bh c + (b - 1), fun x => ?_, fun x hx => ?_⟩
    · have hle : cfg.width c ≤ b * cfg.width c := Nat.le_mul_of_pos_left _ hb0
      rw [inT, if_pos hb0, Option.some.injEq, Nat.add_mul, Nat.add_mul, Nat.sub_mul, Nat.one_mul]
      omega
    · rw [h.curr c _ (by omega) x hx]
      exact congrArg (img c · x) (by omega)

/-- **A symbol is the residual of the sample against its neighbours in the plane.** -/
theorem pixelSym_eq {cfg : Cfg} {img : Planes} {i : ℕ} {prep : Prep} (h : Ring cfg img i prep)
    {c : CompIndex} {b x : ℕ} (hb : b < cfg.bh c) (hx : x < cfg.width c) :
    pixelSym cfg prep i c b x = residual (cfg.tbl c) (img c (i * cfg.bh c + b) x)
      (planePred 128 (img c) 0 (i * cfg.bh c + b) x) := by
  have hcur := h.curr c b hb
  have hleft : 0 < x → prep c ((i % 2 * cfg.bh c + b) * cfg.width c + x - 1) =
      img c (i * cfg.bh c + b) (x - 1) := by
    intro h0
    rw [Nat.add_sub_assoc h0, hcur (x - 1) (by omega)]
  have hcur := hcur x hx
  unfold pixelSym predPixel planePred
  dsimp only
  by_cases hr : i * cfg.bh c + b = 0
  · have hT : inT i (cfg.bh c) (cfg.width c) b ((i % 2 * cfg.bh c + b) * cfg.width c + x) =
        none := by
      have hi : i = 0 := by
        by_contra hi
        have := Nat.mul_pos (Nat.pos_of_ne_zero hi) (cfg.bh_pos c)
        omega
      simp [inT, hi, show b = 0 by omega]
    generalize (i % 2 * cfg.bh c + b) * cfg.width c + x = a at *
    generalize i * cfg.bh c + b = r at *
    rcases Nat.eq_zero_or_pos x with h0 | h0
    · simp only [hT, hcur, if_pos hr, if_neg (Nat.not_lt.mpr h0.le), if_pos h0, if_pos (Or.inl hr),
        gt_iff_lt, Option.map_none]
    · simp only [hT, hcur, hleft h0, if_pos hr, if_pos h0, if_neg h0.ne', if_pos (Or.inl hr),
        gt_iff_lt, Option.map_none, Option.map_some]
  · obtain ⟨k, hT, hk⟩ := inT_eq h hb hr
    have hT := hT x
    generalize (i % 2 * cfg.bh c + b) * cfg.width c + x = a at *
    generalize i * cfg.bh c + b = r at *
    rcases Nat.eq_zero_or_pos x with h0 | h0
    · simp only [hT, hcur, hk x hx, if_neg hr, if_neg (Nat.not_lt.mpr h0.le), if_pos h0,
        if_pos (Or.inr h0), gt_iff_lt, Option.map_none, Option.map_some]
    · have htl : prep c (k * cfg.width c + x - 1) = img c (r - 1) (x - 1) := by
        rw [Nat.add_sub_assoc h0, hk (x - 1) (by omega)]
      simp only [hT, hcur, hleft h0, hk x hx, htl, if_neg hr, if_pos h0, if_neg h0.ne',
        if_neg (not_or.mpr ⟨hr, h0.ne'⟩), gt_iff_lt, Option.map_some]

/-- The symbols of columns `x`, `x + 1`, ... of a row, predicted from the plane. -/
def rowSyms (t : TblName) (plane : Plane) (r0 r x n : ℕ) : List UInt8 :=
  (List.range' x n).map fun x => residual t (plane r x) (planePred 128 plane r0 r x)

/-- The rows of a step, in the order they are encoded in. -/
def stepRows (cfg : Cfg) (i : ℕ) : List (CompIndex × ℕ) :=
  (List.finRange 3).flatMap fun c => (List.range (cfg.bh c)).map fun b => (c, i * cfg.bh c + b)

/-- **What is emitted for a step is determined by the planes.** -/
theorem compressedEncode_eq {cfg : Cfg} {img : Planes} {i : ℕ} {prep : Prep}
    (h : Ring cfg img i prep) : compressedEncode cfg prep i =
      (stepRows cfg i).flatMap fun cr =>
        (rowSyms (cfg.tbl cr.1) (img cr.1) 0 cr.2 0 (cfg.width cr.1)).map
        (.sym (cfg.tbl cr.1)) := by
  unfold compressedEncode stepRows
  rw [List.flatMap_assoc]
  refine List.flatMap_congr fun c _ => ?_
  rw [List.flatMap_map]
  refine List.flatMap_congr fun b hb => ?_
  have hb := List.mem_range.mp hb
  rw [cfg.loopWidth_eq, rowSyms, List.map_map, List.range_eq_range']
  refine List.map_congr_left fun x hx => ?_
  have hx : x < cfg.width c := by simpa using hx
  rw [pixelSym_eq h hb hx]
  rfl

end RemotePlay.Lossless
