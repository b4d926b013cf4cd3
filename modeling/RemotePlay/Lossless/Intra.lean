import RemotePlay.Lossless.Decode
import RemotePlay.Work.Partition
import Mathlib.Data.Nat.Sqrt
import Mathlib.Tactic.Positivity

/-! # Intra coding is decodable

A frame is encoded in slices, one for each thread.  From the symbols of the threads the receiver
gets the top bits of every sample (`decodeFrame_encodeFrame`), and every symbol is one that its
table was made for (`encodeFrame_codes`). -/

namespace RemotePlay.Lossless

open RemotePlay.Lib RemotePlay.Work

/-- The lines of a block row. -/
def LOSSLESS_BLOCK_SIZE : ℕ := 16

/-- The rows of the source that a step takes. -/
def Cfg.rowsPerStep (cfg : Cfg) : ℕ :=
  if cfg.downsample = .quarter then
    if cfg.vss then SAMP_FACTOR * DOWNSAMPLE_FACTOR else DOWNSAMPLE_FACTOR
  else if cfg.vss then SAMP_FACTOR else 1

/-- The first step of a thread in the frame. -/
def firstStep (cfg : Cfg) {rows : ℕ} (p : RowPartition rows) (t : ℕ) : ℕ :=
  LOSSLESS_BLOCK_SIZE * p.iStart t / cfg.rowsPerStep

/-- The steps of a thread: the height of its slice over the rows of a step. -/
def stepCount (cfg : Cfg) {rows : ℕ} (p : RowPartition rows) (t : ℕ) : ℕ :=
  min (LOSSLESS_BLOCK_SIZE * p.iCount t)
    (LOSSLESS_BLOCK_SIZE * rows - LOSSLESS_BLOCK_SIZE * p.iStart t) / cfg.rowsPerStep

/-- The planes of a slice that starts with step `k` of the frame. -/
def slicePlanes (cfg : Cfg) (img : Planes) (k : ℕ) : Planes := fun c r x =>
  img c (k * cfg.bh c + r) x

/-- What a thread emits for its slice of the frame. -/
def encodeSlice (cfg : Cfg) {rows : ℕ} (p : RowPartition rows) (img : Planes) (t : ℕ)
    (prep : Prep) :
    List Put :=
  encodeSteps cfg (slicePlanes cfg img (firstStep cfg p t)) 0 (stepCount cfg p t) prep

/-- What the threads emit for a frame; each starts with what its buffers last held. -/
def encodeFrame (cfg : Cfg) {rows : ℕ} (p : RowPartition rows) (img : Planes) (prep : ℕ → Prep) :
    List (List Put) :=
  (List.range p.core_count.get).map fun t => encodeSlice cfg p img t (prep t)

/-! ### The receiver -/

/-- Decodes a row of the slice whose first rows are `r0`. -/
def decodeRow (cfg : Cfg) (r0 : CompIndex → ℕ) (st : Planes × List Put) (cr : CompIndex × ℕ) :
    Option (Planes × List Put) := do
  let (c, r) := cr
  let (img, ps) := st
  let (ys, ps) ← takeSyms (cfg.tbl c) (cfg.width c) ps
  some (decodePixels (cfg.tbl c) c (r0 c) r false 0 ys img, ps)

/-- How the receiver decodes a row of a slice, given the slice's first rows. -/
abbrev RowDecoder :=
  (CompIndex → ℕ) → Planes × List Put → CompIndex × ℕ → Option (Planes × List Put)

/-- Decodes `n` steps from step `k` of the frame; nothing may be left over. -/
def decodeSlice (cfg : Cfg) (dec : RowDecoder) (k n : ℕ) (img : Planes) (ps : List Put) :
    Option Planes := do
  let (img, rest) ← (sliceRows cfg k n).foldlM (dec fun c => k * cfg.bh c) (img, ps)
  if rest = [] then some img else none

/-- Decodes what each thread has emitted. -/
def decodeFrame (cfg : Cfg) (dec : RowDecoder) {rows : ℕ} (p : RowPartition rows) (img : Planes)
    (pss : List (List Put)) : Option Planes :=
  (pss.zipIdx).foldlM
    (fun img (ps, t) => decodeSlice cfg dec (firstStep cfg p t) (stepCount cfg p t) img ps) img

/-! ### What a slice emits -/

/-- The symbols of a row. -/
def encRow (cfg : Cfg) (img : Planes) (r0 : CompIndex → ℕ) (cr : CompIndex × ℕ) : List Put :=
  (rowSyms (cfg.tbl cr.1) (img cr.1) (r0 cr.1) cr.2 0 (cfg.width cr.1)).map (.sym (cfg.tbl cr.1))

theorem encodeSteps_eq (cfg : Cfg) (img : Planes) (i n : ℕ) (prep : Prep)
    (h : 0 < i → Holds cfg img (i - 1) prep) :
    encodeSteps cfg img i n prep = (sliceRows cfg i n).flatMap (encRow cfg img fun _ => 0) := by
  induction n generalizing i prep with
  | zero => rfl
  | succ n ih =>
    have hring : Ring cfg img i (preProcess cfg img i prep) := ring_preProcess h
    rw [encodeSteps, compressedEncode_eq hring, ih (i + 1) _ fun _ => hring.curr]
    simp only [sliceRows, List.range'_succ, List.flatMap_cons, List.flatMap_append]
    rfl

theorem sliceRows_map (cfg : Cfg) (k n : ℕ) : sliceRows cfg k n =
    (sliceRows cfg 0 n).map fun cr => (cr.1, k * cfg.bh cr.1 + cr.2) := by
  unfold sliceRows stepRows
  rw [List.range'_eq_map_range, List.range_eq_range', List.flatMap_map, List.map_flatMap]
  refine List.flatMap_congr fun i _ => ?_
  rw [List.map_flatMap]
  refine List.flatMap_congr fun c _ => ?_
  rw [List.map_map]
  refine List.map_congr_left fun b _ => ?_
  simp only [Function.comp_apply, Prod.mk.injEq, true_and]
  ring

theorem planePred_slice (cfg : Cfg) (mid : UInt8) (img : Planes) (k : ℕ) (c : CompIndex) (r x : ℕ) :
    planePred mid (slicePlanes cfg img k c) 0 r x =
      planePred mid (img c) (k * cfg.bh c) (k * cfg.bh c + r) x := by
  unfold planePred slicePlanes
  rcases Nat.eq_zero_or_pos r with rfl | hr
  · simp
  · simp only [hr.ne', Nat.add_sub_assoc hr, Nat.add_eq_left]

/-- **What a thread emits is determined by the rows of its slice.** -/
theorem encodeSteps_slice (cfg : Cfg) (img : Planes) (k n : ℕ) (prep : Prep) :
    encodeSteps cfg (slicePlanes cfg img k) 0 n prep =
      (sliceRows cfg k n).flatMap (encRow cfg img fun c => k * cfg.bh c) := by
  rw [encodeSteps_eq cfg _ 0 n prep (by simp), sliceRows_map cfg k n, List.flatMap_map]
  refine List.flatMap_congr fun cr _ => ?_
  simp only [encRow, rowSyms, planePred_slice, slicePlanes]

/-! ### Reading a slice back -/

theorem decodeRow_spec {cfg : Cfg} {r0 : CompIndex → ℕ} {src bg : Planes} {next : CompIndex → ℕ}
    {c : CompIndex} {img : Planes} (rest : List Put) (hr : r0 c ≤ next c)
    (h : RowsRecovered cfg r0 src bg next img) :
    ∃ img', decodeRow cfg r0 (img, encRow cfg src r0 (c, next c) ++ rest) (c, next c) =
      some (img', rest) ∧ Recovered cfg r0 src bg next c (cfg.width c) img' := by
  have hsyms := takeSyms_append (cfg.tbl c)
    (rowSyms (cfg.tbl c) (src c) (r0 c) (next c) 0 (cfg.width c)) rest
  rw [rowSyms, List.length_map, List.length_range'] at hsyms
  have hrec := decodePixels_spec bg false hr (by simp) (cfg.width c)
    (Nat.zero_add _).le (h.start c)
  rw [Nat.zero_add] at hrec
  refine ⟨_, ?_, hrec⟩
  simp only [decodeRow, encRow, rowSyms, hsyms, Option.bind_eq_bind, Option.bind_some]
  rfl

/-- **A slice is read back** if its rows are. -/
theorem decodeSlice_spec (cfg : Cfg) {dec : RowDecoder} {enc : CompIndex × ℕ → List Put}
    {src img : Planes} {k n : ℕ}
    (hrow : ∀ next c img' rest, k * cfg.bh c ≤ next c → next c < (k + n) * cfg.bh c →
      RowsRecovered cfg (fun c => k * cfg.bh c) src img next img' →
      ∃ img'', dec (fun c => k * cfg.bh c) (img', enc (c, next c) ++ rest) (c, next c) =
          some (img'', rest) ∧
        Recovered cfg (fun c => k * cfg.bh c) src img next c (cfg.width c) img'') :
    ∃ img', decodeSlice cfg dec k n img ((sliceRows cfg k n).flatMap enc) = some img' ∧
      RowsRecovered cfg (fun c => k * cfg.bh c) src img (fun c => (k + n) * cfg.bh c) img' := by
  have hstart : RowsRecovered cfg (fun c => k * cfg.bh c) src img (fun c => k * cfg.bh c) img := by
    intro c r x _
    rw [if_neg (by omega)]
  obtain ⟨img', h1, h2⟩ := decodeRows_spec (dec fun c => k * cfg.bh c) enc
    (fun next c img rest hmem hr h => hrow next c img rest hr (mem_sliceRows hmem).2 h)
    (fun _ => le_rfl) (follows_slice cfg k n) [] hstart
  refine ⟨img', ?_, h2⟩
  rw [List.append_nil] at h1
  simp only [decodeSlice, h1, Option.bind_eq_bind, Option.bind_some, ↓reduceIte]

/-! ### Reading a frame back -/

theorem Cfg.rowsPerStep_cases (cfg : Cfg) :
    cfg.rowsPerStep = 1 ∨ cfg.rowsPerStep = 2 ∨ cfg.rowsPerStep = 4 := by
  unfold rowsPerStep SAMP_FACTOR DOWNSAMPLE_FACTOR
  split_ifs <;> simp

/-- The steps of a frame. -/
def frameSteps (cfg : Cfg) (rows : ℕ) : ℕ := LOSSLESS_BLOCK_SIZE * rows / cfg.rowsPerStep

section Steps

variable (cfg : Cfg) {rows : ℕ} (p : RowPartition rows)

theorem firstStep_zero : firstStep cfg p 0 = 0 := by
  simp [firstStep, p.iStart_zero]

theorem firstStep_succ {t : ℕ} (h : t + 1 < p.core_count.get) :
    firstStep cfg p t + stepCount cfg p t = firstStep cfg p (t + 1) := by
  have hle := p.iStart_add_iCount_le (by omega : t < p.core_count.get)
  unfold firstStep stepCount LOSSLESS_BLOCK_SIZE
  rw [p.iStart_succ h]
  rcases cfg.rowsPerStep_cases with h | h | h <;> rw [h] <;> omega

theorem firstStep_last :
    firstStep cfg p (p.core_count.get - 1) + stepCount cfg p (p.core_count.get - 1) =
      frameSteps cfg rows := by
  have hpos := p.core_count.get_pos
  have hlast := p.iStart_last
  unfold firstStep stepCount frameSteps LOSSLESS_BLOCK_SIZE
  rcases cfg.rowsPerStep_cases with h | h | h <;> rw [h] <;> omega

theorem steps_le {t : ℕ} (h : t < p.core_count.get) :
    firstStep cfg p t + stepCount cfg p t ≤ frameSteps cfg rows := by
  have hle := p.iStart_add_iCount_le h
  unfold firstStep stepCount frameSteps LOSSLESS_BLOCK_SIZE
  rcases cfg.rowsPerStep_cases with h | h | h <;> rw [h] <;> omega

end Steps

theorem RowsRecovered.trans {cfg : Cfg} {r0 next last : CompIndex → ℕ} {src bg img img' : Planes}
    (hle : ∀ c, r0 c ≤ next c) (hle' : ∀ c, next c ≤ last c)
    (h : RowsRecovered cfg r0 src bg next img)
    (h' : RowsRecovered cfg next src img last img') : RowsRecovered cfg r0 src bg last img' := by
  intro c r x hx
  have := hle c
  have := hle' c
  rw [h' c r x hx]
  split_ifs with h1 h2 h2
  · rfl
  · omega
  · rw [h c r x hx, if_pos (by omega)]
  · rw [h c r x hx, if_neg (by omega)]

theorem zipIdx_map_range {α : Type*} (f : ℕ → α) (n : ℕ) :
    ((List.range n).map f).zipIdx = (List.range n).map fun t => (f t, t) := by
  refine List.ext_getElem (by simp) fun i h1 h2 => ?_
  simp

/-- **Decoding the slices of a partition.**  If each slice is read back, whatever is in the planes
above it, so is the frame. -/
theorem decodeThreads_spec {cfg : Cfg} {rows : ℕ} (p : RowPartition rows) {src : Planes}
    (dec : Planes → ℕ → Option Planes) (img : Planes)
    (hslice : ∀ img1, ∀ t < p.core_count.get,
      (∀ c r x, x < cfg.width c → firstStep cfg p t * cfg.bh c ≤ r → img1 c r x = img c r x) →
      ∃ img2, dec img1 t = some img2 ∧
        RowsRecovered cfg (fun c => firstStep cfg p t * cfg.bh c) src img1
          (fun c => (firstStep cfg p t + stepCount cfg p t) * cfg.bh c) img2) :
    ∃ img', (List.range p.core_count.get).foldlM dec img = some img' ∧
      RowsRecovered cfg (fun _ => 0) src img (fun c => frameSteps cfg rows * cfg.bh c) img' := by
  -- one more slice
  have hnext : ∀ img1, ∀ t < p.core_count.get, (List.range t).foldlM dec img = some img1 →
      RowsRecovered cfg (fun _ => 0) src img (fun c => firstStep cfg p t * cfg.bh c) img1 →
      ∃ img2, (List.range (t + 1)).foldlM dec img = some img2 ∧
        RowsRecovered cfg (fun _ => 0) src img
          (fun c => (firstStep cfg p t + stepCount cfg p t) * cfg.bh c) img2 := by
    intro img1 t ht h1 hrec1
    obtain ⟨img2, h2, hrec2⟩ := hslice img1 t ht fun c r x hx hr => by
      rw [hrec1 c r x hx, if_neg fun h => absurd h.2 (Nat.not_lt.mpr hr)]
    refine ⟨img2, ?_, hrec1.trans (fun _ => Nat.zero_le _)
      (fun c => Nat.mul_le_mul_right _ (Nat.le_add_right _ _)) hrec2⟩
    rw [List.range_succ, List.foldlM_append, h1]
    simpa using h2
  have hbefore : ∀ t < p.core_count.get, ∃ img', (List.range t).foldlM dec img = some img' ∧
      RowsRecovered cfg (fun _ => 0) src img (fun c => firstStep cfg p t * cfg.bh c) img' := by
    intro t
    induction t with
    | zero =>
      refine fun _ => ⟨img, rfl, fun c r x _ => ?_⟩
      rw [firstStep_zero, if_neg (by simp)]
    | succ t ih =>
      intro ht
      obtain ⟨img1, h1, hrec1⟩ := ih (by omega)
      rw [← firstStep_succ cfg p ht]
      exact hnext img1 t (by omega) h1 hrec1
  have hpos := p.core_count.get_pos
  obtain ⟨img1, h1, hrec1⟩ := hbefore (p.core_count.get - 1) (by omega)
  have := hnext img1 _ (by omega) h1 hrec1
  rwa [Nat.sub_add_cancel hpos, firstStep_last cfg p] at this

theorem decodeFrame_map (cfg : Cfg) (dec : RowDecoder) {rows : ℕ} (p : RowPartition rows)
    (img : Planes)
    (f : ℕ → List Put) : decodeFrame cfg dec p img ((List.range p.core_count.get).map f) =
      (List.range p.core_count.get).foldlM
        (fun img t => decodeSlice cfg dec (firstStep cfg p t) (stepCount cfg p t) img (f t))
          img := by
  rw [decodeFrame, zipIdx_map_range, List.foldlM_map]

/-- A call of `put_bits` that writes a code which the tables have. -/
def Coded (count : ℕ → ℕ → ℕ) : Put → Prop
  | .flag _ => True
  | .sym t y => 0 < setTbl (count t.bits) t.bits y.toNat

/-- **Lossless intra coding is decodable**: whatever was in the threads' buffers and in the
receiver's planes, the receiver gets the top bits of every sample of the frame, and every symbol has
a frequency in the table it is looked up in. -/
theorem decodeFrame_encodeFrame (cfg : Cfg) {rows : ℕ} (p : RowPartition rows) (src : Planes)
    (prep : ℕ → Prep) (img : Planes) (count : ℕ → ℕ → ℕ) (hcount : ∀ bits i, 0 < count bits i) :
    (∃ img', decodeFrame cfg (decodeRow cfg) p img (encodeFrame cfg p src prep) = some img' ∧
      ∀ c r x, r < frameSteps cfg rows * cfg.bh c → x < cfg.width c →
        img' c r x = (cfg.tbl c).trunc (src c r x)) ∧
    ∀ ps ∈ encodeFrame cfg p src prep, ∀ q ∈ ps, Coded count q := by
  constructor
  · obtain ⟨img', h1, h2⟩ := decodeThreads_spec p
      (fun img t => decodeSlice cfg (decodeRow cfg) (firstStep cfg p t) (stepCount cfg p t) img
        (encodeSlice cfg p src t (prep t))) img
      (fun img1 t _ _ => by
        rw [encodeSlice, encodeSteps_slice]
        exact decodeSlice_spec cfg fun next c img' rest hr _ h => decodeRow_spec rest hr h)
    refine ⟨img', ?_, fun c r x hr hx => ?_⟩
    · rw [encodeFrame, decodeFrame_map]
      exact h1
    · rw [h2 c r x hx, if_pos ⟨Nat.zero_le _, hr⟩]
  · intro ps hps q hq
    obtain ⟨t, -, rfl⟩ := List.mem_map.mp hps
    rw [encodeSlice, encodeSteps_slice, List.mem_flatMap] at hq
    obtain ⟨cr, -, hq⟩ := hq
    obtain ⟨y, hy, rfl⟩ := List.mem_map.mp hq
    obtain ⟨x, -, rfl⟩ := List.mem_map.mp hy
    exact setTbl_residual _ (hcount _) _ _ _

/-- A 4:2:0 frame of the top screen in two slices of 13 and 12 block rows, its samples of 6, 5 and 5
bits, with the weights rounded down from powers of the square root of two. -/
theorem decodeFrame_encodeFrame_420 :
    let cfg : Cfg := ⟨.ss420, .none, .bias1, by decide⟩
    let p : RowPartition 25 := ⟨.two, 13, 12, rfl⟩
    let src : Planes := fun c r x => UInt8.ofNat (c + r * x)
    let count := fun bits i => Nat.sqrt (4 * 2 ^ (24 - i) * if i = 0 then 2 ^ (9 - bits) else 1)
    (∃ img', decodeFrame cfg (decodeRow cfg) p (fun _ _ _ => 0)
        (encodeFrame cfg p src fun _ _ _ => 0) = some img' ∧
      ∀ c r x, r < frameSteps cfg 25 * cfg.bh c → x < cfg.width c →
        img' c r x = (cfg.tbl c).trunc (src c r x)) ∧
    ∀ ps ∈ encodeFrame cfg p src (fun _ _ _ => 0), ∀ q ∈ ps, Coded count q :=
  decodeFrame_encodeFrame ⟨.ss420, .none, .bias1, by decide⟩ ⟨.two, 13, 12, rfl⟩ _ _ _ _
    fun bits i => Nat.sqrt_pos.mpr (by split_ifs <;> positivity)

end RemotePlay.Lossless
