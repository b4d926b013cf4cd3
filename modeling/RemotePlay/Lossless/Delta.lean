import RemotePlay.Lossless.Intra

/-! # Delta coding of the lossless mode

With `delta_prog` the encoder keeps the samples of the previous frame of each screen, and of each
phase when only every other column is sent.  `do_compressed_delta_encode` computes for every 30
samples of a row both the symbols of the spatial prediction and those of the difference from the
kept samples, and emits a flag and the shorter of the two lists; it then keeps the new samples.

The samples are kept by address.  `histAddr` is the address of a sample, whatever the partition of
the frame is, and distinct samples have distinct addresses (`histAddr_inj`); so what is emitted for
a row is determined by the planes of the frame and of the frame before (`deltaSteps_eq`). -/

namespace RemotePlay.Lossless

open RemotePlay.Lib RemotePlay.Work

/-- `prev_coeffs_top` or `prev_coeffs_bot`. -/
abbrev Hist := ℕ → UInt8

/-- The samples of a chunk. -/
def DELTA_BLOCK_WIDTH_COUNT : ℕ := 30

/-- `v_samp`. -/
def Cfg.vSamp (cfg : Cfg) : ℕ := if cfg.vss then SAMP_FACTOR else 1

/-! ### The encoder -/

section Encoder

variable (cfg : Cfg) (len : TblName → UInt8 → ℕ)

/-- The loop body over the samples of a chunk: both symbols are computed, and the sample is kept.
`row` is where the row's samples are kept. -/
def deltaPixel (prep : Prep) (i : ℕ) (c : CompIndex) (by_ row : ℕ)
    (st : Hist × List UInt8 × List UInt8) (ix : ℕ) : Hist × List UInt8 × List UInt8 :=
  let (prev, pred, diff) := st
  let in_c_c := prep c ((i % 2 * cfg.bh c + by_) * cfg.width c + ix)
  let diff_c := residual (cfg.tbl c) in_c_c (prev (row + ix))
  (Function.update prev (row + ix) in_c_c, pred ++ [pixelSym cfg prep i c by_ ix], diff ++ [diff_c])

/-- The loop body over the chunks of a row: the shorter list of symbols is emitted.  `len` is
`ehufsi` of the tables. -/
def deltaChunk (prep : Prep) (i : ℕ) (c : CompIndex) (by_ row : ℕ) (st : Hist × List Put) (j : ℕ) :
    Hist × List Put :=
  let (prev, out) := st
  let t := cfg.tbl c
  let (prev, pred, diff) :=
    (List.range' (DELTA_BLOCK_WIDTH_COUNT * j) DELTA_BLOCK_WIDTH_COUNT).foldl
      (deltaPixel cfg prep i c by_ row) (prev, [], [])
  let pred_len := (pred.map (len t)).sum
  let diff_len := (diff.map (len t)).sum
  if diff_len < pred_len then (prev, out ++ .flag true :: diff.map (.sym t))
  else (prev, out ++ .flag false :: pred.map (.sym t))

/-- The loop body over the rows of a component; `prev` in the source is `base` here. -/
def deltaRow (prep : Prep) (i base : ℕ) (c : CompIndex) (st : Hist × List Put) (by_ : ℕ) :
    Hist × List Put :=
  let row := base + cfg.vSamp * cfg.screenWidth * c + by_ * cfg.screenWidth
  (List.range (cfg.loopWidth c / DELTA_BLOCK_WIDTH_COUNT)).foldl
    (deltaChunk cfg len prep i c by_ row) st

/-- `do_compressed_delta_encode`. -/
def compressedDeltaEncode (prep : Prep) (i base : ℕ) (prev : Hist) : Hist × List Put :=
  (List.finRange 3).foldl
    (fun st c => (List.range (cfg.bh c)).foldl (deltaRow cfg len prep i base c) st) (prev, [])

/-- `p_step`. -/
def Cfg.pStep : ℕ := cfg.rowsPerStep * cfg.screenWidth * MAX_COMPONENTS

/-- The steps of a slice from step `i` on; `base` is where the samples of the slice are kept. -/
def deltaSteps (img : Planes) (base : ℕ) : ℕ → ℕ → Prep → Hist → Hist × List Put
  | _, 0, _, prev => (prev, [])
  | i, n + 1, prep, prev =>
    let prep := preProcess cfg img i prep
    let (prev, ps) := compressedDeltaEncode cfg len prep i (base + i * cfg.pStep) prev
    let (prev, rest) := deltaSteps img base (i + 1) n prep prev
    (prev, ps ++ rest)

end Encoder

/-! ### Where samples are kept -/

/-- The address of the sample in row `r` and column `x` of a component, from the start of the kept
samples of its phase. -/
def histAddr (cfg : Cfg) (c : CompIndex) (r x : ℕ) : ℕ :=
  r / cfg.bh c * cfg.pStep + cfg.vSamp * cfg.screenWidth * c + r % cfg.bh c * cfg.screenWidth + x

theorem eq_of_mul_add_eq {m a b x y : ℕ} (hx : x < m) (hy : y < m) (h : a * m + x = b * m + y) :
    a = b ∧ x = y := by
  have hab : a = b := by
    have := congrArg (· / m) h
    simpa [Nat.mul_comm _ m, Nat.mul_add_div (by omega : 0 < m), Nat.div_eq_of_lt hx,
      Nat.div_eq_of_lt hy] using this
  subst hab
  exact ⟨rfl, Nat.add_left_cancel h⟩

section HistAddr

variable (cfg : Cfg)

theorem width_le (c : CompIndex) : cfg.width c ≤ cfg.screenWidth := by
  unfold Cfg.width SAMP_FACTOR
  split_ifs <;> omega

theorem bh_le (c : CompIndex) : cfg.bh c ≤ cfg.vSamp := by
  unfold Cfg.bh Cfg.vSamp SAMP_FACTOR
  split_ifs <;> simp_all

theorem vSamp_le : cfg.vSamp ≤ cfg.rowsPerStep := by
  unfold Cfg.vSamp Cfg.rowsPerStep SAMP_FACTOR DOWNSAMPLE_FACTOR
  split_ifs <;> omega

theorem row_lt {c : CompIndex} (r : ℕ) {x : ℕ} (hx : x < cfg.width c) :
    r % cfg.bh c * cfg.screenWidth + x < cfg.vSamp * cfg.screenWidth :=
  offset_lt (lt_of_lt_of_le (Nat.mod_lt _ (cfg.bh_pos c)) (bh_le cfg c))
    (lt_of_lt_of_le hx (width_le cfg c))

theorem comp_lt {c : CompIndex} (r : ℕ) {x : ℕ} (hx : x < cfg.width c) :
    c * (cfg.vSamp * cfg.screenWidth) + (r % cfg.bh c * cfg.screenWidth + x) < cfg.pStep := by
  have h1 := offset_lt c.isLt (row_lt cfg r hx)
  have h2 := Nat.mul_le_mul_right cfg.screenWidth (vSamp_le cfg)
  have h3 : cfg.pStep = 3 * (cfg.rowsPerStep * cfg.screenWidth) := by
    unfold Cfg.pStep MAX_COMPONENTS; ring
  omega

theorem histAddr_eq (c : CompIndex) (r x : ℕ) : histAddr cfg c r x =
    r / cfg.bh c * cfg.pStep +
      (c * (cfg.vSamp * cfg.screenWidth) + (r % cfg.bh c * cfg.screenWidth + x)) := by
  unfold histAddr; ring

/-- **Distinct samples are kept at distinct addresses.** -/
theorem histAddr_inj {c c' : CompIndex} {r r' x x' : ℕ} (hx : x < cfg.width c)
    (hx' : x' < cfg.width c') (h : histAddr cfg c r x = histAddr cfg c' r' x') :
    c = c' ∧ r = r' ∧ x = x' := by
  rw [histAddr_eq, histAddr_eq] at h
  obtain ⟨hstep, h⟩ := eq_of_mul_add_eq (comp_lt cfg r hx) (comp_lt cfg r' hx') h
  obtain ⟨hc, h⟩ := eq_of_mul_add_eq (row_lt cfg r hx) (row_lt cfg r' hx') h
  have hc := Fin.ext hc
  subst hc
  have hw := width_le cfg c
  obtain ⟨hb, hx⟩ := eq_of_mul_add_eq (by omega) (by omega) h
  refine ⟨rfl, ?_, hx⟩
  rw [← Nat.div_add_mod r (cfg.bh c), ← Nat.div_add_mod r' (cfg.bh c), hstep, hb]

theorem histAddr_step (k : ℕ) {c : CompIndex} {b : ℕ} (hb : b < cfg.bh c) (x : ℕ) :
    histAddr cfg c (k * cfg.bh c + b) x =
      k * cfg.pStep + cfg.vSamp * cfg.screenWidth * c + b * cfg.screenWidth + x := by
  have hbh := cfg.bh_pos c
  rw [histAddr, Nat.add_comm (k * _) b, Nat.add_mul_div_right _ _ hbh, Nat.div_eq_of_lt hb,
    Nat.add_mul_mod_self_right, Nat.mod_eq_of_lt hb, Nat.zero_add]

end HistAddr

/-! ### What is emitted for a row -/

/-- The kept samples with the first `x` of a row replaced. -/
def written (prev : Hist) (row : ℕ) (vals : ℕ → UInt8) (x : ℕ) : Hist := fun a =>
  if row ≤ a ∧ a < row + x then vals (a - row) else prev a

theorem update_written (prev : Hist) (row : ℕ) (vals : ℕ → UInt8) (x : ℕ) :
    Function.update (written prev row vals x) (row + x) (vals x) =
    written prev row vals (x + 1) := by
  funext a
  by_cases h : a = row + x
  · subst h
    simp [written]
  · rw [Function.update_of_ne h]
    unfold written
    exact if_congr (by omega) rfl rfl

theorem written_self (prev : Hist) (row : ℕ) (vals : ℕ → UInt8) (x : ℕ) :
    written prev row vals x (row + x) = prev (row + x) := by
  simp [written]

/-- The symbols of chunk `j` of a row, predicted one way or the other. -/
def chunkSyms (cfg : Cfg) (r0 : CompIndex → ℕ) (src old : Planes) (delta : Bool) (c : CompIndex)
    (r j : ℕ) : List UInt8 :=
  (List.range' (DELTA_BLOCK_WIDTH_COUNT * j) DELTA_BLOCK_WIDTH_COUNT).map fun x =>
    residual (cfg.tbl c) (src c r x) (predOf r0 src old delta c r x)

/-- Which way is shorter. -/
def useDelta (cfg : Cfg) (len : TblName → UInt8 → ℕ) (r0 : CompIndex → ℕ) (src old : Planes)
    (c : CompIndex) (r j : ℕ) : Bool :=
  ((chunkSyms cfg r0 src old true c r j).map (len (cfg.tbl c))).sum <
    ((chunkSyms cfg r0 src old false c r j).map (len (cfg.tbl c))).sum

/-- What is emitted for chunk `j` of a row. -/
def encChunk (cfg : Cfg) (len : TblName → UInt8 → ℕ) (r0 : CompIndex → ℕ) (src old : Planes)
    (c : CompIndex) (r j : ℕ) : List Put :=
  let b := useDelta cfg len r0 src old c r j
  .flag b :: (chunkSyms cfg r0 src old b c r j).map (.sym (cfg.tbl c))

/-- What is emitted for a row. -/
def encDeltaRow (cfg : Cfg) (len : TblName → UInt8 → ℕ) (r0 : CompIndex → ℕ) (src old : Planes)
    (cr : CompIndex × ℕ) : List Put :=
  (List.range (cfg.width cr.1 / DELTA_BLOCK_WIDTH_COUNT)).flatMap
    (encChunk cfg len r0 src old cr.1 cr.2)

section Rows

variable {cfg : Cfg} {len : TblName → UInt8 → ℕ} {img : Planes} {i : ℕ} {prep : Prep}

theorem foldl_deltaPixel (h : Ring cfg img i prep) {c : CompIndex} {b : ℕ} (hb : b < cfg.bh c)
    (row : ℕ) (prev : Hist) (x n : ℕ) (hx : x + n ≤ cfg.width c) :
    (List.range' x n).foldl (deltaPixel cfg prep i c b row)
      (written prev row (img c (i * cfg.bh c + b)) x, [], []) =
    (written prev row (img c (i * cfg.bh c + b)) (x + n),
      rowSyms (cfg.tbl c) (img c) 0 (i * cfg.bh c + b) x n,
      (List.range' x n).map fun ix =>
        residual (cfg.tbl c) (img c (i * cfg.bh c + b) ix) (prev (row + ix))) := by
  induction n with
  | zero => rfl
  | succ n ih =>
    have hlt : x + n < cfg.width c := by omega
    rw [List.range'_1_concat, List.foldl_append, ih (by omega)]
    simp only [List.foldl_cons, List.foldl_nil, deltaPixel, h.curr c b hb _ hlt, update_written,
      written_self, pixelSym_eq h hb hlt, rowSyms, List.range'_1_concat, List.map_append,
      List.map_cons, List.map_nil, Nat.add_assoc]

/-- **A chunk emits the shorter list.** -/
theorem deltaChunk_eq (h : Ring cfg img i prep) {c : CompIndex} {b : ℕ} (hb : b < cfg.bh c)
    (row : ℕ) (prev : Hist) (out : List Put) {j : ℕ}
    (hj : DELTA_BLOCK_WIDTH_COUNT * (j + 1) ≤ cfg.width c) :
    deltaChunk cfg len prep i c b row
        (written prev row (img c (i * cfg.bh c + b)) (DELTA_BLOCK_WIDTH_COUNT * j), out) j =
      (written prev row (img c (i * cfg.bh c + b)) (DELTA_BLOCK_WIDTH_COUNT * (j + 1)),
        out ++ encChunk cfg len (fun _ => 0) img (fun _ _ x => prev (row + x)) c
          (i * cfg.bh c + b) j) := by
  have hloop := foldl_deltaPixel h hb row prev (DELTA_BLOCK_WIDTH_COUNT * j) DELTA_BLOCK_WIDTH_COUNT
    (by rw [Nat.mul_succ] at hj; exact hj)
  unfold deltaChunk encChunk useDelta chunkSyms predOf
  simp only [hloop, rowSyms, Bool.false_eq_true, ↓reduceIte, Nat.mul_succ]
  split_ifs with h1 h2 h2
  · simp only [h1, decide_true]
  · exact absurd (decide_eq_true h1) h2
  · exact absurd (of_decide_eq_true h2) h1
  · simp only [h1, decide_false]

/-- **A row.** -/
theorem deltaRow_eq (h : Ring cfg img i prep) {c : CompIndex} {b : ℕ} (hb : b < cfg.bh c)
    (base row : ℕ) (hrow : row = base + cfg.vSamp * cfg.screenWidth * c + b * cfg.screenWidth)
    (prev : Hist) (out : List Put) (hdvd : DELTA_BLOCK_WIDTH_COUNT ∣ cfg.width c) :
    deltaRow cfg len prep i base c (prev, out) b =
      (written prev row (img c (i * cfg.bh c + b)) (cfg.width c),
        out ++ encDeltaRow cfg len (fun _ => 0) img (fun _ _ x => prev (row + x))
          (c, i * cfg.bh c + b)) := by
  have hloop : ∀ m, DELTA_BLOCK_WIDTH_COUNT * m ≤ cfg.width c →
      (List.range m).foldl (deltaChunk cfg len prep i c b row) (prev, out) =
        (written prev row (img c (i * cfg.bh c + b)) (DELTA_BLOCK_WIDTH_COUNT * m),
          out ++ (List.range m).flatMap (encChunk cfg len (fun _ => 0) img
            (fun _ _ x => prev (row + x)) c (i * cfg.bh c + b))) := by
    intro m
    induction m with
    | zero =>
      intro _
      simp only [List.range_zero, List.foldl_nil, List.flatMap_nil, Prod.mk.injEq, List.append_nil,
        and_true]
      funext a
      unfold written
      rw [if_neg (by omega)]
    | succ m ih =>
      intro hm
      rw [List.range_succ, List.foldl_append, ih (by rw [Nat.mul_succ] at hm; omega)]
      simp only [List.foldl_cons, List.foldl_nil, deltaChunk_eq h hb row prev _ hm,
        List.flatMap_append, List.flatMap_cons, List.flatMap_nil, List.append_nil,
        List.append_assoc]
  have hw := Nat.mul_div_cancel' hdvd
  have := hloop (cfg.width c / DELTA_BLOCK_WIDTH_COUNT) hw.le
  rw [hw] at this
  unfold deltaRow
  rw [cfg.loopWidth_eq, ← hrow]
  exact this

end Rows

/-! ### What is emitted for a slice -/

section Slice

variable (cfg : Cfg) (len : TblName → UInt8 → ℕ) (r0 : CompIndex → ℕ) (src : Planes) (base : ℕ)

/-- The kept samples of a phase, by component, row and column. -/
def histView (prev : Hist) : Planes := fun c r x => prev (base + histAddr cfg c r x)

/-- A row is emitted and its samples are kept. -/
def keepRow (prev : Hist) (cr : CompIndex × ℕ) : Hist :=
  written prev (base + histAddr cfg cr.1 cr.2 0) (src cr.1 cr.2) (cfg.width cr.1)

/-- Rows, one after the other. -/
def keepRows : List (CompIndex × ℕ) → Hist → Hist × List Put
  | [], prev => (prev, [])
  | cr :: l, prev =>
    let (prev', rest) := keepRows l (keepRow cfg src base prev cr)
    (prev', encDeltaRow cfg len r0 src (histView cfg base prev) cr ++ rest)

theorem keepRows_append (l l' : List (CompIndex × ℕ)) (prev : Hist) :
    keepRows cfg len r0 src base (l ++ l') prev =
      ((keepRows cfg len r0 src base l' (keepRows cfg len r0 src base l prev).1).1,
        (keepRows cfg len r0 src base l prev).2 ++
          (keepRows cfg len r0 src base l' (keepRows cfg len r0 src base l prev).1).2) := by
  induction l generalizing prev with
  | nil => rfl
  | cons cr l ih => simp only [List.cons_append, keepRows, ih, List.append_assoc]

theorem histAddr_add (c : CompIndex) (r x : ℕ) :
    histAddr cfg c r x = histAddr cfg c r 0 + x := by
  simp only [histAddr, Nat.add_zero]

theorem foldl_keepRow (f : Hist × List Put → CompIndex × ℕ → Hist × List Put)
    (l : List (CompIndex × ℕ))
    (hf : ∀ cr ∈ l, ∀ prev out, f (prev, out) cr = (keepRow cfg src base prev cr,
      out ++ encDeltaRow cfg len r0 src (histView cfg base prev) cr)) (prev : Hist)
      (out : List Put) :
    l.foldl f (prev, out) = ((keepRows cfg len r0 src base l prev).1,
      out ++ (keepRows cfg len r0 src base l prev).2) := by
  induction l generalizing prev out with
  | nil => simp [keepRows]
  | cons cr l ih =>
    rw [List.foldl_cons, hf cr List.mem_cons_self,
      ih fun cr' h => hf cr' (List.mem_cons_of_mem cr h)]
    simp only [keepRows, List.append_assoc]

theorem dvd_width (c : CompIndex) : DELTA_BLOCK_WIDTH_COUNT ∣ cfg.width c := by
  unfold Cfg.width Cfg.screenWidth
  split_ifs <;> decide

variable {cfg src}

/-- **A step of the slice.** -/
theorem compressedDeltaEncode_eq {i : ℕ} {prep : Prep} (h : Ring cfg src i prep) (prev : Hist) :
    compressedDeltaEncode cfg len prep i (base + i * cfg.pStep) prev =
      keepRows cfg len (fun _ => 0) src base (stepRows cfg i) prev := by
  have hstep := foldl_keepRow cfg len (fun _ => 0) src base
    (fun st cr => deltaRow cfg len prep i (base + i * cfg.pStep) cr.1 st (cr.2 - i * cfg.bh cr.1))
    (stepRows cfg i)
    (by
      intro cr hcr prev out
      obtain ⟨c, -, hcr⟩ := List.mem_flatMap.mp hcr
      obtain ⟨b, hb, rfl⟩ := List.mem_map.mp hcr
      have hb := List.mem_range.mp hb
      have hrow : base + histAddr cfg c (i * cfg.bh c + b) 0 = base + i * cfg.pStep +
          cfg.vSamp * cfg.screenWidth * c + b * cfg.screenWidth := by
        rw [histAddr_step cfg i hb]; ring
      simp only [Nat.add_sub_cancel_left]
      rw [deltaRow_eq h hb _ _ hrow prev out (dvd_width cfg c)]
      unfold keepRow encDeltaRow encChunk useDelta chunkSyms predOf histView
      simp only [Nat.add_assoc, ← histAddr_add])
    prev []
  rw [List.nil_append] at hstep
  rw [← Prod.eta (keepRows cfg len (fun _ => 0) src base (stepRows cfg i) prev), ← hstep]
  unfold compressedDeltaEncode stepRows
  rw [List.foldl_flatMap]
  simp only [List.foldl_map, Nat.add_sub_cancel_left]

variable (cfg src)

/-- **What a thread emits is determined by its slice and by the kept samples.** -/
theorem deltaSteps_eq (i n : ℕ) (prep : Prep) (prev : Hist)
    (h : 0 < i → Holds cfg src (i - 1) prep) : deltaSteps cfg len src base i n prep prev =
      keepRows cfg len (fun _ => 0) src base (sliceRows cfg i n) prev := by
  induction n generalizing i prep prev with
  | zero => rfl
  | succ n ih =>
    have hring : Ring cfg src i (preProcess cfg src i prep) := ring_preProcess h
    have hrows : sliceRows cfg i (n + 1) = stepRows cfg i ++ sliceRows cfg (i + 1) n := by
      simp only [sliceRows, List.range'_succ, List.flatMap_cons]
    rw [hrows, keepRows_append, deltaSteps]
    simp only [compressedDeltaEncode_eq len base hring, ih (i + 1) _ _ fun _ => hring.curr]

end Slice

end RemotePlay.Lossless
