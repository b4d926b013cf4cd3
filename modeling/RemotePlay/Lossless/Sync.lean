import RemotePlay.Lossless.Delta

/-! # Delta coding stays in sync

The receiver keeps, for each phase of a screen, the top bits of the samples it decoded last.  They
are the top bits of the samples the encoder keeps, at every frame of every run and whatever the
partitions of its frames are (`decodeRun_encodeRun`). -/

namespace RemotePlay.Lossless

open RemotePlay.Lib RemotePlay.Work

/-! ### Frames and runs -/

/-- A screen, with the width of its image when it is the top one. -/
structure Screen where
  is_top : Bool
  width : TopScreenWidth

/-- The block rows of a screen. -/
def Screen.rows (s : Screen) : ℕ := rpScreenHeight s.is_top s.width / LOSSLESS_BLOCK_SIZE

/-- The length of `prev_coeffs_top` or `prev_coeffs_bot`. -/
def Screen.prevLen (s : Screen) : ℕ :=
  GSP_SCREEN_WIDTH * (if s.is_top then GSP_SCREEN_HEIGHT_TOP_2X else GSP_SCREEN_HEIGHT_BOTTOM) *
    MAX_COMPONENTS

/-- A frame: its partition, its phase, its samples, and what the threads' buffers hold at first. -/
structure DeltaFrame (s : Screen) where
  p : RowPartition s.rows
  even_odd : Bool
  img : Planes
  prep : ℕ → Prep

/-- A frame as it arrives: what its header says, and the streams of its threads. -/
structure Received (s : Screen) where
  p : RowPartition s.rows
  even_odd : Bool
  pss : List (List Put)

section Encoder

variable (cfg : Cfg) (len : TblName → UInt8 → ℕ) {s : Screen}

/-- Where the kept samples of a phase start. -/
def phaseBase (s : Screen) (even_odd : Bool) : ℕ :=
  if cfg.downsample = .checker ∨ cfg.downsample = .evenOdd then s.prevLen / 2 * even_odd.toNat
  else 0

/-- A thread's slice, after those of the threads before it.  `restart_interval` is `v_adjusted`. -/
def deltaThread (f : DeltaFrame s) (st : Hist × List (List Put)) (t : ℕ) : Hist × List (List Put) :=
  let base := phaseBase cfg s f.even_odd +
    f.p.v_adjusted * LOSSLESS_BLOCK_SIZE * cfg.screenWidth * MAX_COMPONENTS * t
  let (prev, ps) := deltaSteps cfg len (slicePlanes cfg f.img (firstStep cfg f.p t)) base 0
    (stepCount cfg f.p t) (f.prep t) st.1
  (prev, st.2 ++ [ps])

/-- A frame: its threads one after another, with what they keep. -/
def encodeDeltaFrame (f : DeltaFrame s) (prev : Hist) : Hist × Received s :=
  let (prev, pss) := (List.range f.p.core_count.get).foldl (deltaThread cfg len f) (prev, [])
  (prev, ⟨f.p, f.even_odd, pss⟩)

/-- The frames of a screen, one after the other. -/
def encodeRun : List (DeltaFrame s) → Hist → Hist × List (Received s)
  | [], prev => (prev, [])
  | f :: fs, prev =>
    let (prev, m) := encodeDeltaFrame cfg len f prev
    let (prev, ms) := encodeRun fs prev
    (prev, m :: ms)

end Encoder

section Decoder

variable (cfg : Cfg) {s : Screen}

/-- A chunk of a row: its flag, and its symbols. -/
def decodeChunk (r0 : CompIndex → ℕ) (c : CompIndex) (r : ℕ) (st : Planes × List Put) (j : ℕ) :
    Option (Planes × List Put) :=
  match st with
  | (img, .flag b :: ps) => do
    let (ys, ps) ← takeSyms (cfg.tbl c) DELTA_BLOCK_WIDTH_COUNT ps
    some (decodePixels (cfg.tbl c) c (r0 c) r b (DELTA_BLOCK_WIDTH_COUNT * j) ys img, ps)
  | _ => none

/-- A row, chunk by chunk. -/
def decodeDeltaRow (r0 : CompIndex → ℕ) (st : Planes × List Put) (cr : CompIndex × ℕ) :
    Option (Planes × List Put) :=
  (List.range (cfg.width cr.1 / DELTA_BLOCK_WIDTH_COUNT)).foldlM (decodeChunk cfg r0 cr.1 cr.2) st

/-- The receiver keeps planes for each phase. -/
def phase (even_odd : Bool) : Bool := cfg.downsample = .evenOdd && even_odd

/-- The frames of a screen, as they arrive. -/
def decodeRun : List (Received s) → (Bool → Planes) → Option (List Planes)
  | [], _ => some []
  | m :: ms, st => do
    let ph := phase cfg m.even_odd
    let img ← decodeFrame cfg (decodeDeltaRow cfg) m.p (st ph) m.pss
    let imgs ← decodeRun ms (Function.update st ph img)
    some (img :: imgs)

end Decoder

/-! ### Reading rows back -/

section Rows

variable {cfg : Cfg} {len : TblName → UInt8 → ℕ} {r0 : CompIndex → ℕ} {src bg old : Planes}
  {next : CompIndex → ℕ} {c : CompIndex} {img : Planes}

theorem decodeChunk_spec (len : TblName → UInt8 → ℕ) (hr : r0 c ≤ next c)
    (hold : ∀ x < cfg.width c, bg c (next c) x = (cfg.tbl c).trunc (old c (next c) x)) {j : ℕ}
    (hj : DELTA_BLOCK_WIDTH_COUNT * (j + 1) ≤ cfg.width c) (rest : List Put)
    (h : Recovered cfg r0 src bg next c (DELTA_BLOCK_WIDTH_COUNT * j) img) :
    ∃ img', decodeChunk cfg r0 c (next c)
        (img, encChunk cfg len r0 src old c (next c) j ++ rest) j = some (img', rest) ∧
      Recovered cfg r0 src bg next c (DELTA_BLOCK_WIDTH_COUNT * (j + 1)) img' := by
  set delta := useDelta cfg len r0 src old c (next c) j with hdelta
  have hsyms := takeSyms_append (cfg.tbl c) (chunkSyms cfg r0 src old delta c (next c) j) rest
  rw [chunkSyms, List.length_map, List.length_range'] at hsyms
  rw [Nat.mul_succ] at hj
  have hrec := decodePixels_spec old delta hr (fun _ => hold) _ hj h
  rw [← Nat.mul_succ] at hrec
  refine ⟨_, ?_, hrec⟩
  simp only [encChunk, ← hdelta, List.cons_append, decodeChunk, chunkSyms, hsyms,
    Option.bind_eq_bind, Option.bind_some]

/-- **Reading back a row.** -/
theorem decodeDeltaRow_spec (hr : r0 c ≤ next c)
    (hold : ∀ x < cfg.width c, bg c (next c) x = (cfg.tbl c).trunc (old c (next c) x))
    (rest : List Put) (h : RowsRecovered cfg r0 src bg next img) :
    ∃ img', decodeDeltaRow cfg r0 (img, encDeltaRow cfg len r0 src old (c, next c) ++ rest)
        (c, next c) = some (img', rest) ∧
      Recovered cfg r0 src bg next c (cfg.width c) img' := by
  have hw := Nat.mul_div_cancel' (dvd_width cfg c)
  set m := cfg.width c / DELTA_BLOCK_WIDTH_COUNT with hm
  obtain ⟨img', h1, -, -, h2⟩ := foldlM_flatMap (decodeChunk cfg r0 c (next c))
    (encChunk cfg len r0 src old c (next c))
    (fun l img => l.length ≤ m ∧ l = List.range' (m - l.length) l.length ∧
      Recovered cfg r0 src bg next c (DELTA_BLOCK_WIDTH_COUNT * (m - l.length)) img)
    (by
      rintro j l img rest ⟨hle, hl, hrec⟩
      rw [List.length_cons] at hle
      rw [List.length_cons, List.range'_succ, List.cons.injEq] at hl
      obtain ⟨hj, hl⟩ := hl
      have hj1 : j + 1 = m - l.length := by omega
      rw [List.length_cons, ← hj] at hrec
      obtain ⟨img', h1, h2⟩ := decodeChunk_spec len hr hold
        (by rw [← hw]; exact Nat.mul_le_mul_left _ (by omega)) rest hrec
      exact ⟨img', h1, by omega, by rwa [← hj, hj1] at hl, by rwa [hj1] at h2⟩)
    (List.range m) img rest
    (by
      rw [List.length_range, Nat.sub_self, Nat.mul_zero]
      exact ⟨le_rfl, List.range_eq_range', h.start c⟩)
  rw [List.length_nil, Nat.sub_zero, hw] at h2
  exact ⟨img', h1, h2⟩

theorem encDeltaRow_congr {old' : Planes} {r : ℕ}
    (h : ∀ x < cfg.width c, old c r x = old' c r x) :
    encDeltaRow cfg len r0 src old (c, r) = encDeltaRow cfg len r0 src old' (c, r) := by
  have hsyms : ∀ delta, ∀ j < cfg.width c / DELTA_BLOCK_WIDTH_COUNT,
      chunkSyms cfg r0 src old delta c r j = chunkSyms cfg r0 src old' delta c r j := by
    intro delta j hj
    refine List.map_congr_left fun x hx => ?_
    have hx := (List.mem_range'_1.mp hx).2
    have hj : DELTA_BLOCK_WIDTH_COUNT * (j + 1) ≤ cfg.width c :=
      (Nat.mul_le_mul_left _ hj).trans (Nat.mul_div_le _ _)
    rw [Nat.mul_succ] at hj
    simp only [predOf, h x (by omega)]
  refine List.flatMap_congr fun j hj => ?_
  have hj := List.mem_range.mp hj
  simp only [encChunk, useDelta, hsyms _ j hj]

end Rows

/-! ### What is kept -/

section Kept

variable {cfg : Cfg} {src : Planes} {base : ℕ} {prev0 : Hist}

/-- The samples of the rows before `next` are kept, and no others have changed. -/
structure Kept (cfg : Cfg) (src : Planes) (base : ℕ) (prev0 : Hist) (next : CompIndex → ℕ)
    (prev : Hist) : Prop where
  view : ∀ c r x, x < cfg.width c →
    histView cfg base prev c r x = if r < next c then src c r x else histView cfg base prev0 c r x
  frame : ∀ a, (∀ c r x, x < cfg.width c → r < next c → a ≠ base + histAddr cfg c r x) →
    prev a = prev0 a

theorem Kept.zero : Kept cfg src base prev0 (fun _ => 0) prev0 :=
  ⟨fun _ _ _ _ => by simp, fun _ _ => rfl⟩

theorem keepRow_view (prev : Hist) (c : CompIndex) (r : ℕ) {c' : CompIndex} {r' x' : ℕ}
    (hx : x' < cfg.width c') : histView cfg base (keepRow cfg src base prev (c, r)) c' r' x' =
      if c' = c ∧ r' = r then src c' r' x' else histView cfg base prev c' r' x' := by
  simp only [histView, keepRow, written]
  by_cases h : c' = c ∧ r' = r
  · obtain ⟨rfl, rfl⟩ := h
    have hadd := histAddr_add cfg c' r' x'
    simp only [and_self, ↓reduceIte]
    rw [if_pos ⟨by omega, by omega⟩]
    exact congrArg (src c' r') (by omega)
  · rw [if_neg h, if_neg]
    rintro ⟨h1, h2⟩
    have heq := histAddr_add cfg c r (base + histAddr cfg c' r' x' - (base + histAddr cfg c r 0))
    have hinj : histAddr cfg c' r' x' =
        histAddr cfg c r (base + histAddr cfg c' r' x' - (base + histAddr cfg c r 0)) := by omega
    obtain ⟨h3, h4, -⟩ := histAddr_inj cfg hx (by omega) hinj
    exact h ⟨h3, h4⟩

theorem Kept.row {next : CompIndex → ℕ} {prev : Hist} (h : Kept cfg src base prev0 next prev)
    (c : CompIndex) : Kept cfg src base prev0 (Function.update next c (next c + 1))
      (keepRow cfg src base prev (c, next c)) := by
  constructor
  · intro c' r' x' hx
    rw [keepRow_view prev c (next c) hx, h.view c' r' x' hx]
    by_cases hc : c' = c
    · subst hc
      simp only [Function.update_self, true_and]
      split_ifs <;> first | rfl | omega
    · rw [Function.update_of_ne hc]
      simp [hc]
  · intro a ha
    have hle : ∀ c', next c' ≤ Function.update next c (next c + 1) c' := by
      intro c'
      by_cases hc : c' = c
      · subst hc; rw [Function.update_self]; exact Nat.le_succ _
      · rw [Function.update_of_ne hc]
    rw [← h.frame a fun c' r' x' hx hr => ha c' r' x' hx (lt_of_lt_of_le hr (hle c'))]
    simp only [keepRow, written]
    rw [if_neg]
    rintro ⟨h1, h2⟩
    have heq := histAddr_add cfg c (next c) (a - (base + histAddr cfg c (next c) 0))
    exact ha c (next c) (a - (base + histAddr cfg c (next c) 0)) (by omega)
      (by rw [Function.update_self]; exact Nat.lt_succ_self _) (by omega)

/-- **Emitting rows keeps them**, and what is emitted is determined by what was kept at first. -/
theorem keepRows_spec (len : TblName → UInt8 → ℕ) (r0 : CompIndex → ℕ) {l : List (CompIndex × ℕ)}
    {next last : CompIndex → ℕ} {prev : Hist}
    (hl : Follows next l last) (h : Kept cfg src base prev0 next prev) :
    (keepRows cfg len r0 src base l prev).2 =
        l.flatMap (encDeltaRow cfg len r0 src (histView cfg base prev0)) ∧
      Kept cfg src base prev0 last (keepRows cfg len r0 src base l prev).1 := by
  induction l generalizing next prev with
  | nil => cases hl; exact ⟨rfl, h⟩
  | cons cr l ih =>
    obtain ⟨c, r⟩ := cr
    obtain ⟨rfl, hl⟩ := hl
    obtain ⟨h1, h2⟩ := ih hl (h.row c)
    refine ⟨?_, h2⟩
    have hrow : encDeltaRow cfg len r0 src (histView cfg base prev) (c, next c) =
        encDeltaRow cfg len r0 src (histView cfg base prev0) (c, next c) :=
      encDeltaRow_congr fun x hx => by rw [h.view c _ x hx, if_neg (Nat.lt_irrefl _)]
    rw [List.flatMap_cons, ← hrow, ← h1]
    rfl

end Kept

/-! ### Threads, frames and runs -/

section Frames

variable {cfg : Cfg} {len : TblName → UInt8 → ℕ} {s : Screen}

theorem histAddr_slice (k : ℕ) (c : CompIndex) (r x : ℕ) :
    histAddr cfg c (k * cfg.bh c + r) x = k * cfg.pStep + histAddr cfg c r x := by
  have hbh := cfg.bh_pos c
  unfold histAddr
  rw [Nat.add_comm (k * _) r, Nat.add_mul_div_right _ _ hbh, Nat.add_mul_mod_self_right]
  ring

theorem encDeltaRow_slice (img : Planes) (base k : ℕ) (prev : Hist) (cr : CompIndex × ℕ) :
    encDeltaRow cfg len (fun _ => 0) (slicePlanes cfg img k)
        (histView cfg (base + k * cfg.pStep) prev) cr =
      encDeltaRow cfg len (fun c => k * cfg.bh c) img (histView cfg base prev)
        (cr.1, k * cfg.bh cr.1 + cr.2) := by
  have hsyms : ∀ delta j, chunkSyms cfg (fun _ => 0) (slicePlanes cfg img k)
        (histView cfg (base + k * cfg.pStep) prev) delta cr.1 cr.2 j =
      chunkSyms cfg (fun c => k * cfg.bh c) img (histView cfg base prev) delta cr.1
        (k * cfg.bh cr.1 + cr.2) j := by
    intro delta j
    refine List.map_congr_left fun x _ => ?_
    cases delta with
    | false => simp only [predOf, Bool.false_eq_true, ↓reduceIte, planePred_slice, slicePlanes]
    | true => simp only [predOf, ↓reduceIte, histView, histAddr_slice, slicePlanes, Nat.add_assoc]
  refine List.flatMap_congr fun j _ => ?_
  simp only [encChunk, useDelta, hsyms]

theorem keepRows_slice (img : Planes) (base k : ℕ) (l : List (CompIndex × ℕ)) (prev : Hist) :
    keepRows cfg len (fun _ => 0) (slicePlanes cfg img k) (base + k * cfg.pStep) l prev =
      keepRows cfg len (fun c => k * cfg.bh c) img base
        (l.map fun cr => (cr.1, k * cfg.bh cr.1 + cr.2)) prev := by
  induction l generalizing prev with
  | nil => rfl
  | cons cr l ih =>
    have hkeep : keepRow cfg (slicePlanes cfg img k) (base + k * cfg.pStep) prev cr =
        keepRow cfg img base prev (cr.1, k * cfg.bh cr.1 + cr.2) := by
      unfold keepRow
      rw [histAddr_slice, ← Nat.add_assoc]
      rfl
    simp only [keepRows, List.map_cons, hkeep, encDeltaRow_slice, ih]

theorem threadBase_eq (p : RowPartition s.rows) (t : ℕ) :
    p.v_adjusted * LOSSLESS_BLOCK_SIZE * cfg.screenWidth * MAX_COMPONENTS * t =
      firstStep cfg p t * cfg.pStep := by
  have hdiv : firstStep cfg p t * cfg.rowsPerStep = LOSSLESS_BLOCK_SIZE * (p.v_adjusted * t) := by
    refine Nat.div_mul_cancel (Dvd.dvd.mul_right ?_ _)
    rcases cfg.rowsPerStep_cases with h | h | h <;> rw [h] <;> decide
  calc _ = LOSSLESS_BLOCK_SIZE * (p.v_adjusted * t) * cfg.screenWidth * MAX_COMPONENTS := by ring
    _ = _ := by rw [← hdiv, Cfg.pStep]; ring

theorem deltaThread_eq (f : DeltaFrame s) (st : Hist × List (List Put)) (t : ℕ) :
    deltaThread cfg len f st t =
      let k := firstStep cfg f.p t
      let res := keepRows cfg len (fun c => k * cfg.bh c) f.img (phaseBase cfg s f.even_odd)
        (sliceRows cfg k (stepCount cfg f.p t)) st.1
      (res.1, st.2 ++ [res.2]) := by
  have hsteps := deltaSteps_eq cfg len (slicePlanes cfg f.img (firstStep cfg f.p t))
    (phaseBase cfg s f.even_odd + firstStep cfg f.p t * cfg.pStep) 0 (stepCount cfg f.p t)
      (f.prep t)
    st.1 (fun h => absurd h (Nat.lt_irrefl 0))
  rw [keepRows_slice, ← sliceRows_map] at hsteps
  simp only [deltaThread, threadBase_eq, hsteps]

/-- What the threads emit for a frame when `old` was kept. -/
def frameSyms (cfg : Cfg) (len : TblName → UInt8 → ℕ) (f : DeltaFrame s) (old : Planes) :
    List (List Put) :=
  (List.range f.p.core_count.get).map fun t =>
    (sliceRows cfg (firstStep cfg f.p t) (stepCount cfg f.p t)).flatMap
      (encDeltaRow cfg len (fun c => firstStep cfg f.p t * cfg.bh c) f.img old)

/-- **Encoding a frame keeps its samples, and what is emitted is determined by the samples kept
before.** -/
theorem encodeDeltaFrame_spec (cfg : Cfg) (len : TblName → UInt8 → ℕ) (f : DeltaFrame s)
    (prev : Hist) : (encodeDeltaFrame cfg len f prev).2 = ⟨f.p, f.even_odd,
        frameSyms cfg len f (histView cfg (phaseBase cfg s f.even_odd) prev)⟩ ∧
      Kept cfg f.img (phaseBase cfg s f.even_odd) prev
        (fun c => frameSteps cfg s.rows * cfg.bh c) (encodeDeltaFrame cfg len f prev).1 := by
  set base := phaseBase cfg s f.even_odd with hbase
  set enc := fun t => (sliceRows cfg (firstStep cfg f.p t) (stepCount cfg f.p t)).flatMap
    (encDeltaRow cfg len (fun c => firstStep cfg f.p t * cfg.bh c) f.img (histView cfg base prev))
    with henc
  -- one more thread
  have hnext : ∀ t, ∀ prev1, Kept cfg f.img base prev (fun c => firstStep cfg f.p t * cfg.bh c)
      prev1 → ∃ prev2, deltaThread cfg len f (prev1, (List.range t).map enc) t =
          (prev2, (List.range (t + 1)).map enc) ∧
        Kept cfg f.img base prev
          (fun c => (firstStep cfg f.p t + stepCount cfg f.p t) * cfg.bh c) prev2 := by
    intro t prev1 h
    obtain ⟨h1, h2⟩ := keepRows_spec len (fun c => firstStep cfg f.p t * cfg.bh c)
      (follows_slice cfg (firstStep cfg f.p t) (stepCount cfg f.p t)) h
    refine ⟨_, ?_, h2⟩
    rw [deltaThread_eq, List.range_succ, List.map_append]
    simp only [← hbase, h1]
    rfl
  have hbefore : ∀ t < f.p.core_count.get, ∃ prev1,
      (List.range t).foldl (deltaThread cfg len f) (prev, []) = (prev1, (List.range t).map enc) ∧
        Kept cfg f.img base prev (fun c => firstStep cfg f.p t * cfg.bh c) prev1 := by
    intro t
    induction t with
    | zero =>
      refine fun _ => ⟨prev, rfl, ?_⟩
      simpa only [firstStep_zero, Nat.zero_mul] using Kept.zero
    | succ t ih =>
      intro ht
      obtain ⟨prev1, h1, h2⟩ := ih (by omega)
      obtain ⟨prev2, h3, h4⟩ := hnext t prev1 h2
      rw [firstStep_succ cfg f.p ht] at h4
      refine ⟨prev2, ?_, h4⟩
      rw [List.range_succ, List.foldl_append, h1, List.foldl_cons, List.foldl_nil, h3,
        ← List.range_succ]
  have hpos := f.p.core_count.get_pos
  obtain ⟨prev1, h1, h2⟩ := hbefore (f.p.core_count.get - 1) (by omega)
  obtain ⟨prev2, h3, h4⟩ := hnext _ prev1 h2
  rw [firstStep_last cfg f.p] at h4
  have hall : (List.range f.p.core_count.get).foldl (deltaThread cfg len f) (prev, []) =
      (prev2, (List.range f.p.core_count.get).map enc) := by
    obtain ⟨m, hm⟩ : ∃ m, f.p.core_count.get = m + 1 := ⟨_, (Nat.sub_add_cancel hpos).symm⟩
    rw [hm, Nat.add_sub_cancel] at h1 h3
    rw [hm, List.range_succ, List.foldl_append, h1, List.foldl_cons, List.foldl_nil, h3,
      ← List.range_succ]
  simp only [encodeDeltaFrame, hall]
  exact ⟨rfl, h4⟩

/-! ### In sync -/

/-- The samples of a frame of the screen. -/
def Valid (cfg : Cfg) (s : Screen) (c : CompIndex) (r x : ℕ) : Prop :=
  r < frameSteps cfg s.rows * cfg.bh c ∧ x < cfg.width c

/-- The receiver's planes are the truncated kept samples, in either phase. -/
def InSync (cfg : Cfg) (s : Screen) (prev : Hist) (st : Bool → Planes) : Prop :=
  ∀ e c r x, Valid cfg s c r x → st (phase cfg e) c r x =
    (cfg.tbl c).trunc (histView cfg (phaseBase cfg s e) prev c r x)

theorem histAddr_lt (hd : cfg.downsample = .evenOdd) {c : CompIndex} {r x : ℕ}
    (h : Valid cfg s c r x) : histAddr cfg c r x < s.prevLen / 2 := by
  obtain ⟨hr, hx⟩ := h
  have hstep : r / cfg.bh c < frameSteps cfg s.rows :=
    Nat.div_lt_of_lt_mul (by rwa [Nat.mul_comm])
  have h1 : histAddr cfg c r x < frameSteps cfg s.rows * cfg.pStep := by
    rw [histAddr_eq]
    exact offset_lt hstep (comp_lt cfg r hx)
  have h2 : frameSteps cfg s.rows * cfg.pStep ≤ LOSSLESS_BLOCK_SIZE * s.rows * 120 * 3 := by
    have hW : cfg.screenWidth = 120 := by
      unfold Cfg.screenWidth; rw [if_pos (Or.inr hd)]; rfl
    have := Nat.div_mul_le_self (LOSSLESS_BLOCK_SIZE * s.rows) cfg.rowsPerStep
    calc frameSteps cfg s.rows * cfg.pStep
        = LOSSLESS_BLOCK_SIZE * s.rows / cfg.rowsPerStep * cfg.rowsPerStep * 120 * 3 := by
          unfold frameSteps Cfg.pStep MAX_COMPONENTS; rw [hW]; ring
      _ ≤ _ := Nat.mul_le_mul_right _ (Nat.mul_le_mul_right _ this)
  have h3 : LOSSLESS_BLOCK_SIZE * s.rows * 120 * 3 ≤ s.prevLen / 2 := by
    obtain ⟨is_top, width⟩ := s
    cases is_top <;> cases width <;> decide
  omega

theorem phase_cases (cfg : Cfg) (s : Screen) (e e' : Bool) :
    phase cfg e = phase cfg e' ∧ phaseBase cfg s e = phaseBase cfg s e' ∨
      phase cfg e ≠ phase cfg e' ∧ ∀ c r x c' r' x', Valid cfg s c r x → Valid cfg s c' r' x' →
        phaseBase cfg s e + histAddr cfg c r x ≠ phaseBase cfg s e' + histAddr cfg c' r' x' := by
  by_cases hd : cfg.downsample = .evenOdd
  · have hlt := fun c r x => histAddr_lt hd (s := s) (c := c) (r := r) (x := x)
    unfold phase phaseBase
    cases e <;> cases e'
    · exact Or.inl ⟨rfl, rfl⟩
    · refine Or.inr ⟨by simp [hd], fun c r x c' r' x' h h' => ?_⟩
      have := hlt c r x h
      simp only [hd, or_true, ↓reduceIte, Bool.toNat_false, Bool.toNat_true]
      omega
    · refine Or.inr ⟨by simp [hd], fun c r x c' r' x' h h' => ?_⟩
      have := hlt c' r' x' h'
      simp only [hd, or_true, ↓reduceIte, Bool.toNat_false, Bool.toNat_true]
      omega
    · exact Or.inl ⟨rfl, rfl⟩
  · have hno : ¬ (cfg.downsample = .checker ∨ cfg.downsample = .evenOdd) :=
      not_or.mpr ⟨cfg.not_checker, hd⟩
    exact Or.inl ⟨by simp [phase, hd], by simp only [phaseBase, if_neg hno]⟩

/-- What is kept after a frame: its own samples, and in the other phase what was kept before. -/
theorem kept_view (f : DeltaFrame s) (prev : Hist) (e : Bool) {c : CompIndex} {r x : ℕ}
    (h : Valid cfg s c r x) :
    histView cfg (phaseBase cfg s e) (encodeDeltaFrame cfg len f prev).1 c r x =
      if phase cfg f.even_odd = phase cfg e then f.img c r x
      else histView cfg (phaseBase cfg s e) prev c r x := by
  obtain ⟨-, hkept⟩ := encodeDeltaFrame_spec cfg len f prev
  rcases phase_cases cfg s f.even_odd e with ⟨h1, h2⟩ | ⟨h1, h2⟩
  · rw [if_pos h1, ← h2, hkept.view c r x h.2, if_pos h.1]
  · rw [if_neg h1]
    exact hkept.frame _ fun c' r' x' hx' hr' => (h2 c' r' x' c r x ⟨hr', hx'⟩ h).symm

/-- **A frame is read back** by a receiver in sync. -/
theorem decodeFrame_frameSyms (len : TblName → UInt8 → ℕ) (f : DeltaFrame s) {old img : Planes}
    (h : ∀ c r x, Valid cfg s c r x → img c r x = (cfg.tbl c).trunc (old c r x)) :
    ∃ img', decodeFrame cfg (decodeDeltaRow cfg) f.p img (frameSyms cfg len f old) = some img' ∧
      ∀ c r x, Valid cfg s c r x → img' c r x = (cfg.tbl c).trunc (f.img c r x) := by
  obtain ⟨img', h1, h2⟩ := decodeThreads_spec f.p
    (fun img t => decodeSlice cfg (decodeDeltaRow cfg) (firstStep cfg f.p t)
      (stepCount cfg f.p t) img ((sliceRows cfg (firstStep cfg f.p t) (stepCount cfg f.p t)).flatMap
        (encDeltaRow cfg len (fun c => firstStep cfg f.p t * cfg.bh c) f.img old))) img
    (fun img1 t ht himg1 => decodeSlice_spec cfg fun next c img' rest hr hlt hrec =>
      decodeDeltaRow_spec hr (fun x hx => by
        rw [himg1 c _ x hx hr]
        exact h c _ x ⟨lt_of_lt_of_le hlt (Nat.mul_le_mul_right _ (steps_le cfg f.p ht)), hx⟩)
        rest hrec)
  refine ⟨img', ?_, fun c r x hv => ?_⟩
  · rw [frameSyms, decodeFrame_map]
    exact h1
  · rw [h2 c r x hv.2, if_pos ⟨Nat.zero_le _, hv.1⟩]

/-- The samples last sent in a phase, `init` before the first frame. -/
def lastSent (cfg : Cfg) (e : Bool) (init : Planes) (fs : List (DeltaFrame s)) : Planes :=
  fs.foldl (fun acc f => if phase cfg f.even_odd = phase cfg e then f.img else acc) init

/-- **The samples kept for a phase are those last sent in it.** -/
theorem encodeRun_view (fs : List (DeltaFrame s)) (prev : Hist) (e : Bool) {c : CompIndex} {r x : ℕ}
    (h : Valid cfg s c r x) {init : Planes}
    (hinit : histView cfg (phaseBase cfg s e) prev c r x = init c r x) :
    histView cfg (phaseBase cfg s e) (encodeRun cfg len fs prev).1 c r x =
      lastSent cfg e init fs c r x := by
  induction fs generalizing prev init with
  | nil => exact hinit
  | cons f fs ih =>
    refine ih (encodeDeltaFrame cfg len f prev).1 ?_
    rw [kept_view f prev e h]
    dsimp only
    split_ifs
    · rfl
    · exact hinit

/-- **A run is read back** by a receiver in sync. -/
theorem decodeRun_spec (fs : List (DeltaFrame s)) {prev : Hist} {st : Bool → Planes}
    (h : InSync cfg s prev st) :
    ∃ imgs, decodeRun cfg (encodeRun cfg len fs prev).2 st = some imgs ∧
      List.Forall₂ (fun f img => ∀ c r x, Valid cfg s c r x →
        img c r x = (cfg.tbl c).trunc (f.img c r x)) fs imgs := by
  induction fs generalizing prev st with
  | nil => exact ⟨[], rfl, .nil⟩
  | cons f fs ih =>
    obtain ⟨hsyms, -⟩ := encodeDeltaFrame_spec cfg len f prev
    obtain ⟨img, himg, hval⟩ := decodeFrame_frameSyms len f (h f.even_odd)
    -- the receiver is in sync after the frame
    have hsync : InSync cfg s (encodeDeltaFrame cfg len f prev).1
        (Function.update st (phase cfg f.even_odd) img) := by
      intro e c r x hv
      rw [kept_view f prev e hv]
      by_cases hph : phase cfg f.even_odd = phase cfg e
      · rw [if_pos hph, ← hph, Function.update_self, hval c r x hv]
      · rw [if_neg hph, Function.update_of_ne (Ne.symm hph), h e c r x hv]
    obtain ⟨imgs, h1, h2⟩ := ih hsync
    refine ⟨img :: imgs, ?_, .cons hval h2⟩
    simp only [encodeRun, decodeRun, hsyms, himg, h1, Option.bind_eq_bind, Option.bind_some]

end Frames

/-- **Lossless delta coding stays in sync over whole runs**: from the zeroed state, the receiver
gets the top bits of every sample of every frame, and the kept sample that an encoder reads for a
sample of the next frame is the one last sent in its place in that phase. -/
theorem decodeRun_encodeRun (cfg : Cfg) (len : TblName → UInt8 → ℕ) {s : Screen}
    (fs : List (DeltaFrame s)) :
    (∃ imgs, decodeRun cfg (encodeRun cfg len fs fun _ => 0).2 (fun _ _ _ _ => 0) = some imgs ∧
      List.Forall₂ (fun f img => ∀ c r x, Valid cfg s c r x →
        img c r x = (cfg.tbl c).trunc (f.img c r x)) fs imgs) ∧
    ∀ e c r x, Valid cfg s c r x →
      (encodeRun cfg len fs fun _ => 0).1 (phaseBase cfg s e + histAddr cfg c r x) =
        lastSent cfg e (fun _ _ _ => 0) fs c r x := by
  refine ⟨decodeRun_spec fs fun e c r x _ => ?_, fun e c r x h => ?_⟩
  · exact (cfg.tbl c).trunc_zero.symm
  · exact encodeRun_view fs _ e h rfl

end RemotePlay.Lossless
