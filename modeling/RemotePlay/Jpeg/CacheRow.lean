import RemotePlay.Jpeg.Cache
import RemotePlay.Config
import Mathlib.Data.List.FinRange
import Mathlib.Data.List.Sort
import Mathlib.Data.Fintype.Fin
import Mathlib.Tactic.FinCases

/-! # A row of cached blocks

The cached blocks of a component are at places of the first row of a thread, drawn at random and
kept in order.  `compress` meets the blocks of a row in the same order and keeps for each component
the number of cached blocks met, so that the next cached block is never behind it.  A row compressed
with the cache is the row compressed without it (`cachedRow_eq_plainRow`), frame after frame
(`runRows_cached`). -/

namespace RemotePlay.Jpeg

open RemotePlay.Lib

/-! ### The places drawn -/

/-- The draws of `rand_range(0..(m - i))` for `i` in `0..n`. -/
structure Draws (n m : ℕ) where
  v : Fin n → ℕ
  lt : ∀ i, v i < m - i

/-- The inner loop that moves a draw past the places taken. -/
def skipTaken (v : ℕ) (indices : List ℕ) : ℕ :=
  indices.foldl (fun v j => if v ≥ j then v + 1 else v) v

/-- The inner loops that put a place in order. -/
def insertIndex (v : ℕ) : List ℕ → List ℕ
  | [] => [v]
  | j :: js => if v < j then v :: j :: js else j :: insertIndex v js

/-- `dq_cache_gen_unique_indices`. -/
def dqCacheGenUniqueIndices {n m : ℕ} (rand : Draws n m) : List ℕ :=
  (List.finRange n).foldl (fun indices i => insertIndex (skipTaken (rand.v i) indices) indices) []

theorem mem_insertIndex {v x : ℕ} {js : List ℕ} : x ∈ insertIndex v js ↔ x = v ∨ x ∈ js := by
  induction js with
  | nil => simp [insertIndex]
  | cons j js ih =>
    unfold insertIndex
    split_ifs with h
    · simp
    · rw [List.mem_cons, ih, List.mem_cons]
      exact or_left_comm

theorem pairwise_insertIndex {v : ℕ} {js : List ℕ} (h : js.Pairwise (· < ·)) (hv : v ∉ js) :
    (insertIndex v js).Pairwise (· < ·) := by
  induction js with
  | nil => simp [insertIndex]
  | cons j js ih =>
    obtain ⟨hj, hjs⟩ := List.pairwise_cons.mp h
    rw [List.mem_cons, not_or] at hv
    unfold insertIndex
    split_ifs with hlt
    · refine List.pairwise_cons.mpr ⟨fun x hx => ?_, h⟩
      rcases List.mem_cons.mp hx with rfl | hx
      · exact hlt
      · exact hlt.trans (hj x hx)
    · refine List.pairwise_cons.mpr ⟨fun x hx => ?_, ih hjs hv.2⟩
      rcases mem_insertIndex.mp hx with rfl | hx
      · omega
      · exact hj x hx

theorem skipTaken_of_lt {v : ℕ} {js : List ℕ} (h : ∀ j ∈ js, v < j) : skipTaken v js = v := by
  induction js with
  | nil => rfl
  | cons j js ih =>
    have hj := h j List.mem_cons_self
    have htail := ih fun x hx => h x (List.mem_cons_of_mem _ hx)
    rw [skipTaken, List.foldl_cons, if_neg (by omega)]
    exact htail

/-- **A draw is moved to a place that is free**, by at most one for each place taken. -/
theorem skipTaken_spec {v : ℕ} {js : List ℕ} (h : js.Pairwise (· < ·)) :
    skipTaken v js ∉ js ∧ v ≤ skipTaken v js ∧ skipTaken v js ≤ v + js.length := by
  induction js generalizing v with
  | nil => simp [skipTaken]
  | cons j js ih =>
    obtain ⟨hj, hjs⟩ := List.pairwise_cons.mp h
    rw [List.mem_cons, not_or, List.length_cons]
    by_cases hv : v ≥ j
    · have hstep : skipTaken v (j :: js) = skipTaken (v + 1) js := by
        rw [skipTaken, List.foldl_cons, if_pos hv, skipTaken]
      obtain ⟨h1, h2, h3⟩ := ih (v := v + 1) hjs
      rw [hstep]
      exact ⟨⟨by omega, h1⟩, by omega, by omega⟩
    · have hlt : ∀ x ∈ j :: js, v < x := by
        intro x hx
        rcases List.mem_cons.mp hx with rfl | hx
        · omega
        · have := hj x hx
          omega
      rw [skipTaken_of_lt hlt]
      exact ⟨⟨by omega, fun hx => absurd (hlt v (List.mem_cons_of_mem _ hx)) (lt_irrefl v)⟩,
        le_rfl, by omega⟩

theorem length_insertIndex (v : ℕ) (js : List ℕ) : (insertIndex v js).length = js.length + 1 := by
  induction js with
  | nil => rfl
  | cons j js ih =>
    unfold insertIndex
    split_ifs
    · rfl
    · rw [List.length_cons, ih, List.length_cons]

/-- The places after `k` draws. -/
def drawn {n m : ℕ} (rand : Draws n m) (k : ℕ) : List ℕ :=
  ((List.finRange n).take k).foldl
    (fun indices i => insertIndex (skipTaken (rand.v i) indices) indices) []

theorem drawn_succ {n m : ℕ} (rand : Draws n m) {k : ℕ} (hk : k < n) :
    drawn rand (k + 1) =
      insertIndex (skipTaken (rand.v ⟨k, hk⟩) (drawn rand k)) (drawn rand k) := by
  have hlen : k < (List.finRange n).length := by rwa [List.length_finRange]
  have hget : (List.finRange n)[k] = ⟨k, hk⟩ := by
    rw [List.getElem_finRange]
    rfl
  rw [drawn, List.take_succ_eq_append_getElem hlen, List.foldl_append, hget]
  rfl

theorem drawn_all {n m : ℕ} (rand : Draws n m) : drawn rand n = dqCacheGenUniqueIndices rand := by
  rw [drawn, List.take_of_length_le (by rw [List.length_finRange])]
  rfl

theorem drawn_spec {n m : ℕ} (rand : Draws n m) {k : ℕ} (hk : k ≤ n) :
    (drawn rand k).Pairwise (· < ·) ∧ (drawn rand k).length = k ∧ ∀ x ∈ drawn rand k, x < m := by
  induction k with
  | zero => exact ⟨List.Pairwise.nil, rfl, fun x hx => absurd hx List.not_mem_nil⟩
  | succ k ih =>
    obtain ⟨hs, hlen, hm⟩ := ih (by omega)
    obtain ⟨hfree, -, hle⟩ := skipTaken_spec (v := rand.v ⟨k, hk⟩) hs
    have hlt : rand.v ⟨k, hk⟩ < m - k := rand.lt ⟨k, hk⟩
    rw [drawn_succ rand hk]
    refine ⟨pairwise_insertIndex hs hfree, by rw [length_insertIndex, hlen], fun x hx => ?_⟩
    rcases mem_insertIndex.mp hx with rfl | hx
    · omega
    · exact hm x hx

/-- **The places are in order, all different, and within the row.** -/
theorem dqCacheGenUniqueIndices_spec {n m : ℕ} (rand : Draws n m) :
    (dqCacheGenUniqueIndices rand).Pairwise (· < ·) ∧
      (dqCacheGenUniqueIndices rand).length = n ∧ ∀ x ∈ dqCacheGenUniqueIndices rand, x < m :=
  drawn_all rand ▸ drawn_spec rand le_rfl

/-! ### The blocks of a row -/

/-- `CompInfo`: a component's sampling factors, as exponents, and its table. -/
structure CompInfo where
  h_samp_exp : ℕ
  v_samp_exp : ℕ
  quant_tbl_no : TblNo

namespace CompInfo

variable (c : CompInfo)

/-- `h_samp_factor`: its blocks in a row of an MCU. -/
def h_samp_factor : ℕ := 2 ^ c.h_samp_exp
/-- `v_samp_factor`: its rows of blocks in an MCU. -/
def v_samp_factor : ℕ := 2 ^ c.v_samp_exp

/-- The blocks of a component in one MCU. -/
def blocks : ℕ := 2 ^ (c.h_samp_exp + c.v_samp_exp)

end CompInfo

/-- `comp_infos`, `set_color_space_ycb_cr_420` and the like. -/
def compInfos (ss : ChromaSs) (ci : Fin 3) : CompInfo :=
  match ss, ci with
  | .ss420, 0 => ⟨1, 1, .luminance⟩
  | .ss422, 0 => ⟨1, 0, .luminance⟩
  | .ss444, 0 => ⟨0, 0, .luminance⟩
  | _, _ => ⟨0, 0, .chrominance⟩

/-- `blkn_start`. -/
def blknStart (ss : ChromaSs) (ci : Fin 3) : ℕ :=
  match ci with
  | 0 => 0
  | 1 => (compInfos ss 0).blocks
  | 2 => (compInfos ss 0).blocks + (compInfos ss 1).blocks

/-- `max_blocks_in_mcu`. -/
def maxBlocksInMcu (ss : ChromaSs) : ℕ :=
  (compInfos ss 0).blocks + (compInfos ss 1).blocks + (compInfos ss 2).blocks

/-- A block of a row as the loops of `do_process` and `compress` reach it: row `y` and column `x` of
component `ci` within MCU `mcu`. -/
structure Place where
  mcu : ℕ
  ci : Fin 3
  y : ℕ
  x : ℕ

namespace Place

variable (ss : ChromaSs) (b : Place)

/-- `xpos` of the block in its component. -/
def xpos : ℕ := b.mcu * ((compInfos ss b.ci).h_samp_factor * DCTSIZE) + b.x * DCTSIZE
/-- `ypos` of the block in the row. -/
def ypos : ℕ := b.y * DCTSIZE
/-- `blkn`, the number of the block in its MCU. -/
def blkn : ℕ := blknStart ss b.ci + (b.y * (compInfos ss b.ci).h_samp_factor + b.x)

/-- Where the block kept is. -/
def prevIndex : ℕ := b.mcu * maxBlocksInMcu ss + b.blkn ss

/-- The number of the block among those of its component. -/
def index : ℕ := b.mcu * (compInfos ss b.ci).blocks +
  (b.y * (compInfos ss b.ci).h_samp_factor + b.x)

end Place

/-- The blocks of one MCU in the order of `compress`. -/
def mcuPlaces (ss : ChromaSs) (mcu : ℕ) : List Place :=
  (List.finRange 3).flatMap fun ci => (List.range (compInfos ss ci).v_samp_factor).flatMap fun y =>
    (List.range (compInfos ss ci).h_samp_factor).map fun x => ⟨mcu, ci, y, x⟩

/-- The blocks of a row. -/
def rowPlaces (ss : ChromaSs) (mcus_per_row : ℕ) : List Place :=
  (List.range mcus_per_row).flatMap (mcuPlaces ss)

/-! ### The places of `compute_dq` -/

section

variable (ss : ChromaSs) (ci : Fin 3) (blkn : ℕ)

/-- `xpos` of a block drawn. -/
def cacheXpos : ℕ :=
  let mcu_i := blkn / (compInfos ss ci).blocks
  let mcu_r := blkn % (compInfos ss ci).blocks
  (mcu_r % (compInfos ss ci).h_samp_factor + mcu_i * (compInfos ss ci).h_samp_factor) * DCTSIZE

/-- `ypos` of a block drawn. -/
def cacheYpos : ℕ :=
  blkn % (compInfos ss ci).blocks / (compInfos ss ci).h_samp_factor * DCTSIZE

/-- Where the block kept for it is. -/
def cachePrevIndex : ℕ :=
  blkn / (compInfos ss ci).blocks * maxBlocksInMcu ss + blkn % (compInfos ss ci).blocks +
    blknStart ss ci

end

theorem cache_inj {ss : ChromaSs} {ci : Fin 3} {k k' : ℕ}
    (hx : cacheXpos ss ci k = cacheXpos ss ci k') (hy : cacheYpos ss ci k = cacheYpos ss ci k') :
    k = k' := by
  cases ss <;> fin_cases ci <;>
    simp [cacheXpos, cacheYpos, compInfos, CompInfo.blocks, CompInfo.h_samp_factor, DCTSIZE]
      at hx hy <;> omega

theorem cachePrevIndex_inj {ss : ChromaSs} {ci ci' : Fin 3} {k k' : ℕ}
    (h : cachePrevIndex ss ci k = cachePrevIndex ss ci' k') : ci = ci' ∧ k = k' := by
  cases ss <;> fin_cases ci <;> fin_cases ci' <;>
    simp [cachePrevIndex, blknStart, maxBlocksInMcu, compInfos, CompInfo.blocks] at h ⊢ <;> omega

/-- A block within its MCU. -/
def Place.Inside (ss : ChromaSs) (b : Place) : Prop :=
  b.y < (compInfos ss b.ci).v_samp_factor ∧ b.x < (compInfos ss b.ci).h_samp_factor

theorem Place.cache_index {ss : ChromaSs} {b : Place} (h : b.Inside ss) :
    cacheXpos ss b.ci (b.index ss) = b.xpos ss ∧ cacheYpos ss b.ci (b.index ss) = b.ypos ∧
      cachePrevIndex ss b.ci (b.index ss) = b.prevIndex ss := by
  obtain ⟨mcu, ci, y, x⟩ := b
  cases ss <;> fin_cases ci <;>
    simp [Place.Inside, cacheXpos, cacheYpos, cachePrevIndex, Place.index, Place.xpos, Place.ypos,
      Place.prevIndex, Place.blkn, blknStart, maxBlocksInMcu, compInfos, CompInfo.blocks,
      CompInfo.h_samp_factor, CompInfo.v_samp_factor, DCTSIZE] at h ⊢ <;> omega

/-! ### The order of a row -/

/-- From `lo ci` blocks of each component on, the blocks are the next of their components in turn,
and none is past the `M`-th MCU. -/
def InTurn (ss : ChromaSs) (M : ℕ) : (Fin 3 → ℕ) → List Place → Prop
  | _, [] => True
  | lo, b :: bs => (b.Inside ss ∧ b.index ss = lo b.ci ∧ lo b.ci < M * (compInfos ss b.ci).blocks) ∧
      InTurn ss M (Function.update lo b.ci (lo b.ci + 1)) bs

/-- The numbers of blocks met. -/
def metBy (lo : Fin 3 → ℕ) (bs : List Place) : Fin 3 → ℕ :=
  bs.foldl (fun lo b => Function.update lo b.ci (lo b.ci + 1)) lo

theorem inTurn_append {ss : ChromaSs} {M : ℕ} {lo : Fin 3 → ℕ} {bs bs' : List Place} :
    InTurn ss M lo (bs ++ bs') ↔ InTurn ss M lo bs ∧ InTurn ss M (metBy lo bs) bs' := by
  induction bs generalizing lo with
  | nil => simp [InTurn, metBy]
  | cons b bs ih =>
    rw [List.cons_append, InTurn, InTurn, ih]
    exact and_assoc.symm

theorem mcuPlaces_inTurn (ss : ChromaSs) {mcu M : ℕ} (h : mcu < M) :
    InTurn ss M (fun ci => mcu * (compInfos ss ci).blocks) (mcuPlaces ss mcu) ∧
      metBy (fun ci => mcu * (compInfos ss ci).blocks) (mcuPlaces ss mcu) =
        fun ci => (mcu + 1) * (compInfos ss ci).blocks := by
  constructor
  · cases ss <;>
      simp [mcuPlaces, List.finRange_succ, List.range_succ, InTurn, Place.Inside, Place.index,
        compInfos, CompInfo.blocks, CompInfo.h_samp_factor, CompInfo.v_samp_factor] <;> omega
  · funext ci
    cases ss <;> fin_cases ci <;>
      simp [mcuPlaces, List.finRange_succ, List.range_succ, metBy, compInfos, CompInfo.blocks,
        CompInfo.h_samp_factor, CompInfo.v_samp_factor] <;> omega

/-- **A row goes through the blocks of each component in order.** -/
theorem rowPlaces_inTurn (ss : ChromaSs) (M : ℕ) :
    InTurn ss M (fun _ => 0) (rowPlaces ss M) ∧
      metBy (fun _ => 0) (rowPlaces ss M) = fun ci => M * (compInfos ss ci).blocks := by
  have hrun : ∀ n ≤ M, InTurn ss M (fun _ => 0) (rowPlaces ss n) ∧
      metBy (fun _ => 0) (rowPlaces ss n) = fun ci => n * (compInfos ss ci).blocks := by
    intro n
    induction n with
    | zero => exact fun _ => ⟨trivial, by simp [rowPlaces, metBy]⟩
    | succ n ih =>
      intro hn
      obtain ⟨h1, h2⟩ := ih (by omega)
      obtain ⟨h3, h4⟩ := mcuPlaces_inTurn ss hn
      have hsplit : rowPlaces ss (n + 1) = rowPlaces ss n ++ mcuPlaces ss n := by
        simp [rowPlaces, List.range_succ]
      rw [hsplit, inTurn_append, h2]
      refine ⟨⟨h1, h3⟩, ?_⟩
      rw [metBy, List.foldl_append, ← metBy, ← metBy, h2, h4]
  exact hrun M le_rfl

/-! ### Compressing a row -/

/-- `DeltaQCache`. -/
structure CacheEntry where
  cache : JBlock
  next : JBlock
  xpos : ℕ
  ypos : ℕ

/-- The scan of `compress` from entry `qi` on. -/
def findHit (ypos xpos : ℕ) : ℕ → List CacheEntry → Option (ℕ × CacheEntry)
  | _, [] => none
  | qi, c :: cs =>
    if c.ypos > ypos then none
    else if c.ypos = ypos ∧ c.xpos > xpos then none
    else if c.xpos = xpos ∧ c.ypos = ypos then some (qi, c)
    else findHit ypos xpos (qi + 1) cs

/-- The blocks kept, `delta_q_cache_next`, and the blocks that went to `encode_mcu`. -/
structure RowState where
  prev : ℕ → JBlock
  next : Fin 3 → ℕ
  out : List JBlock

/-- The planes of a frame, as the block that `forward_dct` reads of a component at a place. -/
abbrev Planes := Fin 3 → ℕ → ℕ → Window

namespace DeltaQTbls

section

variable (T : DeltaQTbls) (ss : ChromaSs) (p d : Level) (win : Planes)

/-- `compress` for one block. -/
def compressBlock (delta_cache : Bool) (cache : Fin 3 → List CacheEntry) (s : RowState)
    (b : Place) : Option RowState :=
  let t := (compInfos ss b.ci).quant_tbl_no
  let prev := s.prev (b.prevIndex ss)
  match if delta_cache then
      findHit b.ypos (b.xpos ss) (s.next b.ci) ((cache b.ci).drop (s.next b.ci))
    else none with
  | some (qi, c) => do
    let (output, kept) ← T.cacheHit t p d c.cache c.next prev
    return ⟨Function.update s.prev (b.prevIndex ss) kept, Function.update s.next b.ci (qi + 1),
      s.out ++ [output]⟩
  | none => do
    let (output, kept) ← T.deltaDct t p d (win b.ci b.ypos (b.xpos ss)) prev
    return ⟨Function.update s.prev (b.prevIndex ss) kept, s.next, s.out ++ [output]⟩

/-- `compress` for the MCUs of a row. -/
def compressRow (mcus_per_row : ℕ) (delta_cache : Bool) (cache : Fin 3 → List CacheEntry)
    (s : RowState) : Option RowState :=
  (rowPlaces ss mcus_per_row).foldlM (T.compressBlock ss p d win delta_cache cache) s

/-- `compute_dq` for one cached block: the blocks kept and the cache. -/
def computeDqEntry (st : (ℕ → JBlock) × (Fin 3 → List CacheEntry)) (x : Fin 3 × ℕ) :
    Option ((ℕ → JBlock) × (Fin 3 → List CacheEntry)) := do
  let (ci, blkn) := x
  let xpos := cacheXpos ss ci blkn
  let ypos := cacheYpos ss ci blkn
  let (cache, prev, next) ← T.computeDqBlock (compInfos ss ci).quant_tbl_no p (win ci ypos xpos)
    (st.1 (cachePrevIndex ss ci blkn))
  return (Function.update st.1 (cachePrevIndex ss ci blkn) prev,
    Function.update st.2 ci (st.2 ci ++ [⟨cache, next, xpos, ypos⟩]))

/-- `compute_dq`, up to its choice of the level. -/
def computeDq (indices : Fin 3 → List ℕ) (prev : ℕ → JBlock) :
    Option ((ℕ → JBlock) × (Fin 3 → List CacheEntry)) :=
  ((List.finRange 3).flatMap fun ci => (indices ci).map (Prod.mk ci)).foldlM
    (T.computeDqEntry ss p win) (prev, fun _ => [])

end

end DeltaQTbls

/-- How many blocks are drawn from each component. -/
def DELTA_Q_CACHE_COUNTS : Fin 3 → ℕ
  | 0 => 4
  | 1 => 2
  | 2 => 2

/-- The number of places to draw from, an `u8`. -/
def cacheRange (ss : ChromaSs) (mcus_per_row : ℕ) (ci : Fin 3) : ℕ :=
  mcus_per_row % 256 * (compInfos ss ci).blocks % 256

/-- The draws of one `compute_dq`. -/
abbrev RowDraws (ss : ChromaSs) (mcus_per_row : ℕ) :=
  ∀ ci, Draws (DELTA_Q_CACHE_COUNTS ci) (cacheRange ss mcus_per_row ci)

namespace DeltaQTbls

variable (T : DeltaQTbls) (ss : ChromaSs) (M : ℕ)

/-- The first row of the thread that runs `compute_dq`. -/
def cachedRow (p d : Level) (win : Planes) (rand : RowDraws ss M) (prev : ℕ → JBlock) :
    Option RowState := do
  let (prev, cache) ← T.computeDq ss p win (fun ci => dqCacheGenUniqueIndices (rand ci)) prev
  T.compressRow ss p d win M true cache ⟨prev, fun _ => 0, []⟩

/-- A row without the cache. -/
def plainRow (p d : Level) (win : Planes) (prev : ℕ → JBlock) : Option RowState :=
  T.compressRow ss p d win M false (fun _ => []) ⟨prev, fun _ => 0, []⟩

/-- The blocks kept for a row of `M` MCUs at a level. -/
structure KeptRow (p : Level) where
  prev : ℕ → JBlock
  kept : ∀ ci k, k < M * (compInfos ss ci).blocks →
    T.Kept (compInfos ss ci).quant_tbl_no p (prev (cachePrevIndex ss ci k))

/-- The blocks kept before the first frame. -/
def KeptRow.zero (p : Level) : KeptRow T ss M p := ⟨fun _ => 0, fun _ _ _ => T.kept_zero _ _⟩

end DeltaQTbls

/-! ### The cache of a row -/

theorem filter_le_of_mem {k : ℕ} {sel : List ℕ} (hs : sel.Pairwise (· < ·)) (hk : k ∈ sel) :
    sel.filter (fun x => k ≤ x) = k :: sel.filter (fun x => k + 1 ≤ x) := by
  induction sel with
  | nil => exact absurd hk List.not_mem_nil
  | cons x xs ih =>
    obtain ⟨hx, hxs⟩ := List.pairwise_cons.mp hs
    rcases List.mem_cons.mp hk with rfl | hk
    · have hall : ∀ y ∈ xs, k ≤ y ↔ k + 1 ≤ y := fun y hy => by
        have := hx y hy
        omega
      rw [List.filter_cons_of_pos (by simp), List.filter_cons_of_neg (by simp)]
      congr 1
      exact List.filter_congr fun y hy => by simp [hall y hy]
    · have hlt := hx k hk
      rw [List.filter_cons_of_neg (by simpa using hlt), List.filter_cons_of_neg (by simp; omega)]
      exact ih hxs hk

theorem filter_le_of_notMem {k : ℕ} {sel : List ℕ} (hk : k ∉ sel) :
    sel.filter (fun x => k ≤ x) = sel.filter (fun x => k + 1 ≤ x) :=
  List.filter_congr fun x hx => by
    have hne : x ≠ k := fun h => hk (h ▸ hx)
    simp only [decide_eq_decide]
    omega

/-- **The scan finds the next cached block**, when it is the block at hand. -/
theorem findHit_eq {ss : ChromaSs} {ci : Fin 3} {E : ℕ → CacheEntry}
    (hE : ∀ k, (E k).xpos = cacheXpos ss ci k ∧ (E k).ypos = cacheYpos ss ci k) (k qi : ℕ)
    (ks : List ℕ) :
    findHit (cacheYpos ss ci k) (cacheXpos ss ci k) qi ((k :: ks).map E) = some (qi, E k) := by
  rw [List.map_cons, findHit, (hE k).1, (hE k).2, if_neg (lt_irrefl _),
    if_neg (fun h => lt_irrefl _ h.2), if_pos ⟨rfl, rfl⟩]

theorem findHit_none {ss : ChromaSs} {ci : Fin 3} {E : ℕ → CacheEntry}
    (hE : ∀ k, (E k).xpos = cacheXpos ss ci k ∧ (E k).ypos = cacheYpos ss ci k) {k : ℕ}
    (qi : ℕ) {ks : List ℕ} (hk : k ∉ ks) :
    findHit (cacheYpos ss ci k) (cacheXpos ss ci k) qi (ks.map E) = none := by
  induction ks generalizing qi with
  | nil => rfl
  | cons x ks ih =>
    obtain ⟨hx, hks⟩ := not_or.mp (List.mem_cons.not.mp hk)
    have hne : ¬(cacheXpos ss ci x = cacheXpos ss ci k ∧ cacheYpos ss ci x = cacheYpos ss ci k) :=
      fun h => hx (cache_inj h.1 h.2).symm
    rw [List.map_cons, findHit, (hE x).1, (hE x).2, if_neg hne, ih _ hks]
    split_ifs <;> rfl

namespace DeltaQTbls

variable (T : DeltaQTbls) (ss : ChromaSs) (M : ℕ)

/-- What `compute_dq` caches for a block. -/
def entryOf (p : Level) (win : Planes) (prev : ℕ → JBlock) (ci : Fin 3) (k : ℕ) : CacheEntry :=
  let t := (compInfos ss ci).quant_tbl_no
  let next := quantBlock Quality.best t (T.tbl lastLevel t)
    (win ci (cacheYpos ss ci k) (cacheXpos ss ci k))
  { cache := fun i => next i - T.rescaled t p lastLevel (prev (cachePrevIndex ss ci k)) i
    next := next
    xpos := cacheXpos ss ci k
    ypos := cacheYpos ss ci k }

theorem foldlM_computeDqEntry (p : Level) (win : Planes) {L : List (Fin 3 × ℕ)} (hL : L.Nodup)
    {prev : ℕ → JBlock} (hk : ∀ x ∈ L, T.Kept (compInfos ss x.1).quant_tbl_no p
      (prev (cachePrevIndex ss x.1 x.2))) (cache : Fin 3 → List CacheEntry) :
    ∃ prev', L.foldlM (T.computeDqEntry ss p win) (prev, cache) =
        some (prev', fun ci => cache ci ++
          (L.filter (fun x => x.1 = ci)).map fun x => T.entryOf ss p win prev x.1 x.2) ∧
      (∀ x ∈ L, prev' (cachePrevIndex ss x.1 x.2) =
        T.rescaled (compInfos ss x.1).quant_tbl_no p lastLevel
          (prev (cachePrevIndex ss x.1 x.2))) ∧
      ∀ a, (∀ x ∈ L, a ≠ cachePrevIndex ss x.1 x.2) → prev' a = prev a := by
  induction L generalizing prev cache with
  | nil => exact ⟨prev, by simp, fun x hx => absurd hx List.not_mem_nil, fun _ _ => rfl⟩
  | cons x L ih =>
    obtain ⟨hx, hL⟩ := List.nodup_cons.mp hL
    -- the places of the rest are others
    have hne : ∀ y ∈ L, cachePrevIndex ss y.1 y.2 ≠ cachePrevIndex ss x.1 x.2 := fun y hy h => by
      obtain ⟨h1, h2⟩ := cachePrevIndex_inj h
      exact hx (Prod.ext h1 h2 ▸ hy)
    have hstep := T.computeDqBlock_eq (hk x List.mem_cons_self)
      (win x.1 (cacheYpos ss x.1 x.2) (cacheXpos ss x.1 x.2))
    have hkept : ∀ y ∈ L, T.Kept (compInfos ss y.1).quant_tbl_no p
        (Function.update prev (cachePrevIndex ss x.1 x.2)
          (T.rescaled (compInfos ss x.1).quant_tbl_no p lastLevel
            (prev (cachePrevIndex ss x.1 x.2))) (cachePrevIndex ss y.1 y.2)) := fun y hy => by
      rw [Function.update_of_ne (hne y hy)]
      exact hk y (List.mem_cons_of_mem _ hy)
    obtain ⟨prev', hrun, hin, hout⟩ := ih hL hkept
      (Function.update cache x.1 (cache x.1 ++ [T.entryOf ss p win prev x.1 x.2]))
    refine ⟨prev', ?_, ?_, ?_⟩
    · rw [List.foldlM_cons, computeDqEntry, hstep]
      refine hrun.trans ?_
      congr 2
      funext ci
      have hentry : (L.filter (fun y => y.1 = ci)).map (fun y => T.entryOf ss p win
          (Function.update prev (cachePrevIndex ss x.1 x.2)
            (T.rescaled (compInfos ss x.1).quant_tbl_no p lastLevel
              (prev (cachePrevIndex ss x.1 x.2)))) y.1 y.2) =
          (L.filter (fun y => y.1 = ci)).map fun y => T.entryOf ss p win prev y.1 y.2 :=
        List.map_congr_left fun y hy => by
          rw [entryOf, Function.update_of_ne (hne y (List.mem_filter.mp hy).1), entryOf]
      rw [hentry]
      by_cases hci : x.1 = ci
      · rw [List.filter_cons_of_pos (by simpa using hci), List.map_cons, ← hci,
          Function.update_self, List.append_assoc, List.singleton_append]
      · rw [List.filter_cons_of_neg (by simpa using hci), Function.update_of_ne (Ne.symm hci)]
    · intro y hy
      rcases List.mem_cons.mp hy with rfl | hy
      · rw [hout _ fun z hz => (hne z hz).symm, Function.update_self]
      · rw [hin y hy, Function.update_of_ne (hne y hy)]
    · intro a ha
      rw [hout a fun y hy => ha y (List.mem_cons_of_mem _ hy),
        Function.update_of_ne (ha x List.mem_cons_self)]

/-- **After `compute_dq`** the blocks kept at the places drawn are at full precision, the others as
they were, and each component has its cached blocks in order. -/
theorem computeDq_eq (p : Level) (win : Planes) {indices : Fin 3 → List ℕ}
    (hs : ∀ ci, (indices ci).Pairwise (· < ·)) {prev : ℕ → JBlock}
    (hk : ∀ ci, ∀ k ∈ indices ci, T.Kept (compInfos ss ci).quant_tbl_no p
      (prev (cachePrevIndex ss ci k))) :
    ∃ prev', T.computeDq ss p win indices prev =
        some (prev', fun ci => (indices ci).map (T.entryOf ss p win prev ci)) ∧
      (∀ ci, ∀ k ∈ indices ci, prev' (cachePrevIndex ss ci k) =
        T.rescaled (compInfos ss ci).quant_tbl_no p lastLevel (prev (cachePrevIndex ss ci k))) ∧
      ∀ a, (∀ ci, ∀ k ∈ indices ci, a ≠ cachePrevIndex ss ci k) → prev' a = prev a := by
  have hmem : ∀ x : Fin 3 × ℕ, x ∈ ((List.finRange 3).flatMap fun ci =>
      (indices ci).map (Prod.mk ci)) ↔ x.2 ∈ indices x.1 := fun x => by
    simp only [List.mem_flatMap, List.mem_finRange, List.mem_map, true_and]
    constructor
    · rintro ⟨ci, k, hk, rfl⟩
      exact hk
    · exact fun h => ⟨x.1, x.2, h, rfl⟩
  have hnodup : ((List.finRange 3).flatMap fun ci => (indices ci).map (Prod.mk ci)).Nodup := by
    refine List.nodup_flatMap.mpr ⟨fun ci _ => ?_, ?_⟩
    · exact List.Nodup.map (Prod.mk_right_injective ci) ((hs ci).imp fun h => h.ne)
    · refine (List.nodup_finRange 3).imp fun {ci ci'} hne x hx hx' => ?_
      obtain ⟨k, -, rfl⟩ := List.mem_map.mp hx
      obtain ⟨k', -, h⟩ := List.mem_map.mp hx'
      exact hne (Prod.mk.inj h).1.symm
  obtain ⟨prev', hrun, hin, hout⟩ := T.foldlM_computeDqEntry ss p win hnodup
    (fun x hx => hk x.1 x.2 ((hmem x).mp hx)) fun _ => []
  refine ⟨prev', ?_, fun ci k h => hin (ci, k) ((hmem (ci, k)).mpr h),
    fun a ha => hout a fun x hx => ha x.1 x.2 ((hmem x).mp hx)⟩
  rw [computeDq, hrun]
  congr 2
  funext ci
  have hfilter : ((List.finRange 3).flatMap fun c => (indices c).map (Prod.mk c)).filter
      (fun x => x.1 = ci) = (indices ci).map (Prod.mk ci) := by
    fin_cases ci <;> simp [List.finRange_succ, List.filter_map, Function.comp_def]
  rw [hfilter, List.nil_append, List.map_map]
  rfl

/-! ### A row with the cache and without -/

section

variable {T ss M} {p d : Level} {win : Planes} {indices : Fin 3 → List ℕ}

variable (T ss M p d) in
/-- A row with the cache (`s`) and without (`s'`) after `lo ci` blocks of each component, from the
blocks `prev`. -/
structure Agree (indices : Fin 3 → List ℕ) (prev : ℕ → JBlock) (lo : Fin 3 → ℕ)
    (s s' : RowState) : Prop where
  out : s.out = s'.out
  behind : ∀ a, (∀ ci k, lo ci ≤ k → a ≠ cachePrevIndex ss ci k) → s.prev a = s'.prev a
  ahead : ∀ ci k, lo ci ≤ k → s'.prev (cachePrevIndex ss ci k) = prev (cachePrevIndex ss ci k) ∧
    s.prev (cachePrevIndex ss ci k) =
      if k ∈ indices ci then T.rescaled (compInfos ss ci).quant_tbl_no p lastLevel
        (prev (cachePrevIndex ss ci k))
      else prev (cachePrevIndex ss ci k)
  kept : ∀ ci k, k < lo ci →
    T.Kept (compInfos ss ci).quant_tbl_no d (s'.prev (cachePrevIndex ss ci k))
  next : ∀ ci, (indices ci).drop (s.next ci) = (indices ci).filter fun k => lo ci ≤ k
  next_le : ∀ ci, s.next ci ≤ (indices ci).length
  next_plain : s'.next = fun _ => 0

/-- Both ways of a block leave the same, so the rows still agree. -/
theorem Agree.step_block {prev : ℕ → JBlock} {lo : Fin 3 → ℕ} {s s' : RowState}
    (h : T.Agree ss p d indices prev lo s s') {ci : Fin 3} {output kept : JBlock}
    (hkept : T.Kept (compInfos ss ci).quant_tbl_no d kept) {next : Fin 3 → ℕ}
    (hnext : ∀ ci', (indices ci').drop (next ci') =
      (indices ci').filter fun k => Function.update lo ci (lo ci + 1) ci' ≤ k)
    (hle : ∀ ci', next ci' ≤ (indices ci').length) :
    T.Agree ss p d indices prev (Function.update lo ci (lo ci + 1))
      ⟨Function.update s.prev (cachePrevIndex ss ci (lo ci)) kept, next, s.out ++ [output]⟩
      ⟨Function.update s'.prev (cachePrevIndex ss ci (lo ci)) kept, s'.next,
        s'.out ++ [output]⟩ := by
  have hlo : ∀ ci' k, Function.update lo ci (lo ci + 1) ci' ≤ k →
      lo ci' ≤ k ∧ cachePrevIndex ss ci' k ≠ cachePrevIndex ss ci (lo ci) := by
    intro ci' k hk
    by_cases hci : ci' = ci
    · subst hci
      rw [Function.update_self] at hk
      refine ⟨by omega, fun heq => ?_⟩
      have := (cachePrevIndex_inj heq).2
      omega
    · rw [Function.update_of_ne hci] at hk
      exact ⟨hk, fun heq => hci (cachePrevIndex_inj heq).1⟩
  refine ⟨by rw [h.out], fun a ha => ?_, fun ci' k hk => ?_, fun ci' k hk => ?_, hnext, hle,
    h.next_plain⟩
  · show Function.update s.prev _ kept a = Function.update s'.prev _ kept a
    by_cases heq : a = cachePrevIndex ss ci (lo ci)
    · rw [heq, Function.update_self, Function.update_self]
    · rw [Function.update_of_ne heq, Function.update_of_ne heq]
      refine h.behind a fun ci' k hk heq' => ?_
      by_cases hk' : Function.update lo ci (lo ci + 1) ci' ≤ k
      · exact ha ci' k hk' heq'
      -- the only block met now is the one at hand
      have hci : ci' = ci := by
        by_contra hne
        rw [Function.update_of_ne hne] at hk'
        exact hk' hk
      subst hci
      rw [Function.update_self] at hk'
      have hkeq : k = lo ci' := by omega
      exact heq (hkeq ▸ heq')
  · obtain ⟨hk', hne⟩ := hlo ci' k hk
    show Function.update s'.prev _ kept _ = _ ∧ Function.update s.prev _ kept _ = _
    rw [Function.update_of_ne hne, Function.update_of_ne hne]
    exact h.ahead ci' k hk'
  · show T.Kept _ d (Function.update s'.prev _ kept _)
    by_cases heq : cachePrevIndex ss ci' k = cachePrevIndex ss ci (lo ci)
    · obtain ⟨hci, -⟩ := cachePrevIndex_inj heq
      rw [heq, Function.update_self, hci]
      exact hkept
    · rw [Function.update_of_ne heq]
      refine h.kept ci' k ?_
      by_cases hci : ci' = ci
      · subst hci
        rw [Function.update_self] at hk
        rcases Nat.lt_succ_iff_lt_or_eq.mp hk with hk | hk
        · exact hk
        · exact absurd (by rw [hk]) heq
      · rwa [Function.update_of_ne hci] at hk

variable (win) in
/-- **One block**: when it is cached it is the next cached block of its component. -/
theorem Agree.compressBlock {prev : ℕ → JBlock} {lo : Fin 3 → ℕ} {s s' : RowState}
    (h : T.Agree ss p d indices prev lo s s') (hs : ∀ ci, (indices ci).Pairwise (· < ·))
    {b : Place} (hb : b.Inside ss) (hlo : b.index ss = lo b.ci)
    (hk : T.Kept (compInfos ss b.ci).quant_tbl_no p (prev (cachePrevIndex ss b.ci (lo b.ci)))) :
    ∃ s₁ s₁', T.compressBlock ss p d win true
        (fun ci => (indices ci).map (T.entryOf ss p win prev ci)) s b = some s₁ ∧
      T.compressBlock ss p d win false (fun _ => []) s' b = some s₁' ∧
      T.Agree ss p d indices prev (Function.update lo b.ci (lo b.ci + 1)) s₁ s₁' := by
  obtain ⟨hx, hy, hi⟩ := Place.cache_index hb
  rw [hlo] at hx hy hi
  obtain ⟨hplain, hcached⟩ := h.ahead b.ci (lo b.ci) le_rfl
  have hE : ∀ k, (T.entryOf ss p win prev b.ci k).xpos = cacheXpos ss b.ci k ∧
      (T.entryOf ss p win prev b.ci k).ypos = cacheYpos ss b.ci k := fun _ => ⟨rfl, rfl⟩
  obtain ⟨output, kept, hdct, hkept⟩ : ∃ output kept,
      T.deltaDct (compInfos ss b.ci).quant_tbl_no p d (win b.ci b.ypos (b.xpos ss))
        (prev (cachePrevIndex ss b.ci (lo b.ci))) = some (output, kept) ∧
      T.Kept (compInfos ss b.ci).quant_tbl_no d kept :=
    ⟨_, _, T.deltaDct_eq hk _, T.kept_quantBlock _ d _⟩
  have hdrop : ((indices b.ci).map (T.entryOf ss p win prev b.ci)).drop (s.next b.ci) =
      ((indices b.ci).filter fun k => lo b.ci ≤ k).map (T.entryOf ss p win prev b.ci) := by
    rw [← List.map_drop, h.next]
  have hother : ∀ {ci'}, ci' ≠ b.ci → (indices ci').drop (s.next ci') =
      (indices ci').filter fun k => Function.update lo b.ci (lo b.ci + 1) ci' ≤ k := by
    intro ci' hne
    rw [Function.update_of_ne hne]
    exact h.next ci'
  have hrun' : T.compressBlock ss p d win false (fun _ => []) s' b = some
      ⟨Function.update s'.prev (cachePrevIndex ss b.ci (lo b.ci)) kept, s'.next,
        s'.out ++ [output]⟩ := by
    simp only [DeltaQTbls.compressBlock, Bool.false_eq_true, if_false]
    rw [← hi, hplain, hdct]
    rfl
  by_cases hmem : lo b.ci ∈ indices b.ci
  · have hcut := filter_le_of_mem (hs b.ci) hmem
    have hhit := T.cacheHit_eq (d := d) hk (win b.ci b.ypos (b.xpos ss))
    rw [T.computeDqBlock_eq hk, Option.bind_some, hdct] at hhit
    have hrun : T.compressBlock ss p d win true
        (fun ci => (indices ci).map (T.entryOf ss p win prev ci)) s b = some
          ⟨Function.update s.prev (cachePrevIndex ss b.ci (lo b.ci)) kept,
            Function.update s.next b.ci (s.next b.ci + 1), s.out ++ [output]⟩ := by
      simp only [DeltaQTbls.compressBlock, if_true]
      rw [← hi, hcached, if_pos hmem, hdrop, hcut, ← hx, ← hy, findHit_eq hE]
      simp only [entryOf]
      rw [hx, hy, hhit]
      rfl
    refine ⟨_, _, hrun, hrun', h.step_block hkept ?_ ?_⟩
    · intro ci'
      by_cases hci : ci' = b.ci
      · subst hci
        rw [Function.update_self, Function.update_self, ← List.drop_drop, h.next, hcut]
        rfl
      · rw [Function.update_of_ne hci]
        exact hother hci
    · intro ci'
      by_cases hci : ci' = b.ci
      · subst hci
        rw [Function.update_self]
        -- there is an entry left, the one that was hit
        by_contra hle
        have hnil := List.drop_of_length_le (l := indices b.ci) (i := s.next b.ci) (by omega)
        rw [h.next, hcut] at hnil
        exact List.cons_ne_nil _ _ hnil
      · rw [Function.update_of_ne hci]
        exact h.next_le ci'
  · have hnone : findHit b.ypos (b.xpos ss) (s.next b.ci)
        (((indices b.ci).map (T.entryOf ss p win prev b.ci)).drop (s.next b.ci)) = none := by
      rw [hdrop, ← hx, ← hy]
      exact findHit_none hE _ fun hin => hmem (List.mem_filter.mp hin).1
    have hrun : T.compressBlock ss p d win true
        (fun ci => (indices ci).map (T.entryOf ss p win prev ci)) s b = some
          ⟨Function.update s.prev (cachePrevIndex ss b.ci (lo b.ci)) kept, s.next,
            s.out ++ [output]⟩ := by
      simp only [DeltaQTbls.compressBlock, if_true, hnone]
      rw [← hi, hcached, if_neg hmem, hdct]
      rfl
    refine ⟨_, _, hrun, hrun', h.step_block hkept ?_ h.next_le⟩
    intro ci'
    by_cases hci : ci' = b.ci
    · subst hci
      rw [Function.update_self, h.next, filter_le_of_notMem hmem]
    · exact hother hci

variable (win) in
theorem Agree.foldlM {prev : ℕ → JBlock}
    (hk : ∀ ci k, k < M * (compInfos ss ci).blocks →
      T.Kept (compInfos ss ci).quant_tbl_no p (prev (cachePrevIndex ss ci k)))
    (hs : ∀ ci, (indices ci).Pairwise (· < ·)) {bs : List Place} {lo : Fin 3 → ℕ}
    {s s' : RowState} (h : T.Agree ss p d indices prev lo s s') (hb : InTurn ss M lo bs) :
    ∃ s₁ s₁', bs.foldlM (T.compressBlock ss p d win true
        (fun ci => (indices ci).map (T.entryOf ss p win prev ci))) s = some s₁ ∧
      bs.foldlM (T.compressBlock ss p d win false fun _ => []) s' = some s₁' ∧
      T.Agree ss p d indices prev (metBy lo bs) s₁ s₁' := by
  induction bs generalizing lo s s' with
  | nil => exact ⟨s, s', rfl, rfl, h⟩
  | cons b bs ih =>
    obtain ⟨⟨hin, hlo, hlt⟩, hbs⟩ := hb
    obtain ⟨s₁, s₁', h1, h2, h3⟩ := h.compressBlock win hs hin hlo (hk b.ci _ hlt)
    obtain ⟨s₂, s₂', h4, h5, h6⟩ := ih h3 hbs
    exact ⟨s₂, s₂', by rw [List.foldlM_cons, h1]; exact h4, by rw [List.foldlM_cons, h2]; exact h5,
      h6⟩

end

/-- **A row compressed with the cache is the row compressed without it**: the same blocks are sent
and kept, and every cached block has been used. -/
theorem cachedRow_eq_plainRow (p d : Level) (win : Planes) (rand : RowDraws ss M)
    (r : T.KeptRow ss M p) :
    ∃ (out : List JBlock) (r' : T.KeptRow ss M d),
      T.cachedRow ss M p d win rand r.prev = some ⟨r'.prev, DELTA_Q_CACHE_COUNTS, out⟩ ∧
      T.plainRow ss M p d win r.prev = some ⟨r'.prev, fun _ => 0, out⟩ := by
  have hsel := fun ci => dqCacheGenUniqueIndices_spec (rand ci)
  have hlt : ∀ ci, ∀ k ∈ dqCacheGenUniqueIndices (rand ci), k < M * (compInfos ss ci).blocks := by
    intro ci k hk
    have hrange : cacheRange ss M ci ≤ M * (compInfos ss ci).blocks :=
      (Nat.mod_le _ _).trans (Nat.mul_le_mul_right _ (Nat.mod_le _ _))
    exact ((hsel ci).2.2 k hk).trans_le hrange
  obtain ⟨prev', hfill, hin, hout⟩ := T.computeDq_eq ss p win (fun ci => (hsel ci).1)
    fun ci k hk => r.kept ci k (hlt ci k hk)
  have hstart : T.Agree ss p d (fun ci => dqCacheGenUniqueIndices (rand ci)) r.prev (fun _ => 0)
      ⟨prev', fun _ => 0, []⟩ ⟨r.prev, fun _ => 0, []⟩ := by
    refine ⟨rfl, fun a ha => hout a fun ci k _ => ha ci k (Nat.zero_le _), fun ci k _ => ⟨rfl, ?_⟩,
      fun ci k hk => absurd hk (Nat.not_lt_zero k), fun ci => by simp, fun ci => Nat.zero_le _,
      rfl⟩
    split_ifs with hmem
    · exact hin ci k hmem
    · refine hout _ fun ci' k' hk' heq => hmem ?_
      obtain ⟨rfl, rfl⟩ := cachePrevIndex_inj heq
      exact hk'
  obtain ⟨hturn, hmet⟩ := rowPlaces_inTurn ss M
  obtain ⟨s, s', hrun, hrun', hend⟩ := hstart.foldlM win r.kept (fun ci => (hsel ci).1)
    hturn
  rw [hmet] at hend
  have hprev : s.prev = s'.prev := by
    funext a
    by_cases ha : ∃ ci k, M * (compInfos ss ci).blocks ≤ k ∧ a = cachePrevIndex ss ci k
    · obtain ⟨ci, k, hk, rfl⟩ := ha
      obtain ⟨h1, h2⟩ := hend.ahead ci k hk
      rw [h1, h2, if_neg fun hmem => absurd (hlt ci k hmem) (not_lt.mpr hk)]
    · exact hend.behind a fun ci k hk heq => ha ⟨ci, k, hk, heq⟩
  have hnext : s.next = DELTA_Q_CACHE_COUNTS := by
    funext ci
    have hnil : (dqCacheGenUniqueIndices (rand ci)).drop (s.next ci) = [] := by
      rw [hend.next ci]
      exact List.filter_eq_nil_iff.mpr fun k hk => by simpa using hlt ci k hk
    have hle := hend.next_le ci
    have hge := List.drop_eq_nil_iff.mp hnil
    rw [(hsel ci).2.1] at hle hge
    exact le_antisymm hle hge
  have hs : s = ⟨s'.prev, DELTA_Q_CACHE_COUNTS, s.out⟩ :=
    congrArg₂ (fun prev next => RowState.mk prev next s.out) hprev hnext
  have hs' : s' = ⟨s'.prev, fun _ => 0, s.out⟩ :=
    congrArg₂ (RowState.mk s'.prev) hend.next_plain hend.out.symm
  refine ⟨s.out, ⟨s'.prev, hend.kept⟩, ?_, ?_⟩
  · rw [cachedRow, hfill]
    exact hrun.trans (congrArg some hs)
  · exact hrun'.trans (congrArg some hs')

/-! ### Frame after frame -/

/-- One frame of a place on the screen: its level, its planes and the places drawn for its cache. -/
structure RowFrame where
  level : Level
  win : Planes
  rand : RowDraws ss M

/-- The first row over frames: what was sent in each frame with the cached blocks used for it, and
the blocks kept. -/
def runRows (row : Level → RowFrame ss M → (ℕ → JBlock) → Option RowState) :
    Level → (ℕ → JBlock) → List (RowFrame ss M) →
      Option (List (List JBlock × (Fin 3 → ℕ)) × (ℕ → JBlock))
  | _, prev, [] => some ([], prev)
  | p, prev, f :: fs => do
    let s ← row p f prev
    let (outs, prev) ← runRows row f.level s.prev fs
    return ((s.out, s.next) :: outs, prev)

/-- **Over any frames the cache changes nothing**: in each frame the same blocks are sent, the same
are kept after the last, and every cached block has been used. -/
theorem runRows_cached (p : Level) (r : T.KeptRow ss M p) (fs : List (RowFrame ss M)) :
    ∃ (outs : List (List JBlock)) (prev : ℕ → JBlock),
      runRows ss M (fun p f => T.cachedRow ss M p f.level f.win f.rand) p r.prev fs =
        some (outs.map fun out => (out, DELTA_Q_CACHE_COUNTS), prev) ∧
      runRows ss M (fun p f => T.plainRow ss M p f.level f.win) p r.prev fs =
        some (outs.map fun out => (out, fun _ => 0), prev) := by
  induction fs generalizing p with
  | nil => exact ⟨[], r.prev, rfl, rfl⟩
  | cons f fs ih =>
    obtain ⟨out, r', h1, h2⟩ := T.cachedRow_eq_plainRow ss M p f.level f.win f.rand r
    obtain ⟨outs, prev, h3, h4⟩ := ih f.level r'
    refine ⟨out :: outs, prev, ?_, ?_⟩
    · rw [runRows, h1]
      simp only [Option.bind_eq_bind, Option.bind_some, h3]
      rfl
    · rw [runRows, h2]
      simp only [Option.bind_eq_bind, Option.bind_some, h4]
      rfl

/-- A frame of shaded planes, five MCUs wide, with the cached places spread over the row. -/
def shadedFrame (level : Level) (shade : ℕ) : RowFrame .ss420 5 where
  level := level
  win ci ypos xpos :=
    ⟨max 80 xpos, fun a => ⟨(a * (ci.val + 1) + shade) % 256, Nat.mod_lt _ (Nat.succ_pos 255)⟩, ypos,
      xpos, le_max_right 80 xpos⟩
  rand ci := ⟨fun i => i.val + 1, fun i => by
    revert i
    revert ci
    decide⟩

/-- Three frames after one of level 9: of a higher level, of a lower one, and of the same again. -/
theorem runRows_cached_shaded : ∃ (outs : List (List JBlock)) (prev : ℕ → JBlock),
    runRows .ss420 5 (fun p f => onceDeltaQTbls.cachedRow .ss420 5 p f.level f.win f.rand) 9
        (fun _ => 0) [shadedFrame 20 3, shadedFrame 4 90, shadedFrame 4 200] =
      some (outs.map fun out => (out, DELTA_Q_CACHE_COUNTS), prev) ∧
    runRows .ss420 5 (fun p f => onceDeltaQTbls.plainRow .ss420 5 p f.level f.win) 9
        (fun _ => 0) [shadedFrame 20 3, shadedFrame 4 90, shadedFrame 4 200] =
      some (outs.map fun out => (out, fun _ => 0), prev) :=
  onceDeltaQTbls.runRows_cached .ss420 5 9 (.zero onceDeltaQTbls .ss420 5 9) _

end DeltaQTbls

end RemotePlay.Jpeg
