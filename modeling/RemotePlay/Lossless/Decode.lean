import RemotePlay.Lossless.Plane
import RemotePlay.Lib.StreamFold

/-! # The receiver of a slice

The receiver keeps the top bits of the samples it has decoded and applies the encoder's neighbour
rule to them.  `Recovered` says which samples it has; decoding a run of symbols of a row extends it
(`decodePixels_spec`), whether they are residuals against the neighbours or against the samples that
were in their place before. -/

namespace RemotePlay.Lossless

open RemotePlay.Lib

/-- Reads `n` symbols of a table. -/
def takeSyms (t : TblName) : ℕ → List Put → Option (List UInt8 × List Put)
  | 0, ps => some ([], ps)
  | n + 1, .sym t' y :: ps =>
    if t' = t then (takeSyms t n ps).map fun (ys, ps) => (y :: ys, ps) else none
  | _ + 1, _ => none

theorem takeSyms_append (t : TblName) (ys : List UInt8) (ps : List Put) :
    takeSyms t ys.length (ys.map (.sym t) ++ ps) = some (ys, ps) := by
  induction ys with
  | nil => rfl
  | cons y ys ih => simp [takeSyms, ih]

/-- A sample is written. -/
def setPixel (img : Planes) (c : CompIndex) (r x : ℕ) (v : UInt8) : Planes := fun c' r' x' =>
  if c' = c ∧ r' = r ∧ x' = x then v else img c' r' x'

/-- Decodes symbols of row `r` from column `x` on, as residuals against the samples in their place
(`delta`) or against their neighbours.  Row `r0` has no row above. -/
def decodePixels (t : TblName) (c : CompIndex) (r0 r : ℕ) (delta : Bool) :
    ℕ → List UInt8 → Planes → Planes
  | _, [], img => img
  | x, y :: ys, img =>
    let p := if delta then img c r x else planePred (t.trunc 128) (img c) r0 r x
    decodePixels t c r0 r delta (x + 1) ys (setPixel img c r x (unresidual t y p))

/-! ### What has been recovered -/

section Recovered

variable (cfg : Cfg) (r0 : CompIndex → ℕ) (src bg : Planes)

/-- The samples of rows `r0 c ≤ r < next c` are recovered, and so are those left of column `x` of
row `next c` of component `c`; the others are as they were. -/
def Recovered (next : CompIndex → ℕ) (c : CompIndex) (x : ℕ) (img : Planes) : Prop :=
  ∀ c' r' x', x' < cfg.width c' → img c' r' x' =
    if r0 c' ≤ r' ∧ r' < next c' ∨ c' = c ∧ r' = next c ∧ x' < x then
      (cfg.tbl c').trunc (src c' r' x')
    else bg c' r' x'

/-- No row is partly recovered. -/
def RowsRecovered (next : CompIndex → ℕ) (img : Planes) : Prop :=
  ∀ c' r' x', x' < cfg.width c' → img c' r' x' =
    if r0 c' ≤ r' ∧ r' < next c' then (cfg.tbl c').trunc (src c' r' x') else bg c' r' x'

variable {cfg r0 src bg}

theorem RowsRecovered.start {next : CompIndex → ℕ} {img : Planes}
    (h : RowsRecovered cfg r0 src bg next img) (c : CompIndex) :
    Recovered cfg r0 src bg next c 0 img := by
  intro c' r' x' hx
  simp only [Nat.not_lt_zero, and_false, or_false]
  exact h c' r' x' hx

theorem Recovered.finish {next : CompIndex → ℕ} {c : CompIndex} {img : Planes}
    (hr : r0 c ≤ next c) (h : Recovered cfg r0 src bg next c (cfg.width c) img) :
    RowsRecovered cfg r0 src bg (Function.update next c (next c + 1)) img := by
  intro c' r' x' hx
  rw [h c' r' x' hx]
  refine if_congr ?_ rfl rfl
  by_cases hc : c' = c
  · subst hc
    rw [Function.update_self]
    constructor
    · rintro (h | h) <;> omega
    · intro h
      by_cases hr' : r' = next c'
      · exact Or.inr ⟨rfl, hr', hx⟩
      · exact Or.inl (by omega)
  · rw [Function.update_of_ne hc]
    simp [hc]

theorem trunc_planePred (t : TblName) (mid : UInt8) (plane : Plane) (r0 r x : ℕ) :
    t.trunc (planePred mid plane r0 r x) =
      planePred (t.trunc mid) (fun r x => t.trunc (plane r x)) r0 r x := by
  unfold planePred
  rw [trunc_predict]
  simp only [apply_ite (Option.map t.trunc), Option.map_none, Option.map_some]

theorem Recovered.planePred_eq {next : CompIndex → ℕ} {c : CompIndex} {x : ℕ} {img : Planes}
    (h : Recovered cfg r0 src bg next c x img) (hr : r0 c ≤ next c) (hx : x < cfg.width c)
    (mid : UInt8) : planePred mid (img c) (r0 c) (next c) x =
      planePred mid (fun r x => (cfg.tbl c).trunc (src c r x)) (r0 c) (next c) x := by
  have habove : ∀ x' < cfg.width c, next c ≠ r0 c →
      img c (next c - 1) x' = (cfg.tbl c).trunc (src c (next c - 1) x') := by
    intro x' hx' hne
    rw [h c _ _ hx', if_pos (Or.inl (by omega))]
  have hleft : x ≠ 0 → img c (next c) (x - 1) = (cfg.tbl c).trunc (src c (next c) (x - 1)) := by
    intro h0
    rw [h c _ _ (by omega), if_pos (Or.inr ⟨rfl, rfl, by omega⟩)]
  unfold planePred
  congr 1
  · split_ifs with h1
    · rfl
    · rw [habove x hx h1]
  · split_ifs with h1
    · rfl
    · rw [hleft h1]
  · split_ifs with h1
    · rfl
    · rw [habove (x - 1) (by omega) fun h2 => h1 (Or.inl h2)]

theorem Recovered.set {next : CompIndex → ℕ} {c : CompIndex} {x : ℕ} {img : Planes}
    (h : Recovered cfg r0 src bg next c x img) :
    Recovered cfg r0 src bg next c (x + 1)
      (setPixel img c (next c) x ((cfg.tbl c).trunc (src c (next c) x))) := by
  intro c' r' x' hx
  unfold setPixel
  split_ifs with h1 h2 h2
  · obtain ⟨rfl, rfl, rfl⟩ := h1; rfl
  · obtain ⟨rfl, rfl, rfl⟩ := h1
    exact absurd (Or.inr ⟨rfl, rfl, Nat.lt_succ_self _⟩) h2
  · rw [h c' r' x' hx, if_pos]
    rcases h2 with h2 | ⟨h2, h3, h4⟩
    · exact Or.inl h2
    · refine Or.inr ⟨h2, h3, ?_⟩
      rcases Nat.lt_succ_iff_lt_or_eq.mp h4 with h5 | h5
      · exact h5
      · exact absurd ⟨h2, h3, h5⟩ h1
  · rw [h c' r' x' hx, if_neg]
    rintro (h3 | ⟨h3, h4, h5⟩)
    · exact h2 (Or.inl h3)
    · exact h2 (Or.inr ⟨h3, h4, by omega⟩)

/-- The prediction a symbol of column `x` is a residual against. -/
def predOf (r0 : CompIndex → ℕ) (src old : Planes) (delta : Bool) (c : CompIndex) (r x : ℕ) :
    UInt8 :=
  if delta then old c r x else planePred 128 (src c) (r0 c) r x

/-- **Decoding `n` symbols of a row recovers `n` more samples**, if the samples that were there
before are the truncated `old` ones. -/
theorem decodePixels_spec (old : Planes) (delta : Bool) {next : CompIndex → ℕ} {c : CompIndex}
    (hr : r0 c ≤ next c)
    (hold : delta = true → ∀ x < cfg.width c,
      bg c (next c) x = (cfg.tbl c).trunc (old c (next c) x))
    (n : ℕ) {x : ℕ} {img : Planes} (hx : x + n ≤ cfg.width c)
    (h : Recovered cfg r0 src bg next c x img) :
    Recovered cfg r0 src bg next c (x + n) (decodePixels (cfg.tbl c) c (r0 c) (next c) delta x
      ((List.range' x n).map fun x =>
        residual (cfg.tbl c) (src c (next c) x) (predOf r0 src old delta c (next c) x)) img) := by
  induction n generalizing x img with
  | zero => exact h
  | succ n ih =>
    rw [List.range'_succ, List.map_cons, decodePixels]
    -- what the receiver predicts is the truncated prediction
    have hp : (if delta then img c (next c) x
        else planePred ((cfg.tbl c).trunc 128) (img c) (r0 c) (next c) x) =
        (cfg.tbl c).trunc (predOf r0 src old delta c (next c) x) := by
      unfold predOf
      cases delta with
      | false =>
        simp only [Bool.false_eq_true, ↓reduceIte]
        rw [h.planePred_eq hr (by omega), trunc_planePred]
      | true =>
        simp only [↓reduceIte]
        rw [← hold rfl x (by omega), h c _ _ (by omega), if_neg]
        rintro (h1 | h1) <;> omega
    simp only [hp, unresidual_residual]
    have := ih (x := x + 1) (by omega) h.set
    rwa [Nat.add_assoc, Nat.add_comm 1 n] at this

end Recovered

/-! ### The rows of a slice -/

/-- The steps from `i` on, `n` of them. -/
def sliceRows (cfg : Cfg) (i n : ℕ) : List (CompIndex × ℕ) :=
  (List.range' i n).flatMap (stepRows cfg)

/-- Each row follows the last one of its component. -/
def Follows : (CompIndex → ℕ) → List (CompIndex × ℕ) → (CompIndex → ℕ) → Prop
  | next, [], last => next = last
  | next, (c, r) :: l, last => r = next c ∧ Follows (Function.update next c (r + 1)) l last

theorem follows_append {next mid last : CompIndex → ℕ} {l l' : List (CompIndex × ℕ)}
    (h : Follows next l mid) (h' : Follows mid l' last) : Follows next (l ++ l') last := by
  induction l generalizing next with
  | nil => cases h; exact h'
  | cons cr l ih => exact ⟨h.1, ih h.2⟩

theorem follows_comp (c : CompIndex) (b n : ℕ) (next : CompIndex → ℕ) (h : next c = b) :
    Follows next ((List.range' b n).map fun r => (c, r)) (Function.update next c (b + n)) := by
  induction n generalizing b next with
  | zero => subst h; simp [Follows]
  | succ n ih =>
    rw [List.range'_succ, List.map_cons]
    refine ⟨h.symm, ?_⟩
    have := ih (b + 1) (Function.update next c (b + 1)) (Function.update_self ..)
    rwa [Function.update_idem, Nat.add_assoc, Nat.add_comm 1 n] at this

theorem stepRows_eq (cfg : Cfg) (i : ℕ) : stepRows cfg i =
    (List.finRange 3).flatMap fun c =>
      (List.range' (i * cfg.bh c) (cfg.bh c)).map fun r => (c, r) := by
  unfold stepRows
  refine List.flatMap_congr fun c _ => ?_
  rw [List.range'_eq_map_range, List.map_map]
  rfl

theorem follows_step (cfg : Cfg) (i : ℕ) :
    Follows (fun c => i * cfg.bh c) (stepRows cfg i) (fun c => (i + 1) * cfg.bh c) := by
  have h0 := follows_comp 0 (i * cfg.bh 0) (cfg.bh 0) (fun c => i * cfg.bh c) rfl
  have h1 := follows_comp 1 (i * cfg.bh 1) (cfg.bh 1)
    (Function.update (fun c => i * cfg.bh c) 0 (i * cfg.bh 0 + cfg.bh 0)) rfl
  have h2 := follows_comp 2 (i * cfg.bh 2) (cfg.bh 2)
    (Function.update (Function.update (fun c => i * cfg.bh c) 0 (i * cfg.bh 0 + cfg.bh 0)) 1
      (i * cfg.bh 1 + cfg.bh 1)) rfl
  have hlast : (fun c => (i + 1) * cfg.bh c) = Function.update (Function.update (Function.update
      (fun c => i * cfg.bh c) 0 (i * cfg.bh 0 + cfg.bh 0)) 1 (i * cfg.bh 1 + cfg.bh 1)) 2
      (i * cfg.bh 2 + cfg.bh 2) := by
    funext c
    rw [Nat.succ_mul]
    match c with
    | 0 => rfl
    | 1 => rfl
    | 2 => rfl
  rw [stepRows_eq, hlast]
  simpa [List.finRange_succ] using follows_append h0 (follows_append h1 h2)

theorem follows_slice (cfg : Cfg) (i n : ℕ) :
    Follows (fun c => i * cfg.bh c) (sliceRows cfg i n) (fun c => (i + n) * cfg.bh c) := by
  induction n generalizing i with
  | zero => rfl
  | succ n ih =>
    have := follows_append (follows_step cfg i) (ih (i + 1))
    rwa [Nat.add_assoc, Nat.add_comm 1 n] at this

/-- **Decoding rows one after the other.**  `dec` takes what `enc` emitted for a row off the front
of the stream and recovers the row. -/
theorem decodeRows_spec {cfg : Cfg} {r0 : CompIndex → ℕ} {src bg : Planes}
    (dec : Planes × List Put → CompIndex × ℕ → Option (Planes × List Put))
    (enc : CompIndex × ℕ → List Put) {next last : CompIndex → ℕ} {l : List (CompIndex × ℕ)}
    (hrow : ∀ next c img rest, (c, next c) ∈ l → r0 c ≤ next c →
      RowsRecovered cfg r0 src bg next img →
      ∃ img', dec (img, enc (c, next c) ++ rest) (c, next c) = some (img', rest) ∧
        Recovered cfg r0 src bg next c (cfg.width c) img')
    (hle : ∀ c, r0 c ≤ next c) (hl : Follows next l last) {img : Planes} (rest : List Put)
    (h : RowsRecovered cfg r0 src bg next img) :
    ∃ img', l.foldlM dec (img, l.flatMap enc ++ rest) = some (img', rest) ∧
      RowsRecovered cfg r0 src bg last img' := by
  obtain ⟨img', h1, next', hf, -, -, h2⟩ := foldlM_flatMap dec enc
    (fun l' img => ∃ next, Follows next l' last ∧ l' ⊆ l ∧ (∀ c, r0 c ≤ next c) ∧
      RowsRecovered cfg r0 src bg next img)
    (by
      rintro ⟨c, r⟩ l' img rest ⟨next, ⟨rfl, hl⟩, hsub, hle, h⟩
      obtain ⟨img', h1, h2⟩ := hrow next c img rest (hsub List.mem_cons_self) (hle c) h
      refine ⟨img', h1, _, hl, fun _ hcr => hsub (List.mem_cons_of_mem _ hcr), fun c' => ?_,
        h2.finish (hle c)⟩
      by_cases hc : c' = c
      · subst hc; rw [Function.update_self]; exact (hle c').trans (Nat.le_succ _)
      · rw [Function.update_of_ne hc]; exact hle c')
    l img rest ⟨next, hl, fun _ h => h, hle, h⟩
  cases hf
  exact ⟨img', h1, h2⟩

theorem mem_sliceRows {cfg : Cfg} {i n : ℕ} {c : CompIndex} {r : ℕ}
    (h : (c, r) ∈ sliceRows cfg i n) : i * cfg.bh c ≤ r ∧ r < (i + n) * cfg.bh c := by
  obtain ⟨j, hj, h⟩ := List.mem_flatMap.mp h
  obtain ⟨c', -, h⟩ := List.mem_flatMap.mp h
  obtain ⟨b, hb, h⟩ := List.mem_map.mp h
  obtain ⟨rfl, rfl⟩ := Prod.mk.inj h
  have hb := List.mem_range.mp hb
  have hj := List.mem_range'_1.mp hj
  have h1 := Nat.mul_le_mul_right (cfg.bh c') hj.1
  have h2 := Nat.mul_le_mul_right (cfg.bh c') (show j + 1 ≤ i + n by omega)
  rw [Nat.succ_mul] at h2
  omega

end RemotePlay.Lossless
