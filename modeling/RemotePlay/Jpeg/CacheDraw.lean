import RemotePlay.Jpeg.CacheRow

/-! # The places drawn in the array

`dq_cache_gen_unique_indices` works on the first `n` bytes of an array: it moves a draw past the
places taken, shifts those behind it up by one, and writes it into the gap.  A byte that wraps or an
index outside the array is `none` here.  Neither occurs, and the array then holds the places of
`dqCacheGenUniqueIndices` (`genUniqueIndices_eq`); every choice of places is that of some draws
(`genUniqueIndices_exact`). -/

namespace RemotePlay.Jpeg

/-- `DELTA_Q_CACHE_MAX`. -/
def DELTA_Q_CACHE_MAX : ℕ :=
  (List.finRange 3).foldl
    (fun max i => if max < DELTA_Q_CACHE_COUNTS i then DELTA_Q_CACHE_COUNTS i else max) 0

/-! ### The loops -/

/-- `v += 1` of an `u8`. -/
def u8Succ (v : ℕ) : Option ℕ := if v < 255 then some (v + 1) else none

/-- `indices[j] = v`. -/
def setIndex (indices : List ℕ) (j v : ℕ) : Option (List ℕ) :=
  if j < indices.length then some (indices.set j v) else none

/-- The loop that moves a draw past the `i` places taken. -/
def skipLoop (indices : List ℕ) (i v : ℕ) : Option ℕ :=
  (List.range i).foldlM (fun v j => do
    let taken ← indices[j]?
    if v ≥ taken then u8Succ v else some v) v

/-- The loop that moves the places from `j` on up by one, the last first. -/
def shiftLoop (indices : List ℕ) (j i : ℕ) : Option (List ℕ) :=
  (List.range' j (i - j)).reverse.foldlM (fun indices k => do
    let taken ← indices[k]?
    setIndex indices (k + 1) taken) indices

/-- The loop that puts a place in order, over the `j` left; without a larger place it goes last. -/
def placeLoop (v i : ℕ) : List ℕ → List ℕ → Option (List ℕ)
  | [], indices => setIndex indices i v
  | j :: js, indices => do
    let taken ← indices[j]?
    if v < taken then do
      let indices ← shiftLoop indices j i
      setIndex indices j v
    else placeLoop v i js indices

/-- `dq_cache_gen_unique_indices`, on the array. -/
def genUniqueIndices {n m : ℕ} (rand : Draws n m) (indices : List ℕ) : Option (List ℕ) :=
  (List.finRange n).foldlM (fun indices (i : Fin n) =>
    -- `m - i` is a difference of bytes
    if i.val ≤ m then do
      let v ← skipLoop indices i (rand.v i % 256)
      placeLoop v i (List.range i) indices
    else none) indices

/-! ### What the loops do -/

theorem foldlM_range_get {α β : Type} (f : β → α → Option β) (js rest : List α) (b : β) :
    (List.range js.length).foldlM (fun b j => do
      let x ← (js ++ rest)[j]?
      f b x) b = js.foldlM f b := by
  induction js using List.reverseRecOn generalizing rest with
  | nil => rfl
  | append_singleton js x ih =>
    have hlast : (js ++ x :: rest)[js.length]? = some x := by simp
    have hassoc : js ++ [x] ++ rest = js ++ x :: rest := by simp
    rw [List.length_append, List.length_singleton, List.range_succ, List.foldlM_append,
      List.foldlM_append, hassoc, ih]
    simp only [List.foldlM_cons, List.foldlM_nil, hlast, Option.bind_eq_bind, Option.bind_some]

theorem le_skipTaken (v : ℕ) (js : List ℕ) : v ≤ skipTaken v js := by
  induction js generalizing v with
  | nil => exact le_rfl
  | cons j js ih =>
    rw [skipTaken, List.foldl_cons]
    split_ifs
    · exact (Nat.le_succ v).trans (ih (v + 1))
    · exact ih v

/-- **A draw is moved without wrapping** when the place it gets is a byte. -/
theorem skipLoop_eq {v : ℕ} {js : List ℕ} (hv : skipTaken v js ≤ 255) (rest : List ℕ) :
    skipLoop (js ++ rest) js.length v = some (skipTaken v js) := by
  rw [skipLoop, foldlM_range_get (fun v taken => if v ≥ taken then u8Succ v else some v)]
  induction js generalizing v with
  | nil => rfl
  | cons j js ih =>
    rw [skipTaken, List.foldl_cons] at hv ⊢
    rw [List.foldlM_cons]
    by_cases hj : v ≥ j
    · rw [if_pos hj] at hv ⊢
      have hle : v + 1 ≤ 255 := (le_skipTaken (v + 1) js).trans hv
      rw [if_pos hj, u8Succ, if_pos (by omega)]
      exact ih hv
    · rw [if_neg hj] at hv ⊢
      rw [if_neg hj]
      exact ih hv

theorem setIndex_append (xs : List ℕ) (g v : ℕ) (rest : List ℕ) :
    setIndex (xs ++ g :: rest) xs.length v = some (xs ++ v :: rest) := by
  have hlt : xs.length < (xs ++ g :: rest).length := by simp
  rw [setIndex, if_pos hlt, List.set_append_right _ _ le_rfl, Nat.sub_self, List.set_cons_zero]

/-- **The places are shifted over the entry behind them**, and leave a gap in front. -/
theorem shiftLoop_eq (xs ys : List ℕ) (g : ℕ) (rest : List ℕ) :
    ∃ g', shiftLoop (xs ++ (ys ++ g :: rest)) xs.length (xs.length + ys.length) =
      some (xs ++ g' :: (ys ++ rest)) := by
  induction ys using List.reverseRecOn generalizing g rest with
  | nil =>
    refine ⟨g, ?_⟩
    rw [shiftLoop, List.length_nil, Nat.add_zero, Nat.sub_self]
    rfl
  | append_singleton ys y ih =>
    obtain ⟨g', hg'⟩ := ih y (y :: rest)
    refine ⟨g', ?_⟩
    have hget : (xs ++ (ys ++ [y] ++ g :: rest))[xs.length + ys.length]? = some y := by
      simp
    have hset : setIndex (xs ++ (ys ++ [y] ++ g :: rest)) (xs.length + ys.length + 1) y =
        some (xs ++ (ys ++ y :: y :: rest)) := by
      have h := setIndex_append (xs ++ ys ++ [y]) g y rest
      simpa [Nat.add_assoc] using h
    rw [shiftLoop, Nat.add_sub_cancel_left] at hg' ⊢
    rw [List.length_append, List.length_singleton, List.range'_concat, List.reverse_append,
      List.reverse_singleton, List.singleton_append, List.foldlM_cons, Nat.one_mul]
    simp only [hget, hset, Option.bind_eq_bind, Option.bind_some]
    rw [List.append_assoc ys, List.singleton_append]
    exact hg'

/-- **A place is put in order** among those from `xs` on. -/
theorem placeLoop_eq (v : ℕ) (xs ys : List ℕ) (g : ℕ) (rest : List ℕ) :
    placeLoop v (xs.length + ys.length) (List.range' xs.length ys.length)
      (xs ++ (ys ++ g :: rest)) = some (xs ++ (insertIndex v ys ++ rest)) := by
  induction ys generalizing xs with
  | nil => exact setIndex_append xs g v rest
  | cons y ys ih =>
    have hget : (xs ++ (y :: ys ++ g :: rest))[xs.length]? = some y := by simp
    rw [List.length_cons, List.range'_succ, placeLoop, insertIndex]
    simp only [hget, Option.bind_eq_bind, Option.bind_some]
    split_ifs with hlt
    · obtain ⟨g', hshift⟩ := shiftLoop_eq xs (y :: ys) g rest
      rw [← List.length_cons (a := y), hshift, Option.bind_some, setIndex_append]
      rfl
    · have h := ih (xs ++ [y])
      rw [List.length_append, List.length_singleton, List.append_assoc, List.singleton_append] at h
      rw [show xs.length + (ys.length + 1) = xs.length + 1 + ys.length by omega]
      rw [List.cons_append, List.cons_append, h, List.append_assoc, List.singleton_append]

/-! ### The draws -/

/-- **One draw** adds its place to those in front. -/
theorem drawStep_eq {n m : ℕ} (hm : m ≤ 255) (rand : Draws n m) {indices : List ℕ}
    (hlen : n ≤ indices.length) (i : Fin n) :
    (skipLoop (drawn rand i ++ indices.drop i) i (rand.v i % 256)).bind (fun v =>
      placeLoop v i (List.range i) (drawn rand i ++ indices.drop i)) =
        some (drawn rand (i + 1) ++ indices.drop (i + 1)) := by
  obtain ⟨hs, hi, -⟩ := drawn_spec rand i.isLt.le
  obtain ⟨-, -, hle⟩ := skipTaken_spec (v := rand.v i) hs
  have hlt := rand.lt i
  have hbyte : skipTaken (rand.v i) (drawn rand i) ≤ 255 := by omega
  have hskip := skipLoop_eq hbyte (indices.drop i)
  have hdrop : indices.drop i = indices[i.val] :: indices.drop (i + 1) :=
    List.drop_eq_getElem_cons (by omega)
  have hplace := placeLoop_eq (skipTaken (rand.v i) (drawn rand i)) [] (drawn rand i)
    indices[i.val] (indices.drop (i + 1))
  rw [hi] at hskip hplace
  rw [List.length_nil, Nat.zero_add, ← List.range_eq_range', List.nil_append, List.nil_append,
    ← hdrop] at hplace
  rw [Nat.mod_eq_of_lt (by omega : rand.v i < 256), hskip, Option.bind_some, hplace,
    drawn_succ rand i.isLt]

/-- **The array ends with the places in front** and the rest as it was. -/
theorem genUniqueIndices_eq {n m : ℕ} (hm : m ≤ 255) (rand : Draws n m) {indices : List ℕ}
    (hlen : n ≤ indices.length) :
    genUniqueIndices rand indices = some (dqCacheGenUniqueIndices rand ++ indices.drop n) := by
  have hrun : ∀ k ≤ n, ((List.finRange n).take k).foldlM (fun indices (i : Fin n) =>
      if i.val ≤ m then do
        let v ← skipLoop indices i (rand.v i % 256)
        placeLoop v i (List.range i) indices
      else none) indices = some (drawn rand k ++ indices.drop k) := by
    intro k
    induction k with
    | zero => exact fun _ => rfl
    | succ k ih =>
      intro hk
      have hlast : k < (List.finRange n).length := by rwa [List.length_finRange]
      have hget : (List.finRange n)[k] = ⟨k, hk⟩ := by
        rw [List.getElem_finRange]
        rfl
      have hlt : rand.v ⟨k, hk⟩ < m - k := rand.lt ⟨k, hk⟩
      have hstep := drawStep_eq hm rand hlen ⟨k, hk⟩
      rw [List.take_succ_eq_append_getElem hlast, List.foldlM_append, ih (by omega), hget]
      simp only [Option.bind_eq_bind, Option.bind_some, List.foldlM_cons, List.foldlM_nil,
        if_pos (by omega : k ≤ m), hstep]
      rfl
  have h := hrun n le_rfl
  rw [List.take_of_length_le (by rw [List.length_finRange]), drawn_all] at h
  exact h

/-! ### Every choice of places -/

theorem skipTaken_of_ge {v : ℕ} {js : List ℕ} (h : ∀ (p : ℕ) (hp : p < js.length), js[p] ≤ v + p) :
    skipTaken v js = v + js.length := by
  induction js generalizing v with
  | nil => rfl
  | cons j js ih =>
    have hj : j ≤ v := h 0 (Nat.succ_pos _)
    have htail := ih (v := v + 1) fun p hp => by
      have := h (p + 1) (Nat.succ_lt_succ hp)
      rw [List.getElem_cons_succ] at this
      omega
    rw [skipTaken, List.foldl_cons, if_pos hj, ← skipTaken, htail, List.length_cons]
    omega

theorem insertIndex_of_le {v : ℕ} {js : List ℕ} (h : ∀ j ∈ js, j ≤ v) :
    insertIndex v js = js ++ [v] := by
  induction js with
  | nil => rfl
  | cons j js ih =>
    have hj := h j List.mem_cons_self
    rw [insertIndex, if_neg (by omega), ih fun x hx => h x (List.mem_cons_of_mem _ hx),
      List.cons_append]

theorem add_sub_le_of_pairwise {js : List ℕ} (hs : js.Pairwise (· < ·)) {p q : ℕ} (hpq : p ≤ q)
    (hq : q < js.length) : js[p] + (q - p) ≤ js[q] := by
  induction q, hpq using Nat.le_induction with
  | base => omega
  | succ q hpq ih =>
    have hprev := ih (by omega)
    have hnext := List.pairwise_iff_getElem.mp hs q (q + 1) (by omega) hq (Nat.lt_succ_self q)
    omega

/-- The draws that give some places: each place less the number of those before it. -/
def drawsOf {n m : ℕ} (js : List ℕ) (hlen : js.length = n) (hs : js.Pairwise (· < ·))
    (hm : ∀ x ∈ js, x < m) : Draws n m where
  v i := js[i.val] - i
  lt i := by
    have hi : i.val < js.length := hlen ▸ i.isLt
    have hlt := hm js[i.val] (List.getElem_mem hi)
    have hge := add_sub_le_of_pairwise hs (Nat.zero_le i.val) hi
    omega

/-- **Every choice of places in order comes of some draws.** -/
theorem dqCacheGenUniqueIndices_drawsOf {n m : ℕ} {js : List ℕ} (hlen : js.length = n)
    (hs : js.Pairwise (· < ·)) (hm : ∀ x ∈ js, x < m) :
    dqCacheGenUniqueIndices (drawsOf js hlen hs hm) = js := by
  have hrun : ∀ k ≤ n, drawn (drawsOf js hlen hs hm) k = js.take k := by
    intro k
    induction k with
    | zero => exact fun _ => rfl
    | succ k ih =>
      intro hk
      have hkn : k < js.length := by omega
      have htake : (js.take k).length = k := List.length_take_of_le hkn.le
      have hfirst := add_sub_le_of_pairwise hs (Nat.zero_le k) hkn
      have hskip : skipTaken (js[k] - k) (js.take k) = js[k] := by
        rw [skipTaken_of_ge fun p hp => ?_, htake]
        · omega
        · have hgap := add_sub_le_of_pairwise hs (by omega : p ≤ k) hkn
          rw [List.getElem_take]
          omega
      have hlast : ∀ x ∈ js.take k, x ≤ js[k] := by
        intro x hx
        obtain ⟨p, hp, rfl⟩ := List.getElem_of_mem hx
        have hgap := add_sub_le_of_pairwise hs (by omega : p ≤ k) hkn
        rw [List.getElem_take]
        omega
      rw [drawn_succ _ hk, ih (by omega), List.take_succ_eq_append_getElem hkn]
      show insertIndex (skipTaken (js[k] - k) (js.take k)) (js.take k) = _
      rw [hskip, insertIndex_of_le hlast]
  rw [← drawn_all, hrun n le_rfl, List.take_of_length_le hlen.le]

/-- **The places drawn are exactly the choices of `n` places in order.**  For any draws no byte
wraps and no index leaves the array, which then has `n` places below `m` in front, each larger than
the one before, and every such choice is that of some draws. -/
theorem genUniqueIndices_exact (n m : ℕ) (hn : n ≤ DELTA_Q_CACHE_MAX) (hnm : n ≤ m) (hm : m ≤ 255)
    (indices : List ℕ) (hlen : indices.length = DELTA_Q_CACHE_MAX) :
    Nonempty (Draws n m) ∧
      (∀ rand : Draws n m, ∃ out, genUniqueIndices rand indices = some out ∧
        out.length = DELTA_Q_CACHE_MAX ∧ (out.take n).Pairwise (· < ·) ∧
        (∀ x ∈ out.take n, x < m) ∧ out.drop n = indices.drop n) ∧
      ∀ js : List ℕ, js.length = n → js.Pairwise (· < ·) → (∀ x ∈ js, x < m) →
        ∃ (rand : Draws n m) (out : List ℕ),
          genUniqueIndices rand indices = some out ∧ out.take n = js := by
  have hle : n ≤ indices.length := hlen ▸ hn
  refine ⟨⟨⟨fun _ => 0, fun i => by omega⟩⟩, fun rand => ?_, fun js hjs hs hlt => ?_⟩
  · obtain ⟨hs, hcount, hlt⟩ := dqCacheGenUniqueIndices_spec rand
    refine ⟨_, genUniqueIndices_eq hm rand hle, ?_, ?_, ?_, ?_⟩
    · rw [List.length_append, hcount, List.length_drop]
      omega
    · rwa [List.take_left' hcount]
    · rwa [List.take_left' hcount]
    · rw [List.drop_left' hcount]
  · refine ⟨drawsOf js hjs hs hlt, _, genUniqueIndices_eq hm _ hle, ?_⟩
    rw [dqCacheGenUniqueIndices_drawsOf, List.take_left' hjs]

/-- Four places of a full range, with an array that is not empty. -/
theorem genUniqueIndices_exact_four :
    ∃ (rand : Draws 4 255) (out : List ℕ),
      genUniqueIndices rand [9, 9, 9, 9] = some out ∧ out.take 4 = [0, 1, 253, 254] :=
  (genUniqueIndices_exact 4 255 (by decide) (by decide) (by decide) [9, 9, 9, 9] rfl).2.2
    [0, 1, 253, 254] rfl (by decide) (by decide)

end RemotePlay.Jpeg
