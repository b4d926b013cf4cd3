import RemotePlay.Jpeg.HuffShorten
import RemotePlay.Jpeg.DerivedTbl
import RemotePlay.Lib.ByKey

/-! # The table made from frequencies

`gen_optimal_table` counts the codes of each length, shortens those that are too long, takes the
pseudo-symbol's code away from the longest and lists the symbols by a counting sort. -/

namespace RemotePlay.Jpeg

open RemotePlay.Lib PrefixCode

/-! ### Counting -/

theorem countLengths_eq {ls : List ℕ} (bits : List ℕ) (hsize : bits.length = 33)
    (hle : ∀ l ∈ ls, l ≤ MAX_C_LEN) (hfit : ∀ l, bits.getD l 0 + ls.count l < 256) :
    ∃ bits', countLengths ls bits = some bits' ∧
      bits'.length = 33 ∧ ∀ l, bits'.getD l 0 = bits.getD l 0 + ls.count l := by
  induction ls generalizing bits with
  | nil => exact ⟨bits, rfl, hsize, fun l => rfl⟩
  | cons d ls ih =>
    have hd : d ≤ 32 := hle d List.mem_cons_self
    have hadd := getD_addU8 bits d 1 (by omega)
    have hstep : ∀ l, (addU8 bits d 1).getD l 0 + ls.count l =
        bits.getD l 0 + (d :: ls).count l := by
      intro l
      have hl := hfit l
      rw [List.count_cons] at hl ⊢
      rw [hadd]
      by_cases hld : l = d
      · subst hld
        simp only [beq_self_eq_true, if_true] at hl ⊢
        omega
      · simp only [hld, beq_iff_eq, Ne.symm hld, if_false, Nat.add_zero]
    obtain ⟨bits', heq, hsize', hget⟩ := ih (addU8 bits d 1) (by simpa using hsize)
      (fun l hl => hle l (List.mem_cons_of_mem _ hl)) fun l => (hstep l).trans_lt (hfit l)
    refine ⟨bits', ?_, hsize', fun l => (hget l).trans (hstep l)⟩
    rw [countLengths, if_neg (by exact not_lt.mpr hd), heq]

theorem sum_count {ls : List ℕ} (hle : ∀ l ∈ ls, l < 33) (c : ℕ → ℕ) :
    (ls.map c).sum = ∑ l ∈ Finset.range 33, ls.count l * c l := by
  induction ls with
  | nil => simp
  | cons d ls ih =>
    have hd := hle d List.mem_cons_self
    have hpoint : ∀ l, (d :: ls).count l * c l = ls.count l * c l + if l = d then c l else 0 := by
      intro l
      rw [List.count_cons, Nat.add_mul]
      by_cases hl : l = d
      · simp [hl]
      · simp [hl, Ne.symm hl]
    simp only [List.map_cons, List.sum_cons, hpoint, Finset.sum_add_distrib, Finset.sum_ite_eq',
      Finset.mem_range, if_pos hd, ih fun l hl => hle l (List.mem_cons_of_mem _ hl)]
    exact Nat.add_comm _ _

theorem sum_codeLengths {bits : List ℕ} (h0 : bits.getD 0 0 = 0) (c : ℕ → ℕ) :
    ((codeLengths bits).map c).sum = ∑ l ∈ Finset.range 17, bits.getD l 0 * c l := by
  have hlevels : ∀ m,
      (((List.range' 1 m).flatMap fun l => List.replicate (bits.getD l 0) l).map c).sum =
      ∑ l ∈ Finset.range (m + 1), bits.getD l 0 * c l := by
    intro m
    induction m with
    | zero =>
      rw [zero_add, Finset.sum_range_one, h0, Nat.zero_mul]
      rfl
    | succ m ih =>
      rw [List.range'_1_concat, List.flatMap_append, List.map_append, List.sum_append, ih,
        Finset.sum_range_succ _ (m + 1), Nat.add_comm 1 m]
      simp
  exact hlevels 16

theorem getD_bitPos {bits : List ℕ} {α : Type} {f : α → ℕ} {es : List α} (hsize : bits.length = 33)
    (hbits : ∀ l, bits.getD l 0 = (es.map f).count l) {l : ℕ} (hl : l ≤ MAX_C_LEN) :
    (bitPos bits).getD l 0 = (byKey l f es).length := by
  have hmax : MAX_C_LEN = 32 := rfl
  have hsum : ∀ k ≤ 33, (bits.take k).sum = (byKey k f es).length := by
    intro k hk
    induction k with
    | zero => rfl
    | succ k ih =>
      have hk' : k < bits.length := by omega
      have hcount : bits[k] = (es.filter fun e => f e = k).length := by
        rw [← List.getD_eq_getElem _ 0 hk', hbits, List.count_eq_countP, List.countP_map,
          List.countP_eq_length_filter]
        rfl
      rw [List.sum_take_succ _ _ hk', ih (by omega), byKey_succ, List.length_append, hcount]
  have hlt : l < (List.range (MAX_C_LEN + 1)).length := by
    rw [List.length_range]
    omega
  rw [bitPos, List.getD_eq_getElem _ _ (by rwa [List.length_map]), List.getElem_map,
    List.getElem_range, hsum l (by omega)]

/-! ### Listing -/

/-- The symbols of one length. -/
def ofLength (l : ℕ) (es : List (ℕ × ℕ)) : List (ℕ × ℕ) := es.filter fun e => e.2 = l

theorem ofLength_cons (l : ℕ) (e : ℕ × ℕ) (es : List (ℕ × ℕ)) :
    ofLength l (e :: es) = if e.2 = l then e :: ofLength l es else ofLength l es := by
  simp only [ofLength, List.filter_cons, decide_eq_true_eq]

/-- The places of the symbols still to be listed: those of different lengths keep apart. -/
structure Places (es : List (ℕ × ℕ)) (pos vals : List ℕ) : Prop where
  inside : ∀ l, 0 < (ofLength l es).length →
    l < pos.length ∧ pos.getD l 0 + (ofLength l es).length ≤ vals.length
  apart : ∀ l l', l < l' → 0 < (ofLength l es).length → 0 < (ofLength l' es).length →
    pos.getD l 0 + (ofLength l es).length ≤ pos.getD l' 0

theorem getD_set (xs : List ℕ) {i : ℕ} (x : ℕ) (hi : i < xs.length) (j : ℕ) :
    (xs.set i x).getD j 0 = if j = i then x else xs.getD j 0 := by
  by_cases hj : j = i
  · subst hj
    simp [List.getD_eq_getElem?_getD, hi]
  · simp [List.getD_eq_getElem?_getD, hj, List.getElem?_set_ne (Ne.symm hj)]

/-- The places after a symbol is listed. -/
theorem Places.next {sym d : ℕ} {es : List (ℕ × ℕ)} {pos vals : List ℕ}
    (h : Places ((sym, d) :: es) pos vals) :
    Places es (pos.set d (pos.getD d 0 + 1)) (vals.set (pos.getD d 0) (sym % 256)) := by
  have hlen : ∀ l, (ofLength l ((sym, d) :: es)).length =
      (ofLength l es).length + if l = d then 1 else 0 := by
    intro l
    rw [ofLength_cons]
    by_cases hl : d = l
    · simp [hl]
    · simp [hl, Ne.symm hl]
  have hd := h.inside d (by rw [hlen, if_pos rfl]; exact Nat.succ_pos _)
  have hpos := getD_set pos (pos.getD d 0 + 1) hd.1
  constructor
  · intro l hl
    have := h.inside l (by rw [hlen]; omega)
    rw [hlen] at this
    rw [hpos, List.length_set, List.length_set]
    split_ifs at this ⊢ with hld
    · subst hld
      omega
    · omega
  · intro l l' hlt hl hl'
    have := h.apart l l' hlt (by rw [hlen]; omega) (by rw [hlen]; omega)
    rw [hlen] at this
    rw [hpos, hpos]
    split_ifs at this ⊢ <;> subst_vars <;> omega

/-- **Where the symbols stand**: each place is inside the array, and nothing else is written. -/
theorem placeVals_spec {es : List (ℕ × ℕ)} {pos vals : List ℕ} (h : Places es pos vals) :
    ∃ out, placeVals es pos vals = some out ∧ out.length = vals.length ∧
      (∀ l k, (hk : k < (ofLength l es).length) →
        out.getD (pos.getD l 0 + k) 0 = (ofLength l es)[k].1 % 256) ∧
      ∀ q, (∀ l, 0 < (ofLength l es).length →
        q < pos.getD l 0 ∨ pos.getD l 0 + (ofLength l es).length ≤ q) →
          out.getD q 0 = vals.getD q 0 := by
  induction es generalizing pos vals with
  | nil => exact ⟨vals, rfl, rfl, fun l k hk => absurd hk (Nat.not_lt_zero k), fun q _ => rfl⟩
  | cons e es ih =>
    obtain ⟨sym, d⟩ := e
    have hself : ofLength d ((sym, d) :: es) = (sym, d) :: ofLength d es := by
      rw [ofLength_cons, if_pos rfl]
    have hother : ∀ l, l ≠ d → ofLength l ((sym, d) :: es) = ofLength l es := fun l hl => by
      rw [ofLength_cons, if_neg (Ne.symm hl)]
    have hd := h.inside d (by rw [hself]; exact Nat.succ_pos _)
    rw [hself, List.length_cons] at hd
    have hpos := getD_set pos (pos.getD d 0 + 1) hd.1
    have hplace : pos.getD d 0 < vals.length := by omega
    have hvals := getD_set vals (sym % 256) hplace
    obtain ⟨out, hout, hsize, hblock, hrest⟩ := ih h.next
    refine ⟨out, ?_, hsize.trans List.length_set, ?_, ?_⟩
    · rw [placeVals, if_pos hplace, hout]
    · intro l k hk
      by_cases hl : l = d
      · subst hl
        rcases k with _ | k
        · -- the place just written, which no later symbol has
          rw [hrest, hvals, if_pos (Nat.add_zero _)]
          · simp only [hself, List.getElem_cons_zero]
          · intro l' hl'
            rw [hpos]
            by_cases hll : l' = l
            · rw [if_pos hll, hll]
              exact Or.inl (Nat.lt_succ_self _)
            · rw [if_neg hll]
              rcases Nat.lt_or_ge l' l with hlt | hge
              · have := h.apart l' l hlt (by rwa [hother l' hll])
                  (by rw [hself]; exact Nat.succ_pos _)
                rw [hother l' hll] at this
                exact Or.inr this
              · have := h.apart l l' (by omega) (by rw [hself]; exact Nat.succ_pos _)
                  (by rwa [hother l' hll])
                rw [hself, List.length_cons] at this
                omega
        · have := hblock l k (by simpa [hself] using hk)
          rw [hpos, if_pos rfl, Nat.add_assoc, Nat.add_comm 1 k] at this
          simp only [this, hself, List.getElem_cons_succ]
      · have := hblock l k (by rwa [hother l hl] at hk)
        rw [hpos, if_neg hl] at this
        simp only [this, hother l hl]
    · intro q hq
      have hqd := hq d (by rw [hself]; exact Nat.succ_pos _)
      rw [hself, List.length_cons] at hqd
      rw [hrest, hvals, if_neg (by omega)]
      intro l hl
      rw [hpos]
      by_cases hld : l = d
      · subst hld
        rw [if_pos rfl]
        omega
      · rw [if_neg hld]
        have := hq l (by rwa [hother l hld])
        rwa [hother l hld] at this

/-- **The list**: the symbols in the order of their lengths. -/
theorem take_placeVals {es : List (ℕ × ℕ)} {pos vals : List ℕ} (hlen : es.length ≤ vals.length)
    {m : ℕ} (hm : m ≤ pos.length) (hall : ∀ e ∈ es, e.2 < m)
    (hpos : ∀ l, 0 < (ofLength l es).length → pos.getD l 0 = (byKey l Prod.snd es).length) :
    ∃ out, placeVals es pos vals = some out ∧ out.length = vals.length ∧
      out.take es.length = (byKey m Prod.snd es).map fun e => e.1 % 256 := by
  have hsucc : ∀ l, (byKey (l + 1) Prod.snd es).length =
      (byKey l Prod.snd es).length + (ofLength l es).length := fun l => by
    rw [byKey_succ, List.length_append, ofLength]
  have hmono : Monotone fun l => (byKey l Prod.snd es).length :=
    monotone_nat_of_le_succ fun l => by rw [hsucc]; exact Nat.le_add_right _ _
  have htotal : (byKey m Prod.snd es).length = es.length := (byKey_perm_self hall).length_eq
  have hlt : ∀ l, 0 < (ofLength l es).length → l < m := by
    intro l hl
    obtain ⟨e, he⟩ := List.exists_mem_of_length_pos hl
    have := List.mem_filter.mp he
    have hel : e.2 = l := by simpa using this.2
    exact hel ▸ hall e this.1
  have hplaces : Places es pos vals := by
    constructor
    · intro l hl
      have hlm := hlt l hl
      have hle : (byKey (l + 1) Prod.snd es).length ≤ (byKey m Prod.snd es).length := hmono hlm
      rw [hsucc, htotal] at hle
      rw [hpos l hl]
      exact ⟨by omega, by omega⟩
    · intro l l' hll hl hl'
      rw [hpos l hl, hpos l' hl', ← hsucc]
      exact hmono hll
  obtain ⟨out, hout, hsize, hblock, -⟩ := placeVals_spec hplaces
  have hprefix : ∀ k ≤ m, out.take (byKey k Prod.snd es).length =
      (byKey k Prod.snd es).map fun e => e.1 % 256 := by
    intro k hk
    induction k with
    | zero => rfl
    | succ k ih =>
      have hle : (byKey (k + 1) Prod.snd es).length ≤ (byKey m Prod.snd es).length := hmono hk
      rw [hsucc, htotal] at hle
      rw [hsucc, List.take_add, ih (Nat.le_of_succ_le hk), byKey_succ, List.map_append, ← ofLength]
      congr 1
      refine List.ext_getElem ?_ fun i hi hi' => ?_
      · rw [List.length_take, List.length_drop, List.length_map, hsize]
        omega
      · rw [List.length_map] at hi'
        have := hblock k i hi'
        rw [hpos k (by omega), List.getD_eq_getElem _ _ (by omega)] at this
        rw [List.getElem_take, List.getElem_drop, List.getElem_map, this]
  refine ⟨out, hout, hsize, ?_⟩
  rw [← htotal]
  exact hprefix m le_rfl

/-! ### The pseudo-symbol's code -/

theorem lengths_of_count {ds bits : List ℕ} (hle : ∀ d ∈ ds, d ≤ MAX_C_LEN)
    (hweight : weight 32 ds = 2 ^ 32) (htwo : 2 ≤ ds.length) (hbyte : ∀ d, ds.count d < 256)
    (hsize : bits.length = 33) (hbits : ∀ l, bits.getD l 0 = ds.count l) :
    Lengths ds.length 32 bits := by
  have hlt : ∀ d ∈ ds, d < 33 := fun d hd => Nat.lt_succ_of_le (hle d hd)
  have hkraft := sum_count hlt fun l => 2 ^ (32 - l)
  have htotal := sum_count hlt fun _ => 1
  rw [← weight, hweight] at hkraft
  simp only [List.map_const', List.sum_replicate, smul_eq_mul, Nat.mul_one] at htotal
  have hzero : ds.count 0 = 0 := by
    have h0 : 0 ∈ Finset.range 33 := Finset.mem_range.mpr (Nat.succ_pos _)
    have hk := Finset.add_sum_erase (Finset.range 33) (fun l => ds.count l * 2 ^ (32 - l)) h0
    have ht := Finset.add_sum_erase (Finset.range 33) (fun l => ds.count l) h0
    have hle : ∑ l ∈ (Finset.range 33).erase 0, ds.count l ≤
        ∑ l ∈ (Finset.range 33).erase 0, ds.count l * 2 ^ (32 - l) :=
      Finset.sum_le_sum fun l _ => Nat.le_mul_of_pos_right _ (Nat.two_pow_pos _)
    rw [← hkraft] at hk
    rw [← htotal] at ht
    omega
  refine ⟨hsize, ⟨?_, ?_⟩, ?_, fun l hl => ?_, fun l => ?_⟩
  · simp only [hbits]
    exact hkraft.symm
  · simp only [hbits]
    exact htotal.symm
  · rw [hbits, hzero]
  · rw [hbits]
    exact List.count_eq_zero_of_not_mem fun hmem => absurd (hlt l hmem) (by omega)
  · rw [hbits]
    exact hbyte l

/-- The counts without the pseudo-symbol's code, up to sixteen. -/
def finished (i : ℕ) (bits : List ℕ) : List ℕ := (subU8 bits i 1).take 17

theorem Lengths.getD_finished {n i : ℕ} {bits : List ℕ} (h : Lengths n 16 bits) (hi : i ≤ 16)
    (hpos : 0 < bits.getD i 0) (l : ℕ) :
    (finished i bits).getD l 0 + (if l = i then 1 else 0) = bits.getD l 0 := by
  have hsub := getD_subU8 bits i 1 (by have := h.size; omega) l
  have hbyte := h.byte i
  rcases Nat.lt_or_ge l 17 with hl | hl
  · have htake : (finished i bits).getD l 0 = (subU8 bits i 1).getD l 0 := by
      rw [finished, List.getD_eq_getElem?_getD, List.getElem?_take_of_lt hl,
        List.getD_eq_getElem?_getD]
    rw [htake, hsub]
    split_ifs with hli
    · subst hli
      omega
    · rfl
  · rw [h.above l (by omega), if_neg (by omega), finished,
      List.getD_eq_default _ _ (by simp; omega)]

/-- **What is summed over the code and the pseudo-symbol** is what is summed over the whole tree. -/
theorem Lengths.sum_finished {n i : ℕ} {bits : List ℕ} (h : Lengths n 16 bits) (hi : i ≤ 16)
    (hpos : 0 < bits.getD i 0) (c : ℕ → ℕ) :
    ((codeLengths (finished i bits)).map c).sum + c i =
      ∑ l ∈ Finset.range 33, bits.getD l 0 * c l := by
  have hget := h.getD_finished hi hpos
  have h0 : (finished i bits).getD 0 0 = 0 := by
    have := hget 0
    rw [h.zero] at this
    omega
  have hshort : ∑ l ∈ Finset.range 33, bits.getD l 0 * c l =
      ∑ l ∈ Finset.range 17, bits.getD l 0 * c l := by
    refine (Finset.sum_subset (Finset.range_subset_range.mpr (by decide)) fun l _ hl => ?_).symm
    rw [Finset.mem_range] at hl
    rw [h.above l (by omega), Nat.zero_mul]
  have hpoint : ∀ l, bits.getD l 0 * c l =
      (finished i bits).getD l 0 * c l + if l = i then c l else 0 := by
    intro l
    rw [← hget, Nat.add_mul, ite_mul, one_mul, zero_mul]
  rw [sum_codeLengths h0, hshort]
  simp only [hpoint, Finset.sum_add_distrib, Finset.sum_ite_eq', Finset.mem_range]
  rw [if_pos (by omega)]

/-- **The room left** is that of the pseudo-symbol. -/
theorem Lengths.weight_finished {n i : ℕ} {bits : List ℕ} (h : Lengths n 16 bits) (hi : i ≤ 16)
    (hpos : 0 < bits.getD i 0) :
    weight 16 (codeLengths (finished i bits)) + 2 ^ (16 - i) = 2 ^ 16 := by
  have hscale : ∀ l, l ≤ 16 → 2 ^ (32 - l) = 2 ^ 16 * 2 ^ (16 - l) := fun l hl => by
    rw [← Nat.pow_add, show 32 - l = 16 + (16 - l) by omega]
  have hsum := h.sum_finished hi hpos fun l => 2 ^ (32 - l)
  rw [h.whole.kraft, hscale i hi] at hsum
  have hlens : ((codeLengths (finished i bits)).map fun l => 2 ^ (32 - l)).sum =
      2 ^ 16 * weight 16 (codeLengths (finished i bits)) := by
    rw [weight, ← List.sum_map_mul_left]
    congr 1
    exact List.map_congr_left fun l hl => hscale l (codeLengths_bounds _ l hl).2
  rw [hlens] at hsum
  omega

theorem Lengths.length_finished {n i : ℕ} {bits : List ℕ} (h : Lengths n 16 bits) (hi : i ≤ 16)
    (hpos : 0 < bits.getD i 0) : (codeLengths (finished i bits)).length + 1 = n := by
  have hsum := h.sum_finished hi hpos fun _ => 1
  simp only [Nat.mul_one, h.whole.total, List.map_const', List.sum_replicate, smul_eq_mul] at hsum
  exact hsum

theorem Lengths.count_finished {n i : ℕ} {bits : List ℕ} (h : Lengths n 16 bits) (hi : i ≤ 16)
    (hpos : 0 < bits.getD i 0) (k : ℕ) :
    (codeLengths (finished i bits)).count k + (if i = k then 1 else 0) = bits.getD k 0 := by
  have hlt : ∀ l ∈ codeLengths (finished i bits), l < 33 := fun l hl => by
    have := (codeLengths_bounds _ l hl).2
    omega
  have hsum := h.sum_finished hi hpos fun l => if l = k then 1 else 0
  rw [sum_count hlt] at hsum
  simp only [mul_ite, Nat.mul_one, Nat.mul_zero, Finset.sum_ite_eq', Finset.mem_range] at hsum
  by_cases hk : k < 33
  · rwa [if_pos hk, if_pos hk] at hsum
  · rw [h.above k (by omega), if_neg (by omega),
      List.count_eq_zero_of_not_mem fun hmem => hk (hlt k hmem)]

/-! ### The table -/

section Table

variable {freq : ℕ → ℕ}

/-- The symbols in the order of their depths, those of one depth in their own. -/
def byDepth (freq : ℕ → ℕ) : List ℕ :=
  byKey (MAX_C_LEN + 1) (huffDepth freq) (realSymbols freq)

theorem lt_of_mem_realSymbols {s : ℕ} (hs : s ∈ realSymbols freq) : s < 256 ∧ 0 < freq s := by
  simpa [realSymbols] using hs

theorem mem_usedSymbols_of_real {s : ℕ} (hs : s ∈ realSymbols freq) : s ∈ usedSymbols freq := by
  rw [usedSymbols_eq]
  exact List.mem_append_left _ hs

theorem byDepth_perm (hdepth : ∀ s ∈ usedSymbols freq, huffDepth freq s ≤ MAX_C_LEN) :
    (byDepth freq).Perm (realSymbols freq) :=
  byKey_perm_self fun s hs => Nat.lt_succ_of_le (hdepth s (mem_usedSymbols_of_real hs))

theorem sum_withPseudo (freq : ℕ → ℕ) : ((usedSymbols freq).map (withPseudo freq)).sum =
    ((List.range 256).map freq).sum + 1 := by
  have hfilter : ∀ l : List ℕ, ((l.filter fun s => 0 < freq s).map freq).sum =
      (l.map freq).sum := by
    intro l
    induction l with
    | nil => rfl
    | cons s l ih =>
      rw [List.map_cons, List.sum_cons, List.filter_cons]
      split_ifs with hs
      · rw [List.map_cons, List.sum_cons, ih]
      · have h0 : freq s = 0 := by simpa using hs
        rw [ih, h0, Nat.zero_add]
  have hreal : (realSymbols freq).map (withPseudo freq) = (realSymbols freq).map freq := by
    refine List.map_congr_left fun s hs => ?_
    have := (lt_of_mem_realSymbols hs).1
    rw [withPseudo, if_neg (by omega)]
  rw [usedSymbols_eq, List.map_append, List.sum_append, hreal, realSymbols, hfilter]
  rfl

theorem take_placeVals_real {bits : List ℕ} (hsize : bits.length = 33)
    (hbits : ∀ l, bits.getD l 0 = ((usedSymbols freq).map (huffDepth freq)).count l)
    (hdepth : ∀ s ∈ usedSymbols freq, huffDepth freq s ≤ MAX_C_LEN)
    (hlast : ∀ s ∈ usedSymbols freq, huffDepth freq s ≤ huffDepth freq 256) :
    ∃ vals, placeVals ((usedSymbols freq).zip ((usedSymbols freq).map (huffDepth freq))).dropLast
        (bitPos bits) (List.replicate 256 0) = some vals ∧ vals.length = 256 ∧
      vals.take (realSymbols freq).length = byDepth freq := by
  obtain ⟨es, hes⟩ : ∃ es, (realSymbols freq).map (fun s => (s, huffDepth freq s)) = es := ⟨_, rfl⟩
  have hzip : ((usedSymbols freq).zip ((usedSymbols freq).map (huffDepth freq))).dropLast = es := by
    have hself : ∀ l : List ℕ,
        l.zip (l.map (huffDepth freq)) = l.map fun s => (s, huffDepth freq s) := by
      intro l
      rw [List.zip_map_right, List.zip, List.zipWith_self, List.map_map]
      rfl
    rw [hself, usedSymbols_eq, List.map_append, List.map_singleton, List.dropLast_concat, hes]
  have hall : ∀ e ∈ es, e.2 < MAX_C_LEN + 1 := by
    intro e he
    rw [← hes] at he
    obtain ⟨s, hs, rfl⟩ := List.mem_map.mp he
    exact Nat.lt_succ_of_le (hdepth s (mem_usedSymbols_of_real hs))
  have hlen : es.length = (realSymbols freq).length := by rw [← hes, List.length_map]
  have hle : es.length ≤ (List.replicate 256 0).length := by
    rw [hlen, List.length_replicate, realSymbols]
    exact (List.length_filter_le _ _).trans (by rw [List.length_range])
  have hpos : ∀ l, 0 < (ofLength l es).length →
      (bitPos bits).getD l 0 = (byKey l Prod.snd es).length := by
    intro l hl
    obtain ⟨e, he⟩ := List.exists_mem_of_length_pos hl
    have hmem := List.mem_filter.mp he
    have hel : e.2 = l := by simpa using hmem.2
    have hlm := hall e hmem.1
    -- the pseudo-symbol is not shorter than this one
    have hl256 : l ≤ huffDepth freq 256 := by
      rw [← hes] at hmem
      obtain ⟨s, hs, rfl⟩ := List.mem_map.mp hmem.1
      rw [← hel]
      exact hlast s (mem_usedSymbols_of_real hs)
    rw [getD_bitPos hsize hbits (by omega), usedSymbols_eq, byKey_concat hl256, ← hes, byKey_map,
      List.length_map]
  obtain ⟨vals, hvals, hsize', htake⟩ := take_placeVals hle (by simp [bitPos]) hall hpos
  refine ⟨vals, hzip ▸ hvals, hsize'.trans List.length_replicate, ?_⟩
  rw [← hlen, htake, ← hes, byKey_map, List.map_map]
  refine (List.map_congr_left fun s hs => ?_).trans (List.map_id _)
  have hreal := (byDepth_perm hdepth).subset hs
  exact Nat.mod_eq_of_lt (lt_of_mem_realSymbols hreal).1

/-- **How the table is made**: from the counts of a code whose lengths are at most sixteen. -/
theorem genOptimalTable_finished (hreal : ∃ s < 256, 0 < freq s)
    (htotal : ((List.range 256).map freq).sum + 1 ≤ LIMIT)
    (hdepth : ∀ s ∈ usedSymbols freq, huffDepth freq s ≤ MAX_C_LEN)
    (hcount : ∀ d, ((usedSymbols freq).map (huffDepth freq)).count d < 256) :
    ∃ bits i vals, Lengths (usedSymbols freq).length 16 bits ∧ i ≤ 16 ∧ 0 < bits.getD i 0 ∧
      (∀ k, i < k → bits.getD k 0 = 0) ∧
      ((∀ s ∈ usedSymbols freq, huffDepth freq s ≤ 16) →
        ∀ l, bits.getD l 0 = ((usedSymbols freq).map (huffDepth freq)).count l) ∧
      genOptimalTable freq = some ⟨finished i bits, vals⟩ ∧ vals.length = 256 ∧
      vals.take (realSymbols freq).length = byDepth freq := by
  rw [← sum_withPseudo] at htotal
  obtain ⟨hds, -, hlast, hweight⟩ := huffDepths_spec htotal
  obtain ⟨ds, hdseq⟩ : ∃ ds, (usedSymbols freq).map (huffDepth freq) = ds := ⟨_, rfl⟩
  have hlen : ds.length = (usedSymbols freq).length := by rw [← hdseq, List.length_map]
  have hle : ∀ d ∈ ds, d ≤ MAX_C_LEN := by
    rw [← hdseq]
    exact fun d hd => by obtain ⟨s, hs, rfl⟩ := List.mem_map.mp hd; exact hdepth s hs
  have htwo : 2 ≤ ds.length := by
    obtain ⟨s, hs, hpos⟩ := hreal
    have hmem : s ∈ realSymbols freq := by simp [realSymbols, hs, hpos]
    have := List.length_pos_of_mem hmem
    rw [hlen, usedSymbols_eq, List.length_append, List.length_singleton]
    omega
  have hzero : ∀ l, (List.replicate (MAX_C_LEN + 1) 0).getD l 0 = 0 := fun l => by
    rw [List.getD_eq_getElem?_getD, List.getElem?_getD_replicate_default_eq]
  obtain ⟨bits, hbits, hsize, hget⟩ := countLengths_eq (List.replicate (MAX_C_LEN + 1) 0)
    List.length_replicate hle fun l => by
      rw [hzero, Nat.zero_add, ← hdseq]
      exact hcount l
  have hcnt : ∀ l, bits.getD l 0 = ds.count l := fun l => by rw [hget, hzero, Nat.zero_add]
  have hlengths : Lengths ds.length 32 bits :=
    lengths_of_count hle (hdseq ▸ hweight 32 hdepth) htwo (hdseq ▸ hcount) hsize hcnt
  have hn : ds.length ≤ 257 := hlen ▸ length_usedSymbols_le freq
  obtain ⟨bits', hshort, h16⟩ := shorten_spec hn le_rfl hlengths
  obtain ⟨l, hl, hlpos⟩ := h16.whole.exists_shorter hn (i := 18) (by decide)
  obtain ⟨i, hi, hused, hipos, habove⟩ := lastUsed_eq hl hlpos
  obtain ⟨vals, hvals, hsize', htake⟩ := take_placeVals_real hsize (hdseq ▸ hcnt) hdepth hlast
  refine ⟨bits', i, vals, hlen ▸ h16, hi, hipos, fun k hk => ?_, fun h16' k => ?_, ?_, hsize',
    htake⟩
  · rcases Nat.lt_or_ge 16 k with hk16 | hk16
    · exact h16.above k hk16
    · exact habove k hk hk16
  · -- without longer codes nothing was shortened
    have hself : Lengths ds.length 16 bits := by
      refine ⟨hlengths.size, hlengths.whole, hlengths.zero, fun l hl => ?_, hlengths.byte⟩
      rw [hcnt, ← hdseq]
      refine List.count_eq_zero_of_not_mem fun hmem => ?_
      obtain ⟨s, hs, rfl⟩ := List.mem_map.mp hmem
      exact absurd (h16' s hs) (by omega)
    rw [shorten_eq_self hself, Option.some.injEq] at hshort
    rw [← hshort, hcnt, hdseq]
  · have hmax : MAX_C_LEN - 16 = 16 := rfl
    rw [hdseq] at hvals
    rw [genOptimalTable_huffDepths, hds, Option.bind_some, hdseq, tableOf, hbits]
    simp only [Option.bind_eq_bind, Option.bind_some, hmax, hshort, hused, hvals]
    rfl

end Table

/-! ### What it can be used for -/

/-- **A table that can be used** for symbols of the given frequencies: which symbols it lists and
how many codes of which lengths, what the codes leave free, the order of the symbols, and that
`do_set_derived_tbl` accepts it and gives more frequent symbols shorter codes as far as that
goes. -/
structure Usable (freq : ℕ → ℕ) (htbl : HuffTbl) : Prop where
  sizes : htbl.bits.length = 17 ∧ htbl.huffVals.length = 256
  zero : htbl.bits.getD 0 0 = 0
  count : htbl.bits.sum = (realSymbols freq).length
  listed : htbl.listed.Perm (realSymbols freq)
  room : ∃ i ≤ 16, (∀ l ∈ codeLengths htbl.bits, l ≤ i) ∧
    weight 16 (codeLengths htbl.bits) + 2 ^ (16 - i) = 2 ^ 16
  order : htbl.listed.Pairwise fun s t => huffDepth freq s < huffDepth freq t ∨
    huffDepth freq s = huffDepth freq t ∧ s < t
  frequent : ∀ s ∈ realSymbols freq, ∀ t ∈ realSymbols freq, freq s < freq t →
    huffDepth freq t ≤ huffDepth freq s
  accepted : ∀ m, (∀ s ∈ realSymbols freq, s ≤ m) → ∃ tbl, doSetDerivedTbl htbl m = some tbl ∧
    (∀ s ∈ realSymbols freq, 0 < tbl.ehufsi s ∧ tbl.ehufsi s ≤ 16 ∧ false ∈ tbl.word s) ∧
    (∀ s ∈ realSymbols freq, ∀ t ∈ realSymbols freq, huffDepth freq s < huffDepth freq t →
      tbl.ehufsi s ≤ tbl.ehufsi t) ∧
    ((∀ s ∈ usedSymbols freq, huffDepth freq s ≤ 16) →
      ∀ s ∈ realSymbols freq, ∀ t ∈ realSymbols freq, freq s < freq t →
        tbl.ehufsi t ≤ tbl.ehufsi s)

theorem sum_eq_sum_getD (xs : List ℕ) : xs.sum = ∑ l ∈ Finset.range xs.length, xs.getD l 0 := by
  induction xs with
  | nil => rfl
  | cons x xs ih =>
    rw [List.length_cons, Finset.sum_range_succ', List.sum_cons, ih, Nat.add_comm]
    rfl

theorem ehufsi_le_of_depth {freq : ℕ → ℕ} {htbl : HuffTbl} {tbl : DerivedTbl}
    (hlens : htbl.listed.map tbl.ehufsi = codeLengths htbl.bits)
    (horder : htbl.listed.Pairwise fun s t => huffDepth freq s < huffDepth freq t ∨
      huffDepth freq s = huffDepth freq t ∧ s < t) {s t : ℕ} (hs : s ∈ htbl.listed)
    (ht : t ∈ htbl.listed) (hlt : huffDepth freq s < huffDepth freq t) :
    tbl.ehufsi s ≤ tbl.ehufsi t := by
  have hsorted := codeLengths_sorted htbl.bits
  rw [← hlens, List.pairwise_map] at hsorted
  have hboth : htbl.listed.Pairwise fun s t =>
      (huffDepth freq s < huffDepth freq t → tbl.ehufsi s ≤ tbl.ehufsi t) ∧
        (huffDepth freq t < huffDepth freq s → tbl.ehufsi t ≤ tbl.ehufsi s) := by
    refine (hsorted.and horder).imp fun {a b} hab => ⟨fun _ => hab.1, fun hba => ?_⟩
    have := hab.2
    omega
  have hsymm : Std.Symm fun s t =>
      (huffDepth freq s < huffDepth freq t → tbl.ehufsi s ≤ tbl.ehufsi t) ∧
        (huffDepth freq t < huffDepth freq s → tbl.ehufsi t ≤ tbl.ehufsi s) :=
    ⟨fun _ _ h => ⟨h.2, h.1⟩⟩
  have hne : s ≠ t := by
    rintro rfl
    exact Nat.lt_irrefl _ hlt
  exact (hboth.forall hs ht hne).1 hlt

/-- Where nothing is shortened, **the lengths are the depths**. -/
theorem codeLengths_finished {freq : ℕ → ℕ} {n i : ℕ} {bits : List ℕ} (h : Lengths n 16 bits)
    (hi : i ≤ 16) (hpos : 0 < bits.getD i 0) (habove : ∀ k, i < k → bits.getD k 0 = 0)
    (hbits : ∀ l, bits.getD l 0 = ((usedSymbols freq).map (huffDepth freq)).count l)
    (hdepth : ∀ s ∈ usedSymbols freq, huffDepth freq s ≤ 16)
    (hlast : ∀ s ∈ usedSymbols freq, huffDepth freq s ≤ huffDepth freq 256) :
    codeLengths (finished i bits) = (byDepth freq).map (huffDepth freq) := by
  have hused : ∀ l, bits.getD l 0 = ((realSymbols freq).map (huffDepth freq)).count l +
      if huffDepth freq 256 = l then 1 else 0 := by
    intro l
    rw [hbits, usedSymbols_eq, List.map_append, List.count_append, List.map_singleton,
      List.count_singleton]
    simp only [beq_iff_eq]
  -- the pseudo-symbol has the greatest length in use
  have h256 : huffDepth freq 256 = i := by
    refine Nat.le_antisymm ?_ ?_
    · by_contra hlt
      have := hused (huffDepth freq 256)
      rw [habove _ (by omega), if_pos rfl] at this
      omega
    · rw [hbits] at hpos
      obtain ⟨s, hs, hsi⟩ := List.mem_map.mp (List.count_pos_iff.mp hpos)
      rw [← hsi]
      exact hlast s hs
  have hperm : (codeLengths (finished i bits)).Perm ((byDepth freq).map (huffDepth freq)) := by
    have hmax : ∀ s ∈ usedSymbols freq, huffDepth freq s ≤ MAX_C_LEN := fun s hs =>
      (hdepth s hs).trans (by decide)
    refine List.Perm.trans (List.perm_iff_count.mpr fun k => ?_)
      ((byDepth_perm hmax).map (huffDepth freq)).symm
    have h1 := h.count_finished hi hpos k
    have h2 := hused k
    rw [h256] at h2
    omega
  refine hperm.eq_of_pairwise (fun a b _ _ hab hba => Nat.le_antisymm hab hba)
    (codeLengths_sorted _) ?_
  rw [List.pairwise_map]
  refine (pairwise_byKey (R := fun _ _ => True) _ _
    (List.pairwise_of_forall fun _ _ => trivial)).imp fun {a b} hab => ?_
  omega

/-- **What `gen_optimal_table` makes can be used**, for any frequencies for which no depth exceeds
`MAX_C_LEN` and no depth is that of 256 symbols. -/
theorem genOptimalTable_usable (freq : ℕ → ℕ) (hreal : ∃ s < 256, 0 < freq s)
    (htotal : ((List.range 256).map freq).sum + 1 ≤ LIMIT)
    (hdepth : ∀ s ∈ usedSymbols freq, huffDepth freq s ≤ MAX_C_LEN)
    (hcount : ∀ d, ((usedSymbols freq).map (huffDepth freq)).count d < 256) :
    ∃ htbl, genOptimalTable freq = some htbl ∧ Usable freq htbl := by
  obtain ⟨bits, i, vals, h, hi, hpos, habove, hshort, heq, hvals, htake⟩ :=
    genOptimalTable_finished hreal htotal hdepth hcount
  have hspec := @huffDepths_spec freq ((sum_withPseudo freq).trans_le htotal)
  obtain ⟨-, hheavy, hlast, -⟩ := hspec
  have hlen := h.length_finished hi hpos
  rw [usedSymbols_eq, List.length_append, List.length_singleton, Nat.add_right_cancel_iff] at hlen
  have hget := h.getD_finished hi hpos
  have hlisted : HuffTbl.listed ⟨finished i bits, vals⟩ = byDepth freq := by
    have hle : (codeLengths (finished i bits)).length ≤ vals.length := by
      rw [hvals, hlen, realSymbols]
      exact (List.length_filter_le _ _).trans (by rw [List.length_range])
    rw [← htake, ← hlen]
    exact map_getD_range hle
  have hperm := byDepth_perm hdepth
  have hroom := h.weight_finished hi hpos
  have hsize : (finished i bits).length = 17 := by
    have := h.size
    simp [finished]
    omega
  have hzero : (finished i bits).getD 0 0 = 0 := by
    have := hget 0
    rw [h.zero] at this
    omega
  have horder : (byDepth freq).Pairwise fun s t => huffDepth freq s < huffDepth freq t ∨
      huffDepth freq s = huffDepth freq t ∧ s < t :=
    pairwise_byKey _ _ (List.pairwise_lt_range.filter _)
  have hfrequent : ∀ s ∈ realSymbols freq, ∀ t ∈ realSymbols freq, freq s < freq t →
      huffDepth freq t ≤ huffDepth freq s := by
    intro s hs t ht hlt
    have hs256 := (lt_of_mem_realSymbols hs).1
    have ht256 := (lt_of_mem_realSymbols ht).1
    refine hheavy s (mem_usedSymbols_of_real hs) t (mem_usedSymbols_of_real ht) ?_
    rwa [withPseudo, withPseudo, if_neg (by omega), if_neg (by omega)]
  refine ⟨_, heq, ⟨hsize, hvals⟩, hzero, ?_, hlisted ▸ hperm, ⟨i, hi, fun l hl => ?_, hroom⟩,
    hlisted ▸ horder, hfrequent, fun m hm => ?_⟩
  · have := sum_codeLengths hzero fun _ => 1
    simp only [List.map_const', List.sum_replicate, smul_eq_mul, Nat.mul_one] at this
    rw [sum_eq_sum_getD, hsize, ← this, hlen]
  · by_contra hlt
    have hc := h.count_finished hi hpos l
    have hcl := List.count_pos_iff.mpr hl
    dsimp only at hcl
    rw [habove l (by omega)] at hc
    omega
  · have hne : codeLengths (finished i bits) ≠ [] := by
      obtain ⟨s, hs, hfs⟩ := hreal
      have hmem : s ∈ realSymbols freq := by simp [realSymbols, hs, hfs]
      have := List.length_pos_of_mem hmem
      exact List.length_pos_iff.mp (by omega)
    have hsome : (doSetDerivedTbl ⟨finished i bits, vals⟩ m).isSome := by
      rw [doSetDerivedTbl_isSome hne, hlisted, hlen]
      refine ⟨⟨?_, ?_⟩, ?_, fun s hs => hm s (hperm.subset hs)⟩
      · rw [realSymbols]
        exact (List.length_filter_le _ _).trans (by rw [List.length_range])
      · have := Nat.two_pow_pos (16 - i)
        dsimp only
        omega
      · exact hperm.nodup_iff.mpr (List.nodup_range.filter _)
    obtain ⟨tbl, htbl⟩ := Option.isSome_iff_exists.mp hsome
    have hlens := map_ehufsi_listed hne htbl
    have hcode := isCode_listed hne htbl
    refine ⟨tbl, htbl, fun s hs => ?_, fun s hs t ht hlt => ?_, fun h16 s hs t ht hlt => ?_⟩
    · have hmem : s ∈ HuffTbl.listed ⟨finished i bits, vals⟩ := hlisted ▸ hperm.symm.subset hs
      have hbounds := codeLengths_bounds _ _ (hlens ▸ List.mem_map_of_mem hmem)
      exact ⟨hbounds.1, hbounds.2, hcode.zero _ (List.mem_map_of_mem hmem)⟩
    · refine ehufsi_le_of_depth hlens (hlisted ▸ horder) ?_ ?_ hlt
      · exact hlisted ▸ hperm.symm.subset hs
      · exact hlisted ▸ hperm.symm.subset ht
    · have hdep := hlens.trans (codeLengths_finished h hi hpos habove (hshort h16) h16 hlast)
      rw [hlisted] at hdep
      have hall := List.map_inj_left.mp hdep
      rw [hall s (hperm.symm.subset hs), hall t (hperm.symm.subset ht)]
      exact hfrequent s hs t ht hlt

/-- Frequencies whose rarest symbols lie seventeen deep. -/
def skewedFreq (s : ℕ) : ℕ :=
  [1343, 4, 17, 121, 7, 29, 1, 196, 11, 2171, 829, 513, 1, 1, 2, 46, 75, 317].getD s 0

theorem skewedFreq_depth : ∀ s ∈ usedSymbols skewedFreq, huffDepth skewedFreq s ≤ MAX_C_LEN := by
  decide +kernel

theorem genOptimalTable_usable_skewed :
    ∃ htbl, genOptimalTable skewedFreq = some htbl ∧ Usable skewedFreq htbl := by
  refine genOptimalTable_usable skewedFreq ⟨0, by decide⟩ (by decide +kernel) skewedFreq_depth
    fun d => List.count_le_length.trans_lt ?_
  rw [List.length_map]
  decide +kernel

/-- **Where codes are shortened** the more frequent of two symbols of one depth can get the longer
code: the symbols of a depth are listed by their numbers, and it is the last of them whose code is
made longer. -/
theorem genOptimalTable_order_wrong :
    ((List.range 256).map skewedFreq).sum + 1 ≤ LIMIT ∧
      (∀ s ∈ usedSymbols skewedFreq, huffDepth skewedFreq s ≤ MAX_C_LEN) ∧
      skewedFreq 6 < skewedFreq 14 ∧
      ∃ htbl tbl, genOptimalTable skewedFreq = some htbl ∧ doSetDerivedTbl htbl 255 = some tbl ∧
        tbl.ehufsi 6 < tbl.ehufsi 14 := by
  have hlens : ((genOptimalTable skewedFreq).bind fun htbl => doSetDerivedTbl htbl 255).map
      (fun tbl => (tbl.ehufsi 6, tbl.ehufsi 14)) = some (15, 16) := by
    decide +kernel
  obtain ⟨tbl, htbl, heq⟩ := Option.map_eq_some_iff.mp hlens
  obtain ⟨t, ht, hd⟩ := Option.bind_eq_some_iff.mp htbl
  rw [Prod.mk.injEq] at heq
  exact ⟨by decide +kernel, skewedFreq_depth, by decide, t, tbl, ht, hd, by omega⟩

end RemotePlay.Jpeg
