import RemotePlay.Jpeg.HuffDepth
import Mathlib.Algebra.BigOperators.Group.Finset.Basic
import Mathlib.Algebra.BigOperators.Ring.Finset

/-! # Limiting the code lengths

A pair of codes that is too long is given up for one a bit shorter and one that takes a shorter
code's place together with it.  What the codes take up and how many there are stay the same
(`Moved.sum`). From that it follows that the codes of the greatest length come in pairs
(`Lengths.even`), that there is a shorter code to be taken (`Lengths.exists_shorter`), and that no
count exceeds a byte as long as there is a code of sixteen bits or more (`count_lt`): so the loop
ends, with no code longer than sixteen bits (`shorten_spec`). -/

namespace RemotePlay.Jpeg

open RemotePlay.Lib PrefixCode

/-! ### Numbers of codes -/

/-- Numbers of codes of each length: those of a whole tree with `n` leaves. -/
structure Whole (n : ℕ) (f : ℕ → ℕ) : Prop where
  kraft : ∑ l ∈ Finset.range 33, f l * 2 ^ (32 - l) = 2 ^ 32
  total : ∑ l ∈ Finset.range 33, f l = n

/-- Two codes of length `i` are given up and one of length `j`, for one of length `i - 1` and two of
length `j + 1`. -/
def Moved (i j : ℕ) (f g : ℕ → ℕ) : Prop :=
  ∀ l, g l + (if l = i then 2 else 0) + (if l = j then 1 else 0) =
    f l + (if l = i - 1 then 1 else 0) + if l = j + 1 then 2 else 0

theorem Moved.sum {i j : ℕ} {f g : ℕ → ℕ} (h : Moved i j f g) (hi : 0 < i) (hij : j < i)
    (hi' : i < 33) (c : ℕ → ℕ) :
    ∑ l ∈ Finset.range 33, g l * c l + 2 * c i + c j =
      ∑ l ∈ Finset.range 33, f l * c l + c (i - 1) + 2 * c (j + 1) := by
  have hpoint : ∀ l, g l * c l + (if l = i then 2 * c l else 0) + (if l = j then c l else 0) =
      f l * c l + (if l = i - 1 then c l else 0) + if l = j + 1 then 2 * c l else 0 := by
    intro l
    have := congrArg (· * c l) (h l)
    simp only [Nat.add_mul, ite_mul, one_mul, zero_mul] at this
    exact this
  have hsum := Finset.sum_congr (rfl : Finset.range 33 = Finset.range 33) fun l _ => hpoint l
  simp only [Finset.sum_add_distrib, Finset.sum_ite_eq', Finset.mem_range] at hsum
  rwa [if_pos hi', if_pos (by omega), if_pos (by omega), if_pos (by omega)] at hsum

/-- **The codes take up as much as before** and are as many. -/
theorem Whole.moved {n i j : ℕ} {f g : ℕ → ℕ} (h : Whole n f) (hm : Moved i j f g) (hi : 0 < i)
    (hij : j < i) (hi' : i < 33) : Whole n g := by
  have hk := hm.sum hi hij hi' fun l => 2 ^ (32 - l)
  have ht := hm.sum hi hij hi' fun _ => 1
  have h1 : 2 ^ (32 - (i - 1)) = 2 * 2 ^ (32 - i) := by
    rw [← Nat.pow_succ', show 32 - (i - 1) = (32 - i).succ by omega]
  have h2 : 2 ^ (32 - j) = 2 * 2 ^ (32 - (j + 1)) := by
    rw [← Nat.pow_succ', show 32 - j = (32 - (j + 1)).succ by omega]
  have hkraft := h.kraft
  have htotal := h.total
  simp only [Nat.mul_one] at ht
  exact ⟨by omega, by omega⟩

theorem Whole.even {n i : ℕ} {f : ℕ → ℕ} (h : Whole n f) (hi : 0 < i) (hi' : i < 33)
    (habove : ∀ l, i < l → f l = 0) : f i % 2 = 0 := by
  have hsplit := Finset.add_sum_erase (Finset.range 33) (fun l => f l * 2 ^ (32 - l))
    (Finset.mem_range.mpr hi')
  have hdvd : 2 ^ (33 - i) ∣ ∑ l ∈ (Finset.range 33).erase i, f l * 2 ^ (32 - l) := by
    refine Finset.dvd_sum fun l hl => ?_
    rcases Nat.lt_or_ge i l with hil | hil
    · rw [habove l hil, Nat.zero_mul]
      exact Nat.dvd_zero _
    · have := (Finset.mem_erase.mp hl).1
      exact Dvd.dvd.mul_left (Nat.pow_dvd_pow 2 (by omega)) _
  rw [h.kraft] at hsplit
  have htotal : 2 ^ (33 - i) ∣ 2 ^ 32 := Nat.pow_dvd_pow 2 (by omega)
  rw [← hsplit, Nat.dvd_add_left hdvd, show 33 - i = 32 - i + 1 by omega, Nat.pow_succ',
    Nat.mul_dvd_mul_iff_right (Nat.two_pow_pos _)] at htotal
  exact Nat.mod_eq_zero_of_dvd htotal

/-- Codes of sixteen bits and more alone leave room. -/
theorem Whole.exists_shorter {n i : ℕ} {f : ℕ → ℕ} (h : Whole n f) (hn : n ≤ 257) (hi : 17 ≤ i) :
    ∃ j ≤ i - 2, 0 < f j := by
  by_contra hno
  push Not at hno
  have hle : ∑ l ∈ Finset.range 33, f l * 2 ^ (32 - l) ≤ ∑ l ∈ Finset.range 33, f l * 2 ^ 16 := by
    refine Finset.sum_le_sum fun l _ => ?_
    rcases Nat.lt_or_ge l (i - 1) with hl | hl
    · have := hno l (by omega)
      rw [Nat.le_zero.mp this, Nat.zero_mul, Nat.zero_mul]
    · exact Nat.mul_le_mul_left _ (Nat.pow_le_pow_right (by decide) (by omega))
  rw [h.kraft, ← Finset.sum_mul, h.total] at hle
  omega

/-- With a code of sixteen bits or more **no 256 codes are of one length**. -/
theorem Whole.count_lt {n k l : ℕ} {f : ℕ → ℕ} (h : Whole n f) (hn : n ≤ 257) (h0 : f 0 = 0)
    (hl : 16 ≤ l) (hl' : l < 33) (hpos : 0 < f l) (hk : k < 33) : f k < 256 := by
  have hhalf : ∀ s : Finset ℕ, ∑ j ∈ s, f j * 2 ^ (32 - j) ≤ (∑ j ∈ s, f j) * 2 ^ 31 := by
    intro s
    rw [Finset.sum_mul]
    refine Finset.sum_le_sum fun j _ => ?_
    rcases Nat.eq_zero_or_pos j with rfl | hj
    · rw [h0, Nat.zero_mul, Nat.zero_mul]
    · exact Nat.mul_le_mul_left _ (Nat.pow_le_pow_right (by decide) (by omega))
  have hkraft := Finset.add_sum_erase (Finset.range 33) (fun j => f j * 2 ^ (32 - j))
    (Finset.mem_range.mpr hk)
  have htotal := Finset.add_sum_erase (Finset.range 33) f (Finset.mem_range.mpr hk)
  rw [h.kraft] at hkraft
  rw [h.total] at htotal
  by_contra hge
  by_cases hkl : k = l
  · -- so many long codes leave half of the room, and there is at most one more code
    have hlong : f k * 2 ^ (32 - k) ≤ f k * 2 ^ 16 :=
      Nat.mul_le_mul_left _ (Nat.pow_le_pow_right (by decide) (by omega))
    have hrest := hhalf ((Finset.range 33).erase k)
    omega
  · have hmem : l ∈ (Finset.range 33).erase k :=
      Finset.mem_erase.mpr ⟨Ne.symm hkl, Finset.mem_range.mpr hl'⟩
    have hkraft' := Finset.add_sum_erase _ (fun j => f j * 2 ^ (32 - j)) hmem
    have htotal' := Finset.add_sum_erase _ f hmem
    have hrest := hhalf (((Finset.range 33).erase k).erase l)
    have hfk : f k = 256 := by omega
    have hfl : f l = 1 := by omega
    have hzero : ∑ j ∈ ((Finset.range 33).erase k).erase l, f j = 0 := by omega
    rw [hzero, Nat.zero_mul, Nat.le_zero] at hrest
    rw [← hkraft', hrest, hfk, hfl, Nat.one_mul, Nat.add_zero] at hkraft
    have hshort : 2 ^ (32 - l) ≤ 2 ^ 16 := Nat.pow_le_pow_right (by decide) (by omega)
    have hone := Nat.two_pow_pos (32 - l)
    rcases Nat.lt_or_ge k 9 with hk9 | hk9
    · have : 2 ^ 24 ≤ 2 ^ (32 - k) := Nat.pow_le_pow_right (by decide) (by omega)
      omega
    · have : 2 ^ (32 - k) ≤ 2 ^ 23 := Nat.pow_le_pow_right (by decide) (by omega)
      omega

/-! ### The counts of the code -/

theorem lastUsed_eq {bits : List ℕ} {i l : ℕ} (hl : l ≤ i) (hpos : 0 < bits.getD l 0) :
    ∃ j ≤ i, lastUsed bits i = some j ∧ 0 < bits.getD j 0 ∧
      ∀ k, j < k → k ≤ i → bits.getD k 0 = 0 := by
  induction i with
  | zero =>
    obtain rfl := Nat.le_zero.mp hl
    refine ⟨0, le_rfl, ?_, hpos, fun k hk hk' => by omega⟩
    rw [lastUsed, if_neg (by omega)]
  | succ i ih =>
    rw [lastUsed]
    by_cases hi : bits.getD (i + 1) 0 = 0
    · have hle : l ≤ i := by
        rcases Nat.eq_or_lt_of_le hl with rfl | hlt
        · omega
        · omega
      obtain ⟨j, hj, heq, hp, hz⟩ := ih hle
      refine ⟨j, Nat.le_succ_of_le hj, by rw [if_pos hi, heq], hp, fun k hk hk' => ?_⟩
      rcases Nat.eq_or_lt_of_le hk' with rfl | hlt
      · exact hi
      · exact hz k hk (Nat.le_of_lt_succ hlt)
    · exact ⟨i + 1, le_rfl, if_neg hi, Nat.pos_of_ne_zero hi, fun k hk hk' => by omega⟩

theorem getD_addU8 (bits : List ℕ) (i n : ℕ) (hi : i < bits.length) (l : ℕ) :
    (addU8 bits i n).getD l 0 = if l = i then (bits.getD i 0 + n) % 256 else bits.getD l 0 := by
  rw [addU8]
  by_cases hl : l = i
  · subst hl
    simp [List.getD_eq_getElem?_getD, hi]
  · simp [List.getD_eq_getElem?_getD, hl, List.getElem?_set_ne (Ne.symm hl)]

theorem getD_subU8 (bits : List ℕ) (i n : ℕ) (hi : i < bits.length) (l : ℕ) :
    (subU8 bits i n).getD l 0 =
      if l = i then (bits.getD i 0 + (256 - n)) % 256 else bits.getD l 0 := by
  rw [subU8]
  by_cases hl : l = i
  · subst hl
    simp [List.getD_eq_getElem?_getD, hi]
  · simp [List.getD_eq_getElem?_getD, hl, List.getElem?_set_ne (Ne.symm hl)]

@[simp] theorem length_addU8 (bits : List ℕ) (i n : ℕ) : (addU8 bits i n).length = bits.length :=
  List.length_set

@[simp] theorem length_subU8 (bits : List ℕ) (i n : ℕ) : (subU8 bits i n).length = bits.length :=
  List.length_set

/-- **The counts of a code** of `n` symbols with lengths up to `i`. -/
structure Lengths (n i : ℕ) (bits : List ℕ) : Prop where
  size : bits.length = 33
  whole : Whole n fun l => bits.getD l 0
  zero : bits.getD 0 0 = 0
  above : ∀ l, i < l → bits.getD l 0 = 0
  byte : ∀ l, bits.getD l 0 < 256

/-- `bits` after one turn of the inner loop. -/
def shortened (i j : ℕ) (bits : List ℕ) : List ℕ :=
  subU8 (addU8 (addU8 (subU8 bits i 2) (i - 1) 1) (j + 1) 2) j 1

/-- **One turn**: the bytes do not overflow. -/
theorem Lengths.turn {n i j : ℕ} {bits : List ℕ} (h : Lengths n i bits) (hn : n ≤ 257) (hi : 17 ≤ i)
    (hi' : i < 33) (hpos : 0 < bits.getD i 0) (hj : j ≤ i - 2) (hjpos : 0 < bits.getD j 0) :
    Lengths n i (shortened i j bits) ∧ (shortened i j bits).getD i 0 + 2 = bits.getD i 0 := by
  have hsize := h.size
  have hj0 : 0 < j := by
    rcases Nat.eq_zero_or_pos j with rfl | hj0
    · have := h.zero
      omega
    · exact hj0
  have heven := h.whole.even (by omega) hi' h.above
  -- the counts as they would be without overflow
  have hg : ∃ g : ℕ → ℕ, Moved i j (fun l => bits.getD l 0) g := by
    refine ⟨fun l => bits.getD l 0 + (if l = i - 1 then 1 else 0) + (if l = j + 1 then 2 else 0) -
      (if l = i then 2 else 0) - if l = j then 1 else 0, fun l => ?_⟩
    dsimp only
    by_cases hli : l = i
    · subst hli
      simp only [if_true, if_neg (show ¬l = l - 1 by omega), if_neg (show ¬l = j + 1 by omega),
        if_neg (show ¬l = j by omega)]
      omega
    · by_cases hlj : l = j
      · subst hlj
        simp only [if_true, if_neg hli, if_neg (show ¬l = i - 1 by omega),
          if_neg (show ¬l = l + 1 by omega)]
        omega
      · simp only [if_neg hli, if_neg hlj]
        omega
  obtain ⟨g, hm⟩ := hg
  have hwhole := h.whole.moved hm (by omega) (by omega) hi'
  have hg0 : g 0 = 0 := by
    have := hm 0
    have h0 := h.zero
    dsimp only at this
    rw [if_neg (by omega), if_neg (by omega), if_neg (by omega), if_neg (by omega)] at this
    omega
  have hgpos : 0 < g (i - 1) := by
    have := hm (i - 1)
    dsimp only at this
    rw [if_neg (by omega), if_neg (by omega), if_pos rfl] at this
    omega
  have hglt : ∀ l, l < 33 → g l < 256 := fun l hl =>
    hwhole.count_lt hn hg0 (by omega) (by omega) hgpos hl
  have hnew : ∀ l, (shortened i j bits).getD l 0 = g l := by
    intro l
    have hml := hm l
    have hbyte := h.byte l
    dsimp only at hml
    have h1 := getD_subU8 bits i 2 (by omega)
    have h2 := getD_addU8 (subU8 bits i 2) (i - 1) 1 (by simp; omega)
    have h3 := getD_addU8 (addU8 (subU8 bits i 2) (i - 1) 1) (j + 1) 2 (by simp; omega)
    have h4 := getD_subU8 (addU8 (addU8 (subU8 bits i 2) (i - 1) 1) (j + 1) 2) j 1 (by simp; omega)
    rw [shortened, h4, h3, h3, h2, h2, h2, h1, h1, h1, h1]
    simp only [if_neg (show ¬j = j + 1 by omega), if_neg (show ¬j = i - 1 by omega),
      if_neg (show ¬j = i by omega), if_neg (show ¬j + 1 = i by omega),
      if_neg (show ¬i - 1 = i by omega)]
    have hlt : l < 33 → g l < 256 := hglt l
    have hsame : j + 1 = i - 1 → bits.getD (j + 1) 0 = bits.getD (i - 1) 0 := fun heq => by rw [heq]
    split_ifs at hml ⊢ <;> subst_vars <;> omega
  refine ⟨⟨?_, ?_, ?_, fun l hl => ?_, fun l => ?_⟩, ?_⟩
  · simpa [shortened] using hsize
  · simpa only [hnew] using hwhole
  · rw [hnew, hg0]
  · have := hm l
    have habove := h.above l hl
    dsimp only at this
    rw [if_neg (by omega), if_neg (by omega), if_neg (by omega), if_neg (by omega)] at this
    rw [hnew]
    omega
  · rcases Nat.lt_or_ge l 33 with hl | hl
    · rw [hnew]
      exact hglt l hl
    · rw [List.getD_eq_default _ _ (by simp [shortened]; omega)]
      exact Nat.zero_lt_succ _
  · have := hm i
    dsimp only at this
    rw [if_pos rfl, if_neg (by omega), if_neg (by omega), if_neg (by omega)] at this
    rw [hnew]
    omega

/-- **The inner loop** ends with no code of its length left. -/
theorem shortenAt_spec {n i : ℕ} (hn : n ≤ 257) (hi : 17 ≤ i) (hi' : i < 33) {fuel : ℕ}
    {bits : List ℕ} (h : Lengths n i bits) (hf : bits.getD i 0 ≤ fuel) :
    ∃ bits', shortenAt i fuel bits = some bits' ∧ Lengths n (i - 1) bits' := by
  induction fuel generalizing bits with
  | zero =>
    refine ⟨bits, by rw [shortenAt, if_neg (by omega)], h.size, h.whole, h.zero,
      fun l hl => ?_, h.byte⟩
    rcases Nat.lt_or_ge i l with hil | hil
    · exact h.above l hil
    · obtain rfl : l = i := by omega
      omega
  | succ fuel ih =>
    rw [shortenAt]
    by_cases hpos : bits.getD i 0 > 0
    · obtain ⟨j', hj', hjpos⟩ := h.whole.exists_shorter hn hi
      obtain ⟨j, hj, hlast, hp, -⟩ := lastUsed_eq hj' hjpos
      obtain ⟨hturn, hless⟩ := h.turn hn hi hi' hpos hj hp
      rw [if_pos hpos, hlast]
      exact ih hturn (show (shortened i j bits).getD i 0 ≤ fuel by omega)
    · refine ⟨bits, if_neg hpos, h.size, h.whole, h.zero, fun l hl => ?_, h.byte⟩
      rcases Nat.lt_or_ge i l with hil | hil
      · exact h.above l hil
      · obtain rfl : l = i := by omega
        omega

/-- **The loop over the lengths** leaves none above sixteen. -/
theorem shorten_spec {n k : ℕ} (hn : n ≤ 257) (hk : k ≤ 16) {bits : List ℕ}
    (h : Lengths n (16 + k) bits) : ∃ bits', shorten k bits = some bits' ∧ Lengths n 16 bits' := by
  induction k generalizing bits with
  | zero => exact ⟨bits, rfl, h⟩
  | succ k ih =>
    obtain ⟨bits', heq, h'⟩ := shortenAt_spec hn (by omega) (by omega)
      (show Lengths n (17 + k) bits from (by omega : 16 + (k + 1) = 17 + k) ▸ h)
        (h.byte (17 + k)).le
    obtain ⟨bits'', heq', h''⟩ := ih (by omega) ((by omega : 17 + k - 1 = 16 + k) ▸ h')
    refine ⟨bits'', ?_, h''⟩
    rw [shorten, heq, Option.bind_eq_bind, Option.bind_some, heq']

theorem shorten_eq_self {n : ℕ} {bits : List ℕ} (h : Lengths n 16 bits) (k : ℕ) :
    shorten k bits = some bits := by
  induction k with
  | zero => rfl
  | succ k ih =>
    have hzero : ¬bits.getD (17 + k) 0 > 0 := by
      rw [h.above _ (by omega)]
      exact Nat.lt_irrefl 0
    rw [shorten, shortenAt, if_neg hzero, Option.bind_eq_bind, Option.bind_some, ih]

end RemotePlay.Jpeg
