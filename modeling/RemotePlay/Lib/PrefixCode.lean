import Mathlib.InformationTheory.Coding.KraftMcMillan
import Mathlib.Tactic.FieldSimp
import RemotePlay.Lib.Bits

/-! # Prefix codes

The words of a prefix code take up disjoint parts of the words of a greater length, so there is a
limit to how short they can be (`kraft_le`); when no word is all ones, there is room for one more
(`kraft_lt`).  Conversely the lengths within that limit, in increasing order, have the canonical
code, whose words are the parts of a word of the greater length taken up before
(`isCode_canonical`). -/

namespace RemotePlay.Lib.PrefixCode

open InformationTheory Bits

variable {α : Type*}

/-- Words none of which begins with another. -/
def PrefixFree (ws : List (List α)) : Prop := ws.Pairwise fun u v => ¬u <+: v ∧ ¬v <+: u

/-! ### The limit -/

theorem uniquelyDecodable_of_prefixFree {S : Set (List α)} (h0 : [] ∉ S)
    (h : ∀ u ∈ S, ∀ v ∈ S, u <+: v → u = v) : UniquelyDecodable S := by
  intro us
  induction us with
  | nil =>
    rintro (_ | ⟨v, vs⟩) - hvs heq
    · rfl
    · simp only [List.flatten_nil, List.flatten_cons, List.nil_eq, List.append_eq_nil_iff] at heq
      exact absurd (heq.1 ▸ hvs v List.mem_cons_self) h0
  | cons u us ih =>
    rintro (_ | ⟨v, vs⟩) hus hvs heq
    · simp only [List.flatten_nil, List.flatten_cons, List.append_eq_nil_iff] at heq
      exact absurd (heq.1 ▸ hus u List.mem_cons_self) h0
    · rw [List.flatten_cons, List.flatten_cons] at heq
      have hu := hus u List.mem_cons_self
      have hv := hvs v List.mem_cons_self
      have huv : u = v := by
        rcases List.prefix_or_prefix_of_prefix (List.prefix_append u _)
          (heq ▸ List.prefix_append v _) with hp | hp
        · exact h u hu v hv hp
        · exact (h v hv u hu hp).symm
      subst huv
      rw [ih vs (fun w hw => hus w (List.mem_cons_of_mem _ hw))
        (fun w hw => hvs w (List.mem_cons_of_mem _ hw)) (List.append_cancel_left heq)]

/-- The part of the words of length `L` that words of the given lengths take up. -/
def weight (L : ℕ) (lens : List ℕ) : ℕ := (lens.map fun l => 2 ^ (L - l)).sum

@[simp] theorem weight_nil (L : ℕ) : weight L [] = 0 := rfl

@[simp] theorem weight_cons (L l : ℕ) (ls : List ℕ) :
    weight L (l :: ls) = 2 ^ (L - l) + weight L ls := by
  simp [weight]

@[simp] theorem weight_append (L : ℕ) (ks ls : List ℕ) :
    weight L (ks ++ ls) = weight L ks + weight L ls := by
  simp [weight]

@[simp] theorem weight_replicate (L n l : ℕ) : weight L (List.replicate n l) = n * 2 ^ (L - l) := by
  simp [weight]

/-- **The lengths of a prefix code** take up no more than there is. -/
theorem kraft_le {ws : List (List Bool)} (h : PrefixFree ws) (h0 : [] ∉ ws) {L : ℕ}
    (hL : ∀ w ∈ ws, w.length ≤ L) : weight L (ws.map List.length) ≤ 2 ^ L := by
  have hnd : ws.Nodup := by
    refine List.Pairwise.imp (fun {u v} huv => ?_) h
    rintro rfl
    exact huv.1 List.prefix_rfl
  have hud : UniquelyDecodable (ws.toFinset : Set (List Bool)) := by
    refine uniquelyDecodable_of_prefixFree (by simpa using h0) fun u hu v hv huv => ?_
    rw [List.coe_toFinset] at hu hv
    by_contra hne
    have : Std.Symm fun u v : List Bool => ¬u <+: v ∧ ¬v <+: u := ⟨fun u v h => ⟨h.2, h.1⟩⟩
    exact (List.Pairwise.forall h hu hv hne).1 huv
  have hk := kraft_mcmillan_inequality hud
  rw [Fintype.card_bool, List.sum_toFinset _ hnd] at hk
  have hsum : ((weight L (ws.map List.length) : ℕ) : ℝ) =
      2 ^ L * (ws.map fun w => (1 / (2 : ℕ) : ℝ) ^ w.length).sum := by
    clear hk hud hnd h h0
    induction ws with
    | nil => simp
    | cons w ws ih =>
      have hw := hL w List.mem_cons_self
      rw [List.map_cons, weight_cons, List.map_cons, List.sum_cons, mul_add, Nat.cast_add,
        ih fun v hv => hL v (List.mem_cons_of_mem _ hv)]
      have hpow : (2 : ℝ) ^ L = 2 ^ (L - w.length) * 2 ^ w.length := by
        rw [← pow_add, Nat.sub_add_cancel hw]
      rw [hpow]
      push_cast
      rw [one_div, inv_pow, mul_inv_cancel_right₀ (by positivity)]
  have hle : ((weight L (ws.map List.length) : ℕ) : ℝ) ≤ ((2 ^ L : ℕ) : ℝ) := by
    rw [hsum]
    push_cast
    exact mul_le_of_le_one_right (by positivity) (by simpa using hk)
  exact_mod_cast hle

/-- **With no word all ones** there is room for a longer one. -/
theorem kraft_lt {ws : List (List Bool)} (h : PrefixFree ws) (h0 : [] ∉ ws)
    (h1 : ∀ w ∈ ws, false ∈ w) {L : ℕ} (hL : ∀ w ∈ ws, w.length ≤ L) :
    weight L (ws.map List.length) < 2 ^ L := by
  have hones : ∀ w ∈ ws, ¬w <+: List.replicate (L + 1) true := by
    rintro w hw hp
    have := List.eq_of_mem_replicate (hp.subset (h1 w hw))
    contradiction
  have hlong : PrefixFree (List.replicate (L + 1) true :: ws) := by
    refine List.pairwise_cons.mpr ⟨fun w hw => ⟨fun hp => ?_, hones w hw⟩, h⟩
    have h2 := hp.length_le
    have h3 := hL w hw
    rw [List.length_replicate] at h2
    omega
  have hk := kraft_le hlong (by simp [h0]) (L := L + 1) (by
    rintro w (_ | ⟨_, hw⟩)
    · rw [List.length_replicate]
    · exact (hL w hw).trans (Nat.le_succ L))
  have hdouble : ∀ vs : List (List Bool), (∀ w ∈ vs, w.length ≤ L) →
      weight (L + 1) (vs.map List.length) = 2 * weight L (vs.map List.length) := by
    intro vs hvs
    induction vs with
    | nil => rfl
    | cons w vs ih =>
      have hw := hvs w List.mem_cons_self
      rw [List.map_cons, weight_cons, weight_cons, ih fun v hv => hvs v (List.mem_cons_of_mem _ hv),
        Nat.sub_add_comm hw, Nat.pow_succ]
      ring
  rw [List.map_cons, weight_cons, List.length_replicate, Nat.sub_self, hdouble ws hL,
    Nat.pow_succ] at hk
  omega

/-! ### The canonical code -/

/-- The numbers of the words of the given lengths, as parts of a word of length `L` of which `A` are
taken up before. -/
def canonical (L : ℕ) : ℕ → List ℕ → List ℕ
  | _, [] => []
  | A, l :: ls => A / 2 ^ (L - l) :: canonical L (A + 2 ^ (L - l)) ls

/-- A code of the given lengths without a word that is all ones. -/
structure IsCode (lens : List ℕ) (ws : List (List Bool)) : Prop where
  lengths : ws.map List.length = lens
  free : PrefixFree ws
  zero : ∀ w ∈ ws, false ∈ w

theorem length_canonical (L A : ℕ) (ls : List ℕ) : (canonical L A ls).length = ls.length := by
  induction ls generalizing A with
  | nil => rfl
  | cons l ls ih => rw [canonical, List.length_cons, List.length_cons, ih]

/-- The words of the canonical code. -/
def canonicalWords (L A : ℕ) (ls : List ℕ) : List (List Bool) :=
  (ls.zip (canonical L A ls)).map fun q => bits q.1 q.2

theorem map_length_canonicalWords (L A : ℕ) (ls : List ℕ) :
    (canonicalWords L A ls).map List.length = ls := by
  unfold canonicalWords
  induction ls generalizing A with
  | nil => rfl
  | cons l ls ih =>
    rw [canonical, List.zip_cons_cons, List.map_cons, List.map_cons, length_bits, ih]

theorem part_of_prefix {L k l x y : ℕ} (hx : x < 2 ^ k) (hy : y < 2 ^ l) (hl : l ≤ L)
    (h : bits k x <+: bits l y) :
    x * 2 ^ (L - k) ≤ y * 2 ^ (L - l) ∧ y * 2 ^ (L - l) < x * 2 ^ (L - k) + 2 ^ (L - k) := by
  have hkl : k ≤ l := by simpa using h.length_le
  obtain ⟨m, rfl⟩ := Nat.exists_eq_add_of_le hkl
  have heq : bits k x = bits k (y / 2 ^ m) := by
    rw [bits_add] at h
    have hp := List.prefix_of_prefix_length_le h (List.prefix_append _ _) (by simp)
    exact hp.eq_of_length (by simp)
  have hdiv : y / 2 ^ m < 2 ^ k := by
    rw [Nat.div_lt_iff_lt_mul (Nat.two_pow_pos m), ← Nat.pow_add]
    exact hy
  have hxy : x = y / 2 ^ m := bits_injective hx hdiv heq
  have hpow : 2 ^ (L - k) = 2 ^ m * 2 ^ (L - (k + m)) := by
    rw [← Nat.pow_add, show m + (L - (k + m)) = L - k by omega]
  have hlo : x * 2 ^ m ≤ y := hxy ▸ Nat.div_mul_le_self y (2 ^ m)
  have hhi : y < (x + 1) * 2 ^ m := by
    rw [hxy, ← Nat.div_lt_iff_lt_mul (Nat.two_pow_pos m)]
    exact Nat.lt_succ_self _
  rw [hpow, ← Nat.mul_assoc]
  refine ⟨Nat.mul_le_mul_right _ hlo, ?_⟩
  calc y * 2 ^ (L - (k + m)) < (x + 1) * 2 ^ m * 2 ^ (L - (k + m)) :=
        (Nat.mul_lt_mul_right (Nat.two_pow_pos _)).mpr hhi
    _ = x * 2 ^ m * 2 ^ (L - (k + m)) + 2 ^ m * 2 ^ (L - (k + m)) := by ring

theorem false_mem_bits {L l x : ℕ} (hl : l ≤ L) (h : x * 2 ^ (L - l) + 2 ^ (L - l) < 2 ^ L) :
    false ∈ bits l x := by
  by_contra hno
  have hpow : 2 ^ L = 2 ^ l * 2 ^ (L - l) := by rw [← Nat.pow_add, Nat.add_sub_cancel' hl]
  have hx : x + 1 < 2 ^ l := by
    refine Nat.lt_of_mul_lt_mul_right (a := 2 ^ (L - l)) ?_
    rw [← hpow, Nat.add_mul, one_mul]
    exact h
  have hones : bits l x = bits l (2 ^ l - 1) := by
    rw [bits_ones, List.eq_replicate_iff]
    refine ⟨length_bits l x, fun b hb => ?_⟩
    rcases b
    · exact absurd hb hno
    · rfl
  have := bits_injective (by omega) (by omega) hones
  omega

theorem mem_zip_canonical {L A : ℕ} {ls : List ℕ} (hs : ls.Pairwise (· ≤ ·)) (hL : ∀ l ∈ ls, l ≤ L)
    (hA : ∀ l ∈ ls, 2 ^ (L - l) ∣ A) {q : ℕ × ℕ} (hq : q ∈ ls.zip (canonical L A ls)) :
    q.1 ∈ ls ∧ A ≤ q.2 * 2 ^ (L - q.1) ∧
      q.2 * 2 ^ (L - q.1) + 2 ^ (L - q.1) ≤ A + weight L ls := by
  induction ls generalizing A with
  | nil => simp [canonical] at hq
  | cons l ls ih =>
    have hAl := hA l List.mem_cons_self
    rw [List.pairwise_cons] at hs
    rw [weight_cons]
    rcases List.mem_cons.mp hq with rfl | hq
    · dsimp only
      rw [Nat.div_mul_cancel hAl]
      exact ⟨List.mem_cons_self, le_rfl, by omega⟩
    · have hdvd : ∀ k ∈ ls, 2 ^ (L - k) ∣ A + 2 ^ (L - l) := fun k hk =>
        Nat.dvd_add (hA k (List.mem_cons_of_mem _ hk))
          (Nat.pow_dvd_pow 2 (Nat.sub_le_sub_left (hs.1 k hk) L))
      obtain ⟨hk, h1, h2⟩ := ih hs.2 (fun k hk => hL k (List.mem_cons_of_mem _ hk)) hdvd hq
      exact ⟨List.mem_cons_of_mem _ hk, by omega, by omega⟩

theorem lt_of_part {L l x : ℕ} (hl : l ≤ L) (h : x * 2 ^ (L - l) + 2 ^ (L - l) ≤ 2 ^ L) :
    x < 2 ^ l := by
  refine Nat.lt_of_mul_lt_mul_right (a := 2 ^ (L - l)) ?_
  rw [← Nat.pow_add, Nat.add_sub_cancel' hl]
  have := Nat.two_pow_pos (L - l)
  omega

/-- **The canonical code** of lengths in increasing order that leave room is a code. -/
theorem isCode_canonical {L A : ℕ} {ls : List ℕ} (hs : ls.Pairwise (· ≤ ·)) (hL : ∀ l ∈ ls, l ≤ L)
    (hA : ∀ l ∈ ls, 2 ^ (L - l) ∣ A) (hlt : A + weight L ls < 2 ^ L) :
    IsCode ls (canonicalWords L A ls) := by
  refine ⟨map_length_canonicalWords L A ls, ?_, fun w hw => ?_⟩
  · induction ls generalizing A with
    | nil => exact List.Pairwise.nil
    | cons l ls ih =>
      have hl := hL l List.mem_cons_self
      have hAl := hA l List.mem_cons_self
      rw [List.pairwise_cons] at hs
      rw [weight_cons] at hlt
      have hL' : ∀ k ∈ ls, k ≤ L := fun k hk => hL k (List.mem_cons_of_mem _ hk)
      have hdvd : ∀ k ∈ ls, 2 ^ (L - k) ∣ A + 2 ^ (L - l) := fun k hk =>
        Nat.dvd_add (hA k (List.mem_cons_of_mem _ hk))
          (Nat.pow_dvd_pow 2 (Nat.sub_le_sub_left (hs.1 k hk) L))
      refine List.pairwise_cons.mpr ⟨fun w hw => ?_, ih hs.2 hL' hdvd (by omega)⟩
      obtain ⟨q, hq, rfl⟩ := List.mem_map.mp hw
      obtain ⟨hk, h1, h2⟩ := mem_zip_canonical hs.2 hL' hdvd hq
      generalize q.1 = k at hk h1 h2 ⊢
      generalize q.2 = x at h1 h2 ⊢
      have hAx : A / 2 ^ (L - l) * 2 ^ (L - l) = A := Nat.div_mul_cancel hAl
      have hxl : A / 2 ^ (L - l) < 2 ^ l := lt_of_part hl (by rw [hAx]; omega)
      have hxk : x < 2 ^ k := lt_of_part (hL' k hk) (by omega)
      -- a word that begins the other way round is as long
      have hnot : ¬bits l (A / 2 ^ (L - l)) <+: bits k x := fun hp => by
        have := part_of_prefix hxl hxk (hL' k hk) hp
        omega
      refine ⟨hnot, fun hp => hnot ?_⟩
      have hlen : (bits l (A / 2 ^ (L - l))).length ≤ (bits k x).length := by
        rw [length_bits, length_bits]
        exact hs.1 k hk
      rw [hp.eq_of_length_le hlen]
  · obtain ⟨q, hq, rfl⟩ := List.mem_map.mp hw
    obtain ⟨hl, -, h2⟩ := mem_zip_canonical hs hL hA hq
    exact false_mem_bits (hL _ hl) (by omega)

/-- **There is a code exactly if the lengths leave room.** -/
theorem exists_isCode_iff {L : ℕ} {ls : List ℕ} (hs : ls.Pairwise (· ≤ ·))
    (hL : ∀ l ∈ ls, 0 < l ∧ l ≤ L) : (∃ ws, IsCode ls ws) ↔ weight L ls < 2 ^ L := by
  constructor
  · rintro ⟨ws, hlen, hfree, hzero⟩
    have hmem : ∀ w ∈ ws, w.length ∈ ls := fun w hw => hlen ▸ List.mem_map_of_mem hw
    rw [← hlen]
    refine kraft_lt hfree (fun h0 => ?_) hzero fun w hw => (hL _ (hmem w hw)).2
    exact absurd (hL _ (hmem [] h0)).1 (Nat.lt_irrefl 0)
  · intro h
    exact ⟨_, isCode_canonical hs (fun l hl => (hL l hl).2) (fun l _ => Nat.dvd_zero _)
      (by rwa [Nat.zero_add])⟩

end RemotePlay.Lib.PrefixCode
