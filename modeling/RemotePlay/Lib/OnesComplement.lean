import Mathlib.Data.Nat.Notation
import Mathlib.Algebra.GroupWithZero.Nat
import Mathlib.Algebra.Order.BigOperators.Group.List

/-! # One's complement sums

Words of 16 bits are added with the carry brought around to the low end.  The sum depends on the
words' sum only (`onesSum_eq`), so the carries can be brought around once, at the end
(`low_fold_eq`), and a sum with its complement added is all ones (`onesSum_complement`). -/

namespace RemotePlay.Lib.OnesComplement

/-- Adding with the carry brought around. -/
def onesAdd (a b : ℕ) : ℕ := if a + b < 2 ^ 16 then a + b else a + b - 2 ^ 16 + 1

/-- The one's complement sum of words. -/
def onesSum (ws : List ℕ) : ℕ := ws.foldl onesAdd 0

/-- A sum with its carries brought around: zero only if nothing but zeros was added. -/
def around (x : ℕ) : ℕ := if x = 0 then 0 else (x - 1) % 65535 + 1

theorem around_of_eq {x q r : ℕ} (h : x = 65535 * q + (r + 1)) (hr : r < 65535) :
    around x = r + 1 := by
  rw [around, if_neg (by omega), h, ← Nat.add_assoc, Nat.add_sub_cancel, Nat.mul_add_mod,
    Nat.mod_eq_of_lt hr]

/-- Either nothing was added, or the sum is some value of 1 to 65535 and carries. -/
theorem around_cases (x : ℕ) : x = 0 ∧ around x = 0 ∨
    ∃ q r, x = 65535 * q + (r + 1) ∧ r < 65535 ∧ around x = r + 1 := by
  rcases Nat.eq_zero_or_pos x with rfl | hx
  · exact Or.inl ⟨rfl, rfl⟩
  · have hx' : x = 65535 * ((x - 1) / 65535) + ((x - 1) % 65535 + 1) := by omega
    have hr : (x - 1) % 65535 < 65535 := Nat.mod_lt _ (by decide)
    exact Or.inr ⟨_, _, hx', hr, around_of_eq hx' hr⟩

theorem around_lt (x : ℕ) : around x < 2 ^ 16 := by
  rcases around_cases x with ⟨-, h⟩ | ⟨q, r, -, hr, h⟩ <;> omega

theorem onesAdd_around {x b : ℕ} (hb : b < 2 ^ 16) : onesAdd (around x) b = around (x + b) := by
  rcases around_cases x with ⟨rfl, h⟩ | ⟨q, r, hx, hr, h⟩
  · rcases Nat.eq_zero_or_pos b with rfl | hb0
    · rfl
    · have hb' : b - 1 + 1 = b := by omega
      rw [h, onesAdd, if_pos (by omega), Nat.zero_add,
        around_of_eq (x := b) (q := 0) (r := b - 1) (by omega) (by omega), hb']
  · rw [h, onesAdd]
    split_ifs with hcarry
    · rw [around_of_eq (q := q) (r := r + b) (by omega) (by omega)]
      omega
    · rw [around_of_eq (q := q + 1) (r := r + b - 65535) (by omega) (by omega)]
      omega

/-- **The sum of the words decides.** -/
theorem onesSum_eq {ws : List ℕ} (h : ∀ w ∈ ws, w < 2 ^ 16) : onesSum ws = around ws.sum := by
  have hfold : ∀ x, ws.foldl onesAdd (around x) = around (x + ws.sum) := by
    induction ws with
    | nil =>
      intro x
      rfl
    | cons w ws ih =>
      intro x
      rw [List.foldl_cons, onesAdd_around (h w List.mem_cons_self),
        ih fun v hv => h v (List.mem_cons_of_mem _ hv), List.sum_cons, Nat.add_assoc]
  have := hfold 0
  rwa [Nat.zero_add] at this

/-- **Two foldings** bring all carries of a sum of 32 bits around. -/
theorem low_fold_eq {x : ℕ} (h : x < 2 ^ 32) :
    let y := x % 2 ^ 16 + x / 2 ^ 16
    y + y / 2 ^ 16 < 2 ^ 32 ∧ (y + y / 2 ^ 16) % 2 ^ 16 = around x := by
  intro y
  have hq : x / 2 ^ 16 < 2 ^ 16 := by omega
  have hr : x % 2 ^ 16 < 2 ^ 16 := by omega
  have hx : x = 65535 * (x / 2 ^ 16) + y := by omega
  have hy : x / 2 ^ 16 ≤ y ∧ y ≤ 2 ^ 17 - 2 := by omega
  refine ⟨by omega, ?_⟩
  generalize x / 2 ^ 16 = q at hx hy
  clear_value y
  rcases Nat.lt_or_ge y (2 ^ 16) with hlt | hge
  · rcases Nat.eq_zero_or_pos y with h0 | hy0
    · obtain rfl : x = 0 := by omega
      rw [h0]
      rfl
    · rw [around_of_eq (x := x) (q := q) (r := y - 1) (by omega) (by omega)]
      omega
  · rw [around_of_eq (x := x) (q := q + 1) (r := y - 65536) (by omega) (by omega)]
    omega

/-- **A sum and its complement**, in the place of a zero, make all ones. -/
theorem onesSum_complement {us vs : List ℕ} (hu : ∀ w ∈ us, w < 2 ^ 16)
    (hv : ∀ w ∈ vs, w < 2 ^ 16) :
    onesSum (us ++ (2 ^ 16 - 1 - onesSum (us ++ 0 :: vs)) :: vs) = 2 ^ 16 - 1 := by
  have hall : ∀ {c : ℕ}, c < 2 ^ 16 → ∀ w ∈ us ++ c :: vs, w < 2 ^ 16 := by
    intro c hc w hw
    rcases List.mem_append.mp hw with hw | hw
    · exact hu w hw
    · rcases List.mem_cons.mp hw with rfl | hw
      · exact hc
      · exact hv w hw
  have hlt := around_lt (us ++ 0 :: vs).sum
  rw [onesSum_eq (hall (Nat.two_pow_pos 16)), onesSum_eq (hall (by omega)), List.sum_append,
    List.sum_cons, List.sum_append, List.sum_cons, Nat.zero_add]
  rcases around_cases (us.sum + vs.sum) with ⟨h0, h⟩ | ⟨q, r, hx, hr, h⟩
  · rw [h, around_of_eq (q := 0) (r := 65534) (by omega) (by decide)]
    rfl
  · rw [h, around_of_eq (q := q) (r := 65534) (by omega) (by decide)]
    rfl

end RemotePlay.Lib.OnesComplement
