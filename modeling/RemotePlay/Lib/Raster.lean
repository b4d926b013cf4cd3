import Mathlib.Data.List.Basic
import Mathlib.Logic.Function.Basic
import Mathlib.Tactic.SplitIfs

/-! # Rows of samples

A buffer of samples by address, read and written within its size.  A loop over consecutive addresses
fills them with the values of a function (`update_fill`); rows of one width, filled one after the
other, are a plane (`fillRows_append`). -/

namespace RemotePlay.Lib.Raster

variable {α σ : Type*} {m : ℕ → α} {p n w : ℕ} {f : ℕ → α} {g : ℕ → ℕ → α}

/-- The sample at an address of a buffer of `size`. -/
def read (size : ℕ) (m : ℕ → α) (a : ℕ) : Option α := if a < size then some (m a) else none

/-- A write within the bounds of a buffer. -/
def write (size : ℕ) (m : ℕ → α) (a : ℕ) (v : α) : Option (ℕ → α) :=
  if a < size then some (Function.update m a v) else none

/-- The `n` samples from `p` on replaced by those of `f`. -/
def fill (m : ℕ → α) (p n : ℕ) (f : ℕ → α) : ℕ → α := fun a =>
  if p ≤ a ∧ a < p + n then f (a - p) else m a

/-- `copy_nonoverlapping`. -/
def copy (size : ℕ) (m : ℕ → α) (src dst n : ℕ) : Option (ℕ → α) :=
  if (src + n ≤ size ∧ dst + n ≤ size) ∧ (src + n ≤ dst ∨ dst + n ≤ src) then
    some (fill m dst n fun x => m (src + x))
  else none

/-- `n` rows of `w` samples. -/
def fillRows (m : ℕ → α) (p w n : ℕ) (g : ℕ → ℕ → α) : ℕ → α :=
  fill m p (n * w) fun a => g (a / w) (a % w)

theorem read_eq {size a : ℕ} (h : a < size) : read size m a = some (m a) := if_pos h

theorem write_eq {size a : ℕ} (h : a < size) (v : α) :
    write size m a v = some (Function.update m a v) := if_pos h

@[simp] theorem fill_zero : fill m p 0 f = m := by
  funext a
  exact if_neg (by omega)

theorem fill_get {i : ℕ} (h : i < n) : fill m p n f (p + i) = f i := by
  rw [fill, if_pos ⟨Nat.le_add_right p i, by omega⟩, Nat.add_sub_cancel_left]

/-- **The next sample.** -/
theorem update_fill : Function.update (fill m p n f) (p + n) (f n) = fill m p (n + 1) f := by
  funext a
  rcases eq_or_ne a (p + n) with rfl | hne
  · rw [Function.update_self, fill_get (Nat.lt_succ_self n)]
  · rw [Function.update_of_ne hne, fill, fill]
    exact if_congr (by omega) rfl rfl

theorem fill_congr {f' : ℕ → α} (h : ∀ i < n, f i = f' i) : fill m p n f = fill m p n f' := by
  funext a
  unfold fill
  split_ifs with ha
  · exact h _ (by omega)
  · rfl

theorem fill_fill {k : ℕ} {f' : ℕ → α} : fill (fill m p n f) (p + n) k f' =
    fill m p (n + k) fun i => if i < n then f i else f' (i - n) := by
  funext a
  simp only [fill]
  rcases Nat.lt_or_ge a (p + n) with ha | ha
  · rw [if_neg (by omega)]
    by_cases hp : p ≤ a
    · rw [if_pos ⟨hp, ha⟩, if_pos ⟨hp, by omega⟩, if_pos (by omega)]
    · rw [if_neg (by omega), if_neg (by omega)]
  · by_cases hk : a < p + n + k
    · rw [if_pos ⟨ha, hk⟩, if_pos ⟨by omega, by omega⟩, if_neg (by omega), Nat.sub_sub]
    · rw [if_neg (by omega), if_neg (by omega), if_neg (by omega)]

@[simp] theorem fillRows_zero : fillRows m p w 0 g = m := by
  rw [fillRows, Nat.zero_mul, fill_zero]

theorem row_lt {l x : ℕ} (hl : l < n) (hx : x < w) : l * w + x < n * w :=
  calc l * w + x < (l + 1) * w := by rw [Nat.add_mul]; omega
    _ ≤ n * w := Nat.mul_le_mul_right _ hl

theorem fillRows_get {l x : ℕ} (hl : l < n) (hx : x < w) :
    fillRows m p w n g (p + (l * w + x)) = g l x := by
  rw [fillRows, fill_get (row_lt hl hx), Nat.add_comm (l * w), Nat.add_mul_div_right _ _ (by omega),
    Nat.div_eq_of_lt hx, Nat.add_mul_mod_self_right, Nat.mod_eq_of_lt hx, Nat.zero_add]

theorem read_fillRows {size l x : ℕ} (hl : l < n) (hx : x < w) (hsize : w * n ≤ size) :
    read size (fillRows m 0 w n g) (w * l + x) = some (g l x) := by
  have hlt := row_lt hl hx
  have hget : fillRows m 0 w n g (0 + (l * w + x)) = g l x := fillRows_get hl hx
  rw [Nat.zero_add] at hget
  rw [Nat.mul_comm w n] at hsize
  rw [Nat.mul_comm w l, read_eq (by omega), hget]

theorem fillRows_congr {g' : ℕ → ℕ → α} (h : ∀ l < n, ∀ x < w, g l x = g' l x) :
    fillRows m p w n g = fillRows m p w n g' := by
  refine fill_congr fun i hi => ?_
  rcases Nat.eq_zero_or_pos w with rfl | hw
  · omega
  · exact h _ (Nat.div_lt_of_lt_mul (by rwa [Nat.mul_comm])) _ (Nat.mod_lt _ hw)

/-- **Rows after rows.** -/
theorem fillRows_append {k : ℕ} {e : ℕ → ℕ → α} (h : ∀ l < k, ∀ x < w, e l x = g (n + l) x) :
    fillRows (fillRows m p w n g) (p + n * w) w k e = fillRows m p w (n + k) g := by
  rw [fillRows_congr h, fillRows, fillRows, fill_fill, fillRows, Nat.add_mul]
  refine fill_congr fun i hi => ?_
  rcases Nat.eq_zero_or_pos w with rfl | hw
  · omega
  split_ifs with h'
  · rfl
  · obtain ⟨j, rfl⟩ := Nat.exists_eq_add_of_le (Nat.not_lt.mp h')
    rw [Nat.add_sub_cancel_left, Nat.add_comm (n * w) j, Nat.add_mul_div_right _ _ hw,
      Nat.add_mul_mod_self_right, Nat.add_comm n]

theorem fillRows_one : fillRows m p w 1 g = fill m p w (g 0) := by
  rw [fillRows, Nat.one_mul]
  exact fill_congr fun i hi => by rw [Nat.div_eq_of_lt hi, Nat.mod_eq_of_lt hi]

theorem fill_fillRows :
    fill (fillRows m p w n g) (p + n * w) w (g n) = fillRows m p w (n + 1) g := by
  rw [← fillRows_append (e := fun _ => g n) fun l hl _ _ => by rw [Nat.lt_one_iff.mp hl]; rfl,
    fillRows_one]

/-! ### Loops -/

/-- **A loop whose turns keep an invariant runs through.** -/
theorem foldlM_range (step : σ → ℕ → Option σ) (Inv : ℕ → σ → Prop) {n : ℕ}
    (h : ∀ k < n, ∀ s, Inv k s → ∃ s', step s k = some s' ∧ Inv (k + 1) s') {s : σ} (hs : Inv 0 s) :
    ∃ s', (List.range n).foldlM step s = some s' ∧ Inv n s' := by
  induction n with
  | zero => exact ⟨s, rfl, hs⟩
  | succ n ih =>
    obtain ⟨s1, hrun, hinv⟩ := ih fun k hk => h k (Nat.lt_succ_of_lt hk)
    obtain ⟨s2, hstep, hinv2⟩ := h n (Nat.lt_succ_self n) s1 hinv
    refine ⟨s2, ?_, hinv2⟩
    rw [List.range_succ, List.foldlM_append, hrun, Option.bind_eq_bind, Option.bind_some,
      List.foldlM_cons, hstep]
    rfl

theorem foldlM_range_eq {step : σ → ℕ → Option σ} (s : ℕ → σ) {n : ℕ}
    (h : ∀ k < n, step (s k) k = some (s (k + 1))) :
    (List.range n).foldlM step (s 0) = some (s n) := by
  obtain ⟨s', hrun, rfl⟩ := foldlM_range step (fun k t => t = s k)
    (fun k hk t ht => ⟨_, ht ▸ h k hk, rfl⟩) rfl
  exact hrun

theorem foldlM_congr {ι : Type*} {l : List ι} {f g : σ → ι → Option σ}
    (h : ∀ x ∈ l, ∀ s, f s x = g s x) (s : σ) : l.foldlM f s = l.foldlM g s := by
  induction l generalizing s with
  | nil => rfl
  | cons x l ih =>
    rw [List.foldlM_cons, List.foldlM_cons, h x List.mem_cons_self]
    exact congrArg ((g s x).bind ·) (funext (ih fun y hy => h y (List.mem_cons_of_mem x hy)))

end RemotePlay.Lib.Raster
