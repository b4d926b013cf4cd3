import Mathlib.Data.List.Induction
import Mathlib.Data.Nat.Notation
import Mathlib.Tactic.Linarith

/-! # A stream in pieces, a stream in packets

Several writers each make a piece of a stream, one after another by number (`joined`); the stream
leaves in packets of a fixed size that do not respect the pieces (`flatten_packets`).  A memory is a
function of addresses, of which a stretch is written or read at a time. -/

namespace RemotePlay.Lib.Pieces

variable {α : Type*}

/-! ### Pieces -/

section

variable (S : ℕ → List α)

/-- The first `n` pieces. -/
def joined (n : ℕ) : List α := (List.range n).flatMap S

/-- Where a piece starts. -/
def offset (t : ℕ) : ℕ := (joined S t).length

@[simp] theorem joined_zero : joined S 0 = [] := rfl

theorem joined_succ (n : ℕ) : joined S (n + 1) = joined S n ++ S n := by
  simp [joined, List.range_succ]

@[simp] theorem offset_zero : offset S 0 = 0 := rfl

theorem offset_succ (t : ℕ) : offset S (t + 1) = offset S t + (S t).length := by
  simp only [offset, joined_succ, List.length_append]

theorem offset_mono {t u : ℕ} (h : t ≤ u) : offset S t ≤ offset S u := by
  induction u, h using Nat.le_induction with
  | base => exact le_rfl
  | succ u _ ih =>
    rw [offset_succ]
    omega

theorem offset_add_le {t n : ℕ} (h : t < n) : offset S t + (S t).length ≤ offset S n := by
  rw [← offset_succ]
  exact offset_mono S h

/-- **A place in a piece is a place in the stream.** -/
theorem getElem?_joined {t n j : ℕ} (ht : t < n) (hj : j < (S t).length) :
    (joined S n)[offset S t + j]? = (S t)[j]? := by
  induction n, Nat.succ_le_of_lt ht using Nat.le_induction with
  | base =>
    rw [joined_succ, offset, List.getElem?_append_right (Nat.le_add_right _ _),
      Nat.add_sub_cancel_left]
  | succ n h ih =>
    have hlt : offset S t + j < (joined S n).length := by
      have := offset_add_le S h
      rw [offset] at this ⊢
      exact lt_of_lt_of_le (by omega) this
    rw [joined_succ, List.getElem?_append_left hlt]
    exact ih h

end

/-! ### Packets -/

/-- **Packets that follow one another make up the stream.** -/
theorem flatten_packets {G : List α} {P : ℕ} {ps : List (List α)}
    (h : ∀ i (hi : i < ps.length), ps[i] = (G.drop (i * P)).take P) :
    ps.flatten = G.take (ps.length * P) := by
  induction ps using List.reverseRecOn with
  | nil => simp
  | append_singleton ps p ih =>
    have hlast := h ps.length (by simp)
    rw [List.getElem_append_right le_rfl] at hlast
    simp only [Nat.sub_self, List.getElem_cons_zero] at hlast
    have hps : ps.flatten = G.take (ps.length * P) := ih fun i hi => by
      have := h i (by simp only [List.length_append]; omega)
      rwa [List.getElem_append_left hi] at this
    rw [List.flatten_append, hps, hlast]
    simp only [List.flatten_cons, List.flatten_nil, List.append_nil, List.length_append,
      List.length_cons, List.length_nil]
    rw [Nat.add_mul, Nat.zero_add, Nat.one_mul, List.take_add]

/-! ### Memory -/

/-- `bs` written from `a` on. -/
def write (m : ℕ → α) (a : ℕ) (bs : List α) : ℕ → α := fun x =>
  if h : a ≤ x ∧ x - a < bs.length then bs[x - a] else m x

/-- `n` places read from `a` on. -/
def read (m : ℕ → α) (a n : ℕ) : List α := (List.range n).map fun i => m (a + i)

theorem write_of_lt {m : ℕ → α} {a x : ℕ} {bs : List α} (h : x < a) : write m a bs x = m x :=
  dif_neg fun hx => by omega

theorem write_of_ge {m : ℕ → α} {a x : ℕ} {bs : List α} (h : a + bs.length ≤ x) :
    write m a bs x = m x := dif_neg fun hx => by omega

theorem write_at {m : ℕ → α} {a i : ℕ} {bs : List α} (h : i < bs.length) :
    some (write m a bs (a + i)) = bs[i]? := by
  have hi : a ≤ a + i ∧ a + i - a < bs.length := ⟨Nat.le_add_right _ _, by omega⟩
  rw [write, dif_pos hi, List.getElem?_eq_getElem h]
  simp only [Nat.add_sub_cancel_left]

@[simp] theorem length_read (m : ℕ → α) (a n : ℕ) : (read m a n).length = n := by
  simp [read]

theorem getElem?_read {m : ℕ → α} {a n i : ℕ} (h : i < n) :
    (read m a n)[i]? = some (m (a + i)) := by
  rw [read, List.getElem?_map, List.getElem?_range h, Option.map_some]

theorem write_ofFn {n : ℕ} (m : ℕ → α) (a : ℕ) (f : Fin n → α) (i : Fin n) :
    write m a (List.ofFn f) (a + i) = f i := by
  have hi : (i : ℕ) < (List.ofFn f).length := by
    rw [List.length_ofFn]
    exact i.isLt
  have h := write_at (m := m) (a := a) hi
  rw [List.getElem?_ofFn, dif_pos i.isLt] at h
  exact Option.some.inj h

theorem read_eq {m : ℕ → α} {a n x : ℕ} {G : List α}
    (h : ∀ i < n, some (m (a + i)) = G[x + i]?) : read m a n = (G.drop x).take n := by
  refine List.ext_getElem? fun i => ?_
  rcases Nat.lt_or_ge i n with hi | hi
  · rw [List.getElem?_take_of_lt hi, List.getElem?_drop, ← h i hi, read,
      List.getElem?_map, List.getElem?_range hi, Option.map_some]
  · rw [List.getElem?_eq_none (by simpa using hi),
      List.getElem?_eq_none ((List.length_take_le _ _).trans hi)]

theorem read_add (m : ℕ → α) (a n k : ℕ) : read m a (n + k) = read m a n ++ read m (a + n) k := by
  simp only [read, List.range_add, List.map_append, List.map_map, Nat.add_assoc]
  rfl

theorem read_write (m : ℕ → α) (a : ℕ) (bs : List α) : read (write m a bs) a bs.length = bs := by
  refine List.ext_getElem? fun i => ?_
  rcases Nat.lt_or_ge i bs.length with hi | hi
  · rw [getElem?_read hi, write_at hi]
  · rw [List.getElem?_eq_none (by simpa using hi), List.getElem?_eq_none hi]

theorem read_write_of_disjoint {m : ℕ → α} {a b n : ℕ} {bs : List α}
    (h : a + n ≤ b ∨ b + bs.length ≤ a) : read (write m b bs) a n = read m a n := by
  refine List.map_congr_left fun i hi => ?_
  have hi := List.mem_range.mp hi
  rcases h with h | h
  · exact write_of_lt (by omega)
  · exact write_of_ge (by omega)

end RemotePlay.Lib.Pieces
