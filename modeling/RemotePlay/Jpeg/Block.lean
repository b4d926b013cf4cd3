import Mathlib.Data.Nat.Notation
import Mathlib.Data.Int.Notation
import Mathlib.Data.Fin.VecNotation
import Mathlib.Data.List.GetD
import Mathlib.Tactic.Linarith

/-! # Blocks of samples

The DCT works in place on 64 words of 16 bits.  A step that leaves their range is `none` here, so a
result says at once that nothing overflowed.  `do_convsamp` reads a block from a plane, repeating
the last column of a row that ends inside the block; `Window.samples` is the block it reads, and the
result is that block less 128 (`doConvsamp_eq`). -/

namespace RemotePlay.Jpeg

/-! ### Arithmetic in 16 bits -/

/-- A value kept in an `i16`. -/
def i16 (x : ℤ) : Option ℤ := if -32768 ≤ x ∧ x ≤ 32767 then some x else none

theorem i16_eq {x : ℤ} (h : -32768 ≤ x ∧ x ≤ 32767) : i16 x = some x := if_pos h

theorem i16_bind {α : Type} {x : ℤ} (h : -32768 ≤ x ∧ x ≤ 32767) (f : ℤ → Option α) :
    (i16 x).bind f = f x := by
  rw [i16_eq h, Option.bind_some]

theorem i16_eq_some {x y : ℤ} : i16 x = some y ↔ y = x ∧ -32768 ≤ x ∧ x ≤ 32767 := by
  unfold i16
  split_ifs with h
  · simp [h, eq_comm]
  · simp [h]

/-- All the results of a family of steps, when there are. -/
def allSome {n : ℕ} {α : Type} (f : Fin n → Option α) : Option (Fin n → α) :=
  if h : ∀ i, (f i).isSome then some fun i => (f i).get (h i) else none

theorem allSome_eq_some {n : ℕ} {α : Type} {f : Fin n → Option α} {g : Fin n → α} :
    allSome f = some g ↔ ∀ i, f i = some (g i) := by
  unfold allSome
  split_ifs with h
  · rw [Option.some.injEq, funext_iff]
    exact forall_congr' fun i => by rw [← Option.some_inj, Option.some_get]
  · constructor
    · intro hg
      cases hg
    · exact fun hg => absurd (fun i => by rw [hg i, Option.isSome_some]) h

/-! ### Blocks -/

/-- The side of a block. -/
def DCTSIZE : ℕ := 8
/-- The middle of the range of a sample. -/
def CENTERJSAMPLE : ℤ := 128

/-- A block of 64 words, row after row. -/
abbrev JBlock := Fin 64 → ℤ

/-- The DC coefficient is there. -/
instance neZero_blockSize : NeZero 64 := ⟨by decide⟩

/-- The place of row `u`, column `v`. -/
def at_ (u v : Fin 8) : Fin 64 := ⟨8 * u.val + v.val, by omega⟩

/-- The row of an index into a block. -/
def rowOf (i : Fin 64) : Fin 8 := ⟨i.val / 8, by omega⟩
/-- The column of an index into a block. -/
def colOf (i : Fin 64) : Fin 8 := ⟨i.val % 8, by omega⟩

@[simp] theorem rowOf_at (u v : Fin 8) : rowOf (at_ u v) = u := by
  ext; simp only [rowOf, at_]; omega

@[simp] theorem colOf_at (u v : Fin 8) : colOf (at_ u v) = v := by
  ext; simp only [colOf, at_]; omega

@[simp] theorem at_rowOf_colOf (i : Fin 64) : at_ (rowOf i) (colOf i) = i := by
  ext; simp only [rowOf, colOf, at_]; omega

/-- A row of a block. -/
def JBlock.row (b : JBlock) (u : Fin 8) : Fin 8 → ℤ := fun v => b (at_ u v)
/-- A column of a block. -/
def JBlock.col (b : JBlock) (v : Fin 8) : Fin 8 → ℤ := fun u => b (at_ u v)

/-! ### Reading a block -/

/-- A place in a plane of samples where `do_convsamp` reads a block: its assertion holds. -/
structure Window where
  width : ℕ
  input : ℕ → Fin 256
  ypos : ℕ
  xpos : ℕ
  inside : xpos ≤ width

namespace Window

/-- The block is inside the component. -/
def selfInput (w : Window) : Prop := w.xpos + 8 ≤ w.width
/-- At least half of the block is inside. -/
def selfDct (w : Window) : Prop := w.xpos + 4 ≤ w.width

instance (w : Window) : Decidable w.selfInput := inferInstanceAs (Decidable (_ ≤ _))
instance (w : Window) : Decidable w.selfDct := inferInstanceAs (Decidable (_ ≤ _))

/-- The sample at column `idx` of row `yidx` of the block. -/
def read (w : Window) (yidx idx : ℕ) : Fin 256 := w.input (w.width * (w.ypos + yidx) + idx)

/-- One turn of the inner loop: the next word from those written. -/
def convNext (w : Window) (output : List ℤ) : ℤ :=
  let oidx := output.length
  let idx := w.xpos + oidx % DCTSIZE
  if w.selfInput ∨ idx < w.width then (w.read (oidx / DCTSIZE) idx : ℤ) - CENTERJSAMPLE
  else if w.selfDct then output.getD (oidx - (idx - w.width) - 1) 0
  else 0

/-- The first `n` turns. -/
def convLoop (w : Window) : ℕ → List ℤ
  | 0 => []
  | n + 1 => w.convLoop n ++ [w.convNext (w.convLoop n)]

/-- `do_convsamp`. -/
def doConvsamp (w : Window) : JBlock := fun i => (w.convLoop 64).getD i 0

/-- The block of samples: a row that ends in its second half goes on with its last sample, one that
ends before is grey. -/
def sampleAt (w : Window) (u v : ℕ) : Fin 256 :=
  if w.xpos + v < w.width then w.read u (w.xpos + v)
  else if w.selfDct then w.read u (w.width - 1)
  else 128

/-- The samples that the transform is given. -/
def samples (w : Window) (u v : Fin 8) : Fin 256 := w.sampleAt u v

@[simp] theorem length_convLoop (w : Window) (n : ℕ) : (w.convLoop n).length = n := by
  induction n with
  | zero => rfl
  | succ n ih => rw [convLoop, List.length_append, ih, List.length_singleton]

theorem convLoop_getD (w : Window) {n k : ℕ} (hk : k < n) :
    (w.convLoop n).getD k 0 = (w.sampleAt (k / 8) (k % 8) : ℤ) - 128 := by
  induction n generalizing k with
  | zero => omega
  | succ n ih =>
    rw [convLoop]
    rcases Nat.lt_succ_iff_lt_or_eq.mp hk with hk | rfl
    · rw [List.getD_append _ _ _ _ (by simpa using hk), ih hk]
    rw [List.getD_append_right _ _ _ _ (by simp), length_convLoop, Nat.sub_self,
      List.getD_cons_zero]
    unfold convNext sampleAt
    simp only [length_convLoop, DCTSIZE, CENTERJSAMPLE]
    have hself : w.selfInput → w.xpos + k % 8 < w.width := fun h => by
      have : w.xpos + 8 ≤ w.width := h
      omega
    by_cases hin : w.xpos + k % 8 < w.width
    · rw [if_pos (Or.inr hin), if_pos hin]
    rw [if_neg (not_or.mpr ⟨fun h => hin (hself h), hin⟩), if_neg hin]
    by_cases hdct : w.selfDct
    · -- the word copied is the one of the row's last column
      have hd : w.xpos + 4 ≤ w.width := hdct
      have hlast : k - (w.xpos + k % 8 - w.width) - 1 = 8 * (k / 8) + (w.width - 1 - w.xpos) := by
        omega
      rw [if_pos hdct, if_pos hdct, hlast, ih (by omega)]
      have hdiv : (8 * (k / 8) + (w.width - 1 - w.xpos)) / 8 = k / 8 := by omega
      have hmod : (8 * (k / 8) + (w.width - 1 - w.xpos)) % 8 = w.width - 1 - w.xpos := by omega
      have hcol : w.xpos + (w.width - 1 - w.xpos) = w.width - 1 := by omega
      rw [hdiv, hmod, sampleAt, hcol, if_pos (by omega)]
    · rw [if_neg hdct, if_neg hdct]
      rfl

/-- **What `do_convsamp` reads is the block of samples, less 128.** -/
theorem doConvsamp_eq (w : Window) (u v : Fin 8) :
    w.doConvsamp (at_ u v) = (w.samples u v : ℤ) - 128 := by
  have hu : (8 * u.val + v.val) / 8 = u.val := by omega
  have hv : (8 * u.val + v.val) % 8 = v.val := by omega
  have h : (w.convLoop 64).getD (8 * u.val + v.val) 0 = _ := w.convLoop_getD (by omega)
  rw [hu, hv] at h
  exact h

theorem doConvsamp_bounds (w : Window) (i : Fin 64) :
    -128 ≤ w.doConvsamp i ∧ w.doConvsamp i ≤ 127 := by
  have h := w.doConvsamp_eq (rowOf i) (colOf i)
  have hlt := (w.samples (rowOf i) (colOf i)).isLt
  rw [at_rowOf_colOf] at h
  omega

end Window

end RemotePlay.Jpeg
