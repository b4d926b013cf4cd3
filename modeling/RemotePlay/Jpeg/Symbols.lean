import RemotePlay.Jpeg.Block
import RemotePlay.Jpeg.Huffman
import Mathlib.Data.Nat.Size

/-! # The symbols of a block

`encode_one_block` looks up a code for the size of the DC difference, and for each AC coefficient
that is not zero one for the zeros before it and its size.  An `Item` is one look-up, with the value
bits that follow the code.  Coefficients of at most ten bits need the symbols of `acSymbols 10`
only (`acItems_mem`). -/

namespace RemotePlay.Jpeg

/-- The zigzag order of the coefficients. -/
def JPEG_NATURAL_ORDER : List ℕ :=
  [0, 1, 8, 16, 9, 2, 3, 10, 17, 24, 32, 25, 18, 11, 4, 5, 12, 19, 26, 33, 40, 48, 41, 34, 27, 20,
    13, 6, 7, 14, 21, 28, 35, 42, 49, 56, 57, 50, 43, 36, 29, 22, 15, 23, 30, 37, 44, 51, 58, 59,
    52, 45, 38, 31, 39, 46, 53, 60, 61, 54, 47, 55, 62, 63]

/-- `jpeg_nbits_nonzero`. -/
def jpegNbitsNonzero (x : ℕ) : ℕ := x.size

/-- A symbol looked up, and the bits put after its code: `nbits` of `val1`. -/
structure Item where
  sym : ℕ
  val1 : ℤ
  nbits : ℕ
  deriving DecidableEq, Repr

/-- `val1` and the number of bits of a value: a negative one is sent less one. -/
def valueBits (val : ℤ) : ℤ × ℕ := (if val < 0 then val - 1 else val, jpegNbitsNonzero val.natAbs)

/-- The item of a DC difference. -/
def dcItem (block0 last_dc_val : ℤ) : Item :=
  let (val1, bits) := valueBits (block0 - last_dc_val)
  ⟨bits, val1, bits⟩

/-- A run of sixteen zeros. -/
def ZRL : Item := ⟨0xf0, 0, 0⟩
/-- The end of a block. -/
def EOB : Item := ⟨0, 0, 0⟩

/-- The loop over the AC coefficients.  `r` counts the zeros in sixteens; of a run of 16 or more
every 16 are sent first. -/
def acItems : ℕ → List ℤ → List Item
  | r, [] => if r > 0 then [EOB] else []
  | r, val :: vals =>
    if val = 0 then acItems (r + 16) vals
    else
      let (val1, bits) := valueBits val
      List.replicate (r / (16 * 16)) ZRL ++ ⟨r % (16 * 16) + bits, val1, bits⟩ :: acItems 0 vals

/-- The AC coefficients in the order they are sent. -/
def acValues (block : JBlock) : List ℤ :=
  (JPEG_NATURAL_ORDER.drop 1).map fun k => if h : k < 64 then block ⟨k, h⟩ else 0

/-- What `encode_one_block` looks up in the AC table. -/
def blockAcItems (block : JBlock) : List Item := acItems 0 (acValues block)

/-- The AC symbols for values of 1 to `n` bits. -/
def acSymbols (n : ℕ) : List ℕ :=
  0 :: 0xf0 :: (List.range 16).flatMap fun run => (List.range n).map fun k => run * 16 + (k + 1)

/-! ### Sizes -/

theorem nbits_le {x : ℤ} {n : ℕ} (h : x.natAbs < 2 ^ n) : (valueBits x).2 ≤ n :=
  Nat.size_le.mpr h

theorem nbits_pos {x : ℤ} (h : x ≠ 0) : 0 < (valueBits x).2 :=
  Nat.size_pos.mpr (Int.natAbs_pos.mpr h)

theorem lt_nbits {x : ℤ} {n : ℕ} (h : 2 ^ n ≤ x.natAbs) : n < (valueBits x).2 :=
  Nat.lt_size.mpr h

theorem mem_acSymbols {n run k : ℕ} (hrun : run < 16) (h0 : 0 < k) (hk : k ≤ n) :
    run * 16 + k ∈ acSymbols n := by
  refine List.mem_cons_of_mem _ (List.mem_cons_of_mem _ (List.mem_flatMap.mpr ⟨run, ?_, ?_⟩))
  · exact List.mem_range.mpr hrun
  · exact List.mem_map.mpr ⟨k - 1, List.mem_range.mpr (by omega), by omega⟩

/-- **Values of at most `n` bits use the symbols for them.**  The zeros are counted in sixteens. -/
theorem acItems_mem {n : ℕ} {vals : List ℤ} (h : ∀ v ∈ vals, v.natAbs < 2 ^ n) {r : ℕ}
    (hr : 16 ∣ r) : ∀ item ∈ acItems r vals, item.sym ∈ acSymbols n := by
  induction vals generalizing r with
  | nil =>
    intro item hi
    rw [acItems] at hi
    split_ifs at hi
    · rw [List.mem_singleton.mp hi]
      exact List.mem_cons_self
    · cases hi
  | cons v vals ih =>
    have ih := fun {r} => ih (fun v hv => h v (List.mem_cons_of_mem _ hv)) (r := r)
    intro item hi
    rw [acItems] at hi
    split_ifs at hi with h0
    · exact ih (by omega) item hi
    · rcases List.mem_append.mp hi with hi | hi
      · rw [List.eq_of_mem_replicate hi]
        exact List.mem_cons_of_mem _ List.mem_cons_self
      rcases List.mem_cons.mp hi with rfl | hi
      · obtain ⟨q, rfl⟩ := hr
        have hmod : 16 * q % (16 * 16) = (q % 16) * 16 := by omega
        simp only [hmod]
        exact mem_acSymbols (Nat.mod_lt _ (by decide)) (nbits_pos h0)
          (nbits_le (h v List.mem_cons_self))
      · exact ih ⟨0, rfl⟩ item hi

theorem mem_acValues {block : JBlock} {v : ℤ} :
    v ∈ acValues block ↔ ∃ i : Fin 64, i ≠ 0 ∧ v = block i := by
  have hperm : ∀ i : Fin 64, i ≠ 0 ↔ i.val ∈ JPEG_NATURAL_ORDER.drop 1 := by decide
  have hlt : ∀ k ∈ JPEG_NATURAL_ORDER.drop 1, k < 64 := by decide
  constructor
  · intro h
    obtain ⟨k, hk, rfl⟩ := List.mem_map.mp h
    exact ⟨⟨k, hlt k hk⟩, (hperm _).mpr hk, dif_pos (hlt k hk)⟩
  · rintro ⟨i, hi, rfl⟩
    exact List.mem_map.mpr ⟨i, (hperm i).mp hi, dif_pos i.isLt⟩

theorem exists_large_item {n : ℕ} {vals : List ℤ} {v : ℤ} (hv : v ∈ vals) (hn : 2 ^ n ≤ v.natAbs)
    {r : ℕ} (hr : 16 ∣ r) :
    ∃ item ∈ acItems r vals, ∃ run, item.sym = run * 16 + (valueBits v).2 ∧ run < 16 := by
  have h0 : v ≠ 0 := by
    rintro rfl
    have := Nat.two_pow_pos n
    simp at hn
  induction vals generalizing r with
  | nil => cases hv
  | cons u vals ih =>
    rw [acItems]
    rcases List.mem_cons.mp hv with rfl | hv
    · rw [if_neg h0]
      obtain ⟨q, rfl⟩ := hr
      refine ⟨_, List.mem_append_right _ List.mem_cons_self, q % 16, ?_, Nat.mod_lt _ (by decide)⟩
      show 16 * q % (16 * 16) + (valueBits v).2 = _
      omega
    · split_ifs
      · exact ih hv (by omega)
      · obtain ⟨item, hi, h⟩ := ih hv ⟨0, rfl⟩
        exact ⟨item, List.mem_append_right _ (List.mem_cons_of_mem _ hi), h⟩

end RemotePlay.Jpeg
