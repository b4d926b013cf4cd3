import RemotePlay.Fec.Encoder
import RemotePlay.Lib.SumFold

/-! # A recovery packet is a combination of the columns

Through the lanes, the summer that adds two sources at a time and the words of eight bytes, byte `i`
of the packet for a row is a combination of the bytes `i` of the columns, with a coefficient for
each column that depends on the row and on their number only (`encode_combination`). -/

namespace RemotePlay.Fec

open RemotePlay.Lib.ByteMemory RemotePlay.Lib.SumFold

/-! ### What a buffer denotes -/

/-- A symbol denotes a vector over the field. -/
structure Holds (z : Bytes) (v : ℕ → GF256) : Prop where
  length : z.length = SymbolSize
  val : ∀ i < SymbolSize, denote (z.getD i 0) = v i

variable {z : Bytes} {v v' : ℕ → GF256} {s : XORSummer}

theorem Holds.congr (h : Holds z v) (hv : ∀ i < SymbolSize, v i = v' i) : Holds z v' where
  length := h.length
  val i hi := (h.val i hi).trans (hv i hi)

theorem holds_replicate : Holds (List.replicate SymbolSize 0) 0 where
  length := List.length_replicate
  val i hi := by
    rw [List.getD_replicate _ hi]
    exact denote_zero

theorem Holds.xorFirst (h : Holds z v) (f : ℕ → BitVec 8) (n : ℕ) :
    Holds (xorFirst z f n) (v + fun i => if i < n then denote (f i) else 0) where
  length := length_xorFirst.trans h.length
  val i hi := by
    rw [getD_xorFirst (by rw [h.length]; exact hi), Pi.add_apply]
    split_ifs
    · rw [denote_xor, h.val i hi]
    · rw [h.val i hi, add_zero]

/-! ### The summer -/

theorem finalize_add (s : XORSummer) (src : Bytes) (n : ℕ) :
    (s.add src n).finalize n = xorFirst (s.finalize n) (fun i => src.getD i 0) n := by
  unfold XORSummer.add XORSummer.finalize
  rcases s.waiting with _ | waiting
  · exact gf256_add_mem_eq s.dest src n
  · dsimp only
    rw [gf256_add2_mem_eq, gf256_add_mem_eq, xorFirst_xorFirst]

theorem finalize_addMem (s : XORSummer) (src : Bytes) (m n : ℕ) :
    (s.addMem src m).finalize n = xorFirst (s.finalize n) (fun i => src.getD i 0) m := by
  unfold XORSummer.addMem XORSummer.finalize
  rcases s.waiting with _ | waiting
  · exact gf256_add_mem_eq s.dest src m
  · dsimp only
    rw [gf256_add_mem_eq, gf256_add_mem_eq, gf256_add_mem_eq, xorFirst_comm]

/-- What a summer will hold. -/
def XORSummer.Sums (s : XORSummer) (v : ℕ → GF256) : Prop := Holds (s.finalize SymbolSize) v

theorem XORSummer.sums_init (h : Holds z v) : (XORSummer.init z).Sums v := h

theorem XORSummer.Sums.add (h : s.Sums v) (src : Bytes) :
    (s.add src SymbolSize).Sums (v + fun i => denote (src.getD i 0)) := by
  unfold XORSummer.Sums
  rw [finalize_add]
  refine (h.xorFirst _ _).congr fun i hi => ?_
  rw [Pi.add_apply, Pi.add_apply, if_pos hi]

/-! ### Columns -/

/-- A byte of a column: the last one may be short. -/
noncomputable def column (win : AppDataWindow) (j i : ℕ) : GF256 :=
  if i < win.GetColumnBytes j then denote ((win.OriginalData j).getD i 0) else 0

variable {win : AppDataWindow}

theorem holds_copyColumn (win : AppDataWindow) (j : ℕ) :
    Holds (copyColumn win j) (column win j) where
  length := by rw [copyColumn, List.length_map, List.length_range]
  val i hi := by
    rw [copyColumn, List.getD_eq_getElem?_getD, List.getElem?_map, List.getElem?_range hi,
      Option.map_some, Option.getD_some]
    unfold column
    split_ifs
    · rfl
    · exact denote_zero

theorem XORSummer.Sums.addColumn (h : s.Sums v) (j : ℕ) :
    (addColumn win s j).Sums (v + column win j) := by
  unfold Fec.addColumn
  split_ifs with hfinal
  · unfold XORSummer.Sums
    rw [finalize_addMem]
    refine (h.xorFirst _ _).congr fun i hi => ?_
    simp only [Pi.add_apply, column, AppDataWindow.GetColumnBytes, if_pos hfinal]
  · refine (h.add _).congr fun i hi => ?_
    simp only [Pi.add_apply, column, AppDataWindow.GetColumnBytes, if_neg hfinal, if_pos hi]

theorem lt_of_mem_laneColumns {lane columnEnd j : ℕ} (h : j ∈ laneColumns lane columnEnd) :
    j < columnEnd := by
  obtain ⟨i, hi, rfl⟩ := List.mem_range'.mp h
  have h8 : kColumnLaneCount = 8 := rfl
  rw [h8] at hi ⊢
  omega

theorem holds_laneSum (hcount : 0 < win.InputCount) {lane : ℕ} (hlane : lane < kColumnLaneCount) :
    Holds (laneSum win lane) (∑ j ∈ Finset.range win.InputCount with j % kColumnLaneCount = lane,
      column win j) := by
  obtain ⟨columnEnd, hend⟩ := Nat.exists_eq_add_one.mpr hcount
  have hfinal : ∀ j, win.IsFinalColumn j = true ↔ j = columnEnd := by
    intro j
    rw [AppDataWindow.IsFinalColumn, hend, Nat.add_sub_cancel, beq_iff_eq]
  have hloop : ((laneColumns lane columnEnd).foldl
      (fun (sum : XORSummer) column => sum.add (win.OriginalData column) SymbolSize)
      (XORSummer.init (List.replicate SymbolSize 0))).Sums
      (0 + ((laneColumns lane columnEnd).map (column win)).sum) := by
    refine foldl_add (fun j hj s v h => ?_) (XORSummer.sums_init holds_replicate)
    have hne : ¬ win.IsFinalColumn j = true := fun h =>
      (lt_of_mem_laneColumns hj).ne ((hfinal j).mp h)
    have hadd : (addColumn win s j).Sums (v + column win j) := h.addColumn j
    rwa [addColumn, if_neg hne] at hadd
  rw [laneColumns, sum_stride hlane, zero_add] at hloop
  rw [laneSum, hend, Nat.add_sub_cancel, Finset.sum_filter, Finset.sum_range_succ,
    ← Finset.sum_filter]
  split_ifs with hlast
  · have hadd : (addColumn win _ columnEnd).Sums (_ + column win columnEnd) :=
      hloop.addColumn columnEnd
    rwa [addColumn, if_pos ((hfinal columnEnd).mpr rfl)] at hadd
  · rw [add_zero]
    exact hloop

/-! ### The sums of the lanes -/

/-- The columns of a lane, each multiplied by a power of its value. -/
noncomputable def laneTotal (win : AppDataWindow) (n lane k i : ℕ) : GF256 :=
  ∑ j ∈ Finset.range n with j % kColumnLaneCount = lane,
    denote (GetColumnValue j) ^ k * column win j i

theorem Holds.muladd (h : Holds z v) (y : BitVec 8) (j : ℕ) :
    Holds (gf256_muladd_mem z y (win.OriginalData j) (win.GetColumnBytes j))
      (v + fun i => denote y * column win j i) := by
  rw [gf256_muladd_mem_eq]
  refine (h.xorFirst _ _).congr fun i hi => ?_
  simp only [Pi.add_apply, column]
  split_ifs
  · rw [denote_mul, mul_comm]
  · rw [mul_zero]

theorem Holds.muladd_symbol {z' : Bytes} (h : Holds z v) (h' : Holds z' v') (y : BitVec 8) :
    Holds (gf256_muladd_mem z y z' SymbolSize) (v + fun i => denote y * v' i) := by
  rw [gf256_muladd_mem_eq]
  refine (h.xorFirst _ _).congr fun i hi => ?_
  rw [Pi.add_apply, Pi.add_apply, if_pos hi, denote_mul, h'.val i hi, mul_comm]

theorem laneTotal_succ (win : AppDataWindow) (n lane k i : ℕ) : laneTotal win (n + 1) lane k i =
    laneTotal win n lane k i + if n % kColumnLaneCount = lane then
      denote (GetColumnValue n) ^ k * column win n i else 0 := by
  unfold laneTotal
  rw [Finset.sum_filter, Finset.sum_range_succ, ← Finset.sum_filter]

theorem holds_addProducts (win : AppDataWindow) (sums : ℕ → ℕ → Bytes) (n : ℕ)
    (hzero : ∀ lane k, 0 < k → Holds (sums lane k) 0) :
    (∀ lane, (List.range n).foldl (addProducts win) sums lane 0 = sums lane 0) ∧
      ∀ lane k, 0 < k → k < kColumnSumCount →
        Holds ((List.range n).foldl (addProducts win) sums lane k) (laneTotal win n lane k) := by
  induction n with
  | zero =>
    refine ⟨fun lane => rfl, fun lane k hk _ => (hzero lane k hk).congr fun i _ => ?_⟩
    exact (Finset.sum_eq_zero fun j hj => absurd (Finset.mem_filter.mp hj).1 (by simp)).symm
  | succ n ih =>
    obtain ⟨hplain, ih⟩ := ih
    rw [List.range_succ, List.foldl_append, List.foldl_cons, List.foldl_nil]
    generalize (List.range n).foldl (addProducts win) sums = t at hplain ih
    have hsucc := laneTotal_succ win n
    refine ⟨fun lane => ?_, fun lane k hk hk' => ?_⟩
    · rw [← hplain lane]
      unfold addProducts
      rcases eq_or_ne lane (n % kColumnLaneCount) with rfl | hne
      · rw [Function.update_self, Function.update_of_ne (by decide),
          Function.update_of_ne (by decide)]
      · rw [Function.update_of_ne hne]
    · have hprev := ih lane k hk hk'
      unfold addProducts
      rcases eq_or_ne lane (n % kColumnLaneCount) with rfl | hne
      · rw [Function.update_self]
        have hcases : k = 1 ∨ k = 2 := by
          have h3 : kColumnSumCount = 3 := rfl
          omega
        rcases hcases with rfl | rfl
        · rw [Function.update_of_ne (by decide), Function.update_self]
          refine (hprev.muladd _ n).congr fun i _ => ?_
          rw [hsucc, if_pos rfl, pow_one, Pi.add_apply]
        · rw [Function.update_self, Function.update_of_ne (by decide)]
          refine (hprev.muladd _ n).congr fun i _ => ?_
          rw [hsucc, if_pos rfl, gf256_sqr, denote_mul, sq, Pi.add_apply]
      · rw [Function.update_of_ne hne]
        refine hprev.congr fun i _ => ?_
        rw [hsucc, if_neg hne.symm, add_zero]

theorem setParameters_spec {count total_bytes : ℕ} {data : ℕ → Bytes}
    (h : AppDataWindow.SetParameters count total_bytes data = some win) :
    0 < count ∧ win.InputCount = count ∧ win.OriginalData = data ∧
      win.FinalBytes = if total_bytes % SymbolSize = 0 then SymbolSize
        else total_bytes % SymbolSize := by
  unfold AppDataWindow.SetParameters at h
  by_cases hbad : count = 0 ∨ total_bytes < count
  · rw [if_pos hbad] at h
    cases h
  rw [if_neg hbad] at h
  obtain rfl := Option.some.inj h
  exact ⟨Nat.pos_of_ne_zero fun h0 => hbad (.inl h0), rfl, rfl, rfl⟩

/-- **The sums of the lanes.** -/
theorem initialize_spec {count total_bytes : ℕ} {data : ℕ → Bytes} {enc : Encoder}
    (h : Encoder.Initialize count data total_bytes = some enc) :
    AppDataWindow.SetParameters count total_bytes data = some enc.Window ∧
      ∀ lane < kColumnLaneCount, ∀ k < kColumnSumCount,
        Holds (enc.LaneSums lane k) (laneTotal enc.Window count lane k) := by
  unfold Encoder.Initialize at h
  rcases hwin : AppDataWindow.SetParameters count total_bytes data with _ | win
  · rw [hwin] at h
    cases h
  rw [hwin] at h
  obtain rfl := Option.some.inj h
  obtain ⟨hcount, hinput, -⟩ := setParameters_spec hwin
  refine ⟨rfl, fun lane hlane k hk => ?_⟩
  obtain ⟨hplain, hproducts⟩ := holds_addProducts win (plainSums win) count
    fun lane k hk => by
      rw [plainSums, if_neg fun h => hk.ne' h.2]
      exact holds_replicate
  rcases Nat.eq_zero_or_pos k with rfl | hpos
  · dsimp only
    rw [hplain, plainSums, if_pos ⟨hlane, rfl⟩]
    refine (holds_laneSum (hinput ▸ hcount) hlane).congr fun i _ => ?_
    unfold laneTotal
    rw [Finset.sum_apply, hinput]
    refine Finset.sum_congr rfl fun j _ => ?_
    rw [pow_zero, one_mul]
  · exact hproducts lane k hpos hk

/-! ### A row -/

/-- The generator of a row after `i` numbers. -/
def drawn (count : ℕ) (row : BitVec 32) (i : ℕ) : PCGRandom :=
  PCGRandom.step^[i] (PCGRandom.Seed (row.setWidth 64) (BitVec.ofNat 64 count))

theorem drawn_succ (count : ℕ) (row : BitVec 32) (i : ℕ) :
    drawn count row (i + 1) = (drawn count row i).step := Function.iterate_succ_apply' ..

/-- The columns drawn for a row: the even ones are added to the sum and the odd ones to the
product. -/
def element (count : ℕ) (row : BitVec 32) (i : ℕ) : ℕ := (drawn count row i).out.toNat % count

/-- The number of pairs drawn. -/
def pairs (count : ℕ) : ℕ := (count + kPairAddRate - 1) % 2 ^ 32 / kPairAddRate - 1 + 1

/-- How much of a column is in the sum, or in the product. -/
noncomputable def share (count : ℕ) (row : BitVec 32) (first shift j : ℕ) : GF256 :=
  (∑ t ∈ Finset.range (pairs count), if element count row (2 * t + first) = j then 1 else 0) +
    ∑ k ∈ Finset.range kColumnSumCount,
      if (GetRowOpcode (j % kColumnLaneCount) row).getLsbD (shift + k) then
        denote (GetColumnValue j) ^ k else 0

/-- The coefficient of a column in a row. -/
noncomputable def coefficient (count : ℕ) (row : BitVec 32) (j : ℕ) : GF256 :=
  share count row 0 0 j + denote (GetRowValue row) * share count row 1 kColumnSumCount j

variable {enc : Encoder}

theorem XORSummer.Sums.addLane (h : s.Sums v) {lane : ℕ} (opcode : BitVec 32) (shift : ℕ)
    (hsums : ∀ k < kColumnSumCount,
      Holds (enc.LaneSums lane k) (laneTotal enc.Window enc.Window.InputCount lane k)) :
    (addLane enc lane opcode shift s).Sums (v + ∑ k ∈ Finset.range kColumnSumCount,
      if opcode.getLsbD (shift + k) then laneTotal enc.Window enc.Window.InputCount lane k
      else 0) := by
  refine foldl_range_add (fun k hk s v h => ?_) h
  split_ifs with hbit
  · refine (h.add _).congr fun i hi => ?_
    rw [Pi.add_apply, Pi.add_apply, (hsums k hk).val i hi]
  · rw [add_zero]
    exact h

theorem sums_pairs (win : AppDataWindow) (row : BitVec 32) (n : ℕ)
    {r : PCGRandom × XORSummer × XORSummer}
    (hr : r = (addPair win)^[n] (drawn win.InputCount row 2,
      XORSummer.init (copyColumn win (element win.InputCount row 0)),
      XORSummer.init (copyColumn win (element win.InputCount row 1)))) :
    r.2.1.Sums (∑ t ∈ Finset.range (n + 1), column win (element win.InputCount row (2 * t))) ∧
      r.2.2.Sums
        (∑ t ∈ Finset.range (n + 1), column win (element win.InputCount row (2 * t + 1))) := by
  have hrun := iterate_add (f := addPair win)
    (Q := fun t s v => s.1 = drawn win.InputCount row (2 * t + 2) ∧ s.2.1.Sums v.1 ∧ s.2.2.Sums v.2)
    (g := fun t => (column win (element win.InputCount row (2 * (t + 1))),
      column win (element win.InputCount row (2 * (t + 1) + 1)))) (fun t s v hs => ?_) n
    (s := (drawn win.InputCount row 2,
      XORSummer.init (copyColumn win (element win.InputCount row 0)),
      XORSummer.init (copyColumn win (element win.InputCount row 1))))
    (v := (column win (element win.InputCount row 0), column win (element win.InputCount row 1)))
    ⟨by rw [Nat.mul_zero, Nat.zero_add], XORSummer.sums_init (holds_copyColumn win _),
      XORSummer.sums_init (holds_copyColumn win _)⟩
  · obtain ⟨-, hsum, hprod⟩ := hrun
    rw [← hr] at hsum hprod
    rw [Prod.fst_add, Prod.fst_sum] at hsum
    rw [Prod.snd_add, Prod.snd_sum] at hprod
    rw [Finset.sum_range_succ', Finset.sum_range_succ', add_comm,
      add_comm (∑ t ∈ _, _) (column _ _)]
    exact ⟨hsum, hprod⟩
  · obtain ⟨hprng, hsum, hprod⟩ := hs
    unfold addPair
    dsimp only
    rw [hprng, ← drawn_succ, ← drawn_succ]
    exact ⟨rfl, hsum.addColumn _, hprod.addColumn _⟩

theorem sum_drawn {count : ℕ} (el : ℕ → ℕ) (hel : ∀ t, el t < count) (n : ℕ)
    (col : ℕ → GF256) : ∑ t ∈ Finset.range n, col (el t) =
      ∑ j ∈ Finset.range count, (∑ t ∈ Finset.range n, if el t = j then 1 else 0) * col j := by
  simp only [Finset.sum_mul, ite_mul, one_mul, zero_mul]
  rw [Finset.sum_comm]
  refine Finset.sum_congr rfl fun t _ => ?_
  rw [Finset.sum_ite_eq, if_pos (Finset.mem_range.mpr (hel t))]

theorem sum_selected (win : AppDataWindow) (n : ℕ) (row : BitVec 32) (shift i : ℕ) :
    (∑ lane ∈ Finset.range kColumnLaneCount, ∑ k ∈ Finset.range kColumnSumCount,
      if (GetRowOpcode lane row).getLsbD (shift + k) then laneTotal win n lane k i else 0) =
    ∑ j ∈ Finset.range n, (∑ k ∈ Finset.range kColumnSumCount,
      if (GetRowOpcode (j % kColumnLaneCount) row).getLsbD (shift + k) then
        denote (GetColumnValue j) ^ k else 0) * column win j i := by
  rw [← sum_lanes (m := kColumnLaneCount) (by decide) n fun lane j =>
    (∑ k ∈ Finset.range kColumnSumCount, if (GetRowOpcode lane row).getLsbD (shift + k) then
      denote (GetColumnValue j) ^ k else 0) * column win j i]
  refine Finset.sum_congr rfl fun lane _ => ?_
  simp only [Finset.sum_mul, ite_mul, zero_mul]
  rw [Finset.sum_comm]
  refine Finset.sum_congr rfl fun k _ => ?_
  unfold laneTotal
  split_ifs
  · rfl
  · exact Finset.sum_const_zero.symm

/-- The columns drawn and the sums selected are the shares of the columns. -/
theorem sum_share {win : AppDataWindow} (hcount : 0 < win.InputCount) (row : BitVec 32)
    (first shift i : ℕ) :
    ((∑ t ∈ Finset.range (pairs win.InputCount),
        column win (element win.InputCount row (2 * t + first))) +
      ∑ lane ∈ Finset.range kColumnLaneCount, ∑ k ∈ Finset.range kColumnSumCount,
        if (GetRowOpcode lane row).getLsbD (shift + k) then laneTotal win win.InputCount lane k
        else 0) i =
    ∑ j ∈ Finset.range win.InputCount, share win.InputCount row first shift j * column win j i := by
  have hdrawn := sum_drawn (fun t => element win.InputCount row (2 * t + first))
    (fun t => Nat.mod_lt _ hcount) (pairs win.InputCount) fun j => column win j i
  have hselected := sum_selected win win.InputCount row shift i
  rw [Pi.add_apply, Finset.sum_apply, hdrawn, Finset.sum_apply]
  simp only [Finset.sum_apply, ite_apply, Pi.zero_apply, hselected, share, add_mul,
    Finset.sum_add_distrib]

theorem holds_encode {count total_bytes : ℕ} {data : ℕ → Bytes} {enc : Encoder}
    (h : Encoder.Initialize count data total_bytes = some enc) (row : BitVec 32) :
    ∃ z, enc.Encode SymbolSize row = some z ∧
      Holds z fun i =>
        ∑ j ∈ Finset.range count, coefficient count row j * column enc.Window j i := by
  obtain ⟨hwin, hsums⟩ := initialize_spec h
  obtain ⟨hcount, hinput, -⟩ := setParameters_spec hwin
  have hel : ∀ t, element count row t < count := fun t => Nat.mod_lt _ hcount
  subst hinput
  unfold Encoder.Encode
  rw [if_neg (not_not_intro rfl)]
  refine ⟨_, rfl, ?_⟩
  generalize hr : (addPair enc.Window)^[(enc.Window.InputCount + kPairAddRate - 1) % 2 ^ 32 /
    kPairAddRate - 1] _ = r
  obtain ⟨hsum, hprod⟩ := sums_pairs enc.Window row _ hr.symm
  -- the lanes add to what the pairs have left
  have hlanes := foldl_range_add (n := kColumnLaneCount)
    (Q := fun (s : XORSummer × XORSummer) (v : (ℕ → GF256) × (ℕ → GF256)) =>
      s.1.Sums v.1 ∧ s.2.Sums v.2)
    (f := fun s lane => (addLane enc lane (GetRowOpcode lane row) 0 s.1,
      addLane enc lane (GetRowOpcode lane row) kColumnSumCount s.2))
    (g := fun lane => (∑ k ∈ Finset.range kColumnSumCount,
      if (GetRowOpcode lane row).getLsbD (0 + k) then
        laneTotal enc.Window enc.Window.InputCount lane k else 0,
      ∑ k ∈ Finset.range kColumnSumCount,
      if (GetRowOpcode lane row).getLsbD (kColumnSumCount + k) then
        laneTotal enc.Window enc.Window.InputCount lane k else 0))
    (s := r.2) (v := (_, _))
    (fun lane hlane s v hs => ⟨hs.1.addLane (GetRowOpcode lane row) 0 (hsums lane hlane),
      hs.2.addLane (GetRowOpcode lane row) kColumnSumCount (hsums lane hlane)⟩) ⟨hsum, hprod⟩
  refine (hlanes.1.muladd_symbol hlanes.2 (GetRowValue row)).congr fun i _ => ?_
  have hplain := sum_share hcount row 0 0 i
  have hproduct := sum_share hcount row 1 kColumnSumCount i
  rw [Pi.add_apply, Prod.fst_add, Prod.fst_sum, Prod.snd_add, Prod.snd_sum]
  refine (congrArg₂ (fun a b => a + denote (GetRowValue row) * b) hplain hproduct).trans ?_
  rw [Finset.mul_sum, ← Finset.sum_add_distrib]
  refine Finset.sum_congr rfl fun j _ => ?_
  rw [coefficient]
  ring

theorem initialize_isSome {count total_bytes : ℕ} (data : ℕ → Bytes) (hcount : 0 < count)
    (htotal : count ≤ total_bytes) :
    ∃ enc, Encoder.Initialize count data total_bytes = some enc := by
  have hgood : ¬ (count = 0 ∨ total_bytes < count) := by omega
  unfold Encoder.Initialize AppDataWindow.SetParameters
  rw [if_neg hgood]
  exact ⟨_, rfl⟩

/-- **A recovery packet is a combination of the columns**, with coefficients that do not depend on
what is in them. -/
theorem encode_combination {count total_bytes : ℕ} (data : ℕ → Bytes) (hcount : 0 < count)
    (htotal : count ≤ total_bytes) :
    ∃ enc, Encoder.Initialize count data total_bytes = some enc ∧ enc.Window.OriginalData = data ∧
      enc.Window.InputCount = count ∧ ∀ row, ∃ z, enc.Encode SymbolSize row = some z ∧
        z.length = SymbolSize ∧ ∀ i < SymbolSize, denote (z.getD i 0) =
          ∑ j ∈ Finset.range count, coefficient count row j * column enc.Window j i := by
  obtain ⟨enc, henc⟩ := initialize_isSome data hcount htotal
  obtain ⟨-, hinput, hdata, -⟩ := setParameters_spec (initialize_spec henc).1
  refine ⟨enc, henc, hdata, hinput, fun row => ?_⟩
  obtain ⟨z, hz, hholds⟩ := holds_encode henc row
  exact ⟨z, hz, hholds.length, hholds.val⟩

theorem encode_combination_three : ∃ enc,
    Encoder.Initialize 3 (fun j => List.replicate SymbolSize (BitVec.ofNat 8 j)) 4000 = some enc ∧
      enc.Window.OriginalData = (fun j => List.replicate SymbolSize (BitVec.ofNat 8 j)) ∧
      enc.Window.InputCount = 3 ∧ ∀ row, ∃ z, enc.Encode SymbolSize row = some z ∧
        z.length = SymbolSize ∧ ∀ i < SymbolSize, denote (z.getD i 0) =
          ∑ j ∈ Finset.range 3, coefficient 3 row j * column enc.Window j i :=
  encode_combination _ (by decide) (by decide)

end RemotePlay.Fec
