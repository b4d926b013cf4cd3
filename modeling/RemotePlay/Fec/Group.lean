import RemotePlay.Fec.EncoderSum
import RemotePlay.Arq.Segment

/-! # The packets of a group

`ikcp_queue_send_cur` makes a group of the originals it has taken from the queues and of recovery
packets: copies of the original where there is one, and rows of the code else.  As many packets of a
group as it has originals determine the whole group, whichever they are (`group_recoverable`). -/

namespace RemotePlay.Fec

open RemotePlay.Lib.ByteMemory
open RemotePlay.Arq (FecType)

/-- What the recovery packets of a group hold. -/
def recoveryData (fty : FecType) (data : ℕ → Bytes) : Option (List Bytes) :=
  let counts := fty.counts
  if counts.original_count = 1 then some (List.replicate counts.recovery_count (data 0))
  else do
    let encoder ←
      Encoder.Initialize counts.original_count data (counts.original_count * FEC_DATA_SIZE)
    (List.range counts.recovery_count).mapM fun recovery_index =>
      encoder.Encode FEC_DATA_SIZE (BitVec.ofNat 32 recovery_index)

/-- What the packets of a group hold, by `gid`. -/
def groupData (fty : FecType) (data : ℕ → Bytes) : Option (List Bytes) :=
  (recoveryData fty data).map fun recovery =>
    (List.range fty.counts.original_count).map data ++ recovery

/-! ### The row of two columns -/

theorem exp_23 : exp 23 = 3 := by decide +kernel

theorem exp_159 : exp 159 = 202 := by decide +kernel

theorem gf256_mul_three : gf256_mul 3 3 = 5 := by
  rw [← exp_23, gf256_mul_exp]
  decide +kernel

theorem gf256_mul_202 : gf256_mul 202 202 = 211 := by
  rw [← exp_159, gf256_mul_exp]
  decide +kernel

theorem share_two (row : BitVec 32) (first shift j : ℕ) : share 2 row first shift j =
    (if element 2 row first = j then 1 else 0) +
      ((if (GetRowOpcode (j % kColumnLaneCount) row).getLsbD shift then 1 else 0) +
      (if (GetRowOpcode (j % kColumnLaneCount) row).getLsbD (shift + 1) then
        denote (GetColumnValue j) else 0) +
      if (GetRowOpcode (j % kColumnLaneCount) row).getLsbD (shift + 2) then
        denote (GetColumnValue j) ^ 2 else 0) := by
  have hpairs : pairs 2 = 1 := by decide
  have hthree : kColumnSumCount = 3 := rfl
  rw [share, hpairs, hthree, Finset.sum_range_one, Finset.sum_range_succ, Finset.sum_range_succ,
    Finset.sum_range_one, Nat.mul_zero, Nat.zero_add, Nat.add_zero, pow_zero, pow_one]

theorem denote_two_mul (e : BitVec 8) : denote 2 * denote e = denote (double e) := by
  have htwo : denote 2 = AdjoinRoot.root modulus := by
    rw [show (2 : BitVec 8) = exp 1 by decide, denote_exp, pow_one]
  rw [denote_double, htwo]

theorem denote_sq_three : denote 3 ^ 2 = denote 5 := by
  rw [sq, ← denote_mul, gf256_mul_three]

theorem denote_sq_202 : denote 202 ^ 2 = denote 211 := by
  rw [sq, ← denote_mul, gf256_mul_202]

theorem coefficient_zero : coefficient 2 0 0 = denote 3 := by
  have hplain : share 2 0 0 0 0 = denote 7 := by
    rw [share_two, if_neg (by decide +kernel), if_pos (by decide), if_pos (by decide),
      if_pos (by decide), show GetColumnValue 0 = 3 by decide, denote_sq_three, zero_add,
      ← denote_one, ← denote_xor, ← denote_xor]
    rfl
  have hproduct : share 2 0 1 kColumnSumCount 0 = denote 2 := by
    rw [share_two, if_pos (by decide +kernel), if_neg (by decide), if_pos (by decide),
      if_neg (by decide), show GetColumnValue 0 = 3 by decide, zero_add, add_zero,
      ← denote_one, ← denote_xor]
    rfl
  rw [coefficient, hplain, hproduct, show GetRowValue 0 = 2 by decide, denote_two_mul,
    ← denote_xor]
  congr 1

theorem coefficient_one : coefficient 2 0 1 = denote 42 := by
  have hplain : share 2 0 0 0 1 = denote 24 := by
    rw [share_two, if_pos (by decide +kernel), if_neg (by decide), if_pos (by decide),
      if_pos (by decide), show GetColumnValue 1 = 202 by decide, denote_sq_202, zero_add,
      ← denote_one, ← denote_xor, ← denote_xor]
    rfl
  have hproduct : share 2 0 1 kColumnSumCount 1 = denote 25 := by
    rw [share_two, if_neg (by decide +kernel), if_neg (by decide), if_pos (by decide),
      if_pos (by decide), show GetColumnValue 1 = 202 by decide, denote_sq_202, zero_add,
      zero_add, ← denote_xor]
    rfl
  rw [coefficient, hplain, hproduct, show GetRowValue 0 = 2 by decide, denote_two_mul,
    ← denote_xor]
  congr 1

/-! ### Recovering -/

theorem eq_of_denote {x y : Bytes} (hx : x.length = SymbolSize) (hy : y.length = SymbolSize)
    (h : ∀ i < SymbolSize, denote (x.getD i 0) = denote (y.getD i 0)) : x = y := by
  refine List.ext_getElem (hx.trans hy.symm) fun i hi hi' => ?_
  have hbyte := denote_injective (h i (hx ▸ hi))
  rwa [List.getD_eq_getElem _ _ hi, List.getD_eq_getElem _ _ hi'] at hbyte

variable {data data' : ℕ → Bytes}

theorem recoveryData_two (data : ℕ → Bytes) : ∃ z, recoveryData .t2_3 data = some [z] ∧
    Holds z fun i =>
      denote 3 * denote ((data 0).getD i 0) + denote 42 * denote ((data 1).getD i 0) := by
  obtain ⟨enc, henc⟩ := initialize_isSome data (by decide : 0 < 2)
    (by decide : 2 ≤ 2 * FEC_DATA_SIZE)
  obtain ⟨z, hz, hholds⟩ := holds_encode henc 0
  obtain ⟨-, hinput, hdata, hfinal⟩ := setParameters_spec (initialize_spec henc).1
  have hfull : enc.Window.FinalBytes = SymbolSize := hfinal.trans (if_pos (by decide))
  have hcolumn : ∀ j, ∀ i < SymbolSize, column enc.Window j i = denote ((data j).getD i 0) := by
    intro j i hi
    rw [column, AppDataWindow.GetColumnBytes, hfull, hdata, ite_self, if_pos hi]
  have hmap : ∀ f : ℕ → Option Bytes, f 0 = some z → [0].mapM f = some [z] := by
    intro f hf
    rw [List.mapM_cons, List.mapM_nil, hf]
    rfl
  refine ⟨z, ?_, hholds.congr fun i hi => ?_⟩
  · unfold recoveryData
    dsimp only
    rw [if_neg (by decide), show FecType.t2_3.counts.original_count = 2 from rfl, henc,
      show FecType.t2_3.counts.recovery_count = 1 from rfl, show List.range 1 = [0] from rfl,
      Option.bind_eq_bind, Option.bind_some]
    have hrow : enc.Encode FEC_DATA_SIZE (BitVec.ofNat 32 0) = some z := hz
    exact hmap (fun recovery_index => enc.Encode FEC_DATA_SIZE (BitVec.ofNat 32 recovery_index))
      hrow
  · rw [Finset.sum_range_succ, Finset.sum_range_one, coefficient_zero, coefficient_one,
      hcolumn 0 i hi, hcolumn 1 i hi]

theorem two_of_three {known : Finset ℕ} (hsub : known ⊆ Finset.range 3) (hcard : 2 ≤ known.card) :
    0 ∈ known ∧ 1 ∈ known ∨ 0 ∈ known ∧ 2 ∈ known ∨ 1 ∈ known ∧ 2 ∈ known := by
  have hall : ∀ known ∈ (Finset.range 3).powerset, 2 ≤ known.card →
      0 ∈ known ∧ 1 ∈ known ∨ 0 ∈ known ∧ 2 ∈ known ∨ 1 ∈ known ∧ 2 ∈ known := by
    decide
  exact hall known (Finset.mem_powerset.mpr hsub) hcard

theorem groupData_copies {fty : FecType} (h : fty.counts.original_count = 1) (data : ℕ → Bytes) :
    groupData fty data = some (List.replicate fty.total (data 0)) := by
  unfold groupData recoveryData
  dsimp only
  rw [if_pos h, h, Option.map_some, FecType.total, h, Nat.add_comm]
  rfl

theorem groupData_two_congr (h0 : data 0 = data' 0) (h1 : data 1 = data' 1) :
    groupData .t2_3 data = groupData .t2_3 data' := by
  obtain ⟨z, hz, hholds⟩ := recoveryData_two data
  obtain ⟨z', hz', hholds'⟩ := recoveryData_two data'
  rw [h0, h1] at hholds
  have heq : z = z' := eq_of_denote hholds.length hholds'.length fun i hi =>
    (hholds.val i hi).trans (hholds'.val i hi).symm
  have hpair : (List.range 2).map data = (List.range 2).map data' := by
    show [data 0, data 1] = [data' 0, data' 1]
    rw [h0, h1]
  unfold groupData
  rw [hz, hz', heq, show FecType.t2_3.counts.original_count = 2 from rfl, hpair]

/-- **As many packets as there are originals are enough.** -/
theorem group_recoverable (fty : FecType) (hlen : ∀ j, (data j).length = FEC_DATA_SIZE)
    (hlen' : ∀ j, (data' j).length = FEC_DATA_SIZE) :
    ∃ packets packets', groupData fty data = some packets ∧ groupData fty data' = some packets' ∧
      packets.length = fty.total ∧
      ∀ known ⊆ Finset.range fty.total, fty.counts.original_count ≤ known.card →
        (∀ gid ∈ known, packets[gid]? = packets'[gid]?) →
        ∀ j < fty.counts.original_count, data j = data' j := by
  by_cases hone : fty.counts.original_count = 1
  · -- any packet is the original
    refine ⟨_, _, groupData_copies hone data, groupData_copies hone data', List.length_replicate,
      fun known hsub hcard hsame j hj => ?_⟩
    obtain ⟨gid, hgid⟩ : known.Nonempty := Finset.card_pos.mp (by omega)
    have hlt := Finset.mem_range.mp (hsub hgid)
    have hpacket := hsame gid hgid
    rw [List.getElem?_replicate_of_lt hlt, List.getElem?_replicate_of_lt hlt] at hpacket
    rw [hone, Nat.lt_one_iff] at hj
    rw [hj]
    exact Option.some.inj hpacket
  have htype : fty = .t2_3 := by
    cases fty
    · exact absurd rfl hone
    · exact absurd rfl hone
    · exact absurd rfl hone
    · rfl
  subst htype
  obtain ⟨z, hz, hholds⟩ := recoveryData_two data
  obtain ⟨z', hz', hholds'⟩ := recoveryData_two data'
  refine ⟨[data 0, data 1, z], [data' 0, data' 1, z'], ?_, ?_, rfl,
    fun known hsub hcard hsame => ?_⟩
  · rw [groupData, hz]
    rfl
  · rw [groupData, hz']
    rfl
  -- one original and the recovery packet give the other
  have hthree : known ⊆ Finset.range 3 := hsub
  have hrow : z = z' → ∀ i < SymbolSize,
      denote 3 * denote ((data 0).getD i 0) + denote 42 * denote ((data 1).getD i 0) =
        denote 3 * denote ((data' 0).getD i 0) + denote 42 * denote ((data' 1).getD i 0) := by
    intro heq i hi
    rw [← hholds.val i hi, ← hholds'.val i hi, heq]
  have hboth : data 0 = data' 0 ∧ data 1 = data' 1 := by
    rcases two_of_three hthree hcard with ⟨h0, h1⟩ | ⟨h0, h2⟩ | ⟨h1, h2⟩
    · exact ⟨Option.some.inj (hsame 0 h0), Option.some.inj (hsame 1 h1)⟩
    · have hfirst : data 0 = data' 0 := Option.some.inj (hsame 0 h0)
      refine ⟨hfirst, eq_of_denote (hlen 1) (hlen' 1) fun i hi => ?_⟩
      have hsum := hrow (Option.some.inj (hsame 2 h2)) i hi
      rw [hfirst] at hsum
      exact denote_mul_cancel (by decide) (add_left_cancel hsum)
    · have hsecond : data 1 = data' 1 := Option.some.inj (hsame 1 h1)
      refine ⟨eq_of_denote (hlen 0) (hlen' 0) fun i hi => ?_, hsecond⟩
      have hsum := hrow (Option.some.inj (hsame 2 h2)) i hi
      rw [hsecond] at hsum
      exact denote_mul_cancel (by decide) (add_right_cancel hsum)
  intro j hj
  have hcases : j = 0 ∨ j = 1 := by
    have h2 : FecType.t2_3.counts.original_count = 2 := rfl
    omega
  rcases hcases with rfl | rfl
  · exact hboth.1
  · exact hboth.2

/-- Packet 0 is lost, and the other two of a group of two are those of another one, which differs
from it only past its originals. -/
theorem group_recoverable_two : ∃ packets packets',
    groupData .t2_3 (fun j => List.replicate FEC_DATA_SIZE (BitVec.ofNat 8 j)) = some packets ∧
      groupData .t2_3 (fun j => List.replicate FEC_DATA_SIZE (BitVec.ofNat 8 (j % 2))) =
        some packets' ∧
      (∀ gid ∈ ({1, 2} : Finset ℕ), packets[gid]? = packets'[gid]?) ∧
      ∀ j < 2, List.replicate FEC_DATA_SIZE (BitVec.ofNat 8 j) =
        List.replicate FEC_DATA_SIZE (BitVec.ofNat 8 (j % 2)) := by
  have hlen : ∀ j, (List.replicate FEC_DATA_SIZE (BitVec.ofNat 8 j)).length = FEC_DATA_SIZE :=
    fun _ => List.length_replicate
  obtain ⟨packets, packets', h, h', -, hsame⟩ :=
    group_recoverable .t2_3 hlen fun j => hlen (j % 2)
  have heq : packets = packets' := by
    have hgroup : groupData .t2_3 (fun j => List.replicate FEC_DATA_SIZE (BitVec.ofNat 8 j)) =
        groupData .t2_3 fun j => List.replicate FEC_DATA_SIZE (BitVec.ofNat 8 (j % 2)) :=
      groupData_two_congr rfl rfl
    exact Option.some.inj (h.symm.trans (hgroup.trans h'))
  have hknown : ∀ gid ∈ ({1, 2} : Finset ℕ), packets[gid]? = packets'[gid]? := fun gid _ => by
    rw [heq]
  exact ⟨packets, packets', h, h', hknown, hsame {1, 2} (by decide) (by decide) hknown⟩

end RemotePlay.Fec
