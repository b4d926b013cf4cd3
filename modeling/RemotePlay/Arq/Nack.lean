import RemotePlay.Config
import Mathlib.Tactic.Linarith

/-! # The packets reported missing

The receiver answers with ranges of packet ids that it misses, each a start and a count in one word;
ids have twelve bits and wrap around.  `ikcp_input` reads the ranges into a list, the last of them
extended to a quarter of the ids, and `ikcp_input_check_nack` looks an id up in the list, stopping
early at a range that starts after it.  For ranges in ascending order the answer is right, wherever
the ids wrap (`checkNack_iff`). -/

namespace RemotePlay.Arq

/-- The bits of a packet id. -/
def PID_NBITS : ℕ := 12
/-- The bits of a range's count. -/
def COUNT_NBITS : ℕ := 16 - PID_NBITS

/-- An element of `nacks`. -/
structure Nack where
  start : ℕ
  count : ℕ
  deriving DecidableEq, Repr

/-- The words of a datagram; a byte left is not read. -/
def words : List UInt8 → List ℕ
  | a :: b :: data => (a.toNat + b.toNat <<< 8) :: words data
  | _ => []

/-- The first id of a range. -/
def nackStart (val : ℕ) : ℕ := val >>> COUNT_NBITS &&& (1 <<< PID_NBITS - 1)

/-- The ranges in the words after the header; the last one gets the count `2 ^ 10 - 1`. -/
def parseNacks : List ℕ → List Nack
  | [] => []
  | [val] => [⟨nackStart val, 1 <<< (PID_NBITS - 2) - 1⟩]
  | val :: vals => ⟨nackStart val, val &&& (1 <<< COUNT_NBITS - 1)⟩ :: parseNacks vals

/-- `(pid - nack_start) & ((1 << PID_NBITS) - 1)`, of words of 16 bits. -/
def pidDiff (pid start : ℕ) : ℕ := (pid + 2 ^ 16 - start) % 2 ^ 16 &&& (1 <<< PID_NBITS - 1)

/-- `ikcp_input_check_nack`: whether a packet is reported missing. -/
def checkNack (pid : ℕ) : List Nack → Bool
  | [] => false
  | nack :: nacks =>
    if 1 <<< PID_NBITS - 1 <<< (PID_NBITS - 2) ≤ pidDiff pid nack.start then false
    else if pidDiff pid nack.start ≤ nack.count then true
    else checkNack pid nacks

/-! ### What the answer should be -/

/-- How far an id is after another, around the circle of ids. -/
def after (a b : ℕ) : ℕ := (b + 2 ^ PID_NBITS - a) % 2 ^ PID_NBITS

/-- The id lies in a range. -/
def Nack.Contains (nack : Nack) (pid : ℕ) : Prop := after nack.start pid ≤ nack.count

/-- How many ids there are from the first start to the last. -/
def span : List Nack → ℕ
  | nack :: nack' :: nacks => after nack.start nack'.start + span (nack' :: nacks)
  | _ => 0

/-- The id is near the ranges: at most `2 ^ 10` ids before the first start, or fewer than `2 ^ 10`
after the last one. -/
def Near (pid : ℕ) : List Nack → Prop
  | [] => False
  | nack :: nacks => after pid nack.start ≤ 2 ^ (PID_NBITS - 2) ∨
      after nack.start pid < span (nack :: nacks) + 2 ^ (PID_NBITS - 2)

/-! ### Ids -/

theorem nackStart_lt (val : ℕ) : nackStart val < 2 ^ PID_NBITS := by
  rw [nackStart, Nat.one_shiftLeft, Nat.and_two_pow_sub_one_eq_mod]
  exact Nat.mod_lt _ (by decide)

theorem pidDiff_eq {pid start : ℕ} (hp : pid < 2 ^ PID_NBITS) (hs : start < 2 ^ PID_NBITS) :
    pidDiff pid start = after start pid := by
  rw [pidDiff, after, Nat.one_shiftLeft, Nat.and_two_pow_sub_one_eq_mod]
  simp only [PID_NBITS] at *
  omega

theorem after_lt (a b : ℕ) : after a b < 2 ^ PID_NBITS := Nat.mod_lt _ (by decide)

theorem after_trans {a b c : ℕ} (ha : a < 2 ^ PID_NBITS) (hb : b < 2 ^ PID_NBITS)
    (hc : c < 2 ^ PID_NBITS) : after a c = after a b + after b c ∨
      after a c + 2 ^ PID_NBITS = after a b + after b c := by
  simp only [after, PID_NBITS] at *
  omega

theorem after_comm {a b : ℕ} (ha : a < 2 ^ PID_NBITS) (hb : b < 2 ^ PID_NBITS) :
    after a b = 0 ∧ after b a = 0 ∨ after a b + after b a = 2 ^ PID_NBITS := by
  simp only [after, PID_NBITS] at *
  omega

/-! ### The list -/

/-- The starts are ids, and the last count is that of an open range. -/
structure Parsed (nacks : List Nack) : Prop where
  start_lt : ∀ nack ∈ nacks, nack.start < 2 ^ PID_NBITS
  count_le : ∀ nack ∈ nacks, nack.count < 2 ^ (PID_NBITS - 2)
  last : ∀ nack ∈ nacks.getLast?, nack.count = 2 ^ (PID_NBITS - 2) - 1

theorem parseNacks_ne_nil (val : ℕ) (vals : List ℕ) : parseNacks (val :: vals) ≠ [] := by
  rcases vals with _ | ⟨_, _⟩ <;> rintro ⟨⟩

theorem parsed_parseNacks (vals : List ℕ) : Parsed (parseNacks vals) := by
  induction vals with
  | nil => exact ⟨by rintro _ ⟨⟩, by rintro _ ⟨⟩, by rintro _ ⟨⟩⟩
  | cons val vals ih =>
    rcases vals with _ | ⟨val', vals⟩
    · refine ⟨?_, ?_, ?_⟩
      · intro nack hmem
        rw [parseNacks, List.mem_singleton] at hmem
        subst hmem
        exact nackStart_lt val
      · intro nack hmem
        rw [parseNacks, List.mem_singleton] at hmem
        subst hmem
        exact Nat.lt_of_sub_eq_succ rfl
      · intro nack hmem
        obtain rfl := Option.some.inj hmem
        rfl
    · have hcons : parseNacks (val :: val' :: vals) =
          ⟨nackStart val, val &&& (1 <<< COUNT_NBITS - 1)⟩ :: parseNacks (val' :: vals) := rfl
      rw [hcons]
      refine ⟨?_, ?_, ?_⟩
      · intro nack hmem
        rcases List.mem_cons.mp hmem with rfl | hmem
        · exact nackStart_lt val
        · exact ih.start_lt nack hmem
      · intro nack hmem
        rcases List.mem_cons.mp hmem with rfl | hmem
        · exact Nat.and_le_right.trans_lt (by decide)
        · exact ih.count_le nack hmem
      · intro nack hmem
        rw [List.getLast?_cons_of_ne_nil (parseNacks_ne_nil _ _)] at hmem
        exact ih.last nack hmem

theorem Parsed.tail {nack : Nack} {nacks : List Nack} (h : Parsed (nack :: nacks))
    (hne : nacks ≠ []) : Parsed nacks where
  start_lt nack' hmem := h.start_lt nack' (List.mem_cons_of_mem _ hmem)
  count_le nack' hmem := h.count_le nack' (List.mem_cons_of_mem _ hmem)
  last nack' hmem := h.last nack' (by rwa [List.getLast?_cons_of_ne_nil hne])

/-- An id before the first start is in no range. -/
theorem not_contains_of_before {nack : Nack} {nacks : List Nack} {pid e : ℕ}
    (hpid : pid < 2 ^ PID_NBITS) (hparsed : Parsed (nack :: nacks))
    (hspan : e + span (nack :: nacks) < 2 ^ (PID_NBITS - 2))
    (hbefore : 2 ^ PID_NBITS - 2 ^ (PID_NBITS - 2) ≤ after nack.start pid + e) :
    ∀ nack' ∈ nack :: nacks, ¬nack'.Contains pid := by
  have hfar : ∀ nack' : Nack, nack'.count < 2 ^ (PID_NBITS - 2) →
      2 ^ (PID_NBITS - 2) ≤ after nack'.start pid → ¬nack'.Contains pid := by
    intro nack' hcount hle hin
    unfold Nack.Contains at hin
    omega
  induction nacks generalizing nack e with
  | nil =>
    intro nack' hmem
    obtain rfl := List.mem_singleton.mp hmem
    refine hfar _ (hparsed.count_le _ hmem) ?_
    simp only [span, PID_NBITS] at hspan hbefore ⊢
    omega
  | cons nack₂ nacks ih =>
    have htrans := after_trans (hparsed.start_lt nack List.mem_cons_self)
      (hparsed.start_lt nack₂ (List.mem_cons_of_mem _ List.mem_cons_self)) hpid
    have hlt := after_lt nack₂.start pid
    simp only [span, PID_NBITS] at hspan hbefore htrans hlt
    intro nack' hmem
    rcases List.mem_cons.mp hmem with rfl | hmem
    · refine hfar _ (hparsed.count_le _ List.mem_cons_self) ?_
      simp only [PID_NBITS]
      omega
    · refine ih (e := e + after nack.start nack₂.start) (hparsed.tail (List.cons_ne_nil _ _)) ?_ ?_
        nack' hmem
      · simp only [PID_NBITS]
        omega
      · simp only [PID_NBITS]
        omega

theorem Near.after_first {nack : Nack} {nacks : List Nack} {pid : ℕ} (hpid : pid < 2 ^ PID_NBITS)
    (hstart : nack.start < 2 ^ PID_NBITS) (hnear : Near pid (nack :: nacks))
    (hnot : after nack.start pid < 2 ^ PID_NBITS - 2 ^ (PID_NBITS - 2))
    (hcount : nack.count < after nack.start pid) :
    after nack.start pid < span (nack :: nacks) + 2 ^ (PID_NBITS - 2) := by
  rcases hnear with h | h
  · have hcomm := after_comm hpid hstart
    omega
  · exact h

/-- **The look-up is right.** -/
theorem Parsed.checkNack_iff_contains {nacks : List Nack} {pid : ℕ} (hpid : pid < 2 ^ PID_NBITS)
    (hparsed : Parsed nacks) (hspan : span nacks < 2 ^ (PID_NBITS - 2)) (hnear : Near pid nacks) :
    checkNack pid nacks = true ↔ ∃ nack ∈ nacks, nack.Contains pid := by
  induction nacks with
  | nil => exact hnear.elim
  | cons nack nacks ih =>
    have hstart := hparsed.start_lt nack List.mem_cons_self
    rw [checkNack, pidDiff_eq hpid hstart]
    split_ifs with hbefore hin
    · -- before the first range, and so before all of them
      refine iff_of_false (by rintro ⟨⟩) ?_
      rintro ⟨nack', hmem, hin⟩
      exact not_contains_of_before (e := 0) hpid hparsed (by rwa [Nat.zero_add]) hbefore
        nack' hmem hin
    · exact iff_of_true rfl ⟨nack, List.mem_cons_self, hin⟩
    · have hafter := hnear.after_first hpid hstart (not_le.mp hbefore) (not_le.mp hin)
      have hskip : (∃ nack' ∈ nack :: nacks, nack'.Contains pid) ↔
          ∃ nack' ∈ nacks, nack'.Contains pid := by
        simp only [List.mem_cons, exists_eq_or_imp]
        exact or_iff_right hin
      rw [hskip]
      rcases nacks with _ | ⟨nack₂, nacks⟩
      · have hlast := hparsed.last nack rfl
        simp only [span] at hafter
        omega
      · have hstart₂ := hparsed.start_lt nack₂ (List.mem_cons_of_mem _ List.mem_cons_self)
        have htrans := after_trans hstart hstart₂ hpid
        have hcomm := after_comm hpid hstart₂
        have hlt := after_lt nack₂.start pid
        simp only [span, PID_NBITS] at hspan hafter htrans hcomm hlt
        refine ih (hparsed.tail (List.cons_ne_nil _ _)) ?_ ?_
        · simp only [PID_NBITS]
          omega
        · unfold Near
          simp only [PID_NBITS]
          omega

/-- **A packet is found missing exactly if it is in a range that was announced**, for every datagram
whose ranges start one after another within `2 ^ 10` ids and every id near them. -/
theorem checkNack_iff (data : List UInt8) {pid : ℕ} (hpid : pid < 2 ^ PID_NBITS)
    (hspan : span (parseNacks (words data)) < 2 ^ (PID_NBITS - 2))
    (hnear : Near pid (parseNacks (words data))) :
    checkNack pid (parseNacks (words data)) = true ↔
      ∃ nack ∈ parseNacks (words data), nack.Contains pid :=
  (parsed_parseNacks _).checkNack_iff_contains hpid hspan hnear

/-- Two ranges, the first of which wraps around. -/
theorem checkNack_iff_wrapped : checkNack 1 (parseNacks (words [0xe3, 0xff, 0x50, 0x00])) = true ↔
    ∃ nack ∈ parseNacks (words [0xe3, 0xff, 0x50, 0x00]), nack.Contains 1 :=
  checkNack_iff _ (by decide) (by decide) (Or.inr (by decide))

end RemotePlay.Arq
