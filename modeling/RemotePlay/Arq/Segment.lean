import RemotePlay.Config
import Mathlib.Data.List.Basic
import Mathlib.Tactic.Linarith

/-! # Segments and their slots

The packets queued to be sent are a list of segments, each of which has the number of packets to be
sent between its predecessor and itself (`wsn`).  So a segment's slot is the sum of what it and the
segments before it wait for, and `ikcp_insert_standalone_send_cur` puts a segment into the first
free slot from the one it asks for, rewriting the wait of its successor
(`insertStandalone_placed`). -/

namespace RemotePlay.Arq

/-- `enum FEC_TYPE`: how many of a group's packets are enough, and how many there are. -/
inductive FecType
  | t1_1 | t1_2 | t1_3 | t2_3
  deriving DecidableEq, Repr

/-- `struct fec_counts_t`. -/
structure FecCounts where
  original_count : ℕ
  recovery_count : ℕ
  deriving DecidableEq, Repr

/-- `FEC_COUNTS`. -/
def FecType.counts : FecType → FecCounts
  | t1_1 => ⟨1, 0⟩
  | t1_2 => ⟨1, 1⟩
  | t1_3 => ⟨1, 2⟩
  | t2_3 => ⟨2, 1⟩

/-- The packets of a group. -/
def FecType.total (fty : FecType) : ℕ := fty.counts.original_count + fty.counts.recovery_count

/-- `struct IKCPSEG`, the buffer as a number.  A segment also remembers its own number (`id`), the
number of the group it was last put in (`grp`) and whether it has been sent since it was queued. -/
structure Seg where
  data_buf : ℕ
  pid : ℕ
  fid : ℕ
  wsn : ℕ
  wrn : ℕ
  fty : FecType
  gid : ℕ
  recovery_data : Bool
  weak_data : Bool
  is_kcp_seg_data : Bool
  is_term_seg_data : Bool
  is_audio_seg_data : Bool
  term_notify : Bool
  gid_end : Bool
  send_time : ℕ
  id : ℕ
  grp : ℕ
  sent : Bool
  deriving DecidableEq, Repr

/-- The slots that a segment waits for, set. -/
def Seg.setWsn (seg : Seg) (wsn : ℕ) : Seg := { seg with wsn := wsn }

@[simp] theorem Seg.wsn_setWsn (seg : Seg) (wsn : ℕ) : (seg.setWsn wsn).wsn = wsn := rfl

@[simp] theorem Seg.setWsn_setWsn (seg : Seg) (a b : ℕ) : (seg.setWsn a).setWsn b = seg.setWsn b :=
  rfl

@[simp] theorem Seg.setWsn_wsn (seg : Seg) : seg.setWsn seg.wsn = seg := rfl

/-! ### Inserting -/

/-- The segment's slot is taken: it goes behind the run of segments that wait for nothing. -/
def insertRun (seg : Seg) : List Seg → ℕ × List Seg
  | [] => (1, [seg.setWsn 0])
  | cur :: rest =>
    if cur.wsn ≠ 0 then (1, seg.setWsn 0 :: cur.setWsn (cur.wsn - 1) :: rest)
    else
      let (ret, rest) := insertRun seg rest
      (ret + 1, cur :: rest)

/-- `ikcp_insert_standalone_send_cur`, with what it returns: how far the segment was moved. -/
def insertStandalone (seg : Seg) : List Seg → ℕ × List Seg
  | [] => (0, [seg])
  | cur :: rest =>
    if cur.wsn < seg.wsn then
      let (ret, rest) := insertStandalone (seg.setWsn (seg.wsn - cur.wsn - 1)) rest
      (ret, cur :: rest)
    else if cur.wsn = seg.wsn then
      let (ret, rest) := insertRun seg rest
      (ret, cur :: rest)
    else (0, seg :: cur.setWsn (cur.wsn - seg.wsn - 1) :: rest)

/-! ### Slots -/

/-- The segments of a list with their slots, counted from `base`; the waits are left out. -/
def placedFrom : ℕ → List Seg → List (Seg × ℕ)
  | _, [] => []
  | base, seg :: rest => (seg.setWsn 0, base + seg.wsn) :: placedFrom (base + seg.wsn + 1) rest

/-- **Each segment with its slot.** -/
def placed (segs : List Seg) : List (Seg × ℕ) := placedFrom 0 segs

/-- The slot of the `k`-th segment: the sum of the waits up to it, each and one more, less one. -/
def slotAt (segs : List Seg) (k : ℕ) : ℕ :=
  ((segs.take (k + 1)).map fun seg => seg.wsn + 1).sum - 1

theorem placedFrom_getElem? (base : ℕ) (segs : List Seg) (k : ℕ) :
    (placedFrom base segs)[k]? = segs[k]?.map fun seg =>
      (seg.setWsn 0, base + ((segs.take (k + 1)).map fun seg => seg.wsn + 1).sum - 1) := by
  induction segs generalizing base k with
  | nil => simp [placedFrom]
  | cons seg rest ih =>
    rcases k with _ | k
    · simp [placedFrom, ← Nat.add_assoc]
    · rw [placedFrom, List.getElem?_cons_succ, List.getElem?_cons_succ, ih, List.take_succ_cons,
        List.map_cons, List.sum_cons]
      congr 1
      funext seg'
      congr 1
      omega

theorem placed_getElem? (segs : List Seg) (k : ℕ) :
    (placed segs)[k]? = segs[k]?.map fun seg => (seg.setWsn 0, slotAt segs k) := by
  rw [placed, placedFrom_getElem?]
  simp only [Nat.zero_add, slotAt]

theorem le_of_mem_placedFrom {base : ℕ} {segs : List Seg} {x : Seg × ℕ}
    (h : x ∈ placedFrom base segs) : base ≤ x.2 := by
  induction segs generalizing base with
  | nil => cases h
  | cons seg rest ih =>
    rw [placedFrom] at h
    rcases List.mem_cons.mp h with rfl | h
    · exact Nat.le_add_right _ _
    · have := ih h
      omega

theorem pairwise_placedFrom (base : ℕ) (segs : List Seg) :
    (placedFrom base segs).Pairwise fun x y => x.2 < y.2 := by
  induction segs generalizing base with
  | nil => exact .nil
  | cons seg rest ih => exact .cons (fun x hx => le_of_mem_placedFrom hx) (ih _)

/-! ### What inserting does -/

/-- **An element is inserted at the first free slot** from the one asked for, and no other slot
changes. -/
structure Inserted {α : Type*} (l l' : List (α × ℕ)) (a : α) (asked slot : ℕ) : Prop where
  split : ∃ before after, l = before ++ after ∧ l' = before ++ (a, slot) :: after ∧
    (∀ x ∈ before, x.2 < slot) ∧ ∀ x ∈ after, slot < x.2
  le : asked ≤ slot
  taken : ∀ u, asked ≤ u → u < slot → ∃ x ∈ l, x.2 = u

variable {α : Type*} {l l' : List (α × ℕ)} {a : α} {asked slot : ℕ}

theorem Inserted.first (h : ∀ x ∈ l, asked < x.2) : Inserted l ((a, asked) :: l) a asked asked where
  split := ⟨[], l, rfl, rfl, by rintro _ ⟨⟩, h⟩
  le := le_rfl
  taken u h1 h2 := absurd h1 (not_le.mpr h2)

theorem Inserted.cons_lt (h : Inserted l l' a asked slot) {x : α × ℕ} (hx : x.2 < asked) :
    Inserted (x :: l) (x :: l') a asked slot := by
  obtain ⟨before, after, rfl, rfl, hbefore, hafter⟩ := h.split
  refine ⟨⟨x :: before, after, rfl, rfl, ?_, hafter⟩, h.le, fun u h1 h2 => ?_⟩
  · intro y hy
    rcases List.mem_cons.mp hy with rfl | hy
    · exact hx.trans_le h.le
    · exact hbefore y hy
  · obtain ⟨y, hy, hyu⟩ := h.taken u h1 h2
    exact ⟨y, List.mem_cons_of_mem _ hy, hyu⟩

theorem Inserted.cons_eq (h : Inserted l l' a (asked + 1) slot) {x : α × ℕ} (hx : x.2 = asked) :
    Inserted (x :: l) (x :: l') a asked slot := by
  have h' := h.cons_lt (x := x) (by omega)
  refine ⟨h'.split, (Nat.le_succ _).trans h.le, fun u h1 h2 => ?_⟩
  rcases Nat.eq_or_lt_of_le h1 with rfl | hlt
  · exact ⟨x, List.mem_cons_self, hx⟩
  · exact h'.taken u hlt h2

theorem insertRun_placed (base : ℕ) (seg : Seg) (rest : List Seg) :
    Inserted (placedFrom base rest) (placedFrom base (insertRun seg rest).2) (seg.setWsn 0) base
      (base + (insertRun seg rest).1 - 1) := by
  induction rest generalizing base with
  | nil => exact .first (by rintro _ ⟨⟩)
  | cons cur rest ih =>
    rw [insertRun]
    split_ifs with hcur
    · have hslot : base + 0 + 1 + (cur.wsn - 1) = base + cur.wsn := by omega
      simp only [placedFrom, Seg.wsn_setWsn, Seg.setWsn_setWsn, hslot, Nat.add_zero,
        Nat.add_sub_cancel]
      refine .first fun x hx => ?_
      rcases List.mem_cons.mp hx with rfl | hx
      · exact Nat.lt_add_of_pos_right (Nat.pos_of_ne_zero hcur)
      · have := le_of_mem_placedFrom hx
        omega
    · have hzero : cur.wsn = 0 := not_not.mp hcur
      have hbase : base + 1 + (insertRun seg rest).1 - 1 =
          base + ((insertRun seg rest).1 + 1) - 1 := by
        omega
      simp only [placedFrom, hzero, Nat.add_zero]
      rw [← hbase]
      exact (ih (base + 1)).cons_eq rfl

theorem insertStandalone_placedFrom (base : ℕ) (seg : Seg) (segs : List Seg) :
    Inserted (placedFrom base segs) (placedFrom base (insertStandalone seg segs).2) (seg.setWsn 0)
      (base + seg.wsn) (base + seg.wsn + (insertStandalone seg segs).1) := by
  induction segs generalizing base seg with
  | nil => exact .first (by rintro _ ⟨⟩)
  | cons cur rest ih =>
    rw [insertStandalone]
    split_ifs with hlt heq
    · have hasked : base + cur.wsn + 1 + (seg.wsn - cur.wsn - 1) = base + seg.wsn := by omega
      have h := ih (base + cur.wsn + 1) (seg.setWsn (seg.wsn - cur.wsn - 1))
      rw [Seg.wsn_setWsn, hasked] at h
      exact h.cons_lt (Nat.add_lt_add_left hlt _)
    · have h := insertRun_placed (base + cur.wsn + 1) seg rest
      have hslot : base + cur.wsn + 1 + (insertRun seg rest).1 - 1 =
          base + seg.wsn + (insertRun seg rest).1 := by omega
      rw [hslot, heq] at h
      simp only [placedFrom, heq]
      exact h.cons_eq rfl
    · have hslot : base + seg.wsn + 1 + (cur.wsn - seg.wsn - 1) = base + cur.wsn := by omega
      simp only [placedFrom, Seg.wsn_setWsn, Seg.setWsn_setWsn, hslot, Nat.add_zero]
      refine .first fun x hx => ?_
      rcases List.mem_cons.mp hx with rfl | hx
      · show base + seg.wsn < base + cur.wsn
        omega
      · have := le_of_mem_placedFrom hx
        omega

theorem insertStandalone_placed (seg : Seg) (segs : List Seg) :
    Inserted (placed segs) (placed (insertStandalone seg segs).2) (seg.setWsn 0) seg.wsn
      (seg.wsn + (insertStandalone seg segs).1) := by
  have h := insertStandalone_placedFrom 0 seg segs
  rwa [Nat.zero_add] at h

/-- **A segment is placed in the first free slot from the one it asks for**, the other segments keep
their slots and their order, and how far the segment was moved is returned. -/
theorem insertStandalone_slots (seg : Seg) (segs : List Seg) :
    (∀ segs k, (placed segs)[k]? = segs[k]?.map fun seg => (seg.setWsn 0, slotAt segs k)) ∧
      Inserted (placed segs) (placed (insertStandalone seg segs).2) (seg.setWsn 0) seg.wsn
        (seg.wsn + (insertStandalone seg segs).1) ∧
      (placed (insertStandalone seg segs).2).Pairwise fun x y => x.2 < y.2 :=
  ⟨placed_getElem?, insertStandalone_placed seg segs, pairwise_placedFrom 0 _⟩

end RemotePlay.Arq
