import RemotePlay.Arq.Answer

/-! # The slots of a group

`ikcp_queue_send_cur` asks for a slot for each segment of a new group, a fixed distance after the
slot that the one before it got.  So the group's segments are spaced out in their order, whatever
slots other groups have, and those keep their slots (`Slots.insert`). -/

namespace RemotePlay.Arq

variable {g I acc : ℕ} {ids : List ℕ} {old cur : List Seg} {seg : Seg}

/-! ### Lists with their slots -/

theorem placedFrom_map {β : Type*} (f : Seg → β) (hf : ∀ s w, f (s.setWsn w) = f s) (base : ℕ)
    (l : List Seg) : (placedFrom base l).map (fun x => f x.1) = l.map f := by
  induction l generalizing base with
  | nil => rfl
  | cons s l ih => rw [placedFrom, List.map_cons, List.map_cons, ih, hf]

theorem placed_map {β : Type*} (f : Seg → β) (hf : ∀ s w, f (s.setWsn w) = f s) (l : List Seg) :
    (placed l).map (fun x => f x.1) = l.map f :=
  placedFrom_map f hf 0 l

theorem length_placed (l : List Seg) : (placed l).length = l.length := by
  have h := congrArg List.length (placed_map Seg.tag (fun _ _ => rfl) l)
  rwa [List.length_map, List.length_map] at h

theorem insertRun_le (seg : Seg) (l : List Seg) : (insertRun seg l).1 ≤ l.length + 1 := by
  induction l with
  | nil => exact le_rfl
  | cons cur l ih =>
    rw [insertRun]
    split_ifs
    · exact Nat.le_add_left 1 _
    · exact Nat.succ_le_succ ih

/-- A segment is moved past at most the segments there are. -/
theorem insertStandalone_le (seg : Seg) (l : List Seg) : (insertStandalone seg l).1 ≤ l.length := by
  induction l generalizing seg with
  | nil => exact le_rfl
  | cons cur l ih =>
    rw [insertStandalone]
    split_ifs
    · exact (ih _).trans (Nat.le_succ _)
    · exact insertRun_le seg l
    · exact Nat.zero_le _

theorem placedFrom_add (base d : ℕ) (l : List Seg) :
    placedFrom (base + d) l = (placedFrom base l).map fun x => (x.1, x.2 + d) := by
  induction l generalizing base with
  | nil => rfl
  | cons s l ih =>
    rw [placedFrom, placedFrom, List.map_cons, ← ih (base + s.wsn + 1)]
    congr 1
    · congr 1
      omega
    · congr 1
      omega

theorem mem_placed_tail {x : Seg × ℕ} (h : x ∈ placed cur) :
    (x.1, x.2 + (seg.wsn + 1)) ∈ placed (seg :: cur) := by
  rw [placed, placedFrom, Nat.zero_add, ← Nat.zero_add (seg.wsn + 1), placedFrom_add]
  refine List.mem_cons_of_mem _ ?_
  rw [Nat.zero_add]
  exact List.mem_map_of_mem h

theorem wsn_eq_zero_of_placed {x : Seg × ℕ} (h : x ∈ placed (seg :: cur)) (hx : x.2 = 0) :
    seg.wsn = 0 := by
  rw [placed, placedFrom] at h
  rcases List.mem_cons.mp h with rfl | h
  · rwa [Nat.zero_add] at hx
  · have := le_of_mem_placedFrom h
    omega

/-! ### Inserting the next segment of a group -/

/-- The segments of group `g`, which are `ids`, **have been inserted into `old`**, each asking for a
slot `I` after the one before it; they have been moved by `acc` in all. -/
structure Slots (g I acc : ℕ) (ids : List ℕ) (old cur : List Seg) : Prop where
  others : ((placed cur).filter fun x => x.1.grp ≠ g) = placed old
  members : (((placed cur).filter fun x => x.1.grp = g).map fun x => x.1.id) = ids
  spaced : (((placed cur).filter fun x => x.1.grp = g).map fun x => x.2).Pairwise fun a b =>
    a + I ≤ b
  le : ∀ x ∈ placed cur, x.1.grp = g → x.2 + I ≤ ids.length * I + acc
  zero : ids ≠ [] → ∃ x ∈ placed cur, x.2 = 0
  length : cur.length = old.length + ids.length
  acc_le : acc ≤ ids.length * (old.length + ids.length)

theorem Slots.start (h : ∀ s ∈ old, s.grp ≠ g) : Slots g I 0 [] old old := by
  have hne : ∀ x ∈ placed old, x.1.grp ≠ g := by
    intro x hx
    have hmem : x.1.grp ∈ (placed old).map fun x => x.1.grp := List.mem_map_of_mem hx
    rw [placed_map (fun s => s.grp) (fun _ _ => rfl)] at hmem
    obtain ⟨s, hs, heq⟩ := List.mem_map.mp hmem
    exact heq ▸ h s hs
  have hnil : ((placed old).filter fun x => x.1.grp = g) = [] :=
    List.filter_eq_nil_iff.mpr fun x hx => by
      rw [decide_eq_true_iff]
      exact hne x hx
  refine ⟨List.filter_eq_self.mpr fun x hx => decide_eq_true (hne x hx), ?_, ?_,
    fun x hx hg => absurd hg (hne x hx), fun h => absurd rfl h, rfl, Nat.zero_le _⟩
  · rw [hnil]
    rfl
  · rw [hnil]
    exact .nil

/-- **The next segment is inserted behind those of its group**, and the others keep their slots. -/
theorem Slots.insert (h : Slots g I acc ids old cur) (hgrp : seg.grp = g)
    (hwsn : seg.wsn = ids.length * I + acc) :
    Slots g I (acc + (insertStandalone seg cur).1) (ids ++ [seg.id]) old
      (insertStandalone seg cur).2 ∧ ∃ before after, placed cur = before ++ after ∧
        placed (insertStandalone seg cur).2 = before ++ (seg.setWsn 0, seg.wsn +
          (insertStandalone seg cur).1) :: after ∧ ∀ x ∈ after, x.1.grp ≠ g := by
  have hins := insertStandalone_placed seg cur
  have hle := insertStandalone_le seg cur
  set ret := (insertStandalone seg cur).1 with hret
  set cur' := (insertStandalone seg cur).2 with hcur'
  obtain ⟨before, after, hsplit, hsplit', hbefore, hafter⟩ := hins.split
  have hafter' : ∀ x ∈ after, x.1.grp ≠ g := by
    intro x hx hg
    have h1 := h.le x (hsplit ▸ List.mem_append_right _ hx) hg
    have h2 := hafter x hx
    omega
  have hnil : (after.filter fun x => x.1.grp = g) = [] :=
    List.filter_eq_nil_iff.mpr fun x hx => by
      rw [decide_eq_true_iff]
      exact hafter' x hx
  have hfilter : ((placed cur').filter fun x => x.1.grp = g) =
      ((placed cur).filter fun x => x.1.grp = g) ++ [(seg.setWsn 0, seg.wsn + ret)] := by
    have hcons : (((seg.setWsn 0, seg.wsn + ret) :: after).filter fun x => x.1.grp = g) =
        (seg.setWsn 0, seg.wsn + ret) :: after.filter fun x => x.1.grp = g :=
      List.filter_cons_of_pos (decide_eq_true hgrp)
    rw [hsplit, hsplit', List.filter_append, List.filter_append, hnil, List.append_nil, hcons, hnil]
  have hlen : cur'.length = cur.length + 1 := by
    rw [← length_placed, ← length_placed cur, hsplit, hsplit', List.length_append,
      List.length_append, List.length_cons, Nat.add_assoc]
  refine ⟨⟨?_, ?_, ?_, fun x hx hg => ?_, fun _ => ?_, ?_, ?_⟩, before, after,
    hsplit, hsplit', hafter'⟩
  · have hcons : (((seg.setWsn 0, seg.wsn + ret) :: after).filter fun x => x.1.grp ≠ g) =
        after.filter fun x => x.1.grp ≠ g :=
      List.filter_cons_of_neg (by rw [decide_eq_true_iff, not_not]; exact hgrp)
    rw [← h.others, hsplit, hsplit', List.filter_append, List.filter_append, hcons]
  · rw [hfilter, List.map_append, h.members]
    rfl
  · rw [hfilter, List.map_append]
    refine List.pairwise_append.mpr ⟨h.spaced, List.pairwise_singleton _ _, fun a ha b hb => ?_⟩
    obtain ⟨x, hx, rfl⟩ := List.mem_map.mp ha
    obtain ⟨hxcur, hxg⟩ := List.mem_filter.mp hx
    rw [List.map_singleton, List.mem_singleton] at hb
    have := h.le x hxcur (of_decide_eq_true hxg)
    omega
  · rw [List.length_append, List.length_singleton, Nat.add_mul, Nat.one_mul]
    rw [hsplit'] at hx
    rcases List.mem_append.mp hx with hx | hx
    · have := h.le x (hsplit ▸ List.mem_append_left _ hx) hg
      omega
    · rcases List.mem_cons.mp hx with rfl | hx
      · dsimp only
        omega
      · exact absurd hg (hafter' x hx)
  · by_cases hids : ids = []
    · subst hids
      have hacc := h.acc_le
      rw [List.length_nil, Nat.zero_mul] at hacc
      rw [List.length_nil, Nat.zero_mul, Nat.le_zero.mp hacc] at hwsn
      by_cases h0 : ret = 0
      · refine ⟨_, hsplit' ▸ List.mem_append_right _ List.mem_cons_self, ?_⟩
        dsimp only
        rw [hwsn, h0]
      · obtain ⟨x, hx, hx0⟩ := hins.taken 0 hwsn.le (by omega)
        refine ⟨x, ?_, hx0⟩
        rw [hsplit] at hx
        rw [hsplit']
        exact ((List.sublist_cons_self _ after).append_left before).subset hx
    · obtain ⟨x, hx, hx0⟩ := h.zero hids
      refine ⟨x, ?_, hx0⟩
      rw [hsplit] at hx
      rw [hsplit']
      exact ((List.sublist_cons_self _ after).append_left before).subset hx
  · rw [hlen, h.length, List.length_append, List.length_singleton, Nat.add_assoc]
  · have hacc := h.acc_le
    have hlen' := h.length
    rw [List.length_append, List.length_singleton]
    calc acc + ret ≤ ids.length * (old.length + ids.length) + (old.length + ids.length) := by omega
      _ = (ids.length + 1) * (old.length + ids.length) := (Nat.succ_mul _ _).symm
      _ ≤ (ids.length + 1) * (old.length + (ids.length + 1)) :=
        Nat.mul_le_mul_left _ (Nat.le_succ _)

end RemotePlay.Arq
