import RemotePlay.Work.ScreenSync
import Mathlib.Tactic.Linarith

/-! # One delta frame, step by step

What each step of a thread makes of the frame it is in: `FrameInv` from one phase to the next, in
the frame's own terms (the threads' views of it, the variables of its slot, and the calls of its
closure). -/

namespace RemotePlay.Work

open Lib.Threads

/-! ### Views -/

theorem view_of_lt {k : ℕ} {th : ℕ × Pc} (h : th.1 < k) : view k th = .before := by
  rw [view, if_pos (Or.inl h)]

theorem view_start (k : ℕ) : view k (k, .start) = .before := by
  rw [view, if_pos (Or.inr ⟨rfl, rfl⟩)]

theorem view_of_gt {k : ℕ} {th : ℕ × Pc} (h : k < th.1) : view k th = .after := by
  rw [view, if_neg (by omega), if_neg (by omega)]

theorem view_during {pc : Pc} (k : ℕ) (h : pc ≠ .start) : view k (k, pc) = .during pc := by
  rw [view, if_neg (by simp [h]), if_pos rfl]

theorem view_eq_during {k : ℕ} {th : ℕ × Pc} {pc : Pc} :
    view k th = .during pc ↔ th = (k, pc) ∧ pc ≠ .start := by
  obtain ⟨j, q⟩ := th
  simp only [view]
  split_ifs with h1 h2
  · simp only [false_iff, Prod.mk.injEq]
    rintro ⟨⟨rfl, rfl⟩, h⟩
    rcases h1 with h1 | ⟨-, h1⟩
    · exact absurd h1 (lt_irrefl _)
    · exact h h1
  · subst h2
    simp only [View.during.injEq, Prod.mk.injEq, true_and]
    refine ⟨fun h => ⟨h, fun hpc => h1 (Or.inr ⟨rfl, h ▸ hpc⟩)⟩, fun h => h.1⟩
  · simp only [false_iff, Prod.mk.injEq]
    rintro ⟨⟨rfl, -⟩, -⟩
    exact h2 rfl

theorem view_eq_after {k : ℕ} {th : ℕ × Pc} : view k th = .after ↔ k < th.1 := by
  refine ⟨fun h => ?_, view_of_gt⟩
  by_contra hk
  rw [view] at h
  split_ifs at h with h1 h2
  omega

/-! ### Totals -/

theorem total_uncounted_le {n : ℕ} {V : Fin n → View} : total View.uncounted V ≤ n := by
  have h : ∀ t ∈ Finset.univ, (V t).uncounted ≤ 1 := by
    intro t _
    rcases V t with _ | pc | _
    · decide
    · cases pc <;> simp [View.uncounted]
    · decide
  refine (Finset.sum_le_card_nsmul _ _ 1 h).trans ?_
  simp

/-- Before the semaphore is released every thread but the first is before it. -/
theorem total_waiting {n : ℕ} {V : Fin n → View} {i : Fin n} {w : View → ℕ}
    (hw : w .before = 1 ∧ w (.during .waitWork) = 1)
    (h : ∀ t, t ≠ i → (V t).Waiting) :
    total w V + 1 = n + w (V i) := by
  have hsum : total w V = w (V i) + ∑ t ∈ Finset.univ.erase i, w (V t) :=
    (Finset.add_sum_erase _ _ (Finset.mem_univ i)).symm
  have hrest : ∑ t ∈ Finset.univ.erase i, w (V t) = ∑ t ∈ Finset.univ.erase i, 1 := by
    refine Finset.sum_congr rfl fun t ht => ?_
    rcases h t (Finset.ne_of_mem_erase ht) with h | h
    · rw [h, hw.1]
    · rw [h, hw.2]
  have hcard : (Finset.univ.erase i).card = n - 1 := by
    rw [Finset.card_erase_of_mem (Finset.mem_univ i), Finset.card_univ, Fintype.card_fin]
  have hn : 0 < n := i.pos
  rw [hsum, hrest, Finset.sum_const, hcard, smul_eq_mul]
  omega

/-! ### The steps -/

variable {n : ℕ} {V : Fin n → View} {v : SlotVars} {started finished : ℕ} {p : Phase n}
  {i : Fin n} {pc pc' : Pc}

theorem Pc.Initing.ne_start (h : pc.Initing) : pc ≠ .start := by
  rintro rfl; exact h

theorem Pc.Closing.ne_start (h : pc.Closing) : pc ≠ .start := by
  rintro rfl; exact h

/-- **A thread's place says which phase the frame is in**, unless the thread waits. -/
theorem FrameInv.during (h : FrameInv V v started finished p) (hV : V i = .during pc) :
    pc = .waitWork ∨ p = .initing i pc ∧ pc.Initing ∨ pc = .working ∧ p = .opened ∨
      p = .closing i pc ∧ pc.Closing := by
  rcases p with _ | ⟨j, q⟩ | _ | ⟨j, q⟩ | _
  · rcases h.1 i with h | h <;> rw [h] at hV <;> cases hV
    exact Or.inl rfl
  · by_cases hij : i = j
    · subst hij
      obtain ⟨hq, hinit, -⟩ := h
      rw [hV] at hq
      cases hq
      exact Or.inr (Or.inl ⟨rfl, hinit⟩)
    · rcases h.2.2.1 i hij with h | h <;> rw [h] at hV <;> cases hV
      exact Or.inl rfl
  · rcases h.1 i with (h | h) | h | h <;> rw [h] at hV <;> cases hV
    · exact Or.inl rfl
    · exact Or.inr (Or.inr (Or.inl ⟨rfl, rfl⟩))
  · by_cases hij : i = j
    · subst hij
      obtain ⟨hq, hclose, -⟩ := h
      rw [hV] at hq
      cases hq
      exact Or.inr (Or.inr (Or.inr ⟨rfl, hclose⟩))
    · rw [h.2.2.1 i hij] at hV
      cases hV
  · rw [h.1 i] at hV
    cases hV

theorem FrameInv.initing (h : FrameInv V v started finished p) (hV : V i = .during pc)
    (hpc : pc.Initing) : p = .initing i pc := by
  rcases h.during hV with rfl | ⟨h, -⟩ | ⟨rfl, -⟩ | ⟨-, h⟩
  · exact hpc.elim
  · exact h
  · exact hpc.elim
  · cases pc <;> first | exact hpc.elim | exact h.elim

theorem FrameInv.closing (h : FrameInv V v started finished p) (hV : V i = .during pc)
    (hpc : pc.Closing) : p = .closing i pc := by
  rcases h.during hV with rfl | ⟨-, h⟩ | ⟨rfl, -⟩ | ⟨h, -⟩
  · exact hpc.elim
  · cases pc <;> first | exact hpc.elim | exact h.elim
  · exact hpc.elim
  · exact h

theorem FrameInv.opened (h : FrameInv V v started finished p) (hV : V i = .during .working) :
    p = .opened := by
  rcases h.during hV with h | ⟨-, h⟩ | ⟨-, h⟩ | ⟨-, h⟩
  · cases h
  · exact h.elim
  · exact h
  · exact h.elim

/-- **When every thread has released the frame it is done.** -/
theorem FrameInv.done (h : FrameInv V v started finished p) (hn : 0 < n) (hV : ∀ t, V t = .after) :
    p = .done := by
  rcases p with _ | ⟨j, q⟩ | _ | ⟨j, q⟩ | _
  · rcases h.1 ⟨0, hn⟩ with h | h <;> rw [hV] at h <;> cases h
  · have := (hV j).symm.trans h.1
    cases this
  · have hpos := h.2.2.1
    rw [total_eq_zero.mpr fun t => by rw [hV t]; rfl] at hpos
    exact absurd hpos (lt_irrefl 0)
  · have := (hV j).symm.trans h.1
    cases this
  · rfl

open Function (update)

theorem update_other {P : View → Prop} (h : ∀ t, t ≠ i → P (V t)) (x : View) :
    ∀ t, t ≠ i → P (update V i x t) := fun t ht => by
  rw [Function.update_of_ne ht]
  exact h t ht

theorem update_all {P : View → Prop} (h : ∀ t, t ≠ i → P (V t)) {x : View} (hx : P x) :
    ∀ t, P (update V i x t) := fun t => by
  by_cases ht : t = i
  · subst ht
    rwa [Function.update_self]
  · exact update_other h x t ht

theorem FrameInv.arrive (h : FrameInv V v started finished p) (hV : V i = .before) :
    FrameInv (update V i (.during .waitWork)) v started finished p := by
  rcases p with _ | ⟨j, q⟩ | _ | ⟨j, q⟩ | _
  · exact ⟨update_all (fun t _ => h.1 t) (Or.inr rfl), h.2⟩
  · obtain ⟨hj, hq, hothers, hrest⟩ := h
    have hij : i ≠ j := by
      rintro rfl
      rw [hV] at hj
      cases hj
    refine ⟨by rw [Function.update_of_ne hij.symm, hj], hq, fun t ht => ?_, hrest⟩
    by_cases hti : t = i
    · subst hti
      exact Or.inr (Function.update_self _ _ _)
    · rw [Function.update_of_ne hti]
      exact hothers t ht
  · obtain ⟨hall, hv, hpos, hlt, hrest⟩ := h
    have h1 := total_update View.unpassed V i (.during .waitWork)
    have h2 := total_update View.uncounted V i (.during .waitWork)
    rw [hV] at h1 h2
    have h1' := Nat.add_right_cancel h1
    have h2' := Nat.add_right_cancel h2
    refine ⟨update_all (fun t _ => hall t) (Or.inl (Or.inr rfl)), ?_⟩
    rw [h1', h2']
    exact ⟨hv, hpos, hlt, hrest⟩
  · by_cases hij : i = j
    · subst hij
      have h' := hV.symm.trans h.1
      cases h'
    · rw [h.2.2.1 i hij] at hV
      cases hV
  · rw [h.1 i] at hV
    cases hV

/-- **The first to arrive** is the one that finds `work_inited` false. -/
theorem FrameInv.first (h : FrameInv V v started finished p) (hV : V i = .before)
    (hv : v.inited = false) :
    p = .fresh ∧ FrameInv (update V i (.during .inited)) { v with inited := true } started finished
      (.initing i .inited) := by
  rcases p with _ | ⟨j, q⟩ | _ | ⟨j, q⟩ | _
  · obtain ⟨hall, rfl, rfl, rfl⟩ := h
    exact ⟨rfl, Function.update_self _ _ _, trivial, update_other (fun t _ => hall t) _, rfl, rfl,
      rfl⟩
  · rw [h.2.2.2.1] at hv
    cases hv
  · rw [h.2.1] at hv
    cases hv
  · by_cases hij : i = j
    · subst hij
      have h' := hV.symm.trans h.1
      cases h'
    · rw [h.2.2.1 i hij] at hV
      cases hV
  · rw [h.1 i] at hV
    cases hV

theorem FrameInv.proceed (h : FrameInv V v started finished (.initing i pc)) (hpc : pc'.Initing)
    {started' finished' : ℕ} (hs : started' = pc'.startedBy) (hf : finished' = pc'.finishedBy) :
    FrameInv (update V i (.during pc')) v started' finished' (.initing i pc') :=
  ⟨Function.update_self _ _ _, hpc, update_other h.2.2.1 _, h.2.2.2.1, hs, hf⟩

theorem FrameInv.release (h : FrameInv V v started finished (.initing i .releaseWork)) :
    v.sem = 0 ∧ FrameInv (update V i (.during .working)) { v with sem := n - 1 } started finished
      .opened := by
  obtain ⟨-, -, hothers, rfl, rfl, rfl⟩ := h
  have hothers' := update_other hothers (.during .working)
  have h1 := total_waiting (w := View.unpassed) ⟨rfl, rfl⟩ hothers'
  have h2 := total_waiting (w := View.uncounted) ⟨rfl, rfl⟩ hothers'
  rw [Function.update_self] at h1 h2
  have hn : 0 < n := i.pos
  simp only [View.unpassed, View.uncounted] at h1 h2
  refine ⟨rfl, update_all (fun t ht => Or.inl (hothers t ht)) (Or.inr (Or.inl rfl)), ?_,
    by omega, by omega, rfl, rfl⟩
  simp only [SlotVars.mk.injEq, true_and]
  omega

theorem FrameInv.pass (h : FrameInv V v started finished p) (hV : V i = .during .waitWork)
    (hsem : 0 < v.sem) :
    p = .opened ∧ FrameInv (update V i (.during .working)) { v with sem := v.sem - 1 } started
      finished p := by
  rcases p with _ | ⟨j, q⟩ | _ | ⟨j, q⟩ | _
  · rw [h.2.1] at hsem
    exact absurd hsem (lt_irrefl 0)
  · rw [h.2.2.2.1] at hsem
    exact absurd hsem (lt_irrefl 0)
  · obtain ⟨hall, hv, hpos, hlt, hrest⟩ := h
    have h1 := total_update View.unpassed V i (.during .working)
    have h2 := total_update View.uncounted V i (.during .working)
    rw [hV] at h1 h2
    simp only [View.unpassed, View.uncounted] at h1 h2
    subst hv
    refine ⟨rfl, update_all (fun t _ => hall t) (Or.inr (Or.inl rfl)), ?_, by omega,
      by omega, hrest⟩
    simp only [SlotVars.mk.injEq, true_and]
    omega
  · by_cases hij : i = j
    · subst hij
      have h' := hV.symm.trans h.1
      cases h'
      exact h.2.1.elim
    · rw [h.2.2.1 i hij] at hV
      cases hV
  · rw [h.1 i] at hV
    cases hV

theorem FrameInv.countdown (h : FrameInv V v started finished .opened) (hV : V i = .during .working)
    (hcount : v.count ≠ 1) :
    FrameInv (update V i .after) { v with count := v.count - 1 } started finished .opened := by
  obtain ⟨hall, hv, hpos, hlt, hrest⟩ := h
  have h1 := total_update View.unpassed V i .after
  have h2 := total_update View.uncounted V i .after
  rw [hV] at h1 h2
  simp only [View.unpassed, View.uncounted] at h1 h2
  subst hv
  refine ⟨update_all (fun t _ => hall t) (Or.inr (Or.inr rfl)), ?_, ?_, by omega, hrest⟩
  · simp only [SlotVars.mk.injEq, true_and]
    omega
  · simp only at hcount
    omega

theorem FrameInv.last (h : FrameInv V v started finished .opened) (hV : V i = .during .working)
    (hcount : v.count = 1) :
    FrameInv (update V i (.during .storeCount)) { v with count := 0 } started finished
      (.closing i .storeCount) := by
  obtain ⟨hall, hv, hpos, hlt, hrest⟩ := h
  subst hv
  simp only at hcount
  have hothers : ∀ t, t ≠ i → V t = .after := by
    intro t ht
    have h := add_le_total View.uncounted V ht
    rw [hV, hcount] at h
    rcases hall t with (h' | h') | h' | h'
    · rw [h'] at h; exact absurd h (by decide)
    · rw [h'] at h; exact absurd h (by decide)
    · rw [h'] at h; exact absurd h (by decide)
    · exact h'
  have hsem : total View.unpassed V = 0 := total_eq_zero.mpr fun t => by
    by_cases ht : t = i
    · rw [ht, hV]; rfl
    · rw [hothers t ht]; rfl
  refine ⟨Function.update_self _ _ _, trivial, update_other (P := fun x => x = .after) hothers _,
    ?_, hrest⟩
  rw [hsem]
  rfl

theorem FrameInv.proceed_closing (h : FrameInv V v started finished (.closing i pc))
    (pc' : Pc) (hpc : pc'.Closing) {v' : SlotVars} (hv : v' = closingVars n pc') :
    FrameInv (update V i (.during pc')) v' started finished (.closing i pc') :=
  ⟨Function.update_self _ _ _, hpc, update_other (P := fun x => x = .after) h.2.2.1 _, hv,
    h.2.2.2.2⟩

theorem FrameInv.finish (h : FrameInv V v started finished (.closing i pc)) (v' : SlotVars) :
    FrameInv (update V i .after) v' started finished .done :=
  ⟨update_all (P := fun x => x = .after) h.2.2.1 rfl, h.2.2.2.2⟩

end RemotePlay.Work
