import RemotePlay.Work.ScreenFrame
import RemotePlay.Work.ScreenOrder

/-! # Delta frames are synchronised

The invariant of the whole system, over all frames: every frame is in one of its phases
(`FrameInv`), the frames of each screen are in order (`ScreenInv`), and a step of a thread changes
only the frame it is in. -/

namespace RemotePlay.Work

open Lib.Threads
open Function (update)

namespace SyncState

variable {c : Cores} {jobs : ℕ → Job} {st st' : SyncState c} {i : Fin c.val} {k : ℕ} {pc : Pc}
  {ph : ℕ → Phase c.val} {q : Phase c.val}

/-- The variables of a work slot. -/
def slotVars (st : SyncState c) (w : Fin 2) : SlotVars :=
  ⟨st.work_inited w, st.work_sem w, st.work_sem_count w⟩

/-- The variables of a frame's slot, once the slot is the frame's. -/
def vars (st : SyncState c) (k : ℕ) : SlotVars :=
  if ∀ t, k ≤ (st.threads t).1 + 1 then st.slotVars (slot k) else ⟨false, 0, c.val⟩

/-- The threads' views of a frame. -/
def views (st : SyncState c) (k : ℕ) : Fin c.val → View := fun t => view k (st.threads t)

/-- What holds of frame `k` in phase `p`. -/
def FrameAt (st : SyncState c) (k : ℕ) (p : Phase c.val) : Prop :=
  FrameInv (st.views k) (st.vars k) (st.started k) (st.finished k) p

/-- What holds in every state reached. -/
structure Inv (jobs : ℕ → Job) (st : SyncState c) (ph : ℕ → Phase c.val) : Prop where
  frame : ∀ k, st.FrameAt k (ph k)
  /-- A thread that has begun a frame found its slot free. -/
  gate : ∀ i, (st.threads i).2 ≠ .start → ∀ t, (st.threads i).1 ≤ (st.threads t).1 + 1
  recorded : ∀ k i, ph k = .initing i .swapBool →
    st.last_restart_interval (jobs k).is_top = (jobs k).restart_interval
  screen : ∀ s, ScreenInv (fun k => (jobs k).is_top = s) (fun k => (ph k).place)
    (st.screen_bool s) (st.screen_sem s) (st.last_restart_interval s)

/-! ### What a step leaves alone -/

/-- A step of thread `i` in frame `k`, to another place in it or to the next frame. -/
structure Moves (jobs : ℕ → Job) (st st' : SyncState c) (i : Fin c.val) (k : ℕ) : Prop where
  at_frame : (st.threads i).1 = k
  others : ∀ t, t ≠ i → st'.threads t = st.threads t
  dest : (st'.threads i).1 = k ∧ (st'.threads i).2 ≠ .start ∨ st'.threads i = (k + 1, .start)
  gate : ∀ t, k ≤ (st.threads t).1 + 1
  slot_vars : ∀ w, w ≠ slot k → st'.slotVars w = st.slotVars w
  started : ∀ j, j ≠ k → st'.started j = st.started j
  finished : ∀ j, j ≠ k → st'.finished j = st.finished j
  screen : ∀ s, s ≠ (jobs k).is_top → st'.screen_bool s = st.screen_bool s ∧
    st'.screen_sem s = st.screen_sem s ∧ st'.last_restart_interval s = st.last_restart_interval s

/-- **A step changes one frame.** -/
theorem step_moves (hgate : (st.threads i).2 ≠ .start →
      ∀ t, (st.threads i).1 ≤ (st.threads t).1 + 1) (h : st.step jobs i = some st') :
    Moves jobs st st' i (st.threads i).1 := by
  have hg : ∀ t, (st.threads i).1 ≤ (st.threads t).1 + 1 := by
    by_cases hs : (st.threads i).2 = .start
    · by_contra hn
      simp [step, hs, hn] at h
    · exact hgate hs
  cases hpc : (st.threads i).2 <;> simp only [step, hpc] at h <;> (try split_ifs at h) <;>
    cases h <;>
    refine ⟨rfl, ?_, ?_, hg, ?_, ?_, ?_, ?_⟩ <;> simp +contextual [goto, next, slotVars]

theorem slot_ne {j k : ℕ} (h : j % 2 ≠ k % 2) : slot j ≠ slot k := fun he =>
  h (congrArg Fin.val he)

namespace Moves

theorem le_idx (h : Moves jobs st st' i k) (t : Fin c.val) :
    (st.threads t).1 ≤ (st'.threads t).1 := by
  rcases eq_or_ne t i with rfl | ht
  · have hk := h.at_frame
    rcases h.dest with ⟨h, -⟩ | h
    · omega
    · rw [h, hk]
      exact Nat.le_succ k
  · rw [h.others t ht]

theorem views_ne (h : Moves jobs st st' i k) {j : ℕ} (hj : j ≠ k) : st'.views j = st.views j := by
  funext t
  rcases eq_or_ne t i with rfl | ht
  · have hk := h.at_frame
    rcases Nat.lt_or_ge j k with hlt | hge
    · have hj' : j < (st.threads t).1 := by omega
      rw [views, views, view_of_gt hj', view_of_gt (hj'.trans_le (h.le_idx t))]
    · have hbefore : view j (st.threads t) = .before := view_of_lt (by omega)
      rw [views, views, hbefore]
      rcases h.dest with ⟨h, -⟩ | h
      · exact view_of_lt (by omega)
      · rw [h]
        rcases eq_or_ne j (k + 1) with rfl | hj'
        · exact view_start _
        · exact view_of_lt (by simp only; omega)
  · rw [views, views, h.others t ht]

theorem views_eq (h : Moves jobs st st' i k) :
    st'.views k = update (st.views k) i (view k (st'.threads i)) := by
  funext t
  rcases eq_or_ne t i with rfl | ht
  · rw [Function.update_self, views]
  · rw [Function.update_of_ne ht, views, views, h.others t ht]

theorem vars_eq' (h : Moves jobs st st' i k) : st'.vars k = st'.slotVars (slot k) := by
  rw [vars, if_pos fun t => (h.gate t).trans (Nat.succ_le_succ (h.le_idx t))]

theorem earlier_done (h : Moves jobs st st' i k) (hf : ∀ j, st.FrameAt j (ph j)) {j : ℕ}
    (hj : j + 2 ≤ k) : ph j = .done := by
  refine (hf j).done (Nat.lt_of_lt_of_le (by decide) c.two_le) fun t => view_of_gt ?_
  have := h.gate t
  omega

/-- **The other frames are in their phases still.**  The frame after next takes over the slot when
it is as it was. -/
theorem frame_ne (h : Moves jobs st st' i k) (hf : ∀ j, st.FrameAt j (ph j))
    (hnew : (∀ t, k < (st'.threads t).1) → st'.slotVars (slot k) = ⟨false, 0, c.val⟩) {j : ℕ}
    (hj : j ≠ k) : st'.FrameAt j (ph j) := by
  have hfj := hf j
  rw [FrameAt, h.views_ne hj, h.started j hj, h.finished j hj]
  by_cases hslot : j % 2 = k % 2
  · rcases Nat.lt_or_ge j k with hlt | hge
    · have hdone := h.earlier_done hf (j := j) (by omega)
      rw [FrameAt, hdone] at hfj
      rw [hdone]
      exact hfj
    · have hold : ¬ ∀ t, j ≤ (st.threads t).1 + 1 := fun hall => by
        have := hall i
        rw [h.at_frame] at this
        omega
      rw [FrameAt, vars, if_neg hold] at hfj
      rw [vars]
      split_ifs with hall
      · have hs : slot j = slot k := Fin.ext hslot
        rw [hs, hnew fun t => ?_]
        · exact hfj
        · have := hall t
          omega
      · exact hfj
  · have hall : (∀ t, j ≤ (st'.threads t).1 + 1) ↔ ∀ t, j ≤ (st.threads t).1 + 1 := by
      refine ⟨fun hall t => ?_, fun hall t => (hall t).trans (Nat.succ_le_succ (h.le_idx t))⟩
      rcases eq_or_ne t i with rfl | ht
      · have h1 := hall t
        have hk := h.at_frame
        rcases h.dest with ⟨h2, -⟩ | h2
        · omega
        · rw [h2] at h1
          simp only at h1
          omega
      · rw [← h.others t ht]
        exact hall t
    rw [vars, if_congr hall rfl rfl, h.slot_vars _ (slot_ne hslot)]
    exact hfj

/-- **The invariant is kept**, when it is in the frame the thread is in. -/
theorem inv (h : Moves jobs st st' i k) (hinv : Inv jobs st ph)
    (hf : FrameInv (update (st.views k) i (view k (st'.threads i))) (st'.slotVars (slot k))
      (st'.started k) (st'.finished k) q)
    (hnew : (∀ t, k < (st'.threads t).1) → st'.slotVars (slot k) = ⟨false, 0, c.val⟩)
    (hrec : ∀ j i', update ph k q j = .initing i' .swapBool →
      st'.last_restart_interval (jobs j).is_top = (jobs j).restart_interval)
    (hs : ScreenInv (fun j => (jobs j).is_top = (jobs k).is_top)
      (update (fun j => (ph j).place) k q.place) (st'.screen_bool (jobs k).is_top)
      (st'.screen_sem (jobs k).is_top) (st'.last_restart_interval (jobs k).is_top)) :
    Inv jobs st' (update ph k q) where
  frame j := by
    rcases eq_or_ne j k with rfl | hj
    · rw [Function.update_self, FrameAt, h.views_eq, h.vars_eq']
      exact hf
    · rw [Function.update_of_ne hj]
      exact h.frame_ne hinv.frame hnew hj
  gate t ht u := by
    have hle : (st'.threads t).1 ≤ (st.threads u).1 + 1 := by
      rcases eq_or_ne t i with rfl | hti
      · rcases h.dest with ⟨h1, -⟩ | h1
        · rw [h1]
          exact h.gate u
        · rw [h1] at ht
          exact absurd rfl ht
      · rw [h.others t hti] at ht ⊢
        exact hinv.gate t ht u
    exact hle.trans (Nat.succ_le_succ (h.le_idx u))
  recorded := hrec
  screen s := by
    have hplace : (fun j => (update ph k q j).place) =
        update (fun j => (ph j).place) k q.place := by
      funext j
      rcases eq_or_ne j k with rfl | hj
      · rw [Function.update_self, Function.update_self]
      · rw [Function.update_of_ne hj, Function.update_of_ne hj]
    rw [hplace]
    rcases eq_or_ne s (jobs k).is_top with rfl | hne
    · exact hs
    · obtain ⟨h1, h2, h3⟩ := h.screen s hne
      rw [h1, h2, h3]
      refine (hinv.screen s).congr fun j hj => Function.update_of_ne ?_ _ _
      rintro rfl
      exact hne hj.symm

theorem inv_goto (h : Moves jobs st st' i k) (hinv : Inv jobs st ph)
    (hto : st'.threads i = (k, pc)) (hne : pc ≠ .start)
    (hf : FrameInv (update (st.views k) i (.during pc)) (st'.slotVars (slot k)) (st'.started k)
      (st'.finished k) q)
    (hrec : ∀ j i', update ph k q j = .initing i' .swapBool →
      st'.last_restart_interval (jobs j).is_top = (jobs j).restart_interval)
    (hs : ScreenInv (fun j => (jobs j).is_top = (jobs k).is_top)
      (update (fun j => (ph j).place) k q.place) (st'.screen_bool (jobs k).is_top)
      (st'.screen_sem (jobs k).is_top) (st'.last_restart_interval (jobs k).is_top)) :
    ∃ ph', Inv jobs st' ph' := by
  refine ⟨_, h.inv hinv (by rwa [hto, view_during k hne]) (fun hall => ?_) hrec hs⟩
  have := hall i
  rw [hto] at this
  exact absurd this (lt_irrefl k)

theorem inv_next (h : Moves jobs st st' i k) (hinv : Inv jobs st ph)
    (hto : st'.threads i = (k + 1, .start))
    (hf : FrameInv (update (st.views k) i .after) (st'.slotVars (slot k)) (st'.started k)
      (st'.finished k) q)
    (hnew : q = .done → st'.slotVars (slot k) = ⟨false, 0, c.val⟩)
    (hrec : ∀ j i', update ph k q j = .initing i' .swapBool →
      st'.last_restart_interval (jobs j).is_top = (jobs j).restart_interval)
    (hs : ScreenInv (fun j => (jobs j).is_top = (jobs k).is_top)
      (update (fun j => (ph j).place) k q.place) (st'.screen_bool (jobs k).is_top)
      (st'.screen_sem (jobs k).is_top) (st'.last_restart_interval (jobs k).is_top)) :
    ∃ ph', Inv jobs st' ph' := by
  have hafter : view k (st'.threads i) = .after :=
    view_of_gt (by rw [hto]; exact Nat.lt_succ_self k)
  rw [← hafter] at hf
  refine ⟨_, h.inv hinv hf (fun hall => hnew ?_) hrec hs⟩
  rw [← h.views_eq] at hf
  exact hf.done (Nat.lt_of_lt_of_le (by decide) c.two_le) fun t => view_of_gt (hall t)

end Moves

/-! ### The thread that arrives first -/

theorem views_of_pc (hpc : (st.threads i).2 = pc) (hne : pc ≠ .start) :
    st.views (st.threads i).1 i = .during pc :=
  view_eq_during.mpr ⟨Prod.ext rfl hpc, hne⟩

namespace Inv

theorem frameInv (h : Inv jobs st ph) (hg : ∀ t, k ≤ (st.threads t).1 + 1) :
    FrameInv (st.views k) (st.slotVars (slot k)) (st.started k) (st.finished k) (ph k) := by
  have hf := h.frame k
  rwa [FrameAt, vars, if_pos hg] at hf

theorem begun (h : Inv jobs st ph) (hk : (ph k).place ≠ .out) : ∃ t, ¬ (st.views k t).Waiting := by
  have hf := h.frame k
  rw [FrameAt] at hf
  rcases hph : ph k with _ | ⟨j, q⟩ | _ | ⟨j, q⟩ | _
  · rw [hph] at hk
    exact absurd rfl hk
  · rw [hph] at hf
    refine ⟨j, ?_⟩
    obtain ⟨hj, hq, -⟩ := hf
    rw [hj]
    rintro (h | h) <;> cases h
    exact hq
  · rw [hph] at hf
    obtain ⟨-, -, -, hlt, -⟩ := hf
    by_contra hall
    have hw : ∀ t, (st.views k t).Waiting := fun t => not_not.mp fun ht => hall ⟨t, ht⟩
    have hn : 0 < c.val := Nat.lt_of_lt_of_le (by decide) c.two_le
    have htot := total_waiting (w := View.unpassed) (i := ⟨0, hn⟩) ⟨rfl, rfl⟩ fun t _ => hw t
    have h1 : (st.views k ⟨0, hn⟩).unpassed = 1 := by
      rcases hw ⟨0, hn⟩ with h | h <;> rw [h] <;> rfl
    omega
  · rw [hph] at hf
    refine ⟨j, ?_⟩
    obtain ⟨hj, hq, -⟩ := hf
    rw [hj]
    rintro (h | h) <;> cases h
    exact hq
  · rw [hph] at hk
    exact absurd rfl hk

/-- **While a frame's preparations are made only the frame before it may be in**, and it is past
its own. -/
theorem before_initing (h : Inv jobs st ph) {m : ℕ} (hm : ph m = .initing i pc)
    (hb : ∃ t, ¬ (st.views k t).Waiting) (hd : ph k ≠ .done) (hkm : k ≠ m) :
    k + 1 = m ∧ ∀ j q, ph k ≠ .initing j q := by
  have hfm := h.frame m
  rw [FrameAt, hm] at hfm
  obtain ⟨hi, -, hothers, -⟩ := hfm
  obtain ⟨hth, hpc⟩ := view_eq_during.mp hi
  -- a thread past frame `m` would have been let through
  have hlt : ∀ t, ¬ m < (st.threads t).1 := by
    intro t ht
    rcases eq_or_ne t i with rfl | hti
    · rw [hth] at ht
      exact lt_irrefl m ht
    · have ha : st.views m t = .after := view_of_gt ht
      rcases hothers t hti with h | h <;> rw [ha] at h <;> cases h
  have hgate := h.gate i (by rw [hth]; exact hpc)
  rw [hth] at hgate
  have hk1 : ¬ k + 2 ≤ m := by
    intro hle
    have hdone := (h.frame k).done (Nat.lt_of_lt_of_le (by decide) c.two_le) fun t => view_of_gt (by
      have := hgate t
      simp only at this
      omega)
    exact hd hdone
  have hk2 : ¬ m < k := by
    intro hmk
    obtain ⟨t, ht⟩ := hb
    have hlt' := hlt t
    exact ht (Or.inl (view_of_lt (by omega)))
  refine ⟨by omega, fun j q hq => ?_⟩
  have hfk := h.frame k
  rw [FrameAt, hq] at hfk
  have ha : st.views k i = .after := view_of_gt (by rw [hth]; simp only; omega)
  rcases eq_or_ne i j with rfl | hij
  · have := ha.symm.trans hfk.1
    cases this
  · rcases hfk.2.2.1 i hij with h | h <;> rw [show _ = View.after from ha] at h <;> cases h

theorem only_initing (h : Inv jobs st ph) {m : ℕ} (hm : ph m = .initing i pc) {j : Fin c.val}
    {pc' : Pc} (hk : ph k = .initing j pc') : k = m := by
  by_contra hkm
  have hf := h.frame k
  rw [FrameAt, hk] at hf
  obtain ⟨hj, hpc', -⟩ := hf
  refine (h.before_initing hm ⟨j, ?_⟩ (by rw [hk]; nofun) hkm).2 j pc' hk
  rw [hj]
  rintro (h | h) <;> cases h
  exact hpc'

theorem recorded_of (h : Inv jobs st ph)
    (hl : st'.last_restart_interval = st.last_restart_interval)
    (hq : ∀ i', q ≠ .initing i' .swapBool) (j : ℕ) (i' : Fin c.val)
    (hj : update ph k q j = .initing i' .swapBool) :
    st'.last_restart_interval (jobs j).is_top = (jobs j).restart_interval := by
  rcases eq_or_ne j k with rfl | hjk
  · rw [Function.update_self] at hj
    exact absurd hj (hq i')
  · rw [Function.update_of_ne hjk] at hj
    rw [hl]
    exact h.recorded j i' hj

theorem screen_of (h : Inv jobs st ph) (hq : q.place = (ph k).place) (s : Bool) :
    ScreenInv (fun j => (jobs j).is_top = s) (update (fun j => (ph j).place) k q.place)
      (st.screen_bool s) (st.screen_sem s) (st.last_restart_interval s) := by
  rw [hq, Function.update_eq_self]
  exact h.screen s

/-! ### The steps of the first thread -/

theorem step_start (h : Inv jobs st ph) (hpc : (st.threads i).2 = .start)
    (hs : st.step jobs i = some st') : ∃ ph', Inv jobs st' ph' := by
  have hm := step_moves (h.gate i) hs
  have hf := h.frameInv hm.gate
  have hV : st.views (st.threads i).1 i = .before := by
    rw [views, show st.threads i = ((st.threads i).1, Pc.start) from Prod.ext rfl hpc]
    exact view_start _
  simp only [step, hpc, if_pos hm.gate] at hs
  -- a thread that waits changes no phase
  have hwait : ∀ hto : st' = st.goto i .waitWork, ∃ ph', Inv jobs st' ph' := by
    rintro rfl
    refine hm.inv_goto h (Function.update_self _ _ _) (by decide) (hf.arrive hV) ?_
      (h.screen_of rfl _)
    rw [Function.update_eq_self]
    exact h.recorded
  split_ifs at hs with hempty hinited
  · exact hwait (Option.some.inj hs).symm
  · exact hwait (Option.some.inj hs).symm
  · obtain ⟨hph, hfirst⟩ := hf.first hV (by simpa [slotVars] using hinited)
    cases hs
    refine hm.inv_goto (q := .initing i .inited) h (Function.update_self _ _ _) (by decide) ?_
      (h.recorded_of rfl fun _ => nofun) (h.screen_of (by rw [hph]; rfl) _)
    simpa [slotVars, goto] using hfirst

theorem goto_initing (h : Inv jobs st ph) (hm : Moves jobs st st' i k)
    (hph : ph k = .initing i pc) {pc' : Pc} (hto : st'.threads i = (k, pc')) (hpc' : pc'.Initing)
    (hv : st'.slotVars (slot k) = st.slotVars (slot k)) (hst : st'.started k = pc'.startedBy)
    (hfin : st'.finished k = pc'.finishedBy)
    (hrec : ∀ j i', update ph k (.initing i pc') j = .initing i' .swapBool →
      st'.last_restart_interval (jobs j).is_top = (jobs j).restart_interval)
    (hs : ScreenInv (fun j => (jobs j).is_top = (jobs k).is_top)
      (update (fun j => (ph j).place) k pc'.initPlace) (st'.screen_bool (jobs k).is_top)
      (st'.screen_sem (jobs k).is_top) (st'.last_restart_interval (jobs k).is_top)) :
    ∃ ph', Inv jobs st' ph' := by
  have hf := h.frameInv hm.gate
  rw [hph] at hf
  refine hm.inv_goto (q := .initing i pc') h hto hpc'.ne_start ?_ hrec hs
  rw [hv]
  exact hf.proceed hpc' hst hfin

theorem initing_of_pc (h : Inv jobs st ph) (hm : Moves jobs st st' i (st.threads i).1)
    (hpc : (st.threads i).2 = pc) (hinit : pc.Initing) :
    ph (st.threads i).1 = .initing i pc ∧ st.started (st.threads i).1 = pc.startedBy ∧
      st.finished (st.threads i).1 = pc.finishedBy := by
  have hf := h.frameInv hm.gate
  have hph := hf.initing (views_of_pc hpc hinit.ne_start) hinit
  rw [hph] at hf
  exact ⟨hph, hf.2.2.2.2⟩

theorem step_inited (h : Inv jobs st ph) (hpc : (st.threads i).2 = .inited)
    (hs : st.step jobs i = some st') : ∃ ph', Inv jobs st' ph' := by
  have hm := step_moves (h.gate i) hs
  obtain ⟨hph, hst, hfin⟩ := h.initing_of_pc hm hpc trivial
  simp only [step, hpc] at hs
  split_ifs at hs with hdiff <;> cases hs
  · exact h.goto_initing hm hph (Function.update_self _ _ _) trivial rfl hst hfin
      (h.recorded_of rfl fun _ => nofun)
      (h.screen_of (q := .initing i (.waitScreen true)) (by rw [hph]; rfl) _)
  · refine h.goto_initing hm hph (Function.update_self _ _ _) trivial rfl hst hfin
      (fun j i' hj => ?_) (h.screen_of (q := .initing i .swapBool) (by rw [hph]; rfl) _)
    rcases eq_or_ne j (st.threads i).1 with rfl | hjk
    · exact (not_not.mp hdiff).symm
    · rw [Function.update_of_ne hjk] at hj
      exact h.recorded j i' hj

theorem step_swapBool (h : Inv jobs st ph) (hpc : (st.threads i).2 = .swapBool)
    (hs : st.step jobs i = some st') : ∃ ph', Inv jobs st' ph' := by
  have hm := step_moves (h.gate i) hs
  obtain ⟨hph, hst, hfin⟩ := h.initing_of_pc hm hpc trivial
  rcases hb : st.screen_bool (jobs (st.threads i).1).is_top
  · simp only [step, hpc, hb, Bool.false_eq_true, if_false] at hs
    cases hs
    refine h.goto_initing hm hph (Function.update_self _ _ _) trivial rfl hst hfin
      (h.recorded_of (q := .initing i (.init false)) rfl fun _ => nofun) ?_
    simp only [Function.update_self]
    refine (h.screen _).join rfl (by rw [hph]; rfl) ?_ (fun j _ hj => ?_) hb
    · simp only [h.recorded _ _ hph]
      exact (jobs _).pos.ne'
    · have hjk : j ≠ (st.threads i).1 := by
        rintro rfl
        rw [hph] at hj
        exact hj rfl
      have hd : ph j ≠ .done := by
        rintro hd
        rw [hd] at hj
        exact hj rfl
      obtain ⟨hlt, hninit⟩ := h.before_initing hph (h.begun hj) hd hjk
      refine ⟨hlt, ?_⟩
      rcases hq : ph j with _ | ⟨t, pc⟩ | _ | ⟨t, pc⟩ | _
      · exact ⟨nofun, nofun⟩
      · exact absurd hq (hninit t pc)
      · exact ⟨nofun, nofun⟩
      · cases pc <;> exact ⟨nofun, nofun⟩
      · exact ⟨nofun, nofun⟩
  · simp only [step, hpc, hb, if_true] at hs
    cases hs
    refine h.goto_initing hm hph (Function.update_self _ _ _) trivial rfl hst hfin
      (h.recorded_of (q := .initing i (.waitScreen false)) rfl fun _ => nofun) ?_
    simp only [Function.update_self]
    rw [← hb]
    exact h.screen_of (q := .initing i (.waitScreen false)) (by rw [hph]; rfl) _

theorem step_waitScreen (h : Inv jobs st ph) {d : Bool} (hpc : (st.threads i).2 = .waitScreen d)
    (hs : st.step jobs i = some st') : ∃ ph', Inv jobs st' ph' := by
  have hm := step_moves (h.gate i) hs
  obtain ⟨hph, hst, hfin⟩ := h.initing_of_pc hm hpc trivial
  simp only [step, hpc] at hs
  split_ifs at hs with hsem
  cases hs
  refine h.goto_initing hm hph (Function.update_self _ _ _) trivial rfl hst hfin
    (h.recorded_of (q := .initing i (.storeBool d)) rfl fun _ => nofun) ?_
  simp only [Function.update_self]
  exact (h.screen _).enter rfl hsem

theorem step_storeBool (h : Inv jobs st ph) {d : Bool} (hpc : (st.threads i).2 = .storeBool d)
    (hs : st.step jobs i = some st') : ∃ ph', Inv jobs st' ph' := by
  have hm := step_moves (h.gate i) hs
  obtain ⟨hph, hst, hfin⟩ := h.initing_of_pc hm hpc trivial
  simp only [step, hpc] at hs
  cases hs
  refine h.goto_initing hm hph (Function.update_self _ _ _) trivial rfl hst hfin
    (h.recorded_of (q := .initing i (.storeLast d)) rfl fun _ => nofun) ?_
  simp only [Function.update_self]
  exact (h.screen _).sync rfl (by rw [hph]; rfl)

theorem step_storeLast (h : Inv jobs st ph) {d : Bool} (hpc : (st.threads i).2 = .storeLast d)
    (hs : st.step jobs i = some st') : ∃ ph', Inv jobs st' ph' := by
  have hm := step_moves (h.gate i) hs
  obtain ⟨hph, hst, hfin⟩ := h.initing_of_pc hm hpc trivial
  simp only [step, hpc] at hs
  cases hs
  refine h.goto_initing hm hph (Function.update_self _ _ _) trivial rfl hst hfin
    (fun j i' hj => ?_) ?_
  · rcases eq_or_ne j (st.threads i).1 with rfl | hjk
    · rw [Function.update_self] at hj
      cases hj
    · rw [Function.update_of_ne hjk] at hj
      exact absurd (h.only_initing hph hj) hjk
  · refine (h.screen _).settle rfl (by rw [hph]; rfl) ?_ _
    cases d
    · exact Or.inr rfl
    · exact Or.inl rfl

theorem step_init (h : Inv jobs st ph) {d : Bool} (hpc : (st.threads i).2 = .init d)
    (hs : st.step jobs i = some st') : ∃ ph', Inv jobs st' ph' := by
  have hm := step_moves (h.gate i) hs
  obtain ⟨hph, hst, hfin⟩ := h.initing_of_pc hm hpc trivial
  simp only [step, hpc] at hs
  cases hs
  refine h.goto_initing hm hph (Function.update_self _ _ _) trivial rfl ?_ hfin
    (h.recorded_of (q := .initing i (.running d)) rfl fun _ => nofun)
    (h.screen_of (q := .initing i (.running d)) (by rw [hph]; cases d <;> rfl) _)
  simp only [Function.update_self]
  rw [hst]
  rfl

theorem step_running (h : Inv jobs st ph) {d : Bool} (hpc : (st.threads i).2 = .running d)
    (hs : st.step jobs i = some st') : ∃ ph', Inv jobs st' ph' := by
  have hm := step_moves (h.gate i) hs
  obtain ⟨hph, hst, hfin⟩ := h.initing_of_pc hm hpc trivial
  simp only [step, hpc] at hs
  cases hs
  refine h.goto_initing hm hph (Function.update_self _ _ _) trivial rfl hst ?_
    (h.recorded_of (q := .initing i .releaseWork) rfl fun _ => nofun) ?_
  · simp only [Function.update_self]
    rw [hfin]
    rfl
  · cases d
    · exact h.screen_of (q := .initing i .releaseWork) (by rw [hph]; rfl) _
    · exact (h.screen _).settle rfl (by rw [hph]; rfl) (Or.inr rfl) _

theorem step_releaseWork (h : Inv jobs st ph) (hpc : (st.threads i).2 = .releaseWork)
    (hs : st.step jobs i = some st') : ∃ ph', Inv jobs st' ph' := by
  have hm := step_moves (h.gate i) hs
  have hf := h.frameInv hm.gate
  have hph := hf.initing (views_of_pc hpc (by decide)) trivial
  rw [hph] at hf
  obtain ⟨hsem, hopen⟩ := hf.release
  simp only [step, hpc] at hs
  cases hs
  refine hm.inv_goto (q := .opened) h (Function.update_self _ _ _) (by decide) ?_
    (h.recorded_of rfl fun _ => nofun) (h.screen_of (by rw [hph]; rfl) _)
  have hsem' : st.work_sem (slot (st.threads i).1) = 0 := hsem
  simpa [slotVars, goto, hsem'] using hopen

/-! ### The steps of the others -/

theorem step_waitWork (h : Inv jobs st ph) (hpc : (st.threads i).2 = .waitWork)
    (hs : st.step jobs i = some st') : ∃ ph', Inv jobs st' ph' := by
  have hm := step_moves (h.gate i) hs
  have hf := h.frameInv hm.gate
  simp only [step, hpc] at hs
  split_ifs at hs with hsem
  obtain ⟨hph, hpass⟩ := hf.pass (views_of_pc hpc (by decide)) hsem
  cases hs
  refine hm.inv_goto h (Function.update_self _ _ _) (by decide) ?_
    (h.recorded_of rfl fun j => by rw [hph]; nofun) (h.screen_of rfl _)
  simpa [slotVars, goto] using hpass

theorem step_working (h : Inv jobs st ph) (hpc : (st.threads i).2 = .working)
    (hs : st.step jobs i = some st') : ∃ ph', Inv jobs st' ph' := by
  have hm := step_moves (h.gate i) hs
  have hf := h.frameInv hm.gate
  have hV := views_of_pc hpc (by decide)
  have hph := hf.opened hV
  rw [hph] at hf
  simp only [step, hpc] at hs
  split_ifs at hs with hcount
  · cases hs
    refine hm.inv_goto (q := .closing i .storeCount) h (Function.update_self _ _ _) (by decide) ?_
      (h.recorded_of rfl fun _ => nofun) (h.screen_of (by rw [hph]; rfl) _)
    simpa [slotVars, goto, hcount] using hf.last hV hcount
  · cases hs
    -- the count is positive, and small
    have hle : st.work_sem_count (slot (st.threads i).1) ≤ RP_CORE_COUNT_MAX ∧
        0 < st.work_sem_count (slot (st.threads i).1) := by
      obtain ⟨-, hv, hpos, -⟩ := id hf
      have hc : st.work_sem_count (slot (st.threads i).1) = _ := congrArg SlotVars.count hv
      rw [hc]
      exact ⟨total_uncounted_le.trans c.le, hpos⟩
    have hmax : RP_CORE_COUNT_MAX = 3 := rfl
    have hmod : (st.work_sem_count (slot (st.threads i).1) + 255) % 256 =
        st.work_sem_count (slot (st.threads i).1) - 1 := by omega
    refine hm.inv_next (q := .opened) h (Function.update_self _ _ _) ?_ (fun h => nomatch h)
      (h.recorded_of rfl fun _ => nofun) (h.screen_of (by rw [hph]) _)
    simpa [slotVars, next, hmod] using hf.countdown hV hcount

/-! ### The steps of the last thread -/

theorem closing_of_pc (h : Inv jobs st ph) (hm : Moves jobs st st' i (st.threads i).1)
    (hpc : (st.threads i).2 = pc) (hclose : pc.Closing) :
    ph (st.threads i).1 = .closing i pc ∧
      FrameInv (st.views (st.threads i).1) (st.slotVars (slot (st.threads i).1))
        (st.started (st.threads i).1) (st.finished (st.threads i).1) (.closing i pc) := by
  have hf := h.frameInv hm.gate
  have hph := hf.closing (views_of_pc hpc hclose.ne_start) hclose
  rw [hph] at hf
  exact ⟨hph, hf⟩

theorem step_storeCount (h : Inv jobs st ph) (hpc : (st.threads i).2 = .storeCount)
    (hs : st.step jobs i = some st') : ∃ ph', Inv jobs st' ph' := by
  have hm := step_moves (h.gate i) hs
  obtain ⟨hph, hf⟩ := h.closing_of_pc hm hpc trivial
  have hv := hf.2.2.2.1
  simp only [step, hpc] at hs
  cases hs
  refine hm.inv_goto (q := .closing i .storeInited) h (Function.update_self _ _ _) (by decide)
    (hf.proceed_closing .storeInited trivial ?_) (h.recorded_of rfl fun _ => nofun)
    (h.screen_of (by rw [hph]; rfl) _)
  simp only [slotVars, closingVars, SlotVars.mk.injEq] at hv
  simp [slotVars, goto, closingVars, hv]

theorem step_storeInited (h : Inv jobs st ph) (hpc : (st.threads i).2 = .storeInited)
    (hs : st.step jobs i = some st') : ∃ ph', Inv jobs st' ph' := by
  have hm := step_moves (h.gate i) hs
  obtain ⟨hph, hf⟩ := h.closing_of_pc hm hpc trivial
  have hv := hf.2.2.2.1
  simp only [step, hpc] at hs
  cases hs
  refine hm.inv_goto (q := .closing i .swapRelease) h (Function.update_self _ _ _) (by decide)
    (hf.proceed_closing .swapRelease trivial ?_) (h.recorded_of rfl fun _ => nofun)
    (h.screen_of (by rw [hph]; rfl) _)
  simp only [slotVars, closingVars, SlotVars.mk.injEq] at hv
  simp [slotVars, goto, closingVars, hv]

theorem step_swapRelease (h : Inv jobs st ph) (hpc : (st.threads i).2 = .swapRelease)
    (hs : st.step jobs i = some st') : ∃ ph', Inv jobs st' ph' := by
  have hm := step_moves (h.gate i) hs
  obtain ⟨hph, hf⟩ := h.closing_of_pc hm hpc trivial
  have hv : st.slotVars (slot (st.threads i).1) = ⟨false, 0, c.val⟩ := hf.2.2.2.1
  -- every other thread has released this frame, so the ones before it are done
  have hprev : ∀ j, j < (st.threads i).1 → (ph j).place = .out := fun j hj => by
    have hdone := (h.frame j).done (Nat.lt_of_lt_of_le (by decide) c.two_le) fun t =>
      view_of_gt (lt_of_lt_of_le hj ?_)
    · rw [hdone]
      rfl
    · rcases eq_or_ne t i with rfl | ht
      · exact le_rfl
      · exact (view_eq_after.mp (hf.2.2.1 t ht)).le
  have hclose := (h.screen _).close rfl (by rw [hph]; rfl) fun j _ => hprev j
  rcases hb : st.screen_bool (jobs (st.threads i).1).is_top
  · simp only [step, hpc, hb, Bool.false_eq_true, if_false] at hs
    cases hs
    refine hm.inv_goto (q := .closing i .releaseScreen) h (Function.update_self _ _ _) (by decide)
      (hf.proceed_closing .releaseScreen trivial hv) (h.recorded_of rfl fun _ => nofun) ?_
    simp only [Function.update_self]
    rw [hb] at hclose
    exact hclose
  · simp only [step, hpc, hb, if_true] at hs
    cases hs
    refine hm.inv_goto (q := .closing i .clearBool) h (Function.update_self _ _ _) (by decide)
      (hf.proceed_closing .clearBool trivial hv) (h.recorded_of rfl fun _ => nofun) ?_
    simp only [Function.update_self]
    rw [hb] at hclose
    exact hclose

theorem step_clearBool (h : Inv jobs st ph) (hpc : (st.threads i).2 = .clearBool)
    (hs : st.step jobs i = some st') : ∃ ph', Inv jobs st' ph' := by
  have hm := step_moves (h.gate i) hs
  obtain ⟨hph, hf⟩ := h.closing_of_pc hm hpc trivial
  simp only [step, hpc] at hs
  cases hs
  refine hm.inv_next (q := .done) h (Function.update_self _ _ _) (hf.finish _) (fun _ => hf.2.2.2.1)
    (h.recorded_of rfl fun _ => nofun) ?_
  simp only [Function.update_self]
  exact (h.screen _).cleared rfl (by rw [hph]; rfl)

theorem step_releaseScreen (h : Inv jobs st ph) (hpc : (st.threads i).2 = .releaseScreen)
    (hs : st.step jobs i = some st') : ∃ ph', Inv jobs st' ph' := by
  have hm := step_moves (h.gate i) hs
  obtain ⟨hph, hf⟩ := h.closing_of_pc hm hpc trivial
  simp only [step, hpc] at hs
  cases hs
  refine hm.inv_next (q := .done) h (Function.update_self _ _ _) (hf.finish _) (fun _ => hf.2.2.2.1)
    (h.recorded_of rfl fun _ => nofun) ?_
  simp only [Function.update_self]
  exact (h.screen _).left rfl (by rw [hph]; rfl)

/-- **One step.** -/
theorem step (h : Inv jobs st ph) (hs : Step jobs st st') : ∃ ph', Inv jobs st' ph' := by
  obtain ⟨i, hs⟩ := hs
  cases hpc : (st.threads i).2 with
  | start => exact h.step_start hpc hs
  | inited => exact h.step_inited hpc hs
  | swapBool => exact h.step_swapBool hpc hs
  | waitScreen d => exact h.step_waitScreen hpc hs
  | storeBool d => exact h.step_storeBool hpc hs
  | storeLast d => exact h.step_storeLast hpc hs
  | init d => exact h.step_init hpc hs
  | running d => exact h.step_running hpc hs
  | releaseWork => exact h.step_releaseWork hpc hs
  | waitWork => exact h.step_waitWork hpc hs
  | working => exact h.step_working hpc hs
  | storeCount => exact h.step_storeCount hpc hs
  | storeInited => exact h.step_storeInited hpc hs
  | swapRelease => exact h.step_swapRelease hpc hs
  | clearBool => exact h.step_clearBool hpc hs
  | releaseScreen => exact h.step_releaseScreen hpc hs

theorem start (jobs : ℕ → Job) (c : Cores) : Inv jobs (SyncState.start c) fun _ => .fresh where
  frame k := by
    refine ⟨fun t => Or.inl ?_, ?_, rfl, rfl⟩
    · rcases Nat.eq_zero_or_pos k with rfl | hk
      · exact view_start 0
      · exact view_of_lt hk
    · rw [vars]
      split_ifs <;> rfl
  gate i hi := absurd rfl hi
  recorded k i hk := nomatch hk
  screen s := .idle (fun _ _ => rfl) rfl (Or.inr rfl)

end Inv

/-- **The invariant holds in every state reached.** -/
theorem reachable_inv (h : Reachable (fun s => s = SyncState.start c) (Step jobs) st) :
    ∃ ph, Inv jobs st ph :=
  h.invariant (p := fun st => ∃ ph, Inv jobs st ph) (fun _ hs => ⟨_, hs ▸ Inv.start jobs c⟩)
    fun _ _ ⟨_, hi⟩ hs => hi.step hs

/-! ### What the invariant says -/

/-- The thread has passed the acquire of frame `k`: it encodes the frame, or has released it. -/
def Passed (st : SyncState c) (k : ℕ) (t : Fin c.val) : Prop :=
  k < (st.threads t).1 ∨
    (st.threads t).1 = k ∧ ((st.threads t).2 = .working ∨ (st.threads t).2.Closing)

namespace Inv

theorem started_le (h : Inv jobs st ph) (k : ℕ) : st.started k ≤ 1 := by
  have hf := h.frame k
  rw [FrameAt] at hf
  rcases hph : ph k with _ | ⟨j, pc⟩ | _ | ⟨j, pc⟩ | _ <;> rw [hph] at hf
  · exact hf.2.2.1.le.trans (Nat.zero_le 1)
  · refine hf.2.2.2.2.1.le.trans ?_
    cases pc <;> simp [Pc.startedBy]
  · exact hf.2.2.2.2.1.le
  · exact hf.2.2.2.2.1.le
  · exact hf.2.1.le

theorem passed (h : Inv jobs st ph) {t : Fin c.val} (ht : st.Passed k t) :
    st.started k = 1 ∧ st.finished k = 1 := by
  have hf := h.frame k
  rw [FrameAt] at hf
  -- what frame `k` sees of the thread
  have hV : st.views k t = .after ∨ st.views k t = .during .working ∨
      ∃ pc, st.views k t = .during pc ∧ pc.Closing := by
    rcases ht with ht | ⟨rfl, ht | ht⟩
    · exact Or.inl (view_of_gt ht)
    · exact Or.inr (Or.inl (views_of_pc ht (by decide)))
    · exact Or.inr (Or.inr ⟨_, views_of_pc rfl ht.ne_start, ht⟩)
  have hwait : ¬ (st.views k t).Waiting := by
    rcases hV with hV | hV | ⟨pc, hV, hpc⟩ <;> rw [hV] <;> rintro (h | h) <;> cases h
    exact hpc
  rcases hph : ph k with _ | ⟨j, q⟩ | _ | ⟨j, q⟩ | _
  · rw [hph] at hf
    exact absurd (hf.1 t) hwait
  · rw [hph] at hf
    obtain ⟨hj, hq, hothers, -⟩ := hf
    rcases eq_or_ne t j with rfl | htj
    · rw [hj] at hV
      rcases hV with hV | hV | ⟨pc, hV, hpc⟩ <;> cases hV
      · exact hq.elim
      · cases q <;> first | exact hq.elim | exact hpc.elim
    · exact absurd (hothers t htj) hwait
  · rw [hph] at hf
    exact hf.2.2.2.2
  · rw [hph] at hf
    exact hf.2.2.2.2
  · rw [hph] at hf
    exact hf.2

/-- A frame that waited for `screen_sem` has its preparations made when every thread has released
the frames before it. -/
theorem released (h : Inv jobs st ph)
    (hpc : (st.threads i).2 = .init true ∨ (st.threads i).2 = .running true) {j : ℕ}
    (hj : j < (st.threads i).1) (hs : (jobs j).is_top = (jobs (st.threads i).1).is_top)
    (t : Fin c.val) : j < (st.threads t).1 := by
  have hne : (st.threads i).2 ≠ .start := by rcases hpc with h | h <;> rw [h] <;> decide
  have hinit : (st.threads i).2.Initing := by rcases hpc with h | h <;> rw [h] <;> trivial
  have hph := (h.frame (st.threads i).1).initing (views_of_pc rfl hne) hinit
  have hplace : (ph (st.threads i).1).place = .synced := by
    rw [hph]
    rcases hpc with h | h <;> rw [h] <;> rfl
  have hout := (h.screen _).alone rfl hplace j hs (by omega)
  have hf := h.frame j
  rw [FrameAt] at hf
  have hafter : st.views j i = .after := view_of_gt hj
  rcases hq : ph j with _ | ⟨u, q⟩ | _ | ⟨u, q⟩ | _
  · rw [hq] at hf
    rcases hf.1 i with h | h <;> rw [hafter] at h <;> cases h
  · rw [hq] at hf
    rcases eq_or_ne i u with rfl | hiu
    · have := hafter.symm.trans hf.1
      cases this
    · rcases hf.2.2.1 i hiu with h | h <;> rw [hafter] at h <;> cases h
  · rw [hq] at hout
    cases hout
  · rw [hq] at hf hout
    have hc := hf.2.1
    cases q <;> first | exact hc.elim | cases hout
  · rw [hq] at hf
    exact view_eq_after.mp (hf.1 t)

theorem work_sem_le (h : Inv jobs st ph) (w : Fin 2) : st.work_sem w ≤ c.val - 1 := by
  have hn : 0 < c.val := Nat.lt_of_lt_of_le (by decide) c.two_le
  -- a thread that is furthest behind: neither its frame nor the next is done
  obtain ⟨t, -, hmin⟩ := Finset.exists_min_image Finset.univ (fun t => (st.threads t).1)
    ⟨⟨0, hn⟩, Finset.mem_univ _⟩
  have hcur : ∀ k, k = (st.threads t).1 ∨ k = (st.threads t).1 + 1 →
      st.work_sem (slot k) ≤ c.val - 1 := by
    intro k hk
    have hf := h.frameInv (k := k) fun u => by
      have := hmin u (Finset.mem_univ u)
      omega
    have hsem : st.work_sem (slot k) = (st.slotVars (slot k)).sem := rfl
    rcases hph : ph k with _ | ⟨j, q⟩ | _ | ⟨j, q⟩ | _ <;> rw [hph] at hf
    · rw [hsem, hf.2.1]
      exact Nat.zero_le _
    · rw [hsem, hf.2.2.2.1]
      exact Nat.zero_le _
    · obtain ⟨-, hv, -, hlt, -⟩ := hf
      rw [hsem, hv]
      simp only
      omega
    · rw [hsem, hf.2.2.2.1]
      cases q <;> exact Nat.zero_le _
    · have := view_eq_after.mp (hf.1 t)
      omega
  have hw : w = slot (st.threads t).1 ∨ w = slot ((st.threads t).1 + 1) := by
    have := w.isLt
    simp only [Fin.ext_iff, slot]
    omega
  rcases hw with rfl | rfl
  · exact hcur _ (Or.inl rfl)
  · exact hcur _ (Or.inr rfl)

end Inv

/-- **Delta frames are synchronised.**  In every state reached the closure of a frame has been
called once at most, and once and to its end when a thread has passed the frame's acquire; while the
closure is called for a frame that was found divided otherwise than its screen's last, every thread
has released every earlier frame of the screen; and no semaphore is above its maximum. -/
theorem synchronised (h : Reachable (fun s => s = SyncState.start c) (Step jobs) st) :
    (∀ k, st.started k ≤ 1) ∧
    (∀ k t, st.Passed k t → st.started k = 1 ∧ st.finished k = 1) ∧
    (∀ i, (st.threads i).2 = .init true ∨ (st.threads i).2 = .running true →
      ∀ j, j < (st.threads i).1 → (jobs j).is_top = (jobs (st.threads i).1).is_top →
        ∀ t, j < (st.threads t).1) ∧
    (∀ w, st.work_sem w ≤ c.val - 1) ∧ ∀ s, st.screen_sem s ≤ 1 := by
  obtain ⟨ph, hi⟩ := reachable_inv h
  exact ⟨hi.started_le, fun k t ht => hi.passed ht, fun i hpc j hj hs t => hi.released hpc hj hs t,
    hi.work_sem_le, fun s => (hi.screen s).sem_le⟩

theorem reachable_foldlM {start : SyncState c} {l : List (Fin c.val)}
    (hs : Reachable (fun s => s = start) (Step jobs) st)
    (hl : l.foldlM (fun s i => s.step jobs i) st = some st') :
    Reachable (fun s => s = start) (Step jobs) st' := by
  induction l generalizing st with
  | nil =>
    cases hl
    exact hs
  | cons i l ih =>
    rw [List.foldlM_cons] at hl
    obtain ⟨st₁, h1, h2⟩ := Option.bind_eq_some_iff.mp hl
    exact ih (hs.step ⟨i, h1⟩) h2

/-- Two threads: the first makes the preparations, the second waits. -/
theorem synchronised_running :
    ∃ st : SyncState ⟨2, by decide, by decide⟩,
      (st.threads 0).2 = .running true ∧ (st.threads 1).2 = .waitWork ∧ st.started 0 ≤ 1 ∧
        st.work_sem 0 ≤ 1 ∧ st.screen_sem true ≤ 1 := by
  have hrun : Reachable (fun s => s = SyncState.start ⟨2, by decide, by decide⟩)
      (Step fun _ => ⟨true, 5, fun _ => false, by decide⟩) _ :=
    reachable_foldlM (l := [0, 1, 0, 0, 0, 0, 0]) (.start rfl) rfl
  have h := synchronised hrun
  exact ⟨_, rfl, rfl, h.1 0, h.2.2.2.1 0, h.2.2.2.2 true⟩

end SyncState

end RemotePlay.Work
