import RemotePlay.Work.DispatchControl

/-! # The two work slots

A slot is used by every other frame.  Its `work_done`, `work_done_count` and `work_ready_flag`
follow from how far the threads have got with the slot's last frame (`SlotOk`): one permit when all
are done with it, the count of those done until the last clears it, the flag from the first that
arrives to the last that is done. -/

namespace RemotePlay.Work.Dispatch

open Lib.Threads
open Function (update)

variable {c : CoreCount} {s s' : Dispatch c} {f m : ℕ} {ph : Phase c.get}

/-- How far the last thread has got to close its frame. -/
def EncoderPc.stage : EncoderPc → ℕ
  | clearCount => 1
  | clearReady => 2
  | releaseDone => 3
  | waitThread | swapReady | initBctx | sync | skipFrame | skipSet | skipIndex |
      skipRelease | skipWait
  | imgNext | clearSkip | clearFlag | releaseWork _ | waitWork | encode | capNext | capRelease => 0

theorem EncoderPc.stage_lt (pc : EncoderPc) : pc.stage < 4 := by
  cases pc <;> simp [stage]

/-- Whether a thread has got to a stage of the frame two before frame `m`, done with it at stage
4. -/
def Encoder.Reaches (m stage : ℕ) (e : Encoder) : Prop :=
  4 * m + stage ≤ 4 * (e.frame + WORK_COUNT) + e.pc.stage

instance (m stage : ℕ) : DecidablePred (Encoder.Reaches m stage) := fun _ =>
  inferInstanceAs (Decidable (_ ≤ _))

theorem Encoder.Reaches.mono {i j : ℕ} {e : Encoder} (h : e.Reaches m i) (hij : j ≤ i) :
    e.Reaches m j := (Nat.add_le_add_left hij _).trans h

/-- What the slot that frame `m` takes shows of the frame before in that slot. -/
structure SlotOk (m : ℕ) (s : Dispatch c) : Prop where
  work_done : s.work_done (m % WORK_COUNT) = if ∀ t, (s.encoders t).Reaches m 4 then 1 else 0
  count : s.work_done_count (m % WORK_COUNT) =
    if ∀ t, (s.encoders t).Reaches m 2 then 0
    else total (fun e => if Encoder.Reaches m 1 e then 1 else 0) s.encoders
  flag : s.work_ready_flag (m % WORK_COUNT) = true ↔
    needCoreSyn c = true ∧ s.leads (m - WORK_COUNT) ≠ [] ∧ ∃ t, ¬ (s.encoders t).Reaches m 3

/-- **The slots** of the next two frames to be acquired. -/
structure Slots (g : ℕ) (s : Dispatch c) : Prop where
  slot : ∀ m, g ≤ m → m ≤ g + 1 → SlotOk m s
  closing : ∀ t u, t ≠ u → 0 < (s.encoders t).pc.stage → (s.encoders t).frame < (s.encoders u).frame

theorem SlotOk.of_reaches (h : SlotOk m s)
    (hreach : ∀ t, ∀ i, 0 < i → i ≤ 4 → ((s'.encoders t).Reaches m i ↔ (s.encoders t).Reaches m i))
    (hdone : s'.work_done (m % WORK_COUNT) = s.work_done (m % WORK_COUNT))
    (hcount : s'.work_done_count (m % WORK_COUNT) = s.work_done_count (m % WORK_COUNT))
    (hflag : s'.work_ready_flag (m % WORK_COUNT) = true ↔ needCoreSyn c = true ∧
      s'.leads (m - WORK_COUNT) ≠ [] ∧ ∃ t, ¬ (s'.encoders t).Reaches m 3) : SlotOk m s' := by
  have hall : ∀ i, 0 < i → i ≤ 4 →
      ((∀ t, (s'.encoders t).Reaches m i) ↔ ∀ t, (s.encoders t).Reaches m i) := fun i hi hi' =>
    forall_congr' fun t => hreach t i hi hi'
  have htotal : total (fun e => if Encoder.Reaches m 1 e then 1 else 0) s'.encoders =
      total (fun e => if Encoder.Reaches m 1 e then 1 else 0) s.encoders :=
    Finset.sum_congr rfl fun t _ => if_congr (hreach t 1 one_pos (by omega)) rfl rfl
  refine ⟨?_, ?_, hflag⟩
  · rw [hdone, h.work_done]
    exact if_congr (hall 4 (by omega) le_rfl).symm rfl rfl
  · rw [hcount, h.count, htotal]
    exact if_congr (hall 2 (by omega) (by omega)).symm rfl rfl

theorem SlotOk.congr (h : SlotOk m s)
    (hdone : s'.work_done (m % WORK_COUNT) = s.work_done (m % WORK_COUNT))
    (hcount : s'.work_done_count (m % WORK_COUNT) = s.work_done_count (m % WORK_COUNT))
    (hflag : s'.work_ready_flag (m % WORK_COUNT) = s.work_ready_flag (m % WORK_COUNT))
    (hleads : WORK_COUNT ≤ m → s'.leads (m - WORK_COUNT) = s.leads (m - WORK_COUNT))
    (hreach : ∀ t, ∀ i, 0 < i → i ≤ 4 →
      ((s'.encoders t).Reaches m i ↔ (s.encoders t).Reaches m i)) :
    SlotOk m s' := by
  refine h.of_reaches hreach hdone hcount ?_
  rw [hflag, h.flag]
  by_cases hm : WORK_COUNT ≤ m
  · rw [hleads hm]
    refine and_congr_right fun _ => and_congr_right fun _ => exists_congr fun t => ?_
    exact not_congr (hreach t 3 (by omega) (by omega)).symm
  · -- no frame came before
    have hfar : ∀ e : Encoder, e.Reaches m 3 := by
      intro e
      unfold Encoder.Reaches
      omega
    constructor
    · rintro ⟨-, -, t, ht⟩
      exact (ht (hfar _)).elim
    · rintro ⟨-, -, t, ht⟩
      exact (ht (hfar _)).elim

theorem Slots.congr {g : ℕ} (h : Slots g s) (hdone : s'.work_done = s.work_done)
    (hcount : s'.work_done_count = s.work_done_count)
    (hflag : s'.work_ready_flag = s.work_ready_flag)
    (hleads : s'.leads = s.leads) (hframe : ∀ t, (s'.encoders t).frame = (s.encoders t).frame)
    (hstage : ∀ t, (s'.encoders t).pc.stage = (s.encoders t).pc.stage) : Slots g s' := by
  refine ⟨fun m hm hm' => ?_, fun t u htu ht => ?_⟩
  · refine (h.slot m hm hm').congr ?_ ?_ ?_ ?_ fun t i _ _ => ?_
    · rw [hdone]
    · rw [hcount]
    · rw [hflag]
    · exact fun _ => by rw [hleads]
    · unfold Encoder.Reaches
      rw [hframe, hstage]
  · rw [hframe, hframe]
    rw [hstage] at ht
    exact h.closing t u htu ht

theorem Control.frame_le (h : Control f ph s) (t : Fin c.get) :
    (s.encoders t).frame ≤ f + ph.offered := by
  have hthread := h.thread_ready t
  have hagain : (s.encoders t).pc.again ph ≤ (s.encoders t).pc.arrived := by
    cases ph <;> cases (s.encoders t).pc <;> simp [EncoderPc.again, EncoderPc.arrived]
  omega

/-! ### The screen thread -/

/-- A permit of `work_done` says that all threads are done with the slot's last frame. -/
theorem Slots.low (h : Slots (f + ph.acquired) s) (hc : Control f ph s) {w : ℕ}
    (hscreen : s.screen = .waitDone w) (hpos : 0 < s.work_done w) (t : Fin c.get) :
    f + 1 ≤ (s.encoders t).frame + WORK_COUNT := by
  have hok := hc.screen
  rw [hscreen] at hok
  obtain ⟨rfl, rfl⟩ := hok
  have hslot := (h.slot f le_rfl (Nat.le_succ f)).work_done
  have hall : ∀ u, (s.encoders u).Reaches f 4 := by
    by_contra hnot
    rw [if_neg hnot] at hslot
    omega
  have hreach : 4 * f + 4 ≤ 4 * ((s.encoders t).frame + WORK_COUNT) + (s.encoders t).pc.stage :=
    hall t
  have := (s.encoders t).pc.stage_lt
  omega

theorem Slots.acquire (h : Slots f s) (hc : Control f .fresh s) {screen : ScreenPc}
    (hpos : 0 < s.work_done (f % WORK_COUNT)) :
    Slots (f + 1) { s with
      work_done := update s.work_done (f % WORK_COUNT) (s.work_done (f % WORK_COUNT) - 1)
      screen := screen } := by
  have hslot := h.slot f le_rfl (Nat.le_succ f)
  have hdone := hslot.work_done
  have hall : ∀ u, (s.encoders u).Reaches f 4 := by
    by_contra hnot
    rw [if_neg hnot] at hdone
    omega
  have hwork : WORK_COUNT = 2 := rfl
  have hparity : (f + 1 + 1) % WORK_COUNT = f % WORK_COUNT := Nat.add_mod_right f 2
  refine ⟨fun m hm hm' => ?_, h.closing⟩
  rcases Nat.eq_or_lt_of_le hm with rfl | hlt
  · refine (h.slot (f + 1) (Nat.le_succ f) le_rfl).congr ?_ rfl rfl (fun _ => rfl) fun _ _ _ _ =>
      Iff.rfl
    refine Function.update_of_ne ?_ _ _
    show (f + 1) % 2 ≠ f % 2
    omega
  · obtain rfl : m = f + 1 + 1 := Nat.le_antisymm hm' hlt
    have hbefore : ∀ u, ¬ (s.encoders u).Reaches (f + 1 + 1) 1 := by
      intro u hreach
      have hreach : 4 * (f + 1 + 1) + 1 ≤
          4 * ((s.encoders u).frame + WORK_COUNT) + (s.encoders u).pc.stage := hreach
      have hle : (s.encoders u).frame ≤ f := hc.frame_le u
      have hstage := (s.encoders u).pc.stage_lt
      have hzero : 0 < (s.encoders u).pc.stage → (s.encoders u).frame < f := by
        intro hpos
        have hok := hc.encoder u
        unfold Encoder.Ok at hok
        cases hpc : (s.encoders u).pc <;> rw [hpc] at hok hpos
        all_goals first | exact hok | exact (Nat.lt_irrefl 0 hpos).elim
      omega
    have hnot : ∀ i, 0 < i → ¬ ∀ u, (s.encoders u).Reaches (f + 1 + 1) i := fun i hi hreach =>
      hbefore ⟨0, c.get_pos⟩ ((hreach _).mono hi)
    have hleads : s.leads f = [] := hc.leads_later f le_rfl
    refine ⟨?_, ?_, ?_⟩
    · rw [if_neg (hnot 4 (by omega)), hparity]
      show update s.work_done (f % WORK_COUNT) _ (f % WORK_COUNT) = 0
      rw [Function.update_self, hdone, if_pos hall]
    · rw [if_neg (hnot 2 (by omega)), hparity]
      show s.work_done_count (f % WORK_COUNT) =
        total (fun e => if Encoder.Reaches (f + 1 + 1) 1 e then 1 else 0) s.encoders
      rw [hslot.count, if_pos fun u => (hall u).mono (by omega)]
      exact (total_eq_zero.mpr fun u => if_neg (hbefore u)).symm
    · rw [hparity]
      refine (hslot.flag.trans ⟨?_, ?_⟩)
      · rintro ⟨-, -, u, hu⟩
        exact (hu ((hall u).mono (by omega))).elim
      · rintro ⟨-, hne, -⟩
        exact (hne hleads).elim

/-- **A step of the screen thread.** -/
theorem Slots.screenStep (h : Slots (f + ph.acquired) s) (hc : Control f ph s) {ok is_top : Bool}
    (hs : s.screenStep ok is_top = some s') : Slots (f + (s.screenPhase ph).acquired) s' := by
  have hok := hc.screen
  unfold Dispatch.screenStep at hs
  unfold screenPhase
  cases hscreen : s.screen with
  | waitDone w =>
    simp only [hscreen] at hs hok ⊢
    split_ifs at hs with hpos
    cases hs
    obtain ⟨rfl, rfl⟩ := hok
    exact h.acquire hc hpos
  | readSkip w =>
    simp only [hscreen] at hs hok ⊢
    cases hs
    have hacquired : (if s.skip_frames w = true then ph else .lead).acquired = ph.acquired := by
      rcases Phase.captures_cases hok.2 with rfl | ⟨t, rfl⟩
      · split_ifs <;> rfl
      · split_ifs <;> rfl
    rw [hacquired]
    exact h.congr rfl rfl rfl rfl (fun _ => rfl) fun _ => rfl
  | releaseOne =>
    simp only [hscreen] at hs hok ⊢
    cases hs
    obtain ⟨t, rfl⟩ := hok
    exact h.congr rfl rfl rfl rfl (fun _ => rfl) fun _ => rfl
  | waitReady | doScreen | capture top w img | releaseAll j =>
    simp only [hscreen] at hs ⊢
    split_ifs at hs <;> cases hs <;> exact h.congr rfl rfl rfl rfl (fun _ => rfl) fun _ => rfl
  | readIndex | checkFlag w | setFlag w | readImg top w | setParams top w =>
    simp only [hscreen] at hs ⊢
    cases hs
    exact h.congr rfl rfl rfl rfl (fun _ => rfl) fun _ => rfl

/-! ### Encoder threads -/

theorem Control.acquired_encoderStep (h : Control f ph s) {t : Fin c.get} {choice : Bool}
    (hcapture : (s.encoders t).pc = .encode → choice = true →
      (s.blit_ctxes (s.encoders t).work_index).should_capture = false →
        ph = .encode ∧ (s.encoders t).frame = f) :
    s.encoderFront f t + (s.encoderPhase ph t choice).acquired = f + ph.acquired := by
  have hok := h.encoder t
  unfold Encoder.Ok at hok
  unfold encoderFront encoderPhase
  cases hpc : (s.encoders t).pc with
  | skipRelease | clearFlag =>
    rw [hpc] at hok
    obtain ⟨rfl, -⟩ := hok
    rfl
  | encode =>
    simp only
    split_ifs with htake
    · obtain ⟨rfl, -⟩ := hcapture hpc htake.1 htake.2
      rfl
    · rfl
  | capNext =>
    rw [hpc] at hok
    obtain ⟨rfl, -⟩ := hok
    rfl
  | capRelease =>
    rw [hpc] at hok
    obtain ⟨rfl, -⟩ := hok
    rfl
  | _ => rfl

theorem Slots.set {g : ℕ} (h : Slots g s) {t : Fin c.get} {e : Encoder}
    (hencoders : s'.encoders = update s.encoders t e) (hdone : s'.work_done = s.work_done)
    (hcount : s'.work_done_count = s.work_done_count)
    (hflag : s'.work_ready_flag = s.work_ready_flag)
    (hleads : s'.leads = s.leads) (hframe : e.frame = (s.encoders t).frame)
    (hstage : e.pc.stage = (s.encoders t).pc.stage) : Slots g s' := by
  refine h.congr hdone hcount hflag hleads ?_ ?_
  · rw [hencoders]
    exact (Function.forall_update_iff s.encoders fun u x => x.frame = (s.encoders u).frame).mpr
      ⟨hframe, fun _ _ => rfl⟩
  · rw [hencoders]
    exact (Function.forall_update_iff s.encoders
      fun u x => x.pc.stage = (s.encoders u).pc.stage).mpr ⟨hstage, fun _ _ => rfl⟩

theorem Control.slot_bounds (h : Control f ph s) {t : Fin c.get}
    (hlt : (s.encoders t).frame < f + ph.up) :
    f + ph.acquired ≤ (s.encoders t).frame + WORK_COUNT ∧
      (s.encoders t).frame + WORK_COUNT ≤ f + ph.acquired + 1 := by
  have hwork : WORK_COUNT = 2 := rfl
  have hlow := h.low t
  have hup := ph.up_le_offered.trans ph.offered_le_acquired
  omega

theorem Slots.turn {g : ℕ} (h : Slots g s) {t : Fin c.get} {e : Encoder}
    (hencoders : s'.encoders = update s.encoders t e)
    (hlow : g ≤ (s.encoders t).frame + WORK_COUNT)
    (hhigh : (s.encoders t).frame + WORK_COUNT ≤ g + 1)
    (hdone : ∀ w, w ≠ (s.encoders t).frame % WORK_COUNT → s'.work_done w = s.work_done w)
    (hcount : ∀ w, w ≠ (s.encoders t).frame % WORK_COUNT →
      s'.work_done_count w = s.work_done_count w)
    (hflag : ∀ w, w ≠ (s.encoders t).frame % WORK_COUNT →
      s'.work_ready_flag w = s.work_ready_flag w)
    (hleads : ∀ m, m ≠ (s.encoders t).frame → s'.leads m = s.leads m)
    (hle : (s.encoders t).frame ≤ e.frame)
    (hle' : 4 * e.frame + e.pc.stage ≤ 4 * ((s.encoders t).frame + 1))
    (hslot : SlotOk ((s.encoders t).frame + WORK_COUNT) s →
      SlotOk ((s.encoders t).frame + WORK_COUNT) s')
    (hclosing : 0 < e.pc.stage → ∀ u, u ≠ t → e.frame < (s.encoders u).frame) : Slots g s' := by
  have hwork : WORK_COUNT = 2 := rfl
  refine ⟨fun m hm hm' => ?_, ?_⟩
  · by_cases hmk : m = (s.encoders t).frame + WORK_COUNT
    · rw [hmk]
      exact hslot (h.slot _ hlow hhigh)
    · have hw : m % WORK_COUNT ≠ (s.encoders t).frame % WORK_COUNT := by
        rw [hwork] at hmk hlow hhigh ⊢
        omega
      refine (h.slot m hm hm').congr (hdone _ hw) (hcount _ hw) (hflag _ hw)
        (fun hle => hleads _ (by omega)) fun u i hi hi' => ?_
      rw [hencoders]
      by_cases hu : u = t
      · subst hu
        have hstage := (s.encoders u).pc.stage_lt
        rw [Function.update_self]
        unfold Encoder.Reaches
        omega
      · rw [Function.update_of_ne hu]
  · rw [hencoders]
    intro u v huv hu
    by_cases hut : u = t
    · subst hut
      rw [Function.update_self] at hu ⊢
      rw [Function.update_of_ne huv.symm]
      exact hclosing hu v huv.symm
    · rw [Function.update_of_ne hut] at hu ⊢
      by_cases hvt : v = t
      · subst hvt
        rw [Function.update_self]
        exact (h.closing u v huv hu).trans_le hle
      · rw [Function.update_of_ne hvt]
        exact h.closing u v huv hu

/-- A thread that has not got to a stage keeps the others from it. -/
theorem not_forall_reaches {i : ℕ} (t : Fin c.get) (h : ¬ (s.encoders t).Reaches m i) :
    ¬ ∀ u, (s.encoders u).Reaches m i := fun hall => h (hall t)

theorem reaches_self {e : Encoder} {i : ℕ} : e.Reaches (e.frame + WORK_COUNT) i ↔ i ≤ e.pc.stage :=
  Nat.add_le_add_iff_left

theorem Encoder.Reaches.of_lt {e : Encoder} {k i : ℕ} (h : k < e.frame) (hi : i ≤ 4) :
    e.Reaches (k + WORK_COUNT) i := by
  unfold Encoder.Reaches
  omega

theorem Encoder.Reaches.lt {e : Encoder} {k : ℕ} (h : e.Reaches (k + WORK_COUNT) 4) :
    k < e.frame := by
  have h : 4 * (k + WORK_COUNT) + 4 ≤ 4 * (e.frame + WORK_COUNT) + e.pc.stage := h
  have := e.pc.stage_lt
  omega

theorem Slots.lead {g : ℕ} (h : Slots g s) {t : Fin c.get}
    (hpc : (s.encoders t).pc = .swapReady) (hslot : (s.encoders t).work_index =
      (s.encoders t).frame % WORK_COUNT)
    (hlow : g ≤ (s.encoders t).frame + WORK_COUNT)
    (hhigh : (s.encoders t).frame + WORK_COUNT ≤ g + 1)
    (hleads : s.leads (s.encoders t).frame = []) :
    Slots g ({ s with
      work_ready_flag := update s.work_ready_flag (s.encoders t).work_index
        (s.work_ready_flag (s.encoders t).work_index || needCoreSyn c)
      leads := update s.leads (s.encoders t).frame (s.leads (s.encoders t).frame ++ [t]) }.goto t
        .initBctx) := by
  have hmod : ((s.encoders t).frame + WORK_COUNT) % WORK_COUNT =
      (s.encoders t).frame % WORK_COUNT :=
    Nat.add_mod_right _ _
  have hsub : (s.encoders t).frame + WORK_COUNT - WORK_COUNT = (s.encoders t).frame :=
    Nat.add_sub_cancel _ _
  rw [hslot]
  refine h.turn (t := t) (e := { s.encoders t with pc := .initBctx }) rfl hlow hhigh
    (fun _ _ => rfl) (fun _ _ => rfl) (fun w hw => Function.update_of_ne hw _ _)
    (fun m hm => Function.update_of_ne hm _ _) le_rfl (Nat.mul_le_mul_left 4 (Nat.le_succ _))
    (fun hok => ?_) fun hpos => (Nat.lt_irrefl 0 hpos).elim
  have hflag : s.work_ready_flag ((s.encoders t).frame % WORK_COUNT) = false := by
    have hflag := hok.flag
    rw [hmod, hsub, hleads] at hflag
    exact Bool.eq_false_iff.mpr fun htrue => (hflag.mp htrue).2.1 rfl
  have hreach : ∀ u i, Encoder.Reaches ((s.encoders t).frame + WORK_COUNT) i
      (update s.encoders t { s.encoders t with pc := .initBctx } u) ↔
        (s.encoders u).Reaches ((s.encoders t).frame + WORK_COUNT) i := by
    intro u i
    by_cases hu : u = t
    · subst hu
      rw [Function.update_self, reaches_self, hpc]
      exact reaches_self (e := { s.encoders u with pc := .initBctx })
    · rw [Function.update_of_ne hu]
  refine hok.of_reaches (fun u i _ _ => hreach u i) rfl rfl ?_
  show update s.work_ready_flag _ _ (_ % WORK_COUNT) = true ↔
    needCoreSyn c = true ∧ update s.leads _ _ (_ + WORK_COUNT - WORK_COUNT) ≠ [] ∧ _
  rw [hmod, hsub, Function.update_self, Function.update_self, hflag, hleads, Bool.false_or]
  refine ⟨fun hsyn => ⟨hsyn, List.cons_ne_nil _ _, t, ?_⟩, fun hand => hand.1⟩
  show ¬ Encoder.Reaches _ 3 (update s.encoders t _ t)
  rw [hreach, reaches_self, hpc]
  exact Nat.not_succ_le_zero 2

theorem SlotOk.count_succ {t : Fin c.get} {e : Encoder}
    (h : SlotOk ((s.encoders t).frame + WORK_COUNT) s) (hpc : (s.encoders t).pc = .encode)
    (he : e.Reaches ((s.encoders t).frame + WORK_COUNT) 1) :
    s.work_done_count ((s.encoders t).frame % WORK_COUNT) + 1 =
      total (fun x => if Encoder.Reaches ((s.encoders t).frame + WORK_COUNT) 1 x then 1 else 0)
        (update s.encoders t e) := by
  have hbefore : ∀ i, 0 < i → ¬ (s.encoders t).Reaches ((s.encoders t).frame + WORK_COUNT) i := by
    intro i hi
    rw [reaches_self, hpc]
    exact hi.not_ge
  have hcount := h.count
  rw [Nat.add_mod_right, if_neg (not_forall_reaches t (hbefore 2 (by omega)))] at hcount
  have htotal := total_update (fun x => if Encoder.Reaches ((s.encoders t).frame + WORK_COUNT) 1 x
    then 1 else 0) s.encoders t e
  rw [if_neg (hbefore 1 one_pos), if_pos he, ← hcount] at htotal
  exact htotal.symm

/-- **The count tells the last thread** to be done with encoding a frame that it is. -/
theorem SlotOk.last_iff {t : Fin c.get} (h : SlotOk ((s.encoders t).frame + WORK_COUNT) s)
    (hpc : (s.encoders t).pc = .encode) :
    s.work_done_count ((s.encoders t).frame % WORK_COUNT) = c.get - 1 ↔
      ∀ u, u ≠ t → (s.encoders u).Reaches ((s.encoders t).frame + WORK_COUNT) 1 := by
  have he : Encoder.Reaches ((s.encoders t).frame + WORK_COUNT) 1
      { s.encoders t with frame := (s.encoders t).frame + 1 } :=
    .of_lt (Nat.lt_succ_self _) (by omega)
  have hsucc := h.count_succ hpc he
  have hcard := total_eq_card (p := Encoder.Reaches ((s.encoders t).frame + WORK_COUNT) 1)
    (f := update s.encoders t { s.encoders t with frame := (s.encoders t).frame + 1 })
  rw [Fintype.card_fin, ← hsucc, Function.forall_update_iff s.encoders fun _ x =>
    x.Reaches ((s.encoders t).frame + WORK_COUNT) 1, and_iff_right he] at hcard
  rw [← hcard]
  have := c.get_pos
  omega

theorem Slots.count {g : ℕ} (h : Slots g s) {t : Fin c.get} {e : Encoder}
    (hpc : (s.encoders t).pc = .encode)
    (hlow : g ≤ (s.encoders t).frame + WORK_COUNT)
    (hhigh : (s.encoders t).frame + WORK_COUNT ≤ g + 1)
    (hto : (∀ u, u ≠ t → (s.encoders u).Reaches ((s.encoders t).frame + WORK_COUNT) 1) ∧
        e.frame = (s.encoders t).frame ∧ e.pc = .clearCount ∨
      (∃ u, u ≠ t ∧ ¬ (s.encoders u).Reaches ((s.encoders t).frame + WORK_COUNT) 1) ∧
        e.frame = (s.encoders t).frame + 1 ∧ e.pc = .waitThread) :
    Slots g { s with
      work_done_count := update s.work_done_count ((s.encoders t).frame % WORK_COUNT)
        (s.work_done_count ((s.encoders t).frame % WORK_COUNT) + 1)
      encoders := update s.encoders t e } := by
  have hok := h.slot _ hlow hhigh
  have hbefore : ∀ i, 0 < i → ¬ (s.encoders t).Reaches ((s.encoders t).frame + WORK_COUNT) i := by
    intro i hi
    rw [reaches_self, hpc]
    exact hi.not_ge
  have hone : e.Reaches ((s.encoders t).frame + WORK_COUNT) 1 := by
    rcases hto with ⟨-, hframe, hpc⟩ | ⟨-, hframe, hpc⟩
    · rw [← hframe, reaches_self, hpc]
      exact le_rfl
    · exact .of_lt (hframe ▸ Nat.lt_succ_self _) (by omega)
  -- some thread is not yet done with encoding, or is to close the frame
  obtain ⟨v, hv⟩ :
      ∃ u, ¬ (update s.encoders t e u).Reaches ((s.encoders t).frame + WORK_COUNT) 2 := by
    rcases hto with ⟨-, hframe, hpc⟩ | ⟨⟨u, hu, hreach⟩, -⟩
    · refine ⟨t, ?_⟩
      rw [Function.update_self, ← hframe, reaches_self, hpc]
      exact Nat.not_succ_le_self 1
    · refine ⟨u, ?_⟩
      rw [Function.update_of_ne hu]
      exact fun htwo => hreach (htwo.mono (Nat.le_succ 1))
  have hbound : (s.encoders t).frame ≤ e.frame ∧
      4 * e.frame + e.pc.stage ≤ 4 * ((s.encoders t).frame + 1) := by
    rcases hto with ⟨-, hframe, hpc⟩ | ⟨-, hframe, hpc⟩ <;> rw [hframe, hpc]
    · exact ⟨le_rfl, Nat.add_le_add_left (by decide) _⟩
    · exact ⟨Nat.le_succ _, le_rfl⟩
  refine h.turn (t := t) rfl hlow hhigh (fun _ _ => rfl)
    (fun w hw => Function.update_of_ne hw _ _) (fun _ _ => rfl) (fun _ _ => rfl) hbound.1 hbound.2
    (fun _ => ⟨?_, ?_, ?_⟩) ?_
  · have hdone := hok.work_done
    rw [if_neg (not_forall_reaches t (hbefore 4 (by omega)))] at hdone
    rw [if_neg fun hall => hv ((hall v).mono (by omega))]
    exact hdone
  · rw [if_neg fun hall => hv (hall v), Nat.add_mod_right]
    show update s.work_done_count _ _ _ = _
    rw [Function.update_self]
    exact hok.count_succ hpc hone
  · refine hok.flag.trans (and_congr_right fun _ => and_congr_right fun _ =>
      iff_of_true ⟨t, ?_⟩ ⟨v, ?_⟩)
    · exact hbefore 3 (by omega)
    · exact fun hreach => hv (hreach.mono (by omega))
  · intro hpos u hu
    rcases hto with ⟨hall, hframe, -⟩ | ⟨-, -, hpc⟩
    · have hreach : 4 * ((s.encoders t).frame + WORK_COUNT) + 1 ≤
        4 * ((s.encoders u).frame + WORK_COUNT) + (s.encoders u).pc.stage := hall u hu
      have hstage := (s.encoders u).pc.stage_lt
      have hclosing := h.closing u t hu
      rw [hframe]
      omega
    · rw [hpc] at hpos
      exact (Nat.lt_irrefl 0 hpos).elim

theorem forall_reaches {t : Fin c.get} {k i : ℕ} (hothers : ∀ u, u ≠ t → k < (s.encoders u).frame)
    (hi : i ≤ 4) : (∀ u, (s.encoders u).Reaches (k + WORK_COUNT) i) ↔
      (s.encoders t).Reaches (k + WORK_COUNT) i := by
  refine ⟨fun hreach => hreach t, fun ht u => ?_⟩
  by_cases hu : u = t
  · rw [hu]
    exact ht
  · exact .of_lt (hothers u hu) hi

theorem Slots.close {g j : ℕ} (h : Slots g s) {t : Fin c.get} {e : Encoder}
    (hencoders : s'.encoders = update s.encoders t e) (hstage : 0 < (s.encoders t).pc.stage)
    (hj : 4 * e.frame + e.pc.stage = 4 * (s.encoders t).frame + j) (htwo : 2 ≤ j) (hfour : j ≤ 4)
    (hlow : g ≤ (s.encoders t).frame + WORK_COUNT)
    (hhigh : (s.encoders t).frame + WORK_COUNT ≤ g + 1)
    (hdone : ∀ w, w ≠ (s.encoders t).frame % WORK_COUNT → s'.work_done w = s.work_done w)
    (hcount : ∀ w, w ≠ (s.encoders t).frame % WORK_COUNT →
      s'.work_done_count w = s.work_done_count w)
    (hflag : ∀ w, w ≠ (s.encoders t).frame % WORK_COUNT →
      s'.work_ready_flag w = s.work_ready_flag w)
    (hleads : s'.leads = s.leads)
    (hdone' : s.work_done ((s.encoders t).frame % WORK_COUNT) = 0 →
      s'.work_done ((s.encoders t).frame % WORK_COUNT) = if 4 ≤ j then 1 else 0)
    (hcount' : (2 ≤ (s.encoders t).pc.stage →
      s.work_done_count ((s.encoders t).frame % WORK_COUNT) = 0) →
        s'.work_done_count ((s.encoders t).frame % WORK_COUNT) = 0)
    (hflag' : (s.work_ready_flag ((s.encoders t).frame % WORK_COUNT) = true ↔
        needCoreSyn c = true ∧ s.leads (s.encoders t).frame ≠ [] ∧ ¬ 3 ≤ (s.encoders t).pc.stage) →
      (s'.work_ready_flag ((s.encoders t).frame % WORK_COUNT) = true ↔
        needCoreSyn c = true ∧ s.leads (s.encoders t).frame ≠ [] ∧ ¬ 3 ≤ j)) : Slots g s' := by
  have hlt := (s.encoders t).pc.stage_lt
  have hlt' := e.pc.stage_lt
  have hothers : ∀ u, u ≠ t → (s.encoders t).frame < (s.encoders u).frame := fun u hu =>
    h.closing t u hu.symm hstage
  have hothers' : ∀ u, u ≠ t → (s.encoders t).frame < (s'.encoders u).frame := by
    intro u hu
    rw [hencoders, Function.update_of_ne hu]
    exact hothers u hu
  have hbefore : ∀ i, i ≤ 4 → ((∀ u, (s.encoders u).Reaches ((s.encoders t).frame + WORK_COUNT) i) ↔
      i ≤ (s.encoders t).pc.stage) := fun i hi => (forall_reaches hothers hi).trans reaches_self
  have hafter : ∀ i, i ≤ 4 → ((∀ u, (s'.encoders u).Reaches ((s.encoders t).frame + WORK_COUNT) i) ↔
      i ≤ j) := by
    intro i hi
    refine (forall_reaches hothers' hi).trans ?_
    rw [hencoders, Function.update_self]
    unfold Encoder.Reaches
    omega
  refine h.turn hencoders hlow hhigh hdone hcount hflag (fun m _ => by rw [hleads]) (by omega)
    (by omega) (fun hok => ?_) fun hpos u hu => ?_
  · obtain ⟨h1, h2, h3⟩ := hok
    rw [Nat.add_mod_right] at h1 h2 h3
    rw [Nat.add_sub_cancel, ← not_forall, hbefore 3 (by omega)] at h3
    rw [if_neg fun hall => absurd ((hbefore 4 le_rfl).mp hall) (Nat.not_le.mpr hlt)] at h1
    refine ⟨?_, ?_, ?_⟩
    · rw [Nat.add_mod_right, hdone' h1]
      exact if_congr (hafter 4 le_rfl).symm rfl rfl
    · rw [Nat.add_mod_right, if_pos ((hafter 2 (by omega)).mpr htwo)]
      refine hcount' fun hle => ?_
      rw [h2, if_pos ((hbefore 2 (by omega)).mpr hle)]
    · rw [Nat.add_mod_right, Nat.add_sub_cancel, ← not_forall, hafter 3 (by omega), hleads]
      exact hflag' h3
  · have hothers := hothers u hu
    omega

theorem Control.swap_bounds (h : Control f ph s) {t : Fin c.get}
    (hpc : (s.encoders t).pc = .swapReady) :
    f + ph.acquired ≤ (s.encoders t).frame + WORK_COUNT ∧
      (s.encoders t).frame + WORK_COUNT ≤ f + ph.acquired + 1 := by
  have hwork : WORK_COUNT = 2 := rfl
  have hlow := h.low t
  have hthread := h.thread_ready t
  have hagain : (s.encoders t).pc.again ph = 0 := EncoderPc.again_eq_zero (by rw [hpc]; rfl)
  have harrived : (s.encoders t).pc.arrived = 1 := by rw [hpc]; rfl
  have hoffered := ph.offered_le_acquired
  omega

/-- **The flag tells a thread that arrives whether the frame is led.** -/
theorem Slots.led_iff (h : Slots (f + ph.acquired) s) (hc : Control f ph s) {t : Fin c.get}
    (hpc : (s.encoders t).pc = .swapReady) :
    (needCoreSyn c = true ∧ s.work_ready_flag (s.encoders t).work_index = true) ↔
      s.leads (s.encoders t).frame ≠ [] := by
  obtain ⟨hlow, hhigh⟩ := hc.swap_bounds hpc
  have hflag := (h.slot _ hlow hhigh).flag
  rw [Nat.add_mod_right, Nat.add_sub_cancel, ← hc.slot t] at hflag
  rw [hflag]
  refine ⟨fun hand => hand.2.2.1, fun hne => ?_⟩
  have hsyn : needCoreSyn c = true := by
    by_contra hsyn
    have hone : c = .one := by simpa [needCoreSyn] using hsyn
    obtain ⟨u, hu⟩ := List.exists_mem_of_ne_nil _ hne
    have hut : u = t := by
      subst hone
      exact Subsingleton.elim (α := Fin 1) u t
    have hled := hc.led _ u hu
    rw [hut, hpc] at hled
    exact Nat.lt_irrefl _ hled
  refine ⟨hsyn, hsyn, hne, t, ?_⟩
  rw [reaches_self, hpc]
  exact Nat.not_succ_le_zero 2

/-- **A step of an encoder thread.** -/
theorem Slots.encoderStep (h : Slots (f + ph.acquired) s) (hc : Control f ph s) {t : Fin c.get}
    {choice : Bool} (hs : s.encoderStep t choice = some s') : Slots (f + ph.acquired) s' := by
  have hok := hc.encoder t
  unfold Encoder.Ok at hok
  have hslot := hc.slot t
  unfold Dispatch.encoderStep at hs
  cases hpc : (s.encoders t).pc with
  | swapReady =>
    simp only [hpc] at hs
    split_ifs at hs with hled
    · cases hs
      exact h.set (t := t) rfl rfl rfl rfl rfl rfl (by rw [hpc]; rfl)
    · cases hs
      obtain ⟨hlow, hhigh⟩ := hc.swap_bounds hpc
      exact h.lead hpc hslot hlow hhigh (not_not.mp (mt (h.led_iff hc hpc).mpr hled))
  | encode =>
    simp only [hpc] at hs
    rw [hpc] at hok
    obtain ⟨hlow, hhigh⟩ := hc.slot_bounds hok
    cases choice with
    | true =>
      rw [if_pos rfl] at hs
      cases hs
      refine h.set (t := t) rfl rfl rfl rfl rfl rfl ?_
      rw [hpc]
      split <;> rfl
    | false =>
      rw [if_neg Bool.false_ne_true] at hs
      cases hs
      rw [hslot]
      split
      · next hlast =>
        exact h.count hpc hlow hhigh
          (.inl ⟨((h.slot _ hlow hhigh).last_iff hpc).mp hlast, rfl, rfl⟩)
      · next hnot =>
        have hbehind := mt ((h.slot _ hlow hhigh).last_iff hpc).mpr hnot
        push Not at hbehind
        exact h.count hpc hlow hhigh (.inr ⟨hbehind, rfl, rfl⟩)
  | clearCount =>
    simp only [hpc] at hs
    rw [hpc] at hok
    cases hs
    obtain ⟨hlow, hhigh⟩ := hc.slot_bounds hok
    rw [hslot]
    refine h.close (t := t) (j := 2) rfl (by rw [hpc]; exact Nat.one_pos) rfl le_rfl (by omega) hlow
      hhigh (fun _ _ => rfl) (fun w hw => Function.update_of_ne hw _ _) (fun _ _ => rfl) rfl
      (fun hzero => hzero) (fun _ => Function.update_self _ _ _) (fun hflag => ?_)
    rw [hpc] at hflag
    refine hflag.trans (and_congr_right fun _ => and_congr_right fun _ => ?_)
    exact not_congr (iff_of_false (by decide) (by omega))
  | clearReady =>
    simp only [hpc] at hs
    rw [hpc] at hok
    cases hs
    obtain ⟨hlow, hhigh⟩ := hc.slot_bounds hok
    rw [hslot]
    refine h.close (t := t) (j := 3) rfl (by rw [hpc]; exact Nat.two_pos) rfl (by omega)
      (by omega) hlow
      hhigh (fun _ _ => rfl) (fun _ _ => rfl) (fun w hw => Function.update_of_ne hw _ _) rfl
      (fun hzero => hzero) (fun hcount => hcount (by rw [hpc]; exact le_rfl)) fun _ => ?_
    show update s.work_ready_flag _ false _ = true ↔ _
    rw [Function.update_self]
    exact iff_of_false Bool.false_ne_true fun hand => hand.2.2 le_rfl
  | releaseDone =>
    simp only [hpc] at hs
    rw [hpc] at hok
    cases hs
    obtain ⟨hlow, hhigh⟩ := hc.slot_bounds hok
    rw [hslot]
    refine h.close (t := t) (j := 4) rfl (by rw [hpc]; exact Nat.succ_pos 2) rfl (by omega)
      le_rfl hlow
      hhigh (fun w hw => Function.update_of_ne hw _ _) (fun _ _ => rfl) (fun _ _ => rfl) rfl
      (fun hzero => ?_) (fun hcount => hcount (by rw [hpc]; exact Nat.le_succ 2)) fun hflag => ?_
    · show update s.work_done _ _ _ = _
      rw [Function.update_self, hzero]
      rfl
    · rw [hpc] at hflag
      refine hflag.trans (and_congr_right fun _ => and_congr_right fun _ => ?_)
      exact not_congr (iff_of_true le_rfl (by omega))
  | clearFlag =>
    simp only [hpc] at hs
    cases hs
    split
    · exact h.set (t := t) rfl rfl rfl rfl rfl rfl (by rw [hpc]; rfl)
    · exact h.set (t := t) rfl rfl rfl rfl rfl rfl (by rw [hpc]; rfl)
  | waitThread | skipWait | releaseWork j | waitWork =>
    simp only [hpc] at hs
    split_ifs at hs <;> cases hs <;> exact h.set (t := t) rfl rfl rfl rfl rfl rfl (by rw [hpc]; rfl)
  | skipFrame =>
    simp only [hpc] at hs
    cases hs
    refine h.set (t := t) rfl rfl rfl rfl rfl rfl ?_
    rw [hpc]
    cases choice <;> rfl
  | initBctx | sync | skipSet | skipIndex | skipRelease | imgNext | clearSkip | capNext |
      capRelease =>
    simp only [hpc] at hs
    cases hs
    exact h.set (t := t) rfl rfl rfl rfl rfl rfl (by rw [hpc]; rfl)

end RemotePlay.Work.Dispatch
