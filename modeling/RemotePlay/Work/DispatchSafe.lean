import RemotePlay.Work.DispatchImages

/-! # Frames are led by one thread and encoded by all

Every state reached agrees with a front frame and its phase (`reached_agrees`).  So each frame has
one leader, the threads encode the same frames in the same order, no slot is filled in while a
thread still encodes from it, and no capture goes into an image that is in use. -/

namespace RemotePlay.Work.Dispatch

open Lib.Threads
open Function (update)

variable {c : CoreCount} {s s' : Dispatch c} {f : ℕ} {ph : Phase c.get}

/-- **A state agrees with a front frame and its phase.** -/
structure Agrees (f : ℕ) (ph : Phase c.get) (s : Dispatch c) : Prop where
  control : Control f ph s
  slots : Slots (f + ph.acquired) s
  images : Images f ph s

theorem Agrees.start : Agrees 0 .fresh (start c) where
  control :=
    { released := rfl
      work_index := rfl
      screen_ready := rfl
      screen := by simp [Dispatch.start, ScreenPc.Ok]
      phase := trivial
      encoder := fun _ => trivial
      slot := fun _ => rfl
      low := fun _ => Nat.zero_le _
      thread_ready := fun _ => rfl
      work_ready := fun _ => (Nat.zero_add _).trans (total_eq_zero.mpr fun _ => rfl)
      led := fun _ _ ht => by simp [Dispatch.start] at ht
      leads_up := fun _ hm => (Nat.not_lt_zero _ hm).elim
      leads_front := fun hph => by simp at hph
      leads_later := fun _ _ => rfl
      done_flag := fun _ => (Bool.and_false _).symm
      skip_other := fun _ _ => rfl
      skip_front := rfl
      skips := fun _ => trivial }
  slots := by
    refine ⟨fun m _ hm => ?_, fun t u _ ht => (Nat.lt_irrefl 0 ht).elim⟩
    have hm : m ≤ 1 := hm
    have hreach : ∀ i, i ≤ 4 → ∀ t : Fin c.get, ((Dispatch.start c).encoders t).Reaches m i := by
      intro i hi t
      show 4 * m + i ≤ 4 * (0 + 2) + 0
      omega
    refine ⟨?_, ?_, ?_⟩
    · rw [if_pos (hreach 4 le_rfl)]
      rfl
    · rw [if_pos (hreach 2 (by omega))]
      rfl
    · refine iff_of_false Bool.false_ne_true ?_
      rintro ⟨-, -, t, ht⟩
      exact ht (hreach 3 (by omega) t)
  images :=
    { live := fun _ hm => (Nat.not_lt_zero _ hm).elim
      asked := fun _ hm => (Nat.not_lt_zero _ hm).elim
      asked_front := trivial
      captured := fun _ hm => (hm rfl).elim
      screen := fun hcaptures => by simp [Phase.captures] at hcaptures
      unled := fun hph => by simp at hph
      leader := fun _ => trivial
      advanced := fun _ _ _ heq => by simp [Dispatch.start] at heq
      img_index := fun _ => Nat.two_pos
      encoded := fun _ => rfl }

/-- **Every step goes to a state that agrees.** -/
theorem Agrees.step (h : Agrees f ph s) (hs : Step s s') : ∃ f' ph', Agrees f' ph' s' := by
  obtain ⟨hc, hslots, himages⟩ := h
  rcases hs with ⟨ok, is_top, hs⟩ | ⟨t, choice, hs⟩
  · refine ⟨f, s.screenPhase ph, hc.screenStep (fun w hscreen hpos t => ?_) hs,
      hslots.screenStep hc hs, himages.screenStep hc hs⟩
    exact hslots.low hc hscreen hpos t
  · have hcapture := fun hpc (_ : choice = true) => himages.first_asks hc (t := t) hpc
    refine ⟨_, _, hc.encoderStep (fun hpc => hslots.led_iff hc hpc) hcapture hs, ?_,
      himages.encoderStep hc hslots hs⟩
    rw [hc.acquired_encoderStep hcapture]
    exact hslots.encoderStep hc hs

/-- **Every state reached agrees** with a front frame and its phase. -/
theorem reached_agrees (h : Reachable (· = start c) Step s) : ∃ f ph, Agrees f ph s :=
  h.invariant (p := fun s => ∃ f ph, Agrees f ph s) (fun _ hs => ⟨0, .fresh, hs ▸ .start⟩)
    fun _ _ ⟨_, _, hagrees⟩ hstep => hagrees.step hstep

/-! ### Released frames can be encoded -/

/-- How far a thread has got with its frame. -/
def EncoderPc.rank (n : ℕ) : EncoderPc → ℕ
  | waitThread => 0
  | swapReady => 1
  | waitWork => 2
  | releaseWork j => j + 3
  | encode => n + 4
  | clearCount => n + 5
  | clearReady => n + 6
  | releaseDone => n + 7
  | initBctx | sync | skipFrame | skipSet | skipIndex | skipRelease | skipWait | imgNext | clearSkip
  | clearFlag | capNext | capRelease => 0

/-- What is left of the frames before frame `r` for a thread to go through. -/
def Encoder.left (n r : ℕ) (e : Encoder) : ℕ := (n + 8) * (r - e.frame) - e.pc.rank n

/-- What is left for the screen thread to release. -/
def ScreenPc.left (n : ℕ) : ScreenPc → ℕ
  | releaseAll j => n - j
  | waitReady | readIndex | checkFlag _ | waitDone _ | setFlag _ | doScreen | readImg _ _
  | capture _ _ _ | setParams _ _ | readSkip _ | releaseOne => 0

/-- What is left until all threads are done with the frames released. -/
def left (s : Dispatch c) : ℕ :=
  s.screen.left c.get + total (Encoder.left c.get s.released) s.encoders

theorem Encoder.left_goto {n r : ℕ} {e e' : Encoder} (hframe : e'.frame = e.frame)
    (hlt : e.frame < r) (hrank : e.pc.rank n < e'.pc.rank n) (hrank' : e'.pc.rank n < n + 8) :
    e'.left n r < e.left n r := by
  obtain ⟨d, hd⟩ := Nat.exists_eq_add_of_lt hlt
  have hsub : r - e.frame = d + 1 := by omega
  unfold Encoder.left
  rw [hframe, hsub, Nat.mul_succ]
  omega

theorem Encoder.left_finish {n r : ℕ} {e e' : Encoder} (hframe : e'.frame = e.frame + 1)
    (hlt : e.frame < r) (hrank : e.pc.rank n < n + 8) (hpc : e'.pc = .waitThread) :
    e'.left n r < e.left n r := by
  obtain ⟨d, hd⟩ := Nat.exists_eq_add_of_lt hlt
  have hsub : r - e.frame = d + 1 := by omega
  have hsub' : r - (e.frame + 1) = d := by omega
  unfold Encoder.left
  rw [hframe, hsub, hsub', hpc, Nat.mul_succ]
  show (n + 8) * d - 0 < _
  omega

theorem exists_nearer_of_step {t : Fin c.get} {choice : Bool} {e : Encoder}
    (hs : s.encoderStep t choice = some s') (hscreen : s'.screen = s.screen)
    (hreleased : s'.released = s.released) (hencoders : s'.encoders = update s.encoders t e)
    (hlt : e.left c.get s.released < (s.encoders t).left c.get s.released) :
    ∃ s', Step s s' ∧ s'.released = s.released ∧ s'.left < s.left := by
  refine ⟨s', .inr ⟨t, choice, hs⟩, hreleased, ?_⟩
  have htotal := total_update (Encoder.left c.get s.released) s.encoders t e
  unfold left
  rw [hscreen, hreleased, hencoders]
  omega

theorem Agrees.exists_close (h : Agrees f ph s) {t : Fin c.get}
    (hstage : 0 < (s.encoders t).pc.stage) :
    ∃ s', Step s s' ∧ s'.released = s.released ∧ s'.left < s.left := by
  have hok := h.control.encoder t
  have hreleased := h.control.released
  unfold Encoder.Ok at hok
  cases hpc : (s.encoders t).pc with
  | clearCount =>
    rw [hpc] at hok
    have hs : s.encoderStep t true = some ({ s with
        work_done_count := update s.work_done_count (s.encoders t).work_index 0 }.goto t
          .clearReady) := by
      unfold Dispatch.encoderStep
      simp only [hpc]
    refine exists_nearer_of_step hs rfl rfl rfl (Encoder.left_goto rfl (hreleased ▸ hok) ?_ ?_)
    · rw [hpc]
      exact Nat.lt_succ_self _
    · exact Nat.lt_add_of_pos_right Nat.two_pos
  | clearReady =>
    rw [hpc] at hok
    have hs : s.encoderStep t true = some ({ s with
        work_ready_flag := update s.work_ready_flag (s.encoders t).work_index false }.goto t
          .releaseDone) := by
      unfold Dispatch.encoderStep
      simp only [hpc]
    refine exists_nearer_of_step hs rfl rfl rfl (Encoder.left_goto rfl (hreleased ▸ hok) ?_ ?_)
    · rw [hpc]
      exact Nat.lt_succ_self _
    · exact Nat.lt_succ_self _
  | releaseDone =>
    rw [hpc] at hok
    have hs : s.encoderStep t true = some ({ s with
        work_done := update s.work_done (s.encoders t).work_index
          (s.work_done (s.encoders t).work_index + 1)
        captured := update s.captured (s.blit_ctxes (s.encoders t).work_index).frame none }.finish
          t) := by
      unfold Dispatch.encoderStep
      simp only [hpc]
    refine exists_nearer_of_step hs rfl rfl rfl (Encoder.left_finish rfl (hreleased ▸ hok) ?_ rfl)
    rw [hpc]
    exact Nat.lt_succ_self _
  | _ =>
    rw [hpc] at hstage
    exact (Nat.lt_irrefl 0 hstage).elim

theorem Agrees.exists_release (h : Agrees f ph s) {t : Fin c.get} {j : ℕ}
    (hpc : (s.encoders t).pc = .releaseWork j) :
    ∃ s', Step s s' ∧ s'.released = s.released ∧ s'.left < s.left := by
  have hok := h.control.encoder t
  unfold Encoder.Ok at hok
  rw [hpc] at hok
  obtain ⟨hj, -, hlt⟩ := hok
  have hlt : (s.encoders t).frame < s.released := h.control.released ▸ hlt
  by_cases hjc : j < c.get
  · have hrank : EncoderPc.rank c.get (s.encoders t).pc <
        EncoderPc.rank c.get (.releaseWork (j + 1)) := by
      rw [hpc]
      exact Nat.lt_succ_self _
    have hrank' : EncoderPc.rank c.get (.releaseWork (j + 1)) < c.get + 8 := by
      show j + 1 + 3 < c.get + 8
      omega
    by_cases hself : (⟨j, hjc⟩ : Fin c.get) = t
    · have hs : s.encoderStep t true = some (s.goto t (.releaseWork (j + 1))) := by
        unfold Dispatch.encoderStep
        simp only [hpc, dif_pos hjc, if_pos hself]
      exact exists_nearer_of_step hs rfl rfl rfl (Encoder.left_goto rfl hlt hrank hrank')
    · have hs : s.encoderStep t true = some ({ s with
          work_ready := update s.work_ready ⟨j, hjc⟩ (s.work_ready ⟨j, hjc⟩ + 1) }.goto t
            (.releaseWork (j + 1))) := by
        unfold Dispatch.encoderStep
        simp only [hpc, dif_pos hjc, if_neg hself]
      exact exists_nearer_of_step hs rfl rfl rfl (Encoder.left_goto rfl hlt hrank hrank')
  · have hs : s.encoderStep t true = some (s.begin t) := by
      unfold Dispatch.encoderStep
      simp only [hpc, dif_neg hjc]
    refine exists_nearer_of_step hs rfl rfl rfl (Encoder.left_goto rfl hlt ?_ ?_)
    · rw [hpc]
      show j + 3 < c.get + 4
      omega
    · show c.get + 4 < c.get + 8
      omega

/-- **While a thread is to encode a released frame**, some thread can go on. -/
theorem Agrees.exists_nearer (h : Agrees f ph s) {t : Fin c.get}
    (ht : (s.encoders t).frame + (s.encoders t).pc.begun < s.released) :
    ∃ s', Step s s' ∧ s'.released = s.released ∧ s'.left < s.left := by
  have hc := h.control
  have hok := hc.encoder t
  have hreleased := hc.released
  have hlt : (s.encoders t).frame < s.released := (Nat.le_add_right _ _).trans_lt ht
  unfold Encoder.Ok at hok
  cases hpc : (s.encoders t).pc with
  | waitThread =>
    have hthread := hc.thread_ready t
    rw [hpc, EncoderPc.again_eq_zero rfl] at hthread
    have hthread : s.thread_ready t + (s.encoders t).frame + 0 + s.screen.tail t =
        f + ph.offered + 0 :=
      hthread
    have hup := ph.up_le_offered
    by_cases hpos : 0 < s.thread_ready t
    · have hs : s.encoderStep t true = some ({ s with
          thread_ready := update s.thread_ready t (s.thread_ready t - 1) }.goto t .swapReady) := by
        unfold Dispatch.encoderStep
        simp only [hpc, if_pos hpos]
      refine exists_nearer_of_step hs rfl rfl rfl (Encoder.left_goto rfl hlt ?_ ?_)
      · rw [hpc]
        exact Nat.one_pos
      · show 1 < c.get + 8
        omega
    · -- the screen thread is about to release it
      have htail : 0 < s.screen.tail t := by omega
      cases hscreen : s.screen with
      | releaseAll j =>
        have hj := hc.screen
        rw [hscreen] at hj
        obtain ⟨hj, -⟩ := hj
        have hs : s.screenStep true true = some { s with
            thread_ready := update s.thread_ready ⟨j, hj⟩ (s.thread_ready ⟨j, hj⟩ + 1)
            screen := if j + 1 < c.get then .releaseAll (j + 1) else .waitReady } := by
          unfold Dispatch.screenStep
          simp only [hscreen, dif_pos hj]
        refine ⟨_, .inl ⟨true, true, hs⟩, rfl, ?_⟩
        refine Nat.add_lt_add_right ?_ _
        rw [hscreen]
        show ScreenPc.left c.get (if _ then _ else _) < c.get - j
        split
        · show c.get - (j + 1) < c.get - j
          omega
        · show 0 < c.get - j
          omega
      | _ =>
        rw [hscreen] at htail
        exact (Nat.lt_irrefl 0 htail).elim
  | swapReady =>
    obtain ⟨u, hu⟩ := hc.leads_up _ (hreleased ▸ hlt)
    have hled := (h.slots.led_iff hc hpc).mpr (by rw [hu]; exact List.cons_ne_nil _ _)
    have hs : s.encoderStep t true = some (s.goto t .waitWork) := by
      unfold Dispatch.encoderStep
      simp only [hpc, if_pos hled]
    refine exists_nearer_of_step hs rfl rfl rfl (Encoder.left_goto rfl hlt ?_ ?_)
    · rw [hpc]
      exact Nat.lt_succ_self _
    · show 2 < c.get + 8
      omega
  | releaseWork j => exact h.exists_release hpc
  | waitWork =>
    have hwork := hc.work_ready t
    rw [hpc] at hwork
    have hwork : s.work_ready t + (s.encoders t).frame + 0 +
      total (fun e : Encoder => e.pc.pending t) s.encoders = f + ph.up := hwork
    by_cases hpos : 0 < s.work_ready t
    · have hs : s.encoderStep t true = some ({ s with
          work_ready := update s.work_ready t (s.work_ready t - 1) }.begin t) := by
        unfold Dispatch.encoderStep
        simp only [hpc, if_pos hpos]
      refine exists_nearer_of_step hs rfl rfl rfl (Encoder.left_goto rfl hlt ?_ ?_)
      · rw [hpc]
        show 2 < c.get + 4
        omega
      · show c.get + 4 < c.get + 8
        omega
    · -- the leader is about to release it
      have hne : ¬ total (fun e : Encoder => e.pc.pending t) s.encoders = 0 := by omega
      obtain ⟨u, hu⟩ := not_forall.mp (mt total_eq_zero.mpr hne)
      cases hpcu : (s.encoders u).pc with
      | releaseWork j => exact h.exists_release hpcu
      | _ =>
        rw [hpcu] at hu
        exact (hu rfl).elim
  | encode =>
    rw [hpc] at ht
    have hrank : (s.encoders t).pc.rank c.get = c.get + 4 := by rw [hpc]; rfl
    by_cases hcount : s.work_done_count (s.encoders t).work_index = c.get - 1
    · have hs : s.encoderStep t false = some ({ s with
          work_done_count := update s.work_done_count (s.encoders t).work_index
            (s.work_done_count (s.encoders t).work_index + 1) }.goto t .clearCount) := by
        unfold Dispatch.encoderStep
        simp only [hpc, if_neg Bool.false_ne_true, if_pos hcount]
      refine exists_nearer_of_step hs rfl rfl rfl (Encoder.left_goto rfl hlt ?_ ?_)
      · rw [hrank]
        exact Nat.lt_succ_self _
      · show c.get + 5 < c.get + 8
        omega
    · have hs : s.encoderStep t false = some ({ s with
          work_done_count := update s.work_done_count (s.encoders t).work_index
            (s.work_done_count (s.encoders t).work_index + 1) }.finish t) := by
        unfold Dispatch.encoderStep
        simp only [hpc, if_neg Bool.false_ne_true, if_neg hcount]
      refine exists_nearer_of_step hs rfl rfl rfl (Encoder.left_finish rfl hlt ?_ rfl)
      rw [hrank]
      omega
  | initBctx | sync | skipFrame | skipSet | skipIndex | skipRelease | imgNext | clearSkip |
      clearFlag =>
    rw [hpc] at hok
    obtain ⟨rfl, hframe, -⟩ := hok
    have hreleased : s.released = f := hreleased
    omega
  | skipWait =>
    rw [hpc] at hok
    obtain ⟨rfl | rfl, hframe, -⟩ := hok
    · have hreleased : s.released = f := hreleased
      omega
    · have hreleased : s.released = f := hreleased
      omega
  | capNext =>
    rw [hpc] at hok ht
    obtain ⟨rfl, hframe⟩ := hok
    have hreleased : s.released = f + 1 := hreleased
    have ht : (s.encoders t).frame + 1 < s.released := ht
    omega
  | capRelease =>
    rw [hpc] at hok ht
    obtain ⟨rfl, hframe⟩ := hok
    have hreleased : s.released = f := hreleased
    have ht : (s.encoders t).frame + 1 < s.released := ht
    omega
  | clearCount | clearReady | releaseDone =>
    exact h.exists_close (by rw [hpc]; exact Nat.succ_pos _)

theorem Agrees.frame_add_begun_le (h : Agrees f ph s) (t : Fin c.get) :
    (s.encoders t).frame + (s.encoders t).pc.begun ≤ s.released := by
  have hc := h.control
  have hok := hc.encoder t
  have hreleased := hc.released
  unfold Encoder.Ok at hok
  cases hpc : (s.encoders t).pc with
  | encode | clearCount | clearReady | releaseDone =>
    rw [hpc] at hok
    exact hreleased ▸ hok
  | capNext =>
    rw [hpc] at hok
    obtain ⟨rfl, hframe⟩ := hok
    rw [hframe, hreleased]
    exact le_rfl
  | capRelease =>
    rw [hpc] at hok
    obtain ⟨rfl, hframe⟩ := hok
    rw [hreleased]
    exact hframe.le
  | _ =>
    have hwork := hc.work_ready t
    show (s.encoders t).frame + 0 ≤ s.released
    omega

/-- All threads have begun to encode all of the frames before frame `r`, the last released. -/
def Begun (r : ℕ) (s : Dispatch c) : Prop :=
  s.released = r ∧ ∀ t, (s.encoders t).frame + (s.encoders t).pc.begun = r

/-- **Every thread can encode every released frame.** -/
theorem Agrees.exists_encoded (h : Agrees f ph s) :
    ∃ s', Relation.ReflTransGen Step s s' ∧ s'.released = s.released ∧
      ∀ t, (s'.encoders t).encoded = (List.range s.released).map fun m => (m % WORK_COUNT, m) := by
  have hnear : ∀ s₁ : Dispatch c,
      ((∃ f ph, Agrees f ph s₁) ∧ s₁.released = s.released ∧ ¬ s₁.Begun s.released) →
        ∃ s₂, Step s₁ s₂ ∧ (((∃ f ph, Agrees f ph s₂) ∧ s₂.Begun s.released) ∨
          ((∃ f ph, Agrees f ph s₂) ∧ s₂.released = s.released ∧ ¬ s₂.Begun s.released) ∧
            s₂.left < s₁.left) := by
    rintro s₁ ⟨⟨f₁, ph₁, h₁⟩, hreleased, hnot⟩
    obtain ⟨t, ht⟩ := not_forall.mp fun hall => hnot ⟨hreleased, hall⟩
    have hlt := lt_of_le_of_ne (h₁.frame_add_begun_le t) (by rw [hreleased]; exact ht)
    obtain ⟨s₂, hstep, hreleased₂, hleft⟩ := h₁.exists_nearer hlt
    refine ⟨s₂, hstep, ?_⟩
    by_cases hbegun : s₂.Begun s.released
    · exact .inl ⟨h₁.step hstep, hbegun⟩
    · exact .inr ⟨⟨h₁.step hstep, hreleased₂.trans hreleased, hbegun⟩, hleft⟩
  have hend : ∃ s', Relation.ReflTransGen Step s s' ∧
      (∃ f ph, Agrees f ph s') ∧ s'.Begun s.released := by
    by_cases hbegun : s.Begun s.released
    · exact ⟨s, .refl, ⟨f, ph, h⟩, hbegun⟩
    · exact exists_reached left hnear ⟨⟨f, ph, h⟩, rfl, hbegun⟩
  obtain ⟨s', hrun, ⟨f', ph', h'⟩, hreleased, hbegun⟩ := hend
  refine ⟨s', hrun, hreleased, fun t => ?_⟩
  rw [h'.images.encoded, hbegun]

/-! ### What holds in every state -/

theorem Agrees.leads (h : Agrees f ph s) (m : ℕ) : s.leads m = [] ∨ ∃ t, s.leads m = [t] := by
  have hc := h.control
  by_cases hup : m < f + ph.up
  · exact .inr (hc.leads_up m hup)
  by_cases hoffered : f + ph.offered ≤ m
  · exact .inl (hc.leads_later m hoffered)
  have hphase := hc.phase
  cases ph with
  | lead =>
    have hm : m = f := Nat.le_antisymm (Nat.lt_succ_iff.mp (not_le.mp hoffered)) (not_lt.mp hup)
    rw [hm]
    exact hc.leads_front rfl
  | retry t =>
    have hm : m = f := Nat.le_antisymm (Nat.lt_succ_iff.mp (not_le.mp hoffered)) (not_lt.mp hup)
    have hok := hc.encoder t
    unfold Encoder.Ok at hok
    rw [hphase.1] at hok
    rw [hm]
    exact .inr ⟨t, hok.2.2⟩
  | fresh | first | encode => exact (hoffered (not_lt.mp hup)).elim
  | take t => exact (hoffered (not_lt.mp hup)).elim
  | pass t => exact (hoffered (not_lt.mp hup)).elim

theorem Agrees.led (h : Agrees f ph s) {t : Fin c.get} (hwait : (s.encoders t).pc ≠ .waitThread)
    (hswap : (s.encoders t).pc ≠ .swapReady) : s.leads (s.encoders t).frame ≠ [] := by
  have hc := h.control
  have hok := hc.encoder t
  have hup : (s.encoders t).frame < f + ph.up → s.leads (s.encoders t).frame ≠ [] := by
    intro hlt
    obtain ⟨u, hu⟩ := hc.leads_up _ hlt
    rw [hu]
    exact List.cons_ne_nil _ _
  unfold Encoder.Ok at hok
  cases hpc : (s.encoders t).pc with
  | waitThread => exact (hwait hpc).elim
  | swapReady => exact (hswap hpc).elim
  | waitWork =>
    rw [hpc] at hok
    exact hok
  | initBctx | sync | skipFrame | skipSet | skipIndex | skipRelease | skipWait | imgNext | clearSkip
  | clearFlag =>
    rw [hpc] at hok
    rw [hok.2.1, hok.2.2]
    exact List.cons_ne_nil _ _
  | releaseWork j =>
    rw [hpc] at hok
    exact hup hok.2.2
  | encode | clearCount | clearReady | releaseDone =>
    rw [hpc] at hok
    exact hup hok
  | capNext =>
    rw [hpc] at hok
    obtain ⟨rfl, hframe⟩ := hok
    exact hup (hframe ▸ Nat.lt_succ_self _)
  | capRelease =>
    rw [hpc] at hok
    obtain ⟨rfl, hframe⟩ := hok
    exact hup (hframe ▸ Nat.lt_succ_self _)

/-- The `BlitCtx` of a released frame is not written to while a thread is yet to be done with it,
but for `should_capture`. -/
theorem Agrees.blit_ctxes_step (h : Agrees f ph s) (hs : Step s s') {t : Fin c.get}
    (ht : (s.encoders t).frame < s.released) :
    (s'.blit_ctxes (s.encoders t).work_index).is_top =
    (s.blit_ctxes (s.encoders t).work_index).is_top ∧
      (s'.blit_ctxes (s.encoders t).work_index).src = (s.blit_ctxes (s.encoders t).work_index).src ∧
      (s'.blit_ctxes (s.encoders t).work_index).frame =
        (s.blit_ctxes (s.encoders t).work_index).frame := by
  have hc := h.control
  have hslot := hc.slot t
  rcases hs with ⟨ok, is_top, hs⟩ | ⟨u, choice, hs⟩
  · have hsame : s'.blit_ctxes = s.blit_ctxes := by
      unfold Dispatch.screenStep at hs
      cases hscreen : s.screen with
      | waitReady | waitDone w | doScreen | capture top w img | releaseAll j =>
        simp only [hscreen] at hs
        split_ifs at hs <;> cases hs <;> rfl
      | readIndex | checkFlag w | setFlag w | readImg top w | setParams top w | readSkip w
      | releaseOne =>
        simp only [hscreen] at hs
        cases hs
        rfl
    rw [hsame]
    exact ⟨rfl, rfl, rfl⟩
  · unfold Dispatch.encoderStep at hs
    cases hpc : (s.encoders u).pc with
    | initBctx =>
      simp only [hpc] at hs
      cases hs
      obtain ⟨rfl, hframe, -⟩ := (Encoder.ok_leading (by rw [hpc]; rfl)).mp (hc.encoder u)
      have hne : (s.encoders t).work_index ≠ (s.encoders u).work_index := by
        have hlow : f + 1 ≤ (s.encoders t).frame + 2 := hc.low t
        have hreleased : s.released = f := hc.released
        rw [hslot, hc.slot u, hframe]
        show (s.encoders t).frame % 2 ≠ f % 2
        omega
      have hsame : update s.blit_ctxes (s.encoders u).work_index
          ⟨s.work_ready_params (s.encoders u).work_index,
            s.imgInfo (s.work_ready_params (s.encoders u).work_index), false, s.released⟩
              (s.encoders t).work_index = s.blit_ctxes (s.encoders t).work_index :=
        Function.update_of_ne hne _ _
      exact ⟨congrArg _ hsame, congrArg _ hsame, congrArg _ hsame⟩
    | encode =>
      simp only [hpc] at hs
      have hasked : ∀ w, (update s.blit_ctxes (s.encoders u).work_index
          { s.blit_ctxes (s.encoders u).work_index with should_capture := true } w).is_top =
            (s.blit_ctxes w).is_top ∧
          (update s.blit_ctxes (s.encoders u).work_index
            { s.blit_ctxes (s.encoders u).work_index with should_capture := true } w).src =
              (s.blit_ctxes w).src ∧
          (update s.blit_ctxes (s.encoders u).work_index
            { s.blit_ctxes (s.encoders u).work_index with should_capture := true } w).frame =
              (s.blit_ctxes w).frame :=
        (Function.forall_update_iff s.blit_ctxes fun w x => x.is_top = (s.blit_ctxes w).is_top ∧
          x.src = (s.blit_ctxes w).src ∧ x.frame = (s.blit_ctxes w).frame).mpr
            ⟨⟨rfl, rfl, rfl⟩, fun _ _ => ⟨rfl, rfl, rfl⟩⟩
      cases choice with
      | true =>
        rw [if_pos rfl] at hs
        cases hs
        exact hasked _
      | false =>
        rw [if_neg Bool.false_ne_true] at hs
        cases hs
        split <;> exact ⟨rfl, rfl, rfl⟩
    | waitThread | swapReady | skipWait | releaseWork j | waitWork =>
      simp only [hpc] at hs
      split_ifs at hs <;> cases hs <;> exact ⟨rfl, rfl, rfl⟩
    | clearFlag =>
      simp only [hpc] at hs
      cases hs
      split <;> exact ⟨rfl, rfl, rfl⟩
    | sync | skipFrame | skipSet | skipIndex | skipRelease | imgNext | clearSkip |
        capNext | capRelease
    | clearCount | clearReady | releaseDone =>
      simp only [hpc] at hs
      cases hs
      exact ⟨rfl, rfl, rfl⟩

/-- **The semaphores' counts** are within the maxima that `init_syn_handles` gives. -/
structure Bounded (s : Dispatch c) : Prop where
  screen_ready : s.screen_ready ≤ 1
  thread_ready : ∀ t, s.thread_ready t ≤ WORK_COUNT
  work_ready : ∀ t, s.work_ready t ≤ WORK_COUNT
  work_done : ∀ w < WORK_COUNT, s.work_done w ≤ 1

theorem Agrees.bounded (h : Agrees f ph s) : Bounded s := by
  have hc := h.control
  refine ⟨?_, fun t => ?_, fun t => ?_, fun w hw => ?_⟩
  · rw [hc.screen_ready]
    exact Bool.toNat_le _
  · have hthread := hc.thread_ready t
    have hlow := hc.low t
    have hagain : (s.encoders t).pc.again ph ≤ (s.encoders t).pc.arrived := by
      cases ph <;> cases (s.encoders t).pc <;> simp [EncoderPc.again, EncoderPc.arrived]
    have hoffered := ph.offered_le_acquired
    omega
  · have hwork := hc.work_ready t
    have hlow := hc.low t
    have hup := ph.up_le_offered.trans ph.offered_le_acquired
    omega
  · have hparity : ∀ m, s.work_done (m % WORK_COUNT) =
        (if ∀ t, (s.encoders t).Reaches m 4 then 1 else 0) →
          s.work_done (m % WORK_COUNT) ≤ 1 := by
      intro m hm
      rw [hm]
      split <;> omega
    have hfirst := hparity _ (h.slots.slot _ le_rfl (Nat.le_succ _)).work_done
    have hsecond := hparity _ (h.slots.slot _ (Nat.le_succ _) le_rfl).work_done
    have hw : w = (f + ph.acquired) % 2 ∨ w = (f + ph.acquired + 1) % 2 := by
      have hw : w < 2 := hw
      omega
    rcases hw with rfl | rfl
    · exact hfirst
    · exact hsecond

/-- A step of the screen thread, or of an encoder thread. -/
def act (s : Dispatch c) : (Bool × Bool) ⊕ (Fin c.get × Bool) → Option (Dispatch c)
  | .inl x => s.screenStep x.1 x.2
  | .inr x => s.encoderStep x.1 x.2

theorem reached_run {as : List ((Bool × Bool) ⊕ (Fin c.get × Bool))}
    (hrun : as.foldlM act (start c) = some s) : Reachable (· = start c) Step s := by
  refine Reachable.foldlM (fun s₁ a s₂ hstep => ?_) (.start rfl) hrun
  cases a with
  | inl x => exact .inl ⟨x.1, x.2, hstep⟩
  | inr x => exact .inr ⟨x.1, x.2, hstep⟩

/-- The encoder threads of two cores, 1 and 0. -/
def twoEncoder (t : Bool) : Fin CoreCount.two.get := ⟨t.toNat, t.toNat_lt⟩

/-- Two cores encode the first frame, of the top screen.  Thread 1 leads it, and skips what was
captured first; thread 0 is done with it; and thread 1 has asked for the next, which is about to be
captured. -/
def nextCapture : Option (Dispatch .two) :=
  (List.replicate 12 (Sum.inl (true, true)) ++
    List.replicate 4 (Sum.inr (twoEncoder true, false)) ++
    List.replicate 4 (Sum.inr (twoEncoder true, true)) ++ List.replicate 9 (Sum.inl (true, true)) ++
        List.replicate 10 (Sum.inr (twoEncoder true, false)) ++
          List.replicate 4 (Sum.inr (twoEncoder false, false)) ++
            List.replicate 3 (Sum.inr (twoEncoder true, true)) ++
              List.replicate 7 (Sum.inl (true, true))).foldlM act (start .two)

theorem exists_nextCapture : ∃ s : Dispatch .two, nextCapture = some s ∧ s.released = 1 := by
  have hreleased : nextCapture.map released = some 1 := by decide +kernel
  exact Option.map_eq_some_iff.mp hreleased

/-! ### Safety -/

/-- **One thread leads each frame, and all encode the same.**  No frame has two leaders, and a frame
has one when it is released or a thread is past its flag.  What a thread has encoded is the frames
released, each once and in order, each from the slot of its number and at most two behind. -/
theorem reached_dispatched (h : Reachable (· = start c) Step s) :
    (∀ m, (s.leads m).length ≤ 1) ∧ (∀ m < s.released, (s.leads m).length = 1) ∧
      (∀ t, (s.encoders t).pc ≠ .waitThread → (s.encoders t).pc ≠ .swapReady →
        (s.leads (s.encoders t).frame).length = 1) ∧
      ∀ t, ∃ n ≤ s.released, s.released ≤ n + WORK_COUNT ∧
        (s.encoders t).encoded = (List.range n).map fun m => (m % WORK_COUNT, m) := by
  obtain ⟨f, ph, h⟩ := reached_agrees h
  have hc := h.control
  have hone : ∀ m, s.leads m ≠ [] → (s.leads m).length = 1 := by
    intro m hne
    rcases h.leads m with hnil | ⟨t, ht⟩
    · exact (hne hnil).elim
    · rw [ht]
      rfl
  refine ⟨fun m => ?_, fun m hm => ?_, fun t hwait hswap => hone _ (h.led hwait hswap), fun t => ?_⟩
  · rcases h.leads m with hnil | ⟨t, ht⟩
    · rw [hnil]
      exact Nat.zero_le 1
    · rw [ht]
      exact le_rfl
  · rw [hc.released] at hm
    obtain ⟨t, ht⟩ := hc.leads_up m hm
    rw [ht]
    rfl
  · refine ⟨_, h.frame_add_begun_le t, ?_, h.images.encoded t⟩
    have hlow := hc.low t
    have hup := ph.up_le_offered.trans ph.offered_le_acquired
    rw [hc.released]
    omega

theorem reached_dispatched_next : ∃ s : Dispatch .two, nextCapture = some s ∧ s.released = 1 ∧
    (s.leads 0).length = 1 ∧ ∀ t, ∃ n ≤ 1, 1 ≤ n + WORK_COUNT ∧
      (s.encoders t).encoded = (List.range n).map fun m => (m % WORK_COUNT, m) := by
  obtain ⟨s, hs, hone⟩ := exists_nextCapture
  have h := reached_dispatched (reached_run hs)
  rw [hone] at h
  exact ⟨s, hs, hone, h.2.1 0 Nat.one_pos, h.2.2.2⟩

/-- **No frame is lost**: however far the threads have got, all can go on to encode every frame
released, with none released meanwhile. -/
theorem reached_can_encode (h : Reachable (· = start c) Step s) :
    ∃ s', Relation.ReflTransGen Step s s' ∧ s'.released = s.released ∧
      ∀ t, (s'.encoders t).encoded = (List.range s.released).map fun m => (m % WORK_COUNT, m) := by
  obtain ⟨f, ph, h⟩ := reached_agrees h
  exact h.exists_encoded

theorem reached_can_encode_next : ∃ s s' : Dispatch .two, nextCapture = some s ∧
    Relation.ReflTransGen Step s s' ∧ s'.released = 1 ∧
    ∀ t, (s'.encoders t).encoded = [(0, 0)] := by
  obtain ⟨s, hs, hone⟩ := exists_nextCapture
  obtain ⟨s', hrun, hrel, hencoded⟩ := reached_can_encode (reached_run hs)
  rw [hone] at hrel hencoded
  exact ⟨s, s', hs, hrun, hrel, hencoded⟩

/-- **No semaphore is released above its maximum.** -/
theorem reached_bounded (h : Reachable (· = start c) Step s) : s.Bounded := by
  obtain ⟨f, ph, h⟩ := reached_agrees h
  exact h.bounded

theorem reached_bounded_next : ∃ s : Dispatch .two, nextCapture = some s ∧ s.Bounded := by
  obtain ⟨s, hs, -⟩ := exists_nextCapture
  exact ⟨s, hs, reached_bounded (reached_run hs)⟩

/-- **No slot is filled in while a thread encodes from it**: until a thread is done with a frame
that is released, every step leaves the `BlitCtx` of its slot that of the frame, but for
`should_capture`. -/
theorem reached_kept (h : Reachable (· = start c) Step s) {t : Fin c.get}
    (ht : (s.encoders t).frame < s.released) (hs : Step s s') :
    (s'.blit_ctxes (s.encoders t).work_index).frame = (s.encoders t).frame ∧
      (s'.blit_ctxes (s.encoders t).work_index).is_top =
        (s.blit_ctxes (s.encoders t).work_index).is_top ∧
      (s'.blit_ctxes (s.encoders t).work_index).src =
      (s.blit_ctxes (s.encoders t).work_index).src := by
  obtain ⟨f, ph, h⟩ := reached_agrees h
  obtain ⟨htop, hsrc, hframe⟩ := h.blit_ctxes_step hs ht
  rw [h.control.released] at ht
  refine ⟨?_, htop, hsrc⟩
  rw [hframe, h.control.slot t]
  exact (h.images.live _ ht ⟨t, le_rfl⟩).2

theorem reached_kept_next : ∃ s s' : Dispatch .two, nextCapture = some s ∧
    s.screenStep true true = some s' ∧ (s'.blit_ctxes 0).src = (s.blit_ctxes 0).src := by
  obtain ⟨s, hs, -⟩ := exists_nextCapture
  have hsome : (nextCapture.bind fun s => s.screenStep true true).isSome = true := by decide +kernel
  have hframe : (nextCapture.map fun s => ((s.encoders (twoEncoder true)).frame,
    (s.encoders (twoEncoder true)).work_index, s.released)) = some (0, 0, 1) := by decide +kernel
  rw [hs] at hsome hframe
  obtain ⟨s', hs'⟩ := Option.isSome_iff_exists.mp hsome
  have hs' : s.screenStep true true = some s' := hs'
  obtain ⟨hzero, hindex, hone⟩ : (s.encoders (twoEncoder true)).frame = 0 ∧
      (s.encoders (twoEncoder true)).work_index = 0 ∧ s.released = 1 := by
    simpa using hframe
  have hkept := reached_kept (reached_run hs) (t := twoEncoder true)
    (by rw [hzero, hone]; exact Nat.one_pos) (.inl ⟨true, true, hs'⟩)
  rw [hindex] at hkept
  exact ⟨s, s', hs, hs', hkept.2.2⟩

/-- When a capture starts, its buffer is the screen's current one, and that of no frame in work. -/
theorem Agrees.capture (h : Agrees f ph s) {is_top : Bool} {w : ℕ} {img : ImgBuf}
    (hscreen : s.screen = .capture is_top w img) :
    img = s.imgInfo is_top ∧ (∀ m, s.captured m ≠ some img) ∧
      ∀ t, (s.encoders t).pc ≠ .skipFrame := by
  have hc := h.control
  have hok := hc.screen
  rw [hscreen] at hok
  obtain ⟨-, hcaptures⟩ := hok
  obtain ⟨hup, hacquired, hlead⟩ := Phase.up_of_captures hcaptures
  have himage := h.images.screen hcaptures
  rw [hscreen] at himage
  obtain ⟨hnone, rfl⟩ := himage
  refine ⟨rfl, fun m hm => ?_, fun t hpc => ?_⟩
  · obtain ⟨hlt, t, ht⟩ := h.images.captured m (by rw [hm]; simp)
    have hlow : f + ph.acquired ≤ (s.encoders t).frame + 2 := hc.low t
    have hmf : m ≠ f := by
      rintro rfl
      rw [hnone] at hm
      cases hm
    refine h.images.advanced m ?_ is_top hm
    rw [hc.advanced_eq_zero hlead]
    omega
  · have hok := hc.encoder t
    unfold Encoder.Ok at hok
    rw [hpc] at hok
    exact hlead hok.1

/-- A thread compares the image of its frame, which is the screen's current one. -/
theorem Agrees.compared (h : Agrees f ph s) {t : Fin c.get} (hpc : (s.encoders t).pc = .skipFrame) :
    (s.blit_ctxes (s.encoders t).work_index).src =
      s.imgInfo (s.blit_ctxes (s.encoders t).work_index).is_top ∧
        s.captured (s.encoders t).frame = some (s.blit_ctxes (s.encoders t).work_index).src := by
  obtain ⟨-, hframe, -⟩ := (Encoder.ok_leading (by rw [hpc]; rfl)).mp (h.control.encoder t)
  have himage := h.images.leader t
  rw [hpc] at himage
  obtain ⟨⟨hcaptured, -⟩, hsrc⟩ := himage
  rw [h.control.slot t, hframe]
  exact ⟨hsrc, hcaptured⟩

/-- **No capture goes into an image in use.**  When a capture starts, its buffer is the screen's
current one, that of no frame captured and neither skipped nor done, that of no `BlitCtx` which a
thread is yet to be done with, and not the one that the next frame is compared with; and no thread
is comparing.  What a thread compares is its own frame's image and the screen's other one. -/
theorem reached_images (h : Reachable (· = start c) Step s) :
    (∀ is_top w img, s.screen = .capture is_top w img →
      img = s.imgInfo is_top ∧ img ≠ s.imgInfoPrev is_top ∧ (∀ m, s.captured m ≠ some img) ∧
        (∀ m < s.released, (∃ t, (s.encoders t).frame ≤ m) →
          (s.blit_ctxes (m % WORK_COUNT)).frame = m ∧ (s.blit_ctxes (m % WORK_COUNT)).src ≠ img) ∧
        ∀ t, (s.encoders t).pc ≠ .skipFrame) ∧
      ∀ t, (s.encoders t).pc = .skipFrame →
        s.captured (s.encoders t).frame = some (s.blit_ctxes (s.encoders t).work_index).src ∧
          (s.blit_ctxes (s.encoders t).work_index).src ≠
            s.imgInfoPrev (s.blit_ctxes (s.encoders t).work_index).is_top := by
  obtain ⟨f, ph, h⟩ := reached_agrees h
  have hother : ∀ is_top, s.imgInfo is_top ≠ s.imgInfoPrev is_top := fun is_top heq =>
    nextWrapped_ne (h.images.img_index is_top) (ImgBuf.mk.inj heq).2.symm
  refine ⟨fun is_top w img hscreen => ?_, fun t hpc => ?_⟩
  · obtain ⟨himg, hapart, hskip⟩ := h.capture hscreen
    refine ⟨himg, himg ▸ hother is_top, hapart, fun m hm hex => ?_, hskip⟩
    rw [h.control.released] at hm
    obtain ⟨hcaptured, hframe⟩ := h.images.live m hm hex
    refine ⟨hframe, fun hsrc => hapart m ?_⟩
    rw [hcaptured, hsrc]
  · obtain ⟨hsrc, hcaptured⟩ := h.compared hpc
    refine ⟨hcaptured, ?_⟩
    rw [hsrc]
    exact hother _

theorem reached_images_next : ∃ s : Dispatch .two, nextCapture = some s ∧
    s.screen = .capture true 1 ⟨true, 1⟩ ∧ s.captured 0 ≠ some ⟨true, 1⟩ := by
  obtain ⟨s, hs, -⟩ := exists_nextCapture
  have hscreen : nextCapture.map screen = some (.capture true 1 ⟨true, 1⟩) := by decide +kernel
  rw [hs] at hscreen
  have hscreen : s.screen = .capture true 1 ⟨true, 1⟩ := Option.some.inj hscreen
  exact ⟨s, hs, hscreen, ((reached_images (reached_run hs)).1 _ _ _ hscreen).2.2.1 0⟩

end RemotePlay.Work.Dispatch
