import RemotePlay.Work.DispatchPhase

/-! # Steps of the dispatch and the front frame

How each step of the screen thread and of an encoder thread changes the front frame and its phase
(`screenPhase`, `encoderPhase`, `encoderFront`), and that they go on agreeing with the shared state
(`Control.screenStep`, `Control.encoderStep`). -/

namespace RemotePlay.Work.Dispatch

open Lib.Threads
open Function (update)

variable {c : CoreCount} {s s' : Dispatch c} {f : ℕ} {ph : Phase c.get}

/-! ### The screen thread -/

/-- The phase after a step of the screen thread. -/
def screenPhase (s : Dispatch c) (ph : Phase c.get) : Phase c.get :=
  match s.screen with
  | .waitDone _ => .first
  | .readSkip w => if s.skip_frames w = true then ph else .lead
  | .releaseOne => .lead
  | .waitReady | .readIndex | .checkFlag _ | .setFlag _ | .doScreen | .readImg _ _ | .capture _ _ _
  | .setParams _ _ | .releaseAll _ => ph

theorem Phase.waits_cases {n : ℕ} {ph : Phase n} (h : ph.waits = true) :
    ph = .fresh ∨ ∃ t, ph = .retry t := by
  cases ph with
  | fresh => exact .inl rfl
  | retry t => exact .inr ⟨t, rfl⟩
  | first | lead | encode | take t | pass t => cases h

theorem Phase.captures_cases {n : ℕ} {ph : Phase n} (h : ph.captures = true) :
    ph = .first ∨ ∃ t, ph = .retry t := by
  cases ph with
  | first => exact .inl rfl
  | retry t => exact .inr ⟨t, rfl⟩
  | fresh | lead | encode | take t | pass t => cases h

theorem Control.screen_goto (h : Control f ph s) {screen : ScreenPc} (hok : screen.Ok f ph)
    (hready : (ph.waits && screen.quiet) = (ph.waits && s.screen.quiet))
    (htail : ∀ t, screen.tail t = s.screen.tail t)
    (hflag : ph.flagged screen = ph.flagged s.screen) :
    Control f ph { s with screen := screen } := by
  refine { h with screen_ready := ?_, screen := hok, thread_ready := ?_, done_flag := ?_ }
  · rw [hready]
    exact h.screen_ready
  · intro t
    rw [htail]
    exact h.thread_ready t
  · intro w
    rw [hflag]
    exact h.done_flag w

/-- No thread is ahead unless it leads or the phase names it. -/
theorem Control.not_ahead (h : Control f ph s) {t : Fin c.get}
    (hph : ¬ (ph = .lead ∨ ph = .retry t ∨ ph = .take t ∨ ph = .pass t)) :
    (s.encoders t).pc.ahead = false :=
  Bool.eq_false_iff.mpr fun ha => hph (((h.encoder t).of_ahead ha).imp_left And.left)

theorem Control.acquire (h : Control f .fresh s) {w : ℕ} (hscreen : s.screen = .waitDone w)
    (hlow : ∀ t, f + 1 ≤ (s.encoders t).frame + WORK_COUNT) (done : ℕ → ℕ) :
    Control f .first { s with work_done := done, screen := .setFlag w } := by
  have hahead : ∀ t, (s.encoders t).pc.ahead = false := fun t =>
    h.not_ahead (by simp)
  have hok := h.screen
  rw [hscreen] at hok
  refine { h with
    screen_ready := ?_, screen := ⟨hok.1, rfl⟩, encoder := ?_, low := hlow, thread_ready := ?_,
    leads_front := ?_ }
  · have hready := h.screen_ready
    rw [hscreen] at hready
    exact hready
  · intro t
    exact (h.encoder t).of_not_ahead (hahead t) le_rfl fun _ _ => rfl
  · intro t
    have hready := h.thread_ready t
    rw [hscreen] at hready
    exact hready
  · intro hlead
    cases hlead

theorem Control.offer (h : Control f .first s) {w : ℕ} (hscreen : s.screen = .readSkip w) :
    Control f .lead { s with screen := .releaseAll 0 } := by
  have hahead : ∀ t, (s.encoders t).pc.ahead = false := fun t =>
    h.not_ahead (by simp)
  refine { h with
    screen_ready := ?_, screen := ⟨c.get_pos, by simp⟩, phase := trivial, encoder := ?_,
    thread_ready := ?_, leads_front := ?_, leads_later := ?_, done_flag := ?_,
    skip_front := trivial }
  · have hready := h.screen_ready
    rw [hscreen] at hready
    exact hready
  · intro t
    exact (h.encoder t).of_not_ahead (hahead t) le_rfl fun _ _ => rfl
  · intro t
    have hready := h.thread_ready t
    rw [hscreen, EncoderPc.again_eq_zero (hahead t)] at hready
    have htail : ScreenPc.tail t (.releaseAll 0) = 1 := by simp [ScreenPc.tail]
    rw [EncoderPc.again_eq_zero (hahead t), htail]
    exact congrArg Nat.succ hready
  · intro _
    exact .inl (h.leads_later f le_rfl)
  · intro m hm
    exact h.leads_later m ((Nat.le_succ f).trans hm)
  · intro w'
    have hflag := h.done_flag w'
    rw [hscreen] at hflag
    exact hflag

theorem Control.offer_again {t : Fin c.get} (h : Control f (.retry t) s)
    (hscreen : s.screen = .releaseOne) :
    Control f .lead { s with
      thread_ready := update s.thread_ready s.thread_index (s.thread_ready s.thread_index + 1)
      screen := .waitReady } := by
  obtain ⟨hpc, hindex⟩ := h.phase
  have hok : (s.encoders t).Ok f (.retry t) s.leads t := h.encoder t
  unfold Encoder.Ok at hok
  rw [hpc] at hok
  have hahead : ∀ u, u ≠ t → (s.encoders u).pc.ahead = false := fun u hu =>
    h.not_ahead (by simp [hu.symm])
  refine { h with
    screen_ready := ?_, screen := by simp [ScreenPc.Ok], phase := trivial, encoder := ?_,
    thread_ready := ?_, leads_front := fun _ => .inr ⟨t, hok.2.2⟩, done_flag := ?_,
    skip_front := trivial }
  · have hready := h.screen_ready
    rw [hscreen] at hready
    exact hready
  · intro u
    by_cases hu : u = t
    · subst hu
      unfold Encoder.Ok
      rw [hpc]
      exact ⟨.inl rfl, hok.2⟩
    · exact (h.encoder u).of_not_ahead (hahead u hu) le_rfl fun _ _ => rfl
  · intro u
    have hready := h.thread_ready u
    rw [hscreen] at hready
    show update s.thread_ready s.thread_index _ u + _ + _ + 0 = f + 1 + _
    rw [hindex]
    by_cases hu : u = t
    · subst hu
      rw [hpc] at hready
      rw [Function.update_self, hpc]
      have hready : s.thread_ready u + (s.encoders u).frame + 1 + 0 = f + 1 + 0 := hready
      show s.thread_ready u + 1 + (s.encoders u).frame + 1 + 0 = f + 1 + 1
      omega
    · rw [Function.update_of_ne hu, EncoderPc.again_eq_zero (hahead u hu)]
      exact hready
  · intro w
    have hflag := h.done_flag w
    rw [hscreen] at hflag
    exact hflag

theorem update_slot {g : ℕ → Bool} {a : ℕ} {b : Bool} (h : ∀ w, g w = (decide (w = a) && b))
    (b' : Bool) (w : ℕ) : update g a b' w = (decide (w = a) && b') := by
  by_cases hw : w = a
  · rw [hw, Function.update_self, decide_eq_true rfl, Bool.true_and]
  · rw [Function.update_of_ne hw, h, decide_eq_false hw, Bool.false_and, Bool.false_and]

/-- **A step of the screen thread.** -/
theorem Control.screenStep (h : Control f ph s) {ok is_top : Bool}
    (hlow : ∀ w, s.screen = .waitDone w → 0 < s.work_done w →
      ∀ t, f + 1 ≤ (s.encoders t).frame + WORK_COUNT)
    (hs : s.screenStep ok is_top = some s') : Control f (s.screenPhase ph) s' := by
  have hok := h.screen
  unfold Dispatch.screenStep at hs
  unfold screenPhase
  cases hscreen : s.screen with
  | waitReady =>
    simp only [hscreen] at hs hok ⊢
    split_ifs at hs with hpos
    cases hs
    have hready := h.screen_ready
    rw [hscreen] at hready
    have hwaits : ph.waits = true := by
      cases hph : ph.waits with
      | true => rfl
      | false =>
        rw [hph] at hready
        exact (hpos.ne' hready).elim
    rw [hwaits] at hready
    refine { h with screen_ready := ?_, screen := hwaits, thread_ready := ?_, done_flag := ?_ }
    · show s.screen_ready - 1 = (ph.waits && false).toNat
      rw [hready, Bool.and_false]
      rfl
    · intro t
      have hthread := h.thread_ready t
      rw [hscreen] at hthread
      exact hthread
    · intro w
      have hflag := h.done_flag w
      rw [hscreen] at hflag
      rw [hflag]
      cases ph <;> rfl
  | readIndex =>
    simp only [hscreen] at hs hok ⊢
    cases hs
    exact h.screen_goto ⟨h.work_index, hok⟩ (by rw [hscreen]; rfl) (fun _ => by rw [hscreen]; rfl)
      (by rw [hscreen]; cases ph <;> rfl)
  | checkFlag w =>
    simp only [hscreen] at hs hok ⊢
    cases hs
    obtain ⟨rfl, hwaits⟩ := hok
    have hflag := h.done_flag (f % WORK_COUNT)
    rw [hscreen, decide_eq_true rfl, Bool.true_and] at hflag
    rcases Phase.waits_cases hwaits with rfl | ⟨t, rfl⟩
    · have hfalse : s.work_done_flag (f % WORK_COUNT) = false := hflag
      rw [if_neg (Bool.not_eq_true _ ▸ hfalse)]
      exact h.screen_goto ⟨rfl, rfl⟩ (by rw [hscreen]; rfl) (fun _ => by rw [hscreen]; rfl) rfl
    · have htrue : s.work_done_flag (f % WORK_COUNT) = true := hflag
      rw [if_pos htrue]
      exact h.screen_goto rfl (by rw [hscreen]; rfl) (fun _ => by rw [hscreen]; rfl) rfl
  | waitDone w =>
    simp only [hscreen] at hs hok ⊢
    split_ifs at hs with hpos
    cases hs
    obtain ⟨rfl, rfl⟩ := hok
    exact h.acquire hscreen (hlow _ hscreen hpos) _
  | setFlag w =>
    simp only [hscreen] at hs hok ⊢
    cases hs
    obtain ⟨rfl, rfl⟩ := hok
    refine { h with screen_ready := ?_, screen := rfl, thread_ready := ?_, done_flag := ?_ }
    · have hready := h.screen_ready
      rw [hscreen] at hready
      exact hready
    · intro t
      have hthread := h.thread_ready t
      rw [hscreen] at hthread
      exact hthread
    · intro w
      exact update_slot h.done_flag true w
  | doScreen =>
    simp only [hscreen] at hs hok ⊢
    split_ifs at hs
    · cases hs
      exact h.screen_goto ⟨h.work_index, hok⟩ (by rw [hscreen]; rfl) (fun _ => by rw [hscreen]; rfl)
        (by rw [hscreen]; cases ph <;> rfl)
    · cases hs
      exact h
  | readImg top w =>
    simp only [hscreen] at hs hok ⊢
    cases hs
    exact h.screen_goto hok (by rw [hscreen]; rfl) (fun _ => by rw [hscreen]; rfl)
      (by rw [hscreen]; cases ph <;> rfl)
  | capture top w img =>
    simp only [hscreen] at hs hok ⊢
    split_ifs at hs
    · cases hs
      have hcaptured : Control f ph { s with
        captured := update s.captured s.released (some img) } := { h with }
      exact hcaptured.screen_goto hok (by simp [hscreen, ScreenPc.quiet])
        (fun _ => by simp [hscreen, ScreenPc.tail]) (by simp only [hscreen]; cases ph <;> rfl)
    · cases hs
      exact h.screen_goto hok.2 (by rw [hscreen]; rfl) (fun _ => by rw [hscreen]; rfl)
        (by rw [hscreen]; cases ph <;> rfl)
  | setParams top w =>
    simp only [hscreen] at hs hok ⊢
    cases hs
    have hparams : Control f ph { s with
      work_ready_params := update s.work_ready_params w top } := { h with }
    exact hparams.screen_goto hok (by simp [hscreen, ScreenPc.quiet])
      (fun _ => by simp [hscreen, ScreenPc.tail]) (by simp only [hscreen]; cases ph <;> rfl)
  | readSkip w =>
    simp only [hscreen] at hs hok ⊢
    cases hs
    obtain ⟨rfl, hcaptures⟩ := hok
    have hskip := h.skip_front
    rcases Phase.captures_cases hcaptures with rfl | ⟨t, rfl⟩
    · have hfalse : s.skip_frames (f % WORK_COUNT) = false := hskip
      rw [if_neg (Bool.not_eq_true _ ▸ hfalse), if_neg (Bool.not_eq_true _ ▸ hfalse)]
      exact h.offer hscreen
    · have htrue : s.skip_frames (f % WORK_COUNT) = true := hskip
      rw [if_pos htrue, if_pos htrue]
      exact h.screen_goto ⟨t, rfl⟩ (by rw [hscreen]; rfl) (fun _ => by rw [hscreen]; rfl) rfl
  | releaseOne =>
    simp only [hscreen] at hs hok ⊢
    cases hs
    obtain ⟨t, rfl⟩ := hok
    exact h.offer_again hscreen
  | releaseAll j =>
    simp only [hscreen] at hs hok ⊢
    obtain ⟨hj, hph⟩ := hok
    rw [dif_pos hj] at hs
    cases hs
    have hready := h.screen_ready
    rw [hscreen] at hready
    have htail : ∀ t : Fin c.get, ScreenPc.tail t (if j + 1 < c.get then .releaseAll (j + 1)
        else .waitReady) = if j < (t : ℕ) then 1 else 0 := by
      intro t
      split_ifs with hnext hlt hlt
      · exact if_pos hlt
      · exact if_neg hlt
      · have := t.isLt
        omega
      · rfl
    refine { h with screen_ready := ?_, screen := ?_, thread_ready := ?_, done_flag := ?_ }
    · show s.screen_ready = _
      rw [hready]
      split_ifs <;> rfl
    · show ScreenPc.Ok f ph (if j + 1 < c.get then _ else _)
      split_ifs with hnext
      · exact ⟨hnext, hph⟩
      · exact hph
    · intro t
      have hthread := h.thread_ready t
      rw [hscreen] at hthread
      show update s.thread_ready ⟨j, hj⟩ (s.thread_ready ⟨j, hj⟩ + 1) t + _ + _ +
        ScreenPc.tail t (if j + 1 < c.get then _ else _) = _
      rw [htail]
      by_cases ht : t = ⟨j, hj⟩
      · subst ht
        have hone : ScreenPc.tail ((⟨j, hj⟩ : Fin c.get) : ℕ) (.releaseAll j) = 1 := if_pos le_rfl
        rw [hone] at hthread
        rw [Function.update_self, if_neg (lt_irrefl j)]
        show s.thread_ready ⟨j, hj⟩ + 1 + (s.encoders ⟨j, hj⟩).frame +
          (s.encoders ⟨j, hj⟩).pc.arrived + 0 = f + ph.offered + (s.encoders ⟨j, hj⟩).pc.again ph
        omega
      · have hne : (t : ℕ) ≠ j := fun heq => ht (Fin.ext heq)
        have hsame : ScreenPc.tail t (.releaseAll j) = if j < (t : ℕ) then 1 else 0 :=
          if_congr ⟨fun hle => lt_of_le_of_ne hle hne.symm, le_of_lt⟩ rfl rfl
        rw [Function.update_of_ne ht, ← hsame]
        exact hthread
    · intro w
      have hflag := h.done_flag w
      rw [hscreen] at hflag
      show s.work_done_flag w = (_ && Phase.flagged (if j + 1 < c.get then _ else _) ph)
      rw [hflag]
      cases ph <;> split_ifs <;> rfl

/-! ### Encoder threads -/

/-- The front frame after a step of an encoder thread. -/
def encoderFront (s : Dispatch c) (f : ℕ) (t : Fin c.get) : ℕ :=
  match (s.encoders t).pc with
  | .capNext => f + 1
  | _ => f

/-- The phase after a step of an encoder thread. -/
def encoderPhase (s : Dispatch c) (ph : Phase c.get) (t : Fin c.get) (choice : Bool) :
    Phase c.get :=
  match (s.encoders t).pc with
  | .skipRelease => .retry t
  | .clearFlag => .encode
  | .encode =>
    if choice = true ∧ (s.blit_ctxes (s.encoders t).work_index).should_capture = false then .take t
    else ph
  | .capNext => .pass t
  | .capRelease => .fresh
  | .waitThread | .swapReady | .initBctx | .sync | .skipFrame | .skipSet | .skipIndex | .skipWait
  | .imgNext | .clearSkip | .releaseWork _ | .waitWork | .clearCount | .clearReady
  | .releaseDone => ph

theorem Phase.Ok.set (h : ph.Ok s) {t : Fin c.get} (hnamed : (s.encoders t).pc.named = false)
    {e : Encoder} (hencoders : s'.encoders = update s.encoders t e)
    (hindex : s'.thread_index = s.thread_index) : ph.Ok s' := by
  have hne : ∀ u, (s.encoders u).pc.named = true → s'.encoders u = s.encoders u := by
    intro u hu
    rw [hencoders]
    refine Function.update_of_ne ?_ _ _
    rintro rfl
    rw [hnamed] at hu
    cases hu
  cases ph with
  | retry u =>
    obtain ⟨hpc, hu⟩ := h
    refine ⟨?_, by rw [hindex]; exact hu⟩
    rw [hne u (by rw [hpc]; rfl)]
    exact hpc
  | take u =>
    have hpc : (s.encoders u).pc = .capNext := h
    show (s'.encoders u).pc = .capNext
    rw [hne u (by rw [hpc]; rfl)]
    exact hpc
  | pass u =>
    have hpc : (s.encoders u).pc = .capRelease := h
    show (s'.encoders u).pc = .capRelease
    rw [hne u (by rw [hpc]; rfl)]
    exact hpc
  | fresh | first | lead | encode => trivial

theorem Control.work_ready_update (h : Control f ph s) {t : Fin c.get} {e : Encoder}
    {work : Fin c.get → ℕ}
    (hself : work t + e.frame + e.pc.beyond t + e.pc.pending t =
      s.work_ready t + (s.encoders t).frame + (s.encoders t).pc.beyond t +
      (s.encoders t).pc.pending t)
    (hother : ∀ u, u ≠ t → work u + e.pc.pending u = s.work_ready u + (s.encoders t).pc.pending u)
    (u : Fin c.get) :
    work u + (update s.encoders t e u).frame + (update s.encoders t e u).pc.beyond u +
      total (fun x : Encoder => x.pc.pending u) (update s.encoders t e) = f + ph.up := by
  have htotal := total_update (fun x : Encoder => x.pc.pending u) s.encoders t e
  have hready := h.work_ready u
  by_cases hu : u = t
  · subst hu
    rw [Function.update_self]
    omega
  · have hother := hother u hu
    rw [Function.update_of_ne hu]
    omega

theorem Control.work_ready_set (h : Control f ph s) {t : Fin c.get} {e : Encoder} {work : ℕ}
    (hwork : work + e.frame + e.pc.beyond t =
      s.work_ready t + (s.encoders t).frame + (s.encoders t).pc.beyond t)
    (hpending : ∀ u : Fin c.get, e.pc.pending u = (s.encoders t).pc.pending u) (u : Fin c.get) :
    update s.work_ready t work u + (update s.encoders t e u).frame +
      (update s.encoders t e u).pc.beyond u +
        total (fun x : Encoder => x.pc.pending u) (update s.encoders t e) = f + ph.up := by
  refine h.work_ready_update ?_ (fun u hu => ?_) u
  · rw [Function.update_self, hpending]
    exact congrArg (· + _) hwork
  · rw [Function.update_of_ne hu, hpending]

theorem Control.set (h : Control f ph s) {t : Fin c.get} {e : Encoder} {ready : ℕ}
    {work : Fin c.get → ℕ} (hok : e.Ok f ph s.leads t)
    (hskips : e.Skips (s.skip_frames (f % WORK_COUNT)) s.thread_index t)
    (hphase : ph.Ok { s with
      thread_ready := update s.thread_ready t ready
      work_ready := work
      encoders := update s.encoders t e })
    (hslot : e.work_index = e.frame % WORK_COUNT) (hframe : (s.encoders t).frame ≤ e.frame)
    (hready : ready + e.frame + e.pc.arrived + (s.encoders t).pc.again ph =
      s.thread_ready t + (s.encoders t).frame + (s.encoders t).pc.arrived + e.pc.again ph)
    (hwork : ∀ u, work u + (update s.encoders t e u).frame + (update s.encoders t e u).pc.beyond u +
      total (fun x : Encoder => x.pc.pending u) (update s.encoders t e) = f + ph.up)
    (hpast : (s.encoders t).frame + (s.encoders t).pc.past ≤ e.frame + e.pc.past) :
    Control f ph { s with
      thread_ready := update s.thread_ready t ready
      work_ready := work
      encoders := update s.encoders t e } := by
  refine { h with
    phase := hphase, encoder := ?_, slot := ?_, low := ?_, thread_ready := ?_, work_ready := hwork,
    led := ?_, skips := ?_ }
  · exact (Function.forall_update_iff s.encoders fun u x => x.Ok f ph s.leads u).mpr
      ⟨hok, fun u _ => h.encoder u⟩
  · exact (Function.forall_update_iff s.encoders fun _ x =>
      x.work_index = x.frame % WORK_COUNT).mpr ⟨hslot, fun u _ => h.slot u⟩
  · exact (Function.forall_update_iff s.encoders fun _ x =>
      f + ph.acquired ≤ x.frame + WORK_COUNT).mpr
        ⟨(h.low t).trans (Nat.add_le_add_right hframe _), fun u _ => h.low u⟩
  · intro u
    show update s.thread_ready t ready u + (update s.encoders t e u).frame +
      (update s.encoders t e u).pc.arrived + s.screen.tail u =
        f + ph.offered + (update s.encoders t e u).pc.again ph
    by_cases hu : u = t
    · subst hu
      have hthread := h.thread_ready u
      rw [Function.update_self, Function.update_self]
      omega
    · rw [Function.update_of_ne hu, Function.update_of_ne hu]
      exact h.thread_ready u
  · intro m u hu
    show m < (update s.encoders t e u).frame + (update s.encoders t e u).pc.past
    have hled := h.led m u hu
    by_cases hut : u = t
    · subst hut
      rw [Function.update_self]
      exact hled.trans_le hpast
    · rw [Function.update_of_ne hut]
      exact hled
  · exact (Function.forall_update_iff s.encoders fun u x =>
      x.Skips (s.skip_frames (f % WORK_COUNT)) s.thread_index u).mpr ⟨hskips, fun u _ => h.skips u⟩

theorem Control.goto (h : Control f ph s) {t : Fin c.get} {pc : EncoderPc}
    (hok : Encoder.Ok f ph s.leads t { s.encoders t with pc := pc })
    (hskips : Encoder.Skips (s.skip_frames (f % WORK_COUNT)) s.thread_index t
      { s.encoders t with pc := pc })
    (hnamed : (s.encoders t).pc.named = false)
    (harrived : pc.arrived = (s.encoders t).pc.arrived)
    (hagain : pc.again ph = (s.encoders t).pc.again ph)
    (hbeyond : pc.beyond t = (s.encoders t).pc.beyond t)
    (hpending : ∀ u : Fin c.get, pc.pending u = (s.encoders t).pc.pending u)
    (hpast : (s.encoders t).pc.past ≤ pc.past) : Control f ph (s.goto t pc) := by
  have hset : Control f ph { s with
      thread_ready := update s.thread_ready t (s.thread_ready t)
      work_ready := update s.work_ready t (s.work_ready t)
      encoders := update s.encoders t { s.encoders t with pc := pc } } := by
    refine h.set hok hskips (h.phase.set hnamed rfl rfl) (h.slot t) le_rfl ?_
      (h.work_ready_set ?_ hpending) (Nat.add_le_add_left hpast _)
    · rw [harrived, hagain]
    · rw [hbeyond]
  rw [Function.update_eq_self, Function.update_eq_self] at hset
  exact hset

theorem Control.others (h : Control f .lead s) {t u : Fin c.get} (hleads : s.leads f = [t])
    (hu : u ≠ t) : (s.encoders u).pc.ahead = false := by
  refine Bool.eq_false_iff.mpr fun ha => ?_
  rcases (h.encoder u).of_ahead ha with ⟨-, hu'⟩ | h1 | h1 | h1
  · rw [hleads] at hu'
    exact hu (List.cons.inj hu').1.symm
  · cases h1
  · cases h1
  · cases h1

theorem Control.quiet (h : Control f ph s) (hwaits : ph.waits = false)
    (hcaptures : ph.captures = false) : s.screen.quiet = true := by
  have hok := h.screen
  cases hscreen : s.screen with
  | waitReady | releaseAll j => rfl
  | readIndex =>
    rw [hscreen] at hok
    rw [hok] at hwaits
    cases hwaits
  | checkFlag w =>
    rw [hscreen] at hok
    rw [hok.2] at hwaits
    cases hwaits
  | waitDone w =>
    rw [hscreen] at hok
    rw [hok.2] at hwaits
    cases hwaits
  | setFlag w =>
    rw [hscreen] at hok
    rw [hok.2] at hcaptures
    cases hcaptures
  | doScreen =>
    rw [hscreen] at hok
    rw [hok] at hcaptures
    cases hcaptures
  | readImg top w | capture top w img | setParams top w | readSkip w =>
    rw [hscreen] at hok
    rw [hok.2] at hcaptures
    cases hcaptures
  | releaseOne =>
    rw [hscreen] at hok
    obtain ⟨t, rfl⟩ := hok
    cases hwaits

theorem Control.screen_of_quiet (h : Control f ph s) {f' : ℕ} {ph' : Phase c.get}
    (hquiet : s.screen.quiet = true) (hph : ph' ≠ .first) : s.screen.Ok f' ph' := by
  have hok := h.screen
  cases hscreen : s.screen with
  | waitReady => exact hph
  | releaseAll j =>
    rw [hscreen] at hok
    exact ⟨hok.1, hph⟩
  | _ =>
    rw [hscreen] at hquiet
    cases hquiet

/-- `skip_frames` of the front frame's slot, and `thread_index`, may change while a thread leads. -/
theorem Control.skip_index (h : Control f .lead s) (skip : Bool) (index : Fin c.get)
    (hskips : ∀ u, (s.encoders u).Skips skip index u) :
    Control f .lead { s with
      skip_frames := update s.skip_frames (f % WORK_COUNT) skip, thread_index := index } := by
  refine { h with phase := trivial, skip_other := ?_, skip_front := trivial, skips := ?_ }
  · intro w hw
    show update s.skip_frames (f % WORK_COUNT) skip w = false
    rw [Function.update_of_ne hw]
    exact h.skip_other w hw
  · intro u
    show (s.encoders u).Skips (update s.skip_frames (f % WORK_COUNT) skip (f % WORK_COUNT)) index u
    rw [Function.update_self]
    exact hskips u

theorem Control.lead_goto (h : Control f ph s) {t : Fin c.get} {p : EncoderPc}
    (hl : (s.encoders t).pc.leading = true) (hl' : p.leading = true) (skip : Bool)
    (index : Fin c.get) (hskips : Encoder.Skips skip index t { s.encoders t with pc := p }) :
    Control f ph ({ s with
      skip_frames := update s.skip_frames (s.encoders t).work_index skip
      thread_index := index }.goto t p) := by
  have hok := (Encoder.ok_leading hl).mp (h.encoder t)
  obtain ⟨rfl, hframe, hleads⟩ := hok
  obtain ⟨harrived, hbeyond, hpending, hpast, -, hnamed⟩ := EncoderPc.of_leading hl
  obtain ⟨harrived', hbeyond', hpending', hpast', -, -⟩ := EncoderPc.of_leading hl'
  have hagain : (s.encoders t).pc.again (Phase.lead (n := c.get)) = 0 :=
    EncoderPc.again_of_leading hl
  have hagain' : p.again (Phase.lead (n := c.get)) = 0 := EncoderPc.again_of_leading hl'
  have hw : (s.encoders t).work_index = f % WORK_COUNT := by rw [h.slot, hframe]
  -- on the way the thread is where `skip_frames` and `thread_index` do not matter
  have hsync : Control f .lead (s.goto t .sync) :=
    h.goto ⟨rfl, hframe, hleads⟩ trivial hnamed harrived.symm hagain.symm (hbeyond t).symm
      (fun u => (hpending u).symm) hpast.le
  have hself : (s.goto t .sync).encoders t = { s.encoders t with pc := .sync } :=
    Function.update_self _ _ _
  have hchange := hsync.skip_index skip index fun u => by
    by_cases hu : u = t
    · subst hu
      rw [hself]
      trivial
    · exact Encoder.skips_of_not_ahead (hsync.others hleads hu)
  have hgoto : Control f .lead ({ s.goto t .sync with
      skip_frames := update s.skip_frames (f % WORK_COUNT) skip
      thread_index := index }.goto t p) := by
    refine hchange.goto ?_ ?_ ?_ ?_ ?_ ?_ ?_ ?_ <;> simp only [hself]
    · exact (Encoder.ok_leading hl').mpr ⟨rfl, hframe, hleads⟩
    · rw [Function.update_self]
      exact hskips
    · rfl
    · exact harrived'
    · exact hagain'
    · exact hbeyond' t
    · exact fun u => hpending' u
    · exact hpast'.ge
  rw [hw]
  have heq : ({ s.goto t .sync with
      skip_frames := update s.skip_frames (f % WORK_COUNT) skip
      thread_index := index }.goto t p) = { s with
      skip_frames := update s.skip_frames (f % WORK_COUNT) skip
      thread_index := index }.goto t p := by
    unfold Dispatch.goto
    simp only [Function.update_idem, Function.update_self]
  rw [heq] at hgoto
  exact hgoto

/-! ### Changes of the phase -/

theorem Control.work_ready_goto (h : Control f ph s) {t : Fin c.get} {pc : EncoderPc}
    (hbeyond : pc.beyond t = (s.encoders t).pc.beyond t)
    (hpending : ∀ u : Fin c.get, pc.pending u = (s.encoders t).pc.pending u) (u : Fin c.get) :
    s.work_ready u + ((s.goto t pc).encoders u).frame + ((s.goto t pc).encoders u).pc.beyond u +
      total (fun x : Encoder => x.pc.pending u) (s.goto t pc).encoders = f + ph.up := by
  have hset := h.work_ready_set (t := t) (e := { s.encoders t with pc := pc })
    (congrArg _ hbeyond) hpending u
  rw [Function.update_eq_self] at hset
  exact hset

theorem Control.led_goto (h : Control f ph s) {t : Fin c.get} {pc : EncoderPc}
    (hpast : (s.encoders t).pc.past ≤ pc.past) (m : ℕ) (u : Fin c.get) (hu : u ∈ s.leads m) :
    m < ((s.goto t pc).encoders u).frame + ((s.goto t pc).encoders u).pc.past := by
  have hled := h.led m u hu
  by_cases hut : u = t
  · subst hut
    rw [encoders_goto_self]
    exact hled.trans_le (Nat.add_le_add_left hpast _)
  · rw [encoders_goto_ne s hut]
    exact hled

theorem Control.turn (h : Control f ph s) {t : Fin c.get} {pc : EncoderPc} {f' ready w : ℕ}
    {ph' : Phase c.get} (hup : f' + ph'.up = f + ph.up)
    (hoffered : f' + ph'.offered = f + ph.offered)
    (hacquired : f' + ph'.acquired = f + ph.acquired) (hlead : ph' ≠ .lead)
    (hothers : ∀ u, u ≠ t → (s.encoders u).pc.ahead = false)
    (hagain : (s.encoders t).pc.again ph = 0)
    (harrived : pc.arrived = (s.encoders t).pc.arrived)
    (hbeyond : pc.beyond t = (s.encoders t).pc.beyond t)
    (hpending : ∀ u : Fin c.get, pc.pending u = (s.encoders t).pc.pending u)
    (hpast : (s.encoders t).pc.past ≤ pc.past)
    (hok : Encoder.Ok f' ph' s.leads t { s.encoders t with pc := pc })
    (hskips : Encoder.Skips (s.skip_frames (f' % WORK_COUNT)) s.thread_index t
      { s.encoders t with pc := pc })
    (hphase : ph'.Ok ({ s with screen_ready := ready, work_index := w }.goto t pc))
    (hready : ready = (ph'.waits && s.screen.quiet).toNat) (hscreen : s.screen.Ok f' ph')
    (hw : w = f' % WORK_COUNT)
    (hflag : ∀ w, s.work_done_flag w = (decide (w = f' % WORK_COUNT) && ph'.flagged s.screen))
    (hskip : ∀ w, w ≠ f' % WORK_COUNT → s.skip_frames w = false)
    (hfront : ph'.SkipOk (s.skip_frames (f' % WORK_COUNT))) :
    Control f' ph' ({ s with screen_ready := ready, work_index := w }.goto t pc) where
  released := h.released.trans hup.symm
  work_index := hw
  screen_ready := hready
  screen := hscreen
  phase := hphase
  encoder := (Function.forall_update_iff s.encoders fun u x => x.Ok f' ph' s.leads u).mpr
    ⟨hok, fun u hu => (h.encoder u).of_not_ahead (hothers u hu) hup.ge fun _ _ => rfl⟩
  slot := (Function.forall_update_iff s.encoders fun _ x => x.work_index = x.frame % WORK_COUNT).mpr
    ⟨h.slot t, fun u _ => h.slot u⟩
  low := (Function.forall_update_iff s.encoders fun _ x =>
    f' + ph'.acquired ≤ x.frame + WORK_COUNT).mpr
      ⟨hacquired ▸ h.low t, fun u _ => hacquired ▸ h.low u⟩
  thread_ready := by
    refine (Function.forall_update_iff s.encoders fun u x =>
      s.thread_ready u + x.frame + x.pc.arrived + s.screen.tail u =
        f' + ph'.offered + x.pc.again ph').mpr ⟨?_, fun u hu => ?_⟩
    · have hthread := h.thread_ready t
      rw [hagain] at hthread
      rw [EncoderPc.again_of_ne hlead, hoffered]
      show s.thread_ready t + (s.encoders t).frame + pc.arrived + s.screen.tail t = _
      rw [harrived]
      exact hthread
    · have hthread := h.thread_ready u
      rw [EncoderPc.again_eq_zero (hothers u hu)] at hthread
      rw [EncoderPc.again_of_ne hlead, hoffered]
      exact hthread
  work_ready u := by
    rw [hup]
    exact h.work_ready_goto hbeyond hpending u
  led := h.led_goto hpast
  leads_up := by
    rw [hup]
    exact h.leads_up
  leads_front hph := (hlead hph).elim
  leads_later := by
    rw [hoffered]
    exact h.leads_later
  done_flag := hflag
  skip_other := hskip
  skip_front := hfront
  skips := (Function.forall_update_iff s.encoders fun u x =>
    x.Skips (s.skip_frames (f' % WORK_COUNT)) s.thread_index u).mpr
      ⟨hskips, fun u hu => Encoder.skips_of_not_ahead (hothers u hu)⟩

theorem Control.skip (h : Control f ph s) {t : Fin c.get} (hpc : (s.encoders t).pc = .skipRelease) :
    Control f (.retry t) ({ s with screen_ready := s.screen_ready + 1 }.goto t .skipWait) := by
  obtain ⟨rfl, hframe, hleads⟩ := (Encoder.ok_leading (by rw [hpc]; rfl)).mp (h.encoder t)
  have hskips := h.skips t
  unfold Encoder.Skips at hskips
  rw [hpc] at hskips
  obtain ⟨hskip, hindex⟩ := hskips
  have hquiet := h.quiet rfl rfl
  have hready := h.screen_ready
  rw [hquiet] at hready
  refine h.turn rfl rfl rfl (by simp) (fun u hu => h.others hleads hu) (by rw [hpc]; rfl)
    (by rw [hpc]; rfl) (by rw [hpc]; rfl) (fun _ => by rw [hpc]; rfl) (by rw [hpc]; rfl)
    ⟨.inr rfl, hframe, hleads⟩ trivial ?_ ?_ (h.screen_of_quiet hquiet (by simp)) h.work_index
    h.done_flag h.skip_other hskip
  · refine ⟨?_, hindex⟩
    rw [encoders_goto_self]
  · rw [hready, hquiet]
    rfl

theorem Control.take (h : Control f .encode s) {t : Fin c.get} (hpc : (s.encoders t).pc = .encode)
    (hframe : (s.encoders t).frame = f) : Control f (.take t) (s.goto t .capNext) := by
  have hready := h.screen_ready
  refine h.turn rfl rfl rfl (by simp) (fun u hu => h.not_ahead (by simp)) (by rw [hpc]; rfl)
    (by rw [hpc]; rfl) (by rw [hpc]; rfl) (fun _ => by rw [hpc]; rfl) (by rw [hpc]; rfl)
    ⟨rfl, hframe⟩ trivial ?_ hready (h.screen_of_quiet (h.quiet rfl rfl) (by simp)) h.work_index
    h.done_flag h.skip_other h.skip_front
  show ((s.goto t .capNext).encoders t).pc = .capNext
  rw [encoders_goto_self]

theorem nextWrapped_mod (m : ℕ) : nextWrapped (m % WORK_COUNT) = (m + 1) % WORK_COUNT :=
  Nat.mod_add_mod m WORK_COUNT 1

theorem Control.advance (h : Control f ph s) {t : Fin c.get} (hpc : (s.encoders t).pc = .capNext) :
    Control (f + 1) (.pass t)
      ({ s with work_index := nextWrapped s.work_index }.goto t .capRelease) := by
  have hok := h.encoder t
  unfold Encoder.Ok at hok
  rw [hpc] at hok
  obtain ⟨rfl, hframe⟩ := hok
  have hready := h.screen_ready
  have hskip : ∀ w, s.skip_frames w = false := by
    intro w
    by_cases hw : w = f % WORK_COUNT
    · rw [hw]
      exact h.skip_front
    · exact h.skip_other w hw
  refine h.turn rfl rfl rfl (by simp) (fun u hu => h.not_ahead (by simp [hu.symm]))
    (by rw [hpc]; rfl) (by rw [hpc]; rfl) (by rw [hpc]; rfl) (fun _ => by rw [hpc]; rfl)
    (by rw [hpc]; rfl) ⟨rfl, congrArg Nat.succ hframe⟩ trivial ?_ hready
    (h.screen_of_quiet (h.quiet rfl rfl) (by simp)) ?_ ?_ (fun w _ => hskip w) (hskip _)
  · show ((Dispatch.goto _ t .capRelease).encoders t).pc = .capRelease
    rw [encoders_goto_self]
  · rw [h.work_index, nextWrapped_mod]
  · intro w
    exact (h.done_flag w).trans ((Bool.and_false _).trans (Bool.and_false _).symm)

theorem Control.ask (h : Control f ph s) {t : Fin c.get} (hpc : (s.encoders t).pc = .capRelease) :
    Control f .fresh ({ s with screen_ready := s.screen_ready + 1 }.goto t .encode) := by
  have hok := h.encoder t
  unfold Encoder.Ok at hok
  rw [hpc] at hok
  obtain ⟨rfl, hframe⟩ := hok
  have hquiet := h.quiet rfl rfl
  have hready := h.screen_ready
  rw [hquiet] at hready
  refine h.turn rfl rfl rfl (by simp) (fun u hu => h.not_ahead (by simp [hu.symm]))
    (by rw [hpc]; rfl) (by rw [hpc]; rfl) (by rw [hpc]; rfl) (fun _ => by rw [hpc]; rfl)
    (by rw [hpc]; rfl) ?_ trivial trivial ?_ (h.screen_of_quiet hquiet (by simp)) h.work_index
    h.done_flag h.skip_other h.skip_front
  · show (s.encoders t).frame < f + 0
    omega
  · rw [hready, hquiet]
    rfl

theorem Control.release (h : Control f ph s) {t : Fin c.get} (hpc : (s.encoders t).pc = .clearFlag)
    {e : Encoder} (hframe : e.frame = (s.encoders t).frame)
    (hslot : e.work_index = (s.encoders t).work_index)
    (hto : e.pc = .releaseWork 0 ∨ e.pc = .encode ∧ ∀ u : Fin c.get, u = t) :
    Control f .encode { s with
      work_done_flag := update s.work_done_flag (s.encoders t).work_index false
      released := s.released + 1
      encoders := update s.encoders t e } := by
  obtain ⟨rfl, hf, hleads⟩ := (Encoder.ok_leading (by rw [hpc]; rfl)).mp (h.encoder t)
  have hskip := h.skips t
  unfold Encoder.Skips at hskip
  rw [hpc] at hskip
  have hothers : ∀ u, u ≠ t → (s.encoders u).pc.ahead = false := fun u hu => h.others hleads hu
  have hw : (s.encoders t).work_index = f % WORK_COUNT := by rw [h.slot, hf]
  have hready := h.screen_ready
  refine { h with
    released := congrArg Nat.succ h.released, screen_ready := hready,
    screen := h.screen_of_quiet (h.quiet rfl rfl) (by simp), phase := trivial, encoder := ?_,
    slot := ?_, low := ?_, thread_ready := ?_, work_ready := ?_, led := ?_, leads_up := ?_,
    leads_front := fun hph => by simp at hph, done_flag := ?_, skip_front := hskip, skips := ?_ }
  · refine (Function.forall_update_iff s.encoders fun u x => x.Ok f .encode s.leads u).mpr
      ⟨?_, fun u hu => (h.encoder u).of_not_ahead (hothers u hu) (Nat.le_succ f) fun _ _ => rfl⟩
    have hlt : e.frame < f + 1 := by omega
    unfold Encoder.Ok
    rcases hto with hto | ⟨hto, -⟩
    · rw [hto]
      exact ⟨Nat.zero_le _, by rw [hframe, hf]; exact hleads, hlt⟩
    · rw [hto]
      exact hlt
  · refine (Function.forall_update_iff s.encoders fun _ x =>
      x.work_index = x.frame % WORK_COUNT).mpr ⟨?_, fun u _ => h.slot u⟩
    rw [hslot, hframe]
    exact h.slot t
  · refine (Function.forall_update_iff s.encoders fun _ x =>
      f + 1 ≤ x.frame + WORK_COUNT).mpr ⟨?_, fun u _ => h.low u⟩
    rw [hframe]
    exact h.low t
  · refine (Function.forall_update_iff s.encoders fun u x =>
      s.thread_ready u + x.frame + x.pc.arrived + s.screen.tail u =
        f + 1 + x.pc.again (Phase.encode (n := c.get))).mpr ⟨?_, fun u hu => ?_⟩
    · have hthread := h.thread_ready t
      have harrived : e.pc.arrived = 1 := by
        rcases hto with hto | ⟨hto, -⟩ <;> rw [hto] <;> rfl
      rw [hpc] at hthread
      rw [harrived, hframe]
      exact hthread
    · have hthread := h.thread_ready u
      rw [EncoderPc.again_eq_zero (hothers u hu)] at hthread
      exact hthread
  · intro u
    have htotal : total (fun x : Encoder => x.pc.pending u) (update s.encoders t e) +
        (s.encoders t).pc.pending u =
          total (fun x : Encoder => x.pc.pending u) s.encoders + e.pc.pending u :=
      total_update _ _ _ _
    have hwork := h.work_ready u
    have hzero : (s.encoders t).pc.pending u = 0 := by rw [hpc]; rfl
    have hbeyond : (s.encoders t).pc.beyond t = 0 := by rw [hpc]; rfl
    have hup : f + (Phase.lead (n := c.get)).up = f := rfl
    show s.work_ready u + (update s.encoders t e u).frame + (update s.encoders t e u).pc.beyond u +
      total (fun x : Encoder => x.pc.pending u) (update s.encoders t e) = f + 1
    rcases hto with hto | ⟨hto, hall⟩
    · have hpending : e.pc.pending u = 1 := by
        rw [hto]
        rfl
      by_cases hu : u = t
      · subst hu
        have hbeyond' : e.pc.beyond u = 0 := by
          rw [hto]
          rfl
        rw [Function.update_self]
        omega
      · rw [Function.update_of_ne hu]
        omega
    · have hpending : e.pc.pending u = 0 := by rw [hto]; rfl
      have hbeyond' : e.pc.beyond t = 1 := by rw [hto]; rfl
      obtain rfl := hall u
      rw [Function.update_self]
      omega
  · intro m u hu
    have hled := h.led m u hu
    show m < (update s.encoders t e u).frame + (update s.encoders t e u).pc.past
    by_cases hut : u = t
    · subst hut
      have hpast : e.pc.past = 1 := by
        rcases hto with hto | ⟨hto, -⟩ <;> rw [hto] <;> rfl
      rw [hpc] at hled
      rw [Function.update_self, hframe, hpast]
      exact hled
    · rw [Function.update_of_ne hut]
      exact hled
  · intro m hm
    rcases Nat.lt_succ_iff_lt_or_eq.mp hm with hm | rfl
    · exact h.leads_up m hm
    · exact ⟨t, hleads⟩
  · rw [hw]
    exact update_slot h.done_flag false
  · refine (Function.forall_update_iff s.encoders fun u x =>
      x.Skips (s.skip_frames (f % WORK_COUNT)) s.thread_index u).mpr
        ⟨?_, fun u hu => Encoder.skips_of_not_ahead (hothers u hu)⟩
    refine Encoder.skips_of_not_ahead ?_
    rcases hto with hto | ⟨hto, -⟩ <;> rw [hto] <;> rfl

theorem Control.lead (h : Control f .lead s) {t : Fin c.get} (hpc : (s.encoders t).pc = .swapReady)
    (hframe : (s.encoders t).frame = f) (hleads : s.leads f = []) (flag : ℕ → Bool) :
    Control f .lead ({ s with
      work_ready_flag := flag
      leads := update s.leads f (s.leads f ++ [t]) }.goto t .initBctx) := by
  have hself : update s.leads f (s.leads f ++ [t]) f = [t] := by
    rw [Function.update_self, hleads, List.nil_append]
  have hahead : ∀ u, (s.encoders u).pc.ahead = false := by
    intro u
    refine Bool.eq_false_iff.mpr fun ha => ?_
    rcases (h.encoder u).of_ahead ha with ⟨-, hu⟩ | hph | hph | hph
    · rw [hleads] at hu
      cases hu
    · cases hph
    · cases hph
    · cases hph
  refine { h with
    phase := trivial, encoder := ?_, slot := ?_, low := ?_, thread_ready := ?_, work_ready := ?_,
    led := ?_, leads_up := ?_, leads_front := fun _ => .inr ⟨t, hself⟩, leads_later := ?_,
    skips := ?_ }
  · refine (Function.forall_update_iff s.encoders fun u x =>
      x.Ok f .lead (update s.leads f (s.leads f ++ [t])) u).mpr ⟨⟨rfl, hframe, hself⟩,
      fun u _ => ?_⟩
    refine (h.encoder u).of_not_ahead (hahead u) le_rfl fun m hm => Function.update_of_ne ?_ _ _
    rintro rfl
    exact hm hleads
  · exact (Function.forall_update_iff s.encoders fun _ x =>
      x.work_index = x.frame % WORK_COUNT).mpr ⟨h.slot t, fun u _ => h.slot u⟩
  · exact (Function.forall_update_iff s.encoders fun _ x =>
      f + 1 ≤ x.frame + WORK_COUNT).mpr ⟨h.low t, fun u _ => h.low u⟩
  · refine (Function.forall_update_iff s.encoders fun u x =>
      s.thread_ready u + x.frame + x.pc.arrived + s.screen.tail u =
        f + 1 + x.pc.again (Phase.lead (n := c.get))).mpr ⟨?_, fun u _ => h.thread_ready u⟩
    have hthread := h.thread_ready t
    rw [hpc] at hthread
    exact hthread
  · exact h.work_ready_goto (by rw [hpc]; rfl) fun _ => by rw [hpc]; rfl
  · intro m u hu
    have hu : u ∈ update s.leads f (s.leads f ++ [t]) m := hu
    by_cases hm : m = f
    · rw [hm, hself] at hu
      rw [List.mem_singleton.mp hu]
      show m < (update s.encoders t _ t).frame + (update s.encoders t _ t).pc.past
      rw [Function.update_self]
      show m < (s.encoders t).frame + 1
      omega
    · rw [Function.update_of_ne hm] at hu
      exact h.led_goto (by rw [hpc]; exact Nat.zero_le 1) m u hu
  · intro m hm
    have hm : m < f := hm
    show ∃ u, update s.leads f (s.leads f ++ [t]) m = [u]
    rw [Function.update_of_ne hm.ne]
    exact h.leads_up m hm
  · intro m hm
    have hm : f < m := hm
    show update s.leads f (s.leads f ++ [t]) m = []
    rw [Function.update_of_ne hm.ne']
    exact h.leads_later m hm
  · exact (Function.forall_update_iff s.encoders fun u x =>
      x.Skips (s.skip_frames (f % WORK_COUNT)) s.thread_index u).mpr ⟨trivial, fun u _ => h.skips u⟩

/-! ### Permits -/

theorem Control.arrive (h : Control f ph s) {t : Fin c.get} (hpc : (s.encoders t).pc = .waitThread)
    (hpos : 0 < s.thread_ready t) :
    Control f ph ({ s with
      thread_ready := update s.thread_ready t (s.thread_ready t - 1) }.goto t .swapReady) := by
  have hset : Control f ph { s with
      thread_ready := update s.thread_ready t (s.thread_ready t - 1)
      work_ready := update s.work_ready t (s.work_ready t)
      encoders := update s.encoders t { s.encoders t with pc := .swapReady } } := by
    refine h.set trivial trivial (h.phase.set (by rw [hpc]; rfl) rfl rfl) (h.slot t) le_rfl ?_
      (h.work_ready_set (by rw [hpc]; rfl) fun _ => by rw [hpc]; rfl) (by rw [hpc]; exact le_rfl)
    rw [hpc]
    have hagain : EncoderPc.waitThread.again ph = EncoderPc.swapReady.again ph := by
      cases ph <;> rfl
    rw [hagain]
    show s.thread_ready t - 1 + (s.encoders t).frame + 1 + EncoderPc.swapReady.again ph =
      s.thread_ready t + (s.encoders t).frame + 0 + EncoderPc.swapReady.again ph
    omega
  rw [Function.update_eq_self] at hset
  exact hset

theorem Control.again_lead (h : Control f ph s) {t : Fin c.get}
    (hpc : (s.encoders t).pc = .skipWait)
    (hpos : 0 < s.thread_ready t) : ph = .lead ∧ (s.encoders t).frame = f ∧ s.leads f = [t] := by
  have hok := h.encoder t
  have hthread := h.thread_ready t
  unfold Encoder.Ok at hok
  rw [hpc] at hok hthread
  obtain ⟨rfl | rfl, hframe, hleads⟩ := hok
  · exact ⟨rfl, hframe, hleads⟩
  · have hthread : s.thread_ready t + (s.encoders t).frame + 1 + s.screen.tail t = f + 1 + 0 :=
      hthread
    omega

theorem Control.resume (h : Control f ph s) {t : Fin c.get} (hpc : (s.encoders t).pc = .skipWait)
    (hpos : 0 < s.thread_ready t) :
    Control f ph ({ s with
      thread_ready := update s.thread_ready t (s.thread_ready t - 1) }.goto t .initBctx) := by
  obtain ⟨rfl, hframe, hleads⟩ := h.again_lead hpc hpos
  have hset : Control f .lead { s with
      thread_ready := update s.thread_ready t (s.thread_ready t - 1)
      work_ready := update s.work_ready t (s.work_ready t)
      encoders := update s.encoders t { s.encoders t with pc := .initBctx } } := by
    refine h.set ⟨rfl, hframe, hleads⟩ trivial trivial (h.slot t) le_rfl ?_
      (h.work_ready_set (by rw [hpc]; rfl) fun _ => by rw [hpc]; rfl) (by rw [hpc]; exact le_rfl)
    rw [hpc]
    show s.thread_ready t - 1 + (s.encoders t).frame + 1 + 1 =
      s.thread_ready t + (s.encoders t).frame + 1 + 0
    omega
  rw [Function.update_eq_self] at hset
  exact hset

theorem Control.begin (h : Control f ph s) {t : Fin c.get} {work : ℕ}
    (hnamed : (s.encoders t).pc.named = false) (harrived : (s.encoders t).pc.arrived = 1)
    (hagain : (s.encoders t).pc.again ph = 0) (hlt : (s.encoders t).frame < f + ph.up)
    (hwork : work + 1 = s.work_ready t + (s.encoders t).pc.beyond t)
    (hpending : ∀ u : Fin c.get, (s.encoders t).pc.pending u = 0)
    (hpast : (s.encoders t).pc.past ≤ 1) :
    Control f ph ({ s with work_ready := update s.work_ready t work }.begin t) := by
  have hset : Control f ph { s with
      thread_ready := update s.thread_ready t (s.thread_ready t)
      work_ready := update s.work_ready t work
      encoders := update s.encoders t { s.encoders t with
        pc := .encode
        encoded := (s.encoders t).encoded ++ [((s.encoders t).work_index,
          (s.blit_ctxes (s.encoders t).work_index).frame)] } } := by
    refine h.set hlt trivial (h.phase.set hnamed rfl rfl) (h.slot t) le_rfl ?_
      (h.work_ready_set ?_ fun _ => ?_) (Nat.add_le_add_left hpast _)
    · have hagain' : EncoderPc.encode.again ph = 0 := EncoderPc.again_eq_zero rfl
      rw [harrived, hagain, hagain']
      rfl
    · show work + (s.encoders t).frame + 1 = _
      omega
    · exact (hpending _).symm
  rw [Function.update_eq_self] at hset
  exact hset

theorem Control.releaseWork (h : Control f ph s) {t : Fin c.get} {j : ℕ} (hj : j < c.get)
    (hpc : (s.encoders t).pc = .releaseWork j) {work : Fin c.get → ℕ}
    (hwork : ∀ u : Fin c.get, work u = s.work_ready u + if (u : ℕ) = j ∧ u ≠ t then 1 else 0) :
    Control f ph ({ s with work_ready := work }.goto t (.releaseWork (j + 1))) := by
  have hok := h.encoder t
  unfold Encoder.Ok at hok
  rw [hpc] at hok
  have hset : Control f ph { s with
      thread_ready := update s.thread_ready t (s.thread_ready t)
      work_ready := work
      encoders := update s.encoders t { s.encoders t with pc := .releaseWork (j + 1) } } := by
    refine h.set ⟨hj, hok.2⟩ trivial (h.phase.set (by rw [hpc]; rfl) rfl rfl) (h.slot t)
      le_rfl ?_ ?_ (by rw [hpc]; exact le_rfl)
    · rw [hpc]
      cases ph <;> rfl
    · refine h.work_ready_update ?_ fun u hu => ?_
      · rw [hwork, hpc, if_neg fun hand => hand.2 rfl]
        show _ + 0 + (s.encoders t).frame + (if (t : ℕ) < j + 1 then 1 else 0) +
          (if j + 1 ≤ (t : ℕ) then 1 else 0) =
          _ + (s.encoders t).frame + (if (t : ℕ) < j then 1 else 0) + if j ≤ (t : ℕ) then 1 else 0
        split_ifs <;> omega
      · rw [hwork, hpc]
        show _ + (if (u : ℕ) = j ∧ u ≠ t then 1 else 0) + (if j + 1 ≤ (u : ℕ) then 1 else 0) =
          _ + if j ≤ (u : ℕ) then 1 else 0
        simp only [hu, ne_eq, not_false_eq_true, and_true]
        split_ifs <;> omega
  rw [Function.update_eq_self] at hset
  exact hset

theorem Control.finish (h : Control f ph s) {t : Fin c.get}
    (hpc : (s.encoders t).pc = .encode ∨ (s.encoders t).pc = .releaseDone) :
    Control f ph (s.finish t) := by
  have hset : Control f ph { s with
      thread_ready := update s.thread_ready t (s.thread_ready t)
      work_ready := update s.work_ready t (s.work_ready t)
      encoders := update s.encoders t { s.encoders t with
        pc := .waitThread
        work_index := nextWrapped (s.encoders t).work_index
        frame := (s.encoders t).frame + 1 } } := by
    have harrived : (s.encoders t).pc.arrived = 1 := by
      rcases hpc with hpc | hpc <;> rw [hpc] <;> rfl
    have hbeyond : (s.encoders t).pc.beyond t = 1 := by
      rcases hpc with hpc | hpc <;> rw [hpc] <;> rfl
    have hpast : (s.encoders t).pc.past = 1 := by rcases hpc with hpc | hpc <;> rw [hpc] <;> rfl
    have hahead : (s.encoders t).pc.ahead = false := by
      rcases hpc with hpc | hpc <;> rw [hpc] <;> rfl
    have hnamed : (s.encoders t).pc.named = false := by
      rcases hpc with hpc | hpc <;> rw [hpc] <;> rfl
    have hpending : ∀ u : Fin c.get, (s.encoders t).pc.pending u = 0 := by
      intro u
      rcases hpc with hpc | hpc <;> rw [hpc] <;> rfl
    refine h.set trivial trivial (h.phase.set hnamed rfl rfl) ?_ (Nat.le_succ _) ?_
      (h.work_ready_set ?_ fun u => (hpending u).symm) ?_
    · rw [h.slot t]
      exact nextWrapped_mod _
    · have hagain : EncoderPc.waitThread.again ph = 0 := EncoderPc.again_eq_zero rfl
      rw [harrived, hagain, EncoderPc.again_eq_zero hahead]
      exact (Nat.add_assoc _ _ 1).symm
    · rw [hbeyond]
      exact (Nat.add_assoc _ _ 1).symm
    · rw [hpast]
      exact le_rfl
  rw [Function.update_eq_self, Function.update_eq_self] at hset
  exact hset

/-- The first thread to arrive at a frame finds it in front, and not led. -/
theorem Control.first (h : Control f ph s) {t : Fin c.get} (hpc : (s.encoders t).pc = .swapReady)
    (hleads : s.leads (s.encoders t).frame = []) : ph = .lead ∧ (s.encoders t).frame = f := by
  have hthread := h.thread_ready t
  have hagain : (s.encoders t).pc.again ph = 0 := EncoderPc.again_eq_zero (by rw [hpc]; rfl)
  have harrived : (s.encoders t).pc.arrived = 1 := by rw [hpc]; rfl
  have hup : f + ph.up ≤ (s.encoders t).frame := by
    refine not_lt.mp fun hlt => ?_
    obtain ⟨u, hu⟩ := h.leads_up _ hlt
    rw [hleads] at hu
    cases hu
  have hphase := h.phase
  rw [hagain, harrived] at hthread
  cases ph with
  | lead =>
    have hoffered : (Phase.lead (n := c.get)).offered = 1 := rfl
    have hzero : (Phase.lead (n := c.get)).up = 0 := rfl
    exact ⟨rfl, by omega⟩
  | retry u =>
    have hoffered : (Phase.retry u).offered = 1 := rfl
    have hzero : (Phase.retry u).up = 0 := rfl
    have hframe : (s.encoders t).frame = f := by omega
    have hok : (s.encoders u).Ok f (.retry u) s.leads u := h.encoder u
    unfold Encoder.Ok at hok
    rw [hphase.1] at hok
    rw [hframe, hok.2.2] at hleads
    cases hleads
  | fresh | first =>
    have hoffered : f + 0 = f + 0 := rfl
    have hthread : s.thread_ready t + (s.encoders t).frame + 1 + s.screen.tail t = f + 0 + 0 :=
      hthread
    have hup : f + 0 ≤ (s.encoders t).frame := hup
    omega
  | encode =>
    have hthread : s.thread_ready t + (s.encoders t).frame + 1 + s.screen.tail t = f + 1 + 0 :=
      hthread
    have hup : f + 1 ≤ (s.encoders t).frame := hup
    omega
  | take u =>
    have hthread : s.thread_ready t + (s.encoders t).frame + 1 + s.screen.tail t = f + 1 + 0 :=
      hthread
    have hup : f + 1 ≤ (s.encoders t).frame := hup
    omega
  | pass u =>
    have hthread : s.thread_ready t + (s.encoders t).frame + 1 + s.screen.tail t = f + 0 + 0 :=
      hthread
    have hup : f + 0 ≤ (s.encoders t).frame := hup
    omega

/-- **A step of an encoder thread.** -/
theorem Control.encoderStep (h : Control f ph s) {t : Fin c.get} {choice : Bool}
    (hflag : (s.encoders t).pc = .swapReady →
      ((needCoreSyn c = true ∧ s.work_ready_flag (s.encoders t).work_index = true) ↔
        s.leads (s.encoders t).frame ≠ []))
    (hcapture : (s.encoders t).pc = .encode → choice = true →
      (s.blit_ctxes (s.encoders t).work_index).should_capture = false →
        ph = .encode ∧ (s.encoders t).frame = f)
    (hs : s.encoderStep t choice = some s') :
    Control (s.encoderFront f t) (s.encoderPhase ph t choice) s' := by
  have hok := h.encoder t
  unfold Encoder.Ok at hok
  have hgoto : ∀ pc : EncoderPc, (s.encoders t).pc.leading = true → pc.leading = true →
      Encoder.Skips (s.skip_frames (s.encoders t).work_index) s.thread_index t
        { s.encoders t with pc := pc } → Control f ph (s.goto t pc) := by
    intro pc hl hl' hskips
    have hto := h.lead_goto hl hl' _ _ hskips
    rw [Function.update_eq_self] at hto
    exact hto
  unfold Dispatch.encoderStep at hs
  unfold encoderFront encoderPhase
  cases hpc : (s.encoders t).pc with
  | waitThread =>
    simp only [hpc] at hs ⊢
    split_ifs at hs with hpos
    cases hs
    exact h.arrive hpc hpos
  | swapReady =>
    simp only [hpc] at hs ⊢
    have hflag := hflag hpc
    by_cases hled : needCoreSyn c = true ∧ s.work_ready_flag (s.encoders t).work_index = true
    · rw [if_pos hled] at hs
      cases hs
      refine h.goto (hflag.mp hled) trivial ?_ ?_ ?_ ?_ (fun _ => ?_) ?_ <;> rw [hpc]
      · rfl
      · rfl
      · cases ph <;> rfl
      · rfl
      · rfl
      · exact le_rfl
    · rw [if_neg hled] at hs
      cases hs
      have hleads : s.leads (s.encoders t).frame = [] := not_not.mp (mt hflag.mpr hled)
      obtain ⟨rfl, hframe⟩ := h.first hpc hleads
      rw [hframe] at hleads ⊢
      exact h.lead hpc hframe hleads _
  | initBctx =>
    simp only [hpc] at hs ⊢
    cases hs
    exact { hgoto .sync (by rw [hpc]; rfl) rfl trivial with }
  | sync =>
    simp only [hpc] at hs ⊢
    cases hs
    exact hgoto .skipFrame (by rw [hpc]; rfl) rfl trivial
  | skipFrame =>
    simp only [hpc] at hs ⊢
    cases hs
    cases choice with
    | true => exact hgoto .skipSet (by rw [hpc]; rfl) rfl trivial
    | false => exact hgoto .imgNext (by rw [hpc]; rfl) rfl trivial
  | skipSet =>
    simp only [hpc] at hs ⊢
    cases hs
    exact { h.lead_goto (p := .skipIndex) (by rw [hpc]; rfl) rfl true s.thread_index rfl with }
  | skipIndex =>
    simp only [hpc] at hs ⊢
    cases hs
    have hskips := h.skips t
    unfold Encoder.Skips at hskips
    rw [hpc] at hskips
    obtain ⟨-, hframe, -⟩ := (Encoder.ok_leading (by rw [hpc]; rfl)).mp (h.encoder t)
    have hto := h.lead_goto (p := .skipRelease) (by rw [hpc]; rfl) rfl
      (s.skip_frames (s.encoders t).work_index) t ⟨?_, rfl⟩
    · rw [Function.update_eq_self] at hto
      exact hto
    · rw [h.slot t, hframe]
      exact hskips
  | skipRelease =>
    simp only [hpc] at hs ⊢
    cases hs
    exact h.skip hpc
  | skipWait =>
    simp only [hpc] at hs ⊢
    split_ifs at hs with hpos
    cases hs
    exact h.resume hpc hpos
  | imgNext =>
    simp only [hpc] at hs ⊢
    cases hs
    exact { hgoto .clearSkip (by rw [hpc]; rfl) rfl trivial with }
  | clearSkip =>
    simp only [hpc] at hs ⊢
    cases hs
    exact { h.lead_goto (p := .clearFlag) (by rw [hpc]; rfl) rfl false s.thread_index rfl with }
  | clearFlag =>
    simp only [hpc] at hs ⊢
    cases hs
    split_ifs with hsyn
    · exact h.release hpc rfl rfl (.inl rfl)
    · refine h.release hpc rfl rfl (.inr ⟨rfl, fun u => ?_⟩)
      have hone : c = .one := by simpa [needCoreSyn] using hsyn
      subst hone
      exact Subsingleton.elim (α := Fin 1) u t
  | releaseWork j =>
    simp only [hpc] at hs ⊢
    rw [hpc] at hok
    split_ifs at hs with hj hself
    · cases hs
      have hto : Control f ph
          ({ s with work_ready := s.work_ready }.goto t (.releaseWork (j + 1))) := by
        refine h.releaseWork hj hpc fun u => ?_
        rw [if_neg, Nat.add_zero]
        rintro ⟨hu, hne⟩
        exact hne ((Fin.ext hu).trans hself)
      exact hto
    · cases hs
      refine h.releaseWork hj hpc fun u => ?_
      by_cases hu : u = ⟨j, hj⟩
      · subst hu
        rw [Function.update_self, if_pos ⟨rfl, hself⟩]
      · rw [Function.update_of_ne hu, if_neg fun hand => hu (Fin.ext hand.1)]
        rfl
    · cases hs
      have hbegin : Control f ph
          ({ s with work_ready := update s.work_ready t (s.work_ready t) }.begin t) := by
        have hbeyond : (s.encoders t).pc.beyond t = 1 := by
          rw [hpc]
          exact if_pos (t.isLt.trans_le (not_lt.mp hj))
        refine h.begin (by rw [hpc]; rfl) (by rw [hpc]; rfl) (by rw [hpc]; cases ph <;> rfl) hok.2.2
          (by rw [hbeyond]) (fun u => ?_) (by rw [hpc]; exact le_rfl)
        rw [hpc]
        exact if_neg fun hle => hj (hle.trans_lt u.isLt)
      rw [Function.update_eq_self] at hbegin
      exact hbegin
  | waitWork =>
    simp only [hpc] at hs ⊢
    split_ifs at hs with hpos
    cases hs
    have hwork := h.work_ready t
    have hbeyond : (s.encoders t).pc.beyond t = 0 := by rw [hpc]; rfl
    refine h.begin (by rw [hpc]; rfl) (by rw [hpc]; rfl) (by rw [hpc]; cases ph <;> rfl) ?_ ?_
      (fun _ => by rw [hpc]; rfl) (by rw [hpc]; exact Nat.zero_le 1)
    · omega
    · omega
  | encode =>
    simp only [hpc] at hs ⊢
    rw [hpc] at hok
    cases choice with
    | true =>
      rw [if_pos rfl] at hs
      cases hs
      by_cases hcap : (s.blit_ctxes (s.encoders t).work_index).should_capture = true
      · rw [if_pos hcap, if_neg fun hand => Bool.false_ne_true (hand.2.symm.trans hcap)]
        have hto : Control f ph (s.goto t .encode) := by
          refine h.goto hok trivial ?_ ?_ ?_ ?_ (fun _ => ?_) ?_ <;> rw [hpc]
          rfl
        exact { hto with }
      · rw [if_neg hcap, if_pos ⟨rfl, Bool.eq_false_iff.mpr hcap⟩]
        obtain ⟨rfl, hframe⟩ := hcapture hpc rfl (Bool.eq_false_iff.mpr hcap)
        exact { h.take hpc hframe with }
    | false =>
      rw [if_neg Bool.false_ne_true] at hs
      cases hs
      rw [if_neg fun hand => Bool.false_ne_true hand.1]
      split
      · have hto : Control f ph (s.goto t .clearCount) := by
          refine h.goto hok trivial ?_ ?_ ?_ ?_ (fun _ => ?_) ?_ <;> rw [hpc]
          · rfl
          · rfl
          · cases ph <;> rfl
          · rfl
          · rfl
          · exact le_rfl
        exact { hto with }
      · exact { h.finish (.inl hpc) with }
  | capNext =>
    simp only [hpc] at hs ⊢
    cases hs
    exact h.advance hpc
  | capRelease =>
    simp only [hpc] at hs ⊢
    cases hs
    exact h.ask hpc
  | clearCount =>
    simp only [hpc] at hs ⊢
    rw [hpc] at hok
    cases hs
    have hto : Control f ph (s.goto t .clearReady) := by
      refine h.goto hok trivial ?_ ?_ ?_ ?_ (fun _ => ?_) ?_ <;> rw [hpc]
      · rfl
      · rfl
      · cases ph <;> rfl
      · rfl
      · rfl
      · exact le_rfl
    exact { hto with }
  | clearReady =>
    simp only [hpc] at hs ⊢
    rw [hpc] at hok
    cases hs
    have hto : Control f ph (s.goto t .releaseDone) := by
      refine h.goto hok trivial ?_ ?_ ?_ ?_ (fun _ => ?_) ?_ <;> rw [hpc]
      · rfl
      · rfl
      · cases ph <;> rfl
      · rfl
      · rfl
      · exact le_rfl
    exact { hto with }
  | releaseDone =>
    simp only [hpc] at hs ⊢
    cases hs
    exact { h.finish (.inr hpc) with }

end RemotePlay.Work.Dispatch
