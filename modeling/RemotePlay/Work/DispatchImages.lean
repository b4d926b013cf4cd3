import RemotePlay.Work.DispatchSlots

/-! # Images of the frames in work

From its capture until all threads are done with it, or its leader skips it, a frame's image is the
buffer that `captured` says, and the slot's `BlitCtx` from when it is filled in until then
(`Images`). The screen's current buffer is another than that of the frame last released, and is gone
on from only by the leader of the next. -/

namespace RemotePlay.Work.Dispatch

open Lib.Threads
open Function (update)

variable {c : CoreCount} {s s' : Dispatch c} {f f' m : ℕ} {ph ph' : Phase c.get}

/-- Whether the leader has gone on to the screen's next image buffer, and has yet to release the
frame. -/
def EncoderPc.advanced : EncoderPc → ℕ
  | clearSkip | clearFlag => 1
  | waitThread | swapReady | initBctx | sync | skipFrame | skipSet | skipIndex |
      skipRelease | skipWait
  | imgNext | releaseWork _ | waitWork | encode | capNext | capRelease | clearCount | clearReady
  | releaseDone => 0

/-- Whether the thread has begun to encode its frame. -/
def EncoderPc.begun : EncoderPc → ℕ
  | encode | capNext | capRelease | clearCount | clearReady | releaseDone => 1
  | waitThread | swapReady | initBctx | sync | skipFrame | skipSet | skipIndex |
      skipRelease | skipWait
  | imgNext | clearSkip | clearFlag | releaseWork _ | waitWork => 0

/-- Frame `f` has been captured into the current buffer of the screen that its slot's parameters
name. -/
def Held (s : Dispatch c) (f : ℕ) : Prop :=
  s.captured f = some (s.imgInfo (s.work_ready_params (f % WORK_COUNT)))

/-- The slot's `BlitCtx` is that of frame `f`, which no thread has asked to follow. -/
def Filled (s : Dispatch c) (f : ℕ) : Prop :=
  s.captured f = some (s.blit_ctxes (f % WORK_COUNT)).src ∧
  (s.blit_ctxes (f % WORK_COUNT)).frame = f ∧
    (s.blit_ctxes (f % WORK_COUNT)).should_capture = false

/-- The image of the front frame, where its leader is. -/
def ImageOk (s : Dispatch c) (f : ℕ) (ph : Phase c.get) : EncoderPc → Prop
  | .initBctx => s.Held f
  | .skipWait => ph = .lead → s.Held f
  | .sync | .skipFrame | .skipSet | .imgNext =>
    s.Filled f ∧ (s.blit_ctxes (f % WORK_COUNT)).src =
      s.imgInfo (s.blit_ctxes (f % WORK_COUNT)).is_top
  | .skipIndex | .skipRelease => s.captured f = none
  | .clearSkip | .clearFlag => s.Filled f
  | .waitThread | .swapReady | .releaseWork _ | .waitWork | .encode | .capNext | .capRelease
  | .clearCount | .clearReady | .releaseDone => True

/-- The image of a frame that is being captured, where the screen thread is. -/
def ScreenImage (s : Dispatch c) (f : ℕ) : ScreenPc → Prop
  | .capture is_top _ img => s.captured f = none ∧ img = s.imgInfo is_top
  | .setParams is_top _ => s.captured f = some (s.imgInfo is_top)
  | .readSkip _ | .releaseOne => s.Held f
  | .waitReady | .readIndex | .checkFlag _ | .waitDone _ | .setFlag _ | .doScreen | .readImg _ _
  | .releaseAll _ => s.captured f = none

/-- Whether the next frame has been asked for while the front frame is encoded. -/
def Phase.AskedOk {n : ℕ} (asked : Bool) : Phase n → Prop
  | encode => asked = false
  | take _ => asked = true
  | fresh | first | retry _ | lead | pass _ => True

/-- **The images** of the frames that have been captured, and what each thread has encoded. -/
structure Images (f : ℕ) (ph : Phase c.get) (s : Dispatch c) : Prop where
  live : ∀ m < f + ph.up, (∃ t, (s.encoders t).frame ≤ m) →
    s.captured m = some (s.blit_ctxes (m % WORK_COUNT)).src ∧
    (s.blit_ctxes (m % WORK_COUNT)).frame = m
  asked : ∀ m < f, (∃ t, (s.encoders t).frame ≤ m) →
    (s.blit_ctxes (m % WORK_COUNT)).should_capture = true
  asked_front : ph.AskedOk (s.blit_ctxes (f % WORK_COUNT)).should_capture
  captured : ∀ m, s.captured m ≠ none → m < f + ph.acquired ∧ ∃ t, (s.encoders t).frame ≤ m
  screen : ph.captures = true → s.ScreenImage f s.screen
  unled : ph = .lead → s.leads f = [] → s.Held f
  leader : ∀ t, s.ImageOk f ph (s.encoders t).pc
  advanced : ∀ m, m + 1 = f + ph.up + total (fun e : Encoder => e.pc.advanced) s.encoders →
    ∀ is_top, s.captured m ≠ some (s.imgInfo is_top)
  img_index : ∀ is_top, s.img_index is_top < WORK_COUNT
  encoded : ∀ t, (s.encoders t).encoded =
    (List.range ((s.encoders t).frame + (s.encoders t).pc.begun)).map fun i => (i % WORK_COUNT, i)

theorem imageOk_of_not_ahead {pc : EncoderPc} (ha : pc.ahead = false) : s.ImageOk f ph pc := by
  cases pc <;> trivial

theorem Control.imageOk_of_ne_lead (h : Control f ph s) (hph : ph ≠ .lead) (t : Fin c.get) :
    s'.ImageOk f' ph (s.encoders t).pc := by
  have hok := h.encoder t
  unfold Encoder.Ok at hok
  cases hpc : (s.encoders t).pc with
  | initBctx | sync | skipFrame | skipSet | skipIndex | skipRelease | imgNext | clearSkip |
      clearFlag =>
    rw [hpc] at hok
    exact (hph hok.1).elim
  | skipWait => exact fun hlead => (hph hlead).elim
  | _ => trivial

/-- The image of frame `f`, the slots' `BlitCtx` and the current buffers are the same. -/
structure SameImage (f : ℕ) (s s' : Dispatch c) : Prop where
  captured : s'.captured f = s.captured f
  blit_ctxes : s'.blit_ctxes = s.blit_ctxes
  img_index : s'.img_index = s.img_index
  work_ready_params : s'.work_ready_params = s.work_ready_params

theorem SameImage.imgInfo (h : SameImage f s s') : s'.imgInfo = s.imgInfo := by
  funext is_top
  unfold Dispatch.imgInfo
  rw [h.img_index]

theorem SameImage.held (h : SameImage f s s') : s'.Held f ↔ s.Held f := by
  unfold Held
  rw [h.captured, h.imgInfo, h.work_ready_params]

theorem SameImage.filled (h : SameImage f s s') : s'.Filled f ↔ s.Filled f := by
  unfold Filled
  rw [h.captured, h.blit_ctxes]

theorem SameImage.imageOk (h : SameImage f s s') (pc : EncoderPc) :
    s'.ImageOk f ph pc ↔ s.ImageOk f ph pc := by
  unfold ImageOk
  rw [h.held, h.filled, h.captured, h.blit_ctxes, h.imgInfo]

theorem SameImage.screenImage (h : SameImage f s s') (pc : ScreenPc) :
    s'.ScreenImage f pc ↔ s.ScreenImage f pc := by
  unfold ScreenImage
  rw [h.held, h.captured, h.imgInfo]

/-! ### Steps that leave the images -/

theorem Images.screen_turn (h : Images f ph s) (hsame : ∀ m, SameImage m s s')
    (hencoders : s'.encoders = s.encoders) (hup : ph'.up = ph.up)
    (hacquired : ph.acquired ≤ ph'.acquired)
    (hasked : ph'.AskedOk (s.blit_ctxes (f % WORK_COUNT)).should_capture)
    (hscreen : ph'.captures = true → s.ScreenImage f s'.screen)
    (hunled : ph' = .lead → s'.leads f = [] → s.Held f)
    (hleader : ∀ t, s.ImageOk f ph' (s.encoders t).pc) : Images f ph' s' where
  live := by
    intro m hm hex
    rw [hup] at hm
    rw [hencoders] at hex
    rw [(hsame m).captured, (hsame m).blit_ctxes]
    exact h.live m hm hex
  asked := by
    rw [hencoders, (hsame f).blit_ctxes]
    exact h.asked
  asked_front := by
    rw [(hsame f).blit_ctxes]
    exact hasked
  captured m hm := by
    rw [(hsame m).captured] at hm
    obtain ⟨hlt, hex⟩ := h.captured m hm
    rw [hencoders]
    exact ⟨hlt.trans_le (Nat.add_le_add_left hacquired f), hex⟩
  screen hcaptures := ((hsame _).screenImage _).mpr (hscreen hcaptures)
  unled hlead hleads := (hsame _).held.mpr (hunled hlead hleads)
  leader t := by
    rw [hencoders]
    exact ((hsame _).imageOk _).mpr (hleader t)
  advanced := by
    intro m hm is_top
    rw [hup, hencoders] at hm
    rw [(hsame m).captured, (hsame m).imgInfo]
    exact h.advanced m hm is_top
  img_index := by
    rw [(hsame f).img_index]
    exact h.img_index
  encoded := by
    rw [hencoders]
    exact h.encoded

theorem Images.turn (h : Images f ph s) (hsame : ∀ m, SameImage m s s') {t : Fin c.get}
    {e : Encoder}
    (hencoders : s'.encoders = update s.encoders t e) (hframe : e.frame = (s.encoders t).frame)
    (hencoded : e.encoded = (List.range (e.frame + e.pc.begun)).map fun i => (i % WORK_COUNT, i))
    (hup : f' + ph'.up = f + ph.up) (hacquired : f' + ph'.acquired = f + ph.acquired)
    (hasked : ∀ m < f', (∃ t, (s.encoders t).frame ≤ m) →
      (s.blit_ctxes (m % WORK_COUNT)).should_capture = true)
    (hfront : ph'.AskedOk (s.blit_ctxes (f' % WORK_COUNT)).should_capture)
    (hscreen : ph'.captures = true → s.ScreenImage f' s'.screen)
    (hunled : ph' = .lead → s'.leads f' = [] → s.Held f')
    (hself : s.ImageOk f' ph' e.pc) (hothers : ∀ u, u ≠ t → s.ImageOk f' ph' (s.encoders u).pc)
    (hadvanced : e.pc.advanced = (s.encoders t).pc.advanced) : Images f' ph' s' := by
  have hframes : ∀ u, (s'.encoders u).frame = (s.encoders u).frame := by
    rw [hencoders]
    exact (Function.forall_update_iff s.encoders fun u x => x.frame = (s.encoders u).frame).mpr
      ⟨hframe, fun _ _ => rfl⟩
  have hex : ∀ m, (∃ u, (s'.encoders u).frame ≤ m) ↔ ∃ u, (s.encoders u).frame ≤ m := fun m =>
    exists_congr fun u => by rw [hframes]
  have htotal : total (fun x : Encoder => x.pc.advanced) s'.encoders =
      total (fun x : Encoder => x.pc.advanced) s.encoders := by
    have htotal := total_update (fun x : Encoder => x.pc.advanced) s.encoders t e
    rw [hadvanced] at htotal
    rw [hencoders]
    exact Nat.add_right_cancel htotal
  refine ⟨?_, ?_, ?_, ?_, ?_, ?_, ?_, ?_, ?_, ?_⟩
  · intro m hm hle
    rw [hup] at hm
    rw [(hsame m).captured, (hsame m).blit_ctxes]
    exact h.live m hm ((hex m).mp hle)
  · intro m hm hle
    rw [(hsame f).blit_ctxes]
    exact hasked m hm ((hex m).mp hle)
  · rw [(hsame f).blit_ctxes]
    exact hfront
  · intro m hm
    rw [(hsame m).captured] at hm
    rw [hacquired, hex]
    exact h.captured m hm
  · exact fun hcaptures => ((hsame _).screenImage _).mpr (hscreen hcaptures)
  · exact fun hlead hleads => (hsame _).held.mpr (hunled hlead hleads)
  · rw [hencoders]
    refine (Function.forall_update_iff s.encoders fun _ x => s'.ImageOk f' ph' x.pc).mpr
      ⟨((hsame _).imageOk _).mpr hself, fun u hu => ((hsame _).imageOk _).mpr (hothers u hu)⟩
  · intro m hm is_top
    rw [hup, htotal] at hm
    rw [(hsame m).captured, (hsame m).imgInfo]
    exact h.advanced m hm is_top
  · rw [(hsame f).img_index]
    exact h.img_index
  · rw [hencoders]
    exact (Function.forall_update_iff s.encoders fun _ x => x.encoded =
      (List.range (x.frame + x.pc.begun)).map fun i => (i % WORK_COUNT, i)).mpr
        ⟨hencoded, fun u _ => h.encoded u⟩

theorem Images.goto (h : Images f ph s) (hsame : ∀ m, SameImage m s s') {t : Fin c.get}
    {p : EncoderPc} (hencoders : s'.encoders = update s.encoders t { s.encoders t with pc := p })
    (hscreen : s'.screen = s.screen) (hleads : s'.leads f = [] → s.leads f = [])
    (hself : s.ImageOk f ph p) (hadvanced : p.advanced = (s.encoders t).pc.advanced)
    (hbegun : p.begun = (s.encoders t).pc.begun) : Images f ph s' :=
  h.turn hsame hencoders rfl ((h.encoded t).trans (by rw [hbegun])) rfl rfl h.asked h.asked_front
    (by rw [hscreen]; exact h.screen) (fun hlead hnil => h.unled hlead (hleads hnil)) hself
    (fun u _ => h.leader u) hadvanced

/-! ### The screen thread -/

theorem Control.exists_frame_le (h : Control f ph s) (hcaptures : ph.captures = true) :
    ∃ t, (s.encoders t).frame ≤ f := by
  rcases Phase.captures_cases hcaptures with rfl | ⟨t, rfl⟩
  · exact ⟨⟨0, c.get_pos⟩, h.frame_le _⟩
  · obtain ⟨hpc, -⟩ := h.phase
    have hok := h.encoder t
    unfold Encoder.Ok at hok
    rw [hpc] at hok
    exact ⟨t, hok.2.1.le⟩

theorem Phase.up_of_captures {n : ℕ} {ph : Phase n} (h : ph.captures = true) :
    ph.up = 0 ∧ ph.acquired = 1 ∧ ph ≠ .lead := by
  rcases Phase.captures_cases h with rfl | ⟨t, rfl⟩
  · exact ⟨rfl, rfl, by simp⟩
  · exact ⟨rfl, rfl, by simp⟩

theorem Control.advanced_eq_zero (h : Control f ph s) (hlead : ph ≠ .lead) :
    total (fun e : Encoder => e.pc.advanced) s.encoders = 0 := by
  refine total_eq_zero.mpr fun t => ?_
  have hok := h.encoder t
  unfold Encoder.Ok at hok
  cases hpc : (s.encoders t).pc with
  | clearSkip | clearFlag =>
    rw [hpc] at hok
    exact (hlead hok.1).elim
  | _ => rfl

theorem Images.capture (h : Images f ph s) (hc : Control f ph s) {is_top : Bool} {w : ℕ}
    {img : ImgBuf} (hcaptures : ph.captures = true) (hscreen : s.screen = .capture is_top w img) :
    Images f ph { s with
      captured := update s.captured s.released (some img), screen := .setParams is_top w } := by
  obtain ⟨hup, hacquired, hlead⟩ := Phase.up_of_captures hcaptures
  have hreleased : s.released = f := by rw [hc.released, hup, Nat.add_zero]
  have himage := h.screen hcaptures
  rw [hscreen] at himage
  obtain ⟨-, rfl⟩ := himage
  have hne : ∀ m, m ≠ f → update s.captured f (some (s.imgInfo is_top)) m = s.captured m :=
    fun m hm =>
    Function.update_of_ne hm _ _
  rw [hreleased]
  refine { h with
    live := ?_, captured := ?_, screen := fun _ => Function.update_self _ _ _,
    unled := fun hph => (hlead hph).elim, leader := fun t => hc.imageOk_of_ne_lead hlead t,
    advanced := ?_ }
  · intro m hm hex
    show update s.captured f (some (s.imgInfo is_top)) m = _ ∧ _
    rw [hne m (by omega)]
    exact h.live m hm hex
  · intro m hm
    by_cases hmf : m = f
    · rw [hmf, hacquired]
      exact ⟨Nat.lt_succ_self f, hc.exists_frame_le hcaptures⟩
    · exact h.captured m ((hne m hmf).symm.trans_ne hm)
  · intro m hm top
    have hzero := hc.advanced_eq_zero hlead
    have hm' : m + 1 = f + ph.up + total (fun e : Encoder => e.pc.advanced) s.encoders := hm
    show update s.captured f (some (s.imgInfo is_top)) m ≠ some (s.imgInfo top)
    rw [hne m (by omega)]
    exact h.advanced m hm top

theorem Images.setParams (h : Images f ph s) (hc : Control f ph s) {is_top : Bool} {w : ℕ}
    (hcaptures : ph.captures = true) (hw : w = f % WORK_COUNT)
    (hscreen : s.screen = .setParams is_top w) :
    Images f ph { s with
      work_ready_params := update s.work_ready_params w is_top, screen := .readSkip w } := by
  obtain ⟨-, -, hlead⟩ := Phase.up_of_captures hcaptures
  have himage := h.screen hcaptures
  rw [hscreen] at himage
  have himage : s.captured f = some (s.imgInfo is_top) := himage
  refine { h with
    screen := fun _ => ?_, unled := fun hph => (hlead hph).elim,
    leader := fun t => hc.imageOk_of_ne_lead hlead t }
  show s.captured f = some (s.imgInfo (update s.work_ready_params w is_top (f % WORK_COUNT)))
  rw [hw, Function.update_self]
  exact himage

/-- **A step of the screen thread.** -/
theorem Images.screenStep (h : Images f ph s) (hc : Control f ph s) {ok is_top : Bool}
    (hs : s.screenStep ok is_top = some s') : Images f (s.screenPhase ph) s' := by
  have hok := hc.screen
  have himage := h.screen
  have hgoto : ∀ {s' : Dispatch c}, (∀ m, SameImage m s s') → s'.encoders = s.encoders →
      s'.leads = s.leads → (ph.captures = true → s.ScreenImage f s'.screen) → Images f ph s' := by
    intro s' hsame hencoders hleads hscreen
    exact h.screen_turn hsame hencoders rfl le_rfl h.asked_front hscreen
      (fun hlead hnil => h.unled hlead (hleads ▸ hnil)) h.leader
  unfold Dispatch.screenStep at hs
  unfold screenPhase
  cases hscreen : s.screen with
  | waitDone w =>
    simp only [hscreen] at hs hok ⊢
    split_ifs at hs with hpos
    cases hs
    obtain ⟨-, rfl⟩ := hok
    refine h.screen_turn (fun _ => ⟨rfl, rfl, rfl, rfl⟩) rfl rfl (Nat.zero_le _) trivial
      (fun _ => ?_)
      (fun hph => by simp at hph) fun t => imageOk_of_not_ahead (hc.not_ahead (by simp))
    by_contra hne
    exact Nat.lt_irrefl f (h.captured f hne).1
  | capture top w img =>
    simp only [hscreen] at hs hok ⊢
    rw [hscreen] at himage
    split_ifs at hs
    · cases hs
      exact h.capture hc hok.2 hscreen
    · cases hs
      exact hgoto (fun _ => ⟨rfl, rfl, rfl, rfl⟩) rfl rfl fun hcaptures => (himage hcaptures).1
  | setParams top w =>
    simp only [hscreen] at hs hok ⊢
    cases hs
    exact h.setParams hc hok.2 hok.1 hscreen
  | readSkip w =>
    simp only [hscreen] at hs hok ⊢
    cases hs
    obtain ⟨rfl, hcaptures⟩ := hok
    rw [hscreen] at himage
    have hheld : s.Held f := himage hcaptures
    have hskip := hc.skip_front
    rcases Phase.captures_cases hcaptures with rfl | ⟨t, rfl⟩
    · have hfalse : s.skip_frames (f % WORK_COUNT) = false := hskip
      rw [if_neg (Bool.not_eq_true _ ▸ hfalse), if_neg (Bool.not_eq_true _ ▸ hfalse)]
      exact h.screen_turn (fun _ => ⟨rfl, rfl, rfl, rfl⟩) rfl rfl le_rfl trivial
        (fun hcaptures => by simp [Phase.captures] at hcaptures) (fun _ _ => hheld)
        fun t => imageOk_of_not_ahead (hc.not_ahead (by simp))
    · have htrue : s.skip_frames (f % WORK_COUNT) = true := hskip
      rw [if_pos htrue, if_pos htrue]
      exact hgoto (fun _ => ⟨rfl, rfl, rfl, rfl⟩) rfl rfl fun _ => hheld
  | releaseOne =>
    simp only [hscreen] at hs hok ⊢
    cases hs
    obtain ⟨t, rfl⟩ := hok
    rw [hscreen] at himage
    have hheld : s.Held f := himage rfl
    obtain ⟨hpc, -⟩ := hc.phase
    refine h.screen_turn (fun _ => ⟨rfl, rfl, rfl, rfl⟩) rfl rfl le_rfl trivial
      (fun hcaptures => by simp [Phase.captures] at hcaptures) (fun _ _ => hheld) fun u => ?_
    by_cases hu : u = t
    · rw [hu, hpc]
      exact fun _ => hheld
    · exact imageOk_of_not_ahead (hc.not_ahead (by simp [Ne.symm hu]))
  | waitReady =>
    simp only [hscreen] at hs ⊢
    rw [hscreen] at himage
    split_ifs at hs
    cases hs
    exact hgoto (fun _ => ⟨rfl, rfl, rfl, rfl⟩) rfl rfl himage
  | doScreen =>
    simp only [hscreen] at hs ⊢
    rw [hscreen] at himage
    split_ifs at hs
    · cases hs
      exact hgoto (fun _ => ⟨rfl, rfl, rfl, rfl⟩) rfl rfl himage
    · cases hs
      exact h
  | checkFlag w =>
    simp only [hscreen] at hs ⊢
    rw [hscreen] at himage
    cases hs
    refine hgoto (fun _ => ⟨rfl, rfl, rfl, rfl⟩) rfl rfl fun hcaptures => ?_
    show s.ScreenImage f (if _ then _ else _)
    split
    · exact himage hcaptures
    · exact himage hcaptures
  | readIndex | setFlag w =>
    simp only [hscreen] at hs ⊢
    rw [hscreen] at himage
    cases hs
    exact hgoto (fun _ => ⟨rfl, rfl, rfl, rfl⟩) rfl rfl himage
  | readImg top w =>
    simp only [hscreen] at hs ⊢
    rw [hscreen] at himage
    cases hs
    exact hgoto (fun _ => ⟨rfl, rfl, rfl, rfl⟩) rfl rfl fun hcaptures => ⟨himage hcaptures, rfl⟩
  | releaseAll j =>
    simp only [hscreen] at hs ⊢
    rw [hscreen] at himage
    split_ifs at hs
    · cases hs
      exact hgoto (fun _ => ⟨rfl, rfl, rfl, rfl⟩) rfl rfl himage
    · cases hs
      exact hgoto (fun _ => ⟨rfl, rfl, rfl, rfl⟩) rfl rfl himage

/-! ### The leader -/

theorem EncoderPc.advanced_of_not_ahead {pc : EncoderPc} (ha : pc.ahead = false) :
    pc.advanced = 0 := by
  cases pc <;> first | rfl | cases ha

theorem Control.total_advanced (h : Control f .lead s) {t : Fin c.get} (hleads : s.leads f = [t]) :
    total (fun e : Encoder => e.pc.advanced) s.encoders = (s.encoders t).pc.advanced :=
  total_eq_single t fun _ hu => EncoderPc.advanced_of_not_ahead (h.others hleads hu)

theorem Images.lead_turn (h : Images f .lead s) (hc : Control f .lead s) {t : Fin c.get}
    {p : EncoderPc} (hl : (s.encoders t).pc.leading = true) (hl' : p.leading = true)
    (hencoders : s'.encoders = update s.encoders t { s.encoders t with pc := p })
    (hleads : s'.leads = s.leads) (hcaptured : ∀ m, m ≠ f → s'.captured m = s.captured m)
    (hnone : s.captured f = none → s'.captured f = none)
    (hblit : ∀ w, w ≠ f % WORK_COUNT → s'.blit_ctxes w = s.blit_ctxes w)
    (hself : s'.ImageOk f .lead p)
    (hadvanced : ∀ m, m + 1 = f + p.advanced → ∀ is_top, s'.captured m ≠ some (s'.imgInfo is_top))
    (himg : ∀ is_top, s'.img_index is_top < WORK_COUNT) : Images f .lead s' := by
  obtain ⟨-, hframe, hled⟩ := (Encoder.ok_leading hl).mp (hc.encoder t)
  have hslot : ∀ m < f, (∃ u, (s.encoders u).frame ≤ m) →
      s'.blit_ctxes (m % WORK_COUNT) = s.blit_ctxes (m % WORK_COUNT) := by
    rintro m hm ⟨u, hu⟩
    refine hblit _ ?_
    have hlow : f + 1 ≤ (s.encoders u).frame + 2 := hc.low u
    show m % 2 ≠ f % 2
    omega
  have hsame : ∀ u, (s'.encoders u).frame = (s.encoders u).frame := by
    rw [hencoders]
    exact (Function.forall_update_iff s.encoders fun u x => x.frame = (s.encoders u).frame).mpr
      ⟨rfl, fun _ _ => rfl⟩
  have hex : ∀ m, (∃ u, (s'.encoders u).frame ≤ m) ↔ ∃ u, (s.encoders u).frame ≤ m := fun m =>
    exists_congr fun u => by rw [hsame]
  have hothers : ∀ u, u ≠ t → (s.encoders u).pc.ahead = false := fun u hu => hc.others hled hu
  have htotal : total (fun e : Encoder => e.pc.advanced) s'.encoders = p.advanced := by
    rw [hencoders, total_eq_single t fun u hu => ?_, Function.update_self]
    rw [Function.update_of_ne hu]
    exact EncoderPc.advanced_of_not_ahead (hothers u hu)
  obtain ⟨-, -, -, -, hahead, -⟩ := EncoderPc.of_leading hl'
  have hbegun : p.begun = 0 ∧ (s.encoders t).pc.begun = 0 := by
    constructor
    · cases p <;> first | rfl | cases hl'
    · cases hpc : (s.encoders t).pc <;> first | rfl | (rw [hpc] at hl; cases hl)
  refine ⟨?_, ?_, trivial, ?_,
    fun hcaptures => by simp [Phase.captures] at hcaptures, ?_, ?_, ?_, himg, ?_⟩
  · intro m hm hle
    have hm : m < f := hm
    have hle := (hex m).mp hle
    rw [hcaptured m hm.ne, hslot m hm hle]
    exact h.live m hm hle
  · intro m hm hle
    have hle := (hex m).mp hle
    rw [hslot m hm hle]
    exact h.asked m hm hle
  · intro m hm
    rw [hex]
    refine h.captured m ?_
    by_cases hmf : m = f
    · subst hmf
      exact mt hnone hm
    · rw [← hcaptured m hmf]
      exact hm
  · intro _ hnil
    rw [hleads, hled] at hnil
    cases hnil
  · rw [hencoders]
    exact (Function.forall_update_iff s.encoders fun _ x => s'.ImageOk f .lead x.pc).mpr
      ⟨hself, fun u hu => imageOk_of_not_ahead (hothers u hu)⟩
  · rw [htotal]
    exact hadvanced
  · rw [hencoders]
    refine (Function.forall_update_iff s.encoders fun _ x => x.encoded =
      (List.range (x.frame + x.pc.begun)).map fun i => (i % WORK_COUNT, i)).mpr
        ⟨?_, fun u _ => h.encoded u⟩
    rw [hbegun.1, ← hbegun.2]
    exact h.encoded t

theorem nextWrapped_ne {i : ℕ} (h : i < WORK_COUNT) : nextWrapped i ≠ i := by
  have h : i < 2 := h
  show (i + 1) % 2 ≠ i
  omega

theorem nextWrapped_lt (i : ℕ) : nextWrapped i < WORK_COUNT := Nat.mod_lt _ Nat.two_pos

theorem Images.fill (h : Images f ph s) (hc : Control f ph s) {t : Fin c.get}
    (hpc : (s.encoders t).pc = .initBctx) :
    Images f ph ({ s with
      blit_ctxes := update s.blit_ctxes (s.encoders t).work_index
        ⟨s.work_ready_params (s.encoders t).work_index,
          s.imgInfo (s.work_ready_params (s.encoders t).work_index), false, s.released⟩ }.goto t
        .sync) := by
  obtain ⟨rfl, hframe, hleads⟩ := (Encoder.ok_leading (by rw [hpc]; rfl)).mp (hc.encoder t)
  have hw : (s.encoders t).work_index = f % WORK_COUNT := by rw [hc.slot, hframe]
  have hreleased : s.released = f := hc.released
  have hheld := h.leader t
  rw [hpc] at hheld
  have hheld : s.captured f = some (s.imgInfo (s.work_ready_params (f % WORK_COUNT))) := hheld
  rw [hw, hreleased]
  refine h.lead_turn hc (t := t) (p := .sync) (by rw [hpc]; rfl) rfl rfl rfl (fun _ _ => rfl)
    (fun hnone => hnone) (fun w hw => Function.update_of_ne hw _ _) ?_ (fun m hm => ?_) h.img_index
  · show (s.captured f = some (update s.blit_ctxes (f % WORK_COUNT) _ (f % WORK_COUNT)).src ∧
      (update s.blit_ctxes (f % WORK_COUNT) _ (f % WORK_COUNT)).frame = f ∧
      (update s.blit_ctxes (f % WORK_COUNT) _ (f % WORK_COUNT)).should_capture = false) ∧
      (update s.blit_ctxes (f % WORK_COUNT) _ (f % WORK_COUNT)).src =
        s.imgInfo (update s.blit_ctxes (f % WORK_COUNT) _ (f % WORK_COUNT)).is_top
    rw [Function.update_self]
    exact ⟨⟨hheld, rfl, rfl⟩, rfl⟩
  · refine h.advanced m ?_
    rw [hc.total_advanced hleads, hpc]
    exact hm

theorem Images.drop (h : Images f ph s) (hc : Control f ph s) {t : Fin c.get}
    (hpc : (s.encoders t).pc = .skipSet) (skip_frames : ℕ → Bool) :
    Images f ph ({ s with
      skip_frames := skip_frames
      captured := update s.captured (s.blit_ctxes (s.encoders t).work_index).frame none }.goto t
        .skipIndex) := by
  obtain ⟨rfl, hframe, hleads⟩ := (Encoder.ok_leading (by rw [hpc]; rfl)).mp (hc.encoder t)
  have hw : (s.encoders t).work_index = f % WORK_COUNT := by rw [hc.slot, hframe]
  have hfilled := h.leader t
  rw [hpc] at hfilled
  obtain ⟨⟨-, hblit, -⟩, -⟩ := hfilled
  rw [hw, hblit]
  refine h.lead_turn hc (t := t) (p := .skipIndex) (by rw [hpc]; rfl) rfl rfl rfl
    (fun m hm => Function.update_of_ne hm _ _) (fun _ => Function.update_self _ _ _)
      (fun _ _ => rfl)
    (Function.update_self _ _ _) (fun m hm is_top => ?_) h.img_index
  have hm : m + 1 = f := hm
  show update s.captured f none m ≠ some (s.imgInfo is_top)
  rw [Function.update_of_ne (by omega)]
  refine h.advanced m ?_ is_top
  rw [hc.total_advanced hleads, hpc]
  exact hm

theorem Images.next (h : Images f ph s) (hc : Control f ph s) {t : Fin c.get}
    (hpc : (s.encoders t).pc = .imgNext) :
    Images f ph ({ s with
      img_index := update s.img_index (s.blit_ctxes (s.encoders t).work_index).is_top
        (nextWrapped (s.img_index (s.blit_ctxes (s.encoders t).work_index).is_top)) }.goto t
        .clearSkip) := by
  obtain ⟨rfl, hframe, hleads⟩ := (Encoder.ok_leading (by rw [hpc]; rfl)).mp (hc.encoder t)
  have hw : (s.encoders t).work_index = f % WORK_COUNT := by rw [hc.slot, hframe]
  have himage := h.leader t
  rw [hpc] at himage
  obtain ⟨hfilled, hsrc⟩ := himage
  rw [hw]
  generalize hx : (s.blit_ctxes (f % WORK_COUNT)).is_top = x at hsrc
  refine h.lead_turn hc (t := t) (p := .clearSkip) (by rw [hpc]; rfl) rfl rfl rfl (fun _ _ => rfl)
    (fun hnone => hnone) (fun _ _ => rfl) hfilled (fun m hm is_top => ?_) fun is_top => ?_
  · have hm : m + 1 = f + 1 := hm
    obtain rfl : m = f := Nat.succ_inj.mp hm
    show s.captured m ≠ some ⟨is_top, update s.img_index x (nextWrapped (s.img_index x)) is_top⟩
    rw [hfilled.1, hsrc]
    intro heq
    obtain ⟨htop, hindex⟩ := ImgBuf.mk.inj (Option.some.inj heq)
    rw [← htop, Function.update_self] at hindex
    exact nextWrapped_ne (h.img_index x) hindex.symm
  · show update s.img_index x (nextWrapped (s.img_index x)) is_top < WORK_COUNT
    by_cases htop : is_top = x
    · rw [htop, Function.update_self]
      exact nextWrapped_lt _
    · rw [Function.update_of_ne htop]
      exact h.img_index is_top

theorem Images.release (h : Images f ph s) (hc : Control f ph s) {t : Fin c.get} {e : Encoder}
    (hpc : (s.encoders t).pc = .clearFlag) (hencoders : s'.encoders = update s.encoders t e)
    (hsame : ∀ m, SameImage m s s') (hframe' : e.frame = (s.encoders t).frame)
    (hto : e.pc = .releaseWork 0 ∧ e.encoded = (s.encoders t).encoded ∨ e.pc = .encode ∧
      e.encoded = (s.encoders t).encoded ++ [((s.encoders t).work_index,
        (s.blit_ctxes (s.encoders t).work_index).frame)]) : Images f .encode s' := by
  obtain ⟨rfl, hframe, hled⟩ := (Encoder.ok_leading (by rw [hpc]; rfl)).mp (hc.encoder t)
  have hw : (s.encoders t).work_index = f % WORK_COUNT := by rw [hc.slot, hframe]
  have hfilled := h.leader t
  rw [hpc] at hfilled
  obtain ⟨hcaptured, hblit, hasked⟩ := hfilled
  have hothers : ∀ u, u ≠ t → (s.encoders u).pc.ahead = false := fun u hu => hc.others hled hu
  have hsame' : ∀ u, (s'.encoders u).frame = (s.encoders u).frame := by
    rw [hencoders]
    exact (Function.forall_update_iff s.encoders fun u x => x.frame = (s.encoders u).frame).mpr
      ⟨hframe', fun _ _ => rfl⟩
  have hex : ∀ m, (∃ u, (s'.encoders u).frame ≤ m) ↔ ∃ u, (s.encoders u).frame ≤ m := fun m =>
    exists_congr fun u => by rw [hsame']
  have hahead : e.pc.ahead = false := by
    rcases hto with ⟨hto, -⟩ | ⟨hto, -⟩ <;> rw [hto] <;> rfl
  refine ⟨?_, ?_, ?_, ?_, fun hcaptures => by simp [Phase.captures] at hcaptures,
    fun hlead => by simp at hlead, ?_, ?_, ?_, ?_⟩
  · intro m hm hle
    rw [(hsame m).captured, (hsame m).blit_ctxes]
    rcases Nat.lt_succ_iff_lt_or_eq.mp hm with hm | rfl
    · exact h.live m hm ((hex m).mp hle)
    · exact ⟨hcaptured, hblit⟩
  · intro m hm hle
    rw [(hsame f).blit_ctxes]
    exact h.asked m hm ((hex m).mp hle)
  · rw [(hsame f).blit_ctxes]
    exact hasked
  · intro m hm
    rw [(hsame m).captured] at hm
    rw [hex]
    exact h.captured m hm
  · rw [hencoders]
    exact (Function.forall_update_iff s.encoders fun _ x => s'.ImageOk f .encode x.pc).mpr
      ⟨imageOk_of_not_ahead hahead, fun u hu => imageOk_of_not_ahead (hothers u hu)⟩
  · have htotal : total (fun x : Encoder => x.pc.advanced) s.encoders = 1 := by
      rw [hc.total_advanced hled, hpc]
      rfl
    have htotal' : total (fun x : Encoder => x.pc.advanced) s'.encoders = 0 := by
      rw [hencoders, total_eq_single t fun u hu => ?_, Function.update_self]
      · exact EncoderPc.advanced_of_not_ahead hahead
      · rw [Function.update_of_ne hu]
        exact EncoderPc.advanced_of_not_ahead (hothers u hu)
    intro m hm is_top
    rw [htotal'] at hm
    rw [(hsame m).captured, (hsame m).imgInfo]
    refine h.advanced m ?_ is_top
    rw [htotal]
    exact hm
  · rw [(hsame f).img_index]
    exact h.img_index
  · rw [hencoders]
    refine (Function.forall_update_iff s.encoders fun _ x => x.encoded =
      (List.range (x.frame + x.pc.begun)).map fun i => (i % WORK_COUNT, i)).mpr
        ⟨?_, fun u _ => h.encoded u⟩
    have hencoded := h.encoded t
    rw [hpc] at hencoded
    rw [hframe']
    rcases hto with ⟨hto, henc⟩ | ⟨hto, henc⟩
    · rw [hto, henc]
      exact hencoded
    · rw [hto, henc, hencoded, hw, hblit, hframe]
      show _ = (List.range (f + 1)).map _
      rw [List.range_succ, List.map_append]
      rfl

/-! ### The other encoder threads -/

theorem Images.begin (h : Images f ph s) (hc : Control f ph s) {t : Fin c.get}
    (hlt : (s.encoders t).frame < f + ph.up) (hadvanced : (s.encoders t).pc.advanced = 0)
    (hbegun : (s.encoders t).pc.begun = 0) (work : Fin c.get → ℕ) :
    Images f ph ({ s with work_ready := work }.begin t) := by
  obtain ⟨-, hblit⟩ := h.live _ hlt ⟨t, le_rfl⟩
  refine h.turn (t := t) (fun _ => ⟨rfl, rfl, rfl, rfl⟩) rfl rfl ?_ rfl rfl h.asked h.asked_front
    h.screen h.unled trivial (fun u _ => h.leader u) hadvanced.symm
  have hencoded := h.encoded t
  rw [hbegun] at hencoded
  show (s.encoders t).encoded ++ [((s.encoders t).work_index,
    (s.blit_ctxes (s.encoders t).work_index).frame)] =
      (List.range ((s.encoders t).frame + 1)).map fun i => (i % WORK_COUNT, i)
  rw [hencoded, hc.slot, hblit, List.range_succ, List.map_append]
  rfl

theorem Images.finish (h : Images f ph s) (hc : Control f ph s) {t : Fin c.get} {e : Encoder}
    (hencoders : s'.encoders = update s.encoders t e) (hpc : e.pc = .waitThread)
    (hframe : e.frame = (s.encoders t).frame + 1) (hencoded : e.encoded = (s.encoders t).encoded)
    (hlt : (s.encoders t).frame < f + ph.up) (hadvanced : (s.encoders t).pc.advanced = 0)
    (hbegun : (s.encoders t).pc.begun = 1) (hblit : s'.blit_ctxes = s.blit_ctxes)
    (himg : s'.img_index = s.img_index) (hparams : s'.work_ready_params = s.work_ready_params)
    (hscreen : s'.screen = s.screen) (hleads : s'.leads = s.leads)
    (hkept : ∀ m, (∃ u, (s'.encoders u).frame ≤ m) → s'.captured m = s.captured m)
    (hnone : ∀ m, (¬ ∃ u, (s'.encoders u).frame ≤ m) → s'.captured m = none) : Images f ph s' := by
  have hself : s'.encoders t = e := by
    rw [hencoders]
    exact Function.update_self _ _ _
  have hother : ∀ u, u ≠ t → s'.encoders u = s.encoders u := by
    intro u hu
    rw [hencoders]
    exact Function.update_of_ne hu _ _
  have hmono : ∀ m, (∃ u, (s'.encoders u).frame ≤ m) → ∃ u, (s.encoders u).frame ≤ m := by
    rintro m ⟨u, hu⟩
    refine ⟨u, le_trans ?_ hu⟩
    by_cases hut : u = t
    · rw [hut, hself, hframe]
      exact Nat.le_succ _
    · rw [hother u hut]
  have hof : ∀ m, s'.captured m ≠ none →
      (∃ u, (s'.encoders u).frame ≤ m) ∧ s'.captured m = s.captured m := by
    intro m hm
    have hex : ∃ u, (s'.encoders u).frame ≤ m := not_not.mp (mt (hnone m) hm)
    exact ⟨hex, hkept m hex⟩
  -- the thread's frame is before one that is not released
  have hfront : ph.up = 0 → SameImage f s s' := by
    intro hup
    refine ⟨hkept f ⟨t, ?_⟩, hblit, himg, hparams⟩
    rw [hself, hframe]
    omega
  have himgInfo : s'.imgInfo = s.imgInfo := by
    funext is_top
    unfold Dispatch.imgInfo
    rw [himg]
  refine ⟨?_, ?_, ?_, ?_, ?_, ?_, ?_, ?_, ?_, ?_⟩
  · intro m hm hex
    rw [hkept m hex, hblit]
    exact h.live m hm (hmono m hex)
  · intro m hm hex
    rw [hblit]
    exact h.asked m hm (hmono m hex)
  · rw [hblit]
    exact h.asked_front
  · intro m hm
    obtain ⟨hex, hsame⟩ := hof m hm
    rw [hsame] at hm
    exact ⟨(h.captured m hm).1, hex⟩
  · intro hcaptures
    obtain ⟨hup, -⟩ := Phase.up_of_captures hcaptures
    rw [hscreen]
    exact ((hfront hup).screenImage _).mpr (h.screen hcaptures)
  · rintro rfl hnil
    rw [hleads] at hnil
    exact (hfront rfl).held.mpr (h.unled rfl hnil)
  · intro u
    by_cases hu : u = t
    · rw [hu, hself, hpc]
      trivial
    · rw [hother u hu]
      by_cases hlead : ph = .lead
      · subst hlead
        exact ((hfront rfl).imageOk _).mpr (h.leader u)
      · exact hc.imageOk_of_ne_lead hlead u
  · have htotal := total_update (fun x : Encoder => x.pc.advanced) s.encoders t e
    have hzero : e.pc.advanced = 0 := by rw [hpc]; rfl
    rw [hzero, hadvanced, ← hencoders] at htotal
    intro m hm is_top heq
    rw [himgInfo] at heq
    rw [(hof m (by rw [heq]; simp)).2] at heq
    exact h.advanced m (hm.trans (by rw [Nat.add_right_cancel htotal])) is_top heq
  · rw [himg]
    exact h.img_index
  · intro u
    by_cases hu : u = t
    · have henc := h.encoded t
      rw [hbegun] at henc
      rw [hu, hself, hencoded, henc, hframe, hpc]
      rfl
    · rw [hother u hu]
      exact h.encoded u

/-- Only one thread asks for the next frame, while the front frame is encoded. -/
theorem Images.first_asks (h : Images f ph s) (hc : Control f ph s) {t : Fin c.get}
    (hpc : (s.encoders t).pc = .encode)
    (hasked : (s.blit_ctxes (s.encoders t).work_index).should_capture = false) :
    ph = .encode ∧ (s.encoders t).frame = f := by
  have hok := hc.encoder t
  unfold Encoder.Ok at hok
  rw [hpc] at hok
  have hlt : (s.encoders t).frame < f + ph.up := hok
  rw [hc.slot t] at hasked
  have hframe : (s.encoders t).frame = f := by
    have hle : f ≤ (s.encoders t).frame := by
      refine not_lt.mp fun hlt => ?_
      have htrue := h.asked _ hlt ⟨t, le_rfl⟩
      rw [hasked] at htrue
      cases htrue
    have hup := ph.up_le_offered.trans (ph.offered_le_acquired.trans ph.acquired_le_one)
    omega
  refine ⟨?_, hframe⟩
  have hfront := h.asked_front
  rw [hframe] at hasked hlt
  cases ph with
  | encode => rfl
  | take u =>
    rw [hasked] at hfront
    cases hfront
  | fresh | first | lead => exact (Nat.lt_irrefl f hlt).elim
  | retry u => exact (Nat.lt_irrefl f hlt).elim
  | pass u => exact (Nat.lt_irrefl f hlt).elim

theorem Images.ask (h : Images f .encode s) (hc : Control f .encode s) {t : Fin c.get}
    (hpc : (s.encoders t).pc = .encode) (hframe : (s.encoders t).frame = f) :
    Images f (.take t) ({ s with
      blit_ctxes := update s.blit_ctxes (s.encoders t).work_index
        { s.blit_ctxes (s.encoders t).work_index with should_capture := true } }.goto t
        .capNext) := by
  have hw : (s.encoders t).work_index = f % WORK_COUNT := by rw [hc.slot, hframe]
  rw [hw]
  have hsrc : ∀ w, (update s.blit_ctxes (f % WORK_COUNT)
      { s.blit_ctxes (f % WORK_COUNT) with should_capture := true } w).src = (s.blit_ctxes w).src ∧
        (update s.blit_ctxes (f % WORK_COUNT)
          { s.blit_ctxes (f % WORK_COUNT) with should_capture := true } w).frame =
            (s.blit_ctxes w).frame := by
    refine (Function.forall_update_iff s.blit_ctxes fun w x =>
      x.src = (s.blit_ctxes w).src ∧ x.frame = (s.blit_ctxes w).frame).mpr
        ⟨⟨rfl, rfl⟩, fun _ _ => ⟨rfl, rfl⟩⟩
  have hnone : ∀ u, (s.encoders u).pc.ahead = false := fun u => hc.not_ahead (by simp)
  have htaken : Images f (.take t) { s with
      blit_ctxes := update s.blit_ctxes (f % WORK_COUNT)
        { s.blit_ctxes (f % WORK_COUNT) with should_capture := true } } := by
    refine { h with
      live := fun m hm hex => ?_, asked := fun m hm hex => ?_, asked_front := ?_,
      screen := fun hcaptures => by simp [Phase.captures] at hcaptures,
      unled := fun hlead => by simp at hlead, leader := fun u => imageOk_of_not_ahead (hnone u) }
    · show s.captured m = some (update s.blit_ctxes _ _ (m % WORK_COUNT)).src ∧
        (update s.blit_ctxes _ _ (m % WORK_COUNT)).frame = m
      rw [(hsrc _).1, (hsrc _).2]
      exact h.live m hm hex
    · show (update s.blit_ctxes _ _ (m % WORK_COUNT)).should_capture = true
      by_cases hmf : m % WORK_COUNT = f % WORK_COUNT
      · rw [hmf, Function.update_self]
      · rw [Function.update_of_ne hmf]
        exact h.asked m hm hex
    · show (update s.blit_ctxes _ _ (f % WORK_COUNT)).should_capture = true
      rw [Function.update_self]
  exact htaken.goto (t := t) (fun _ => ⟨rfl, rfl, rfl, rfl⟩) rfl rfl (fun hnil => hnil) trivial
    (by rw [hpc]; rfl) (by rw [hpc]; rfl)

/-- **A step of an encoder thread.** -/
theorem Images.encoderStep (h : Images f ph s) (hc : Control f ph s)
    (hslots : Slots (f + ph.acquired) s)
    {t : Fin c.get} {choice : Bool} (hs : s.encoderStep t choice = some s') :
    Images (s.encoderFront f t) (s.encoderPhase ph t choice) s' := by
  have hok := hc.encoder t
  unfold Encoder.Ok at hok
  have himage := h.leader t
  unfold Dispatch.encoderStep at hs
  unfold encoderFront encoderPhase
  cases hpc : (s.encoders t).pc with
  | waitThread =>
    simp only [hpc] at hs ⊢
    split_ifs at hs
    cases hs
    exact h.goto (t := t) (p := .swapReady) (fun _ => ⟨rfl, rfl, rfl, rfl⟩) rfl rfl
      (fun hnil => hnil)
      trivial (by rw [hpc]; rfl) (by rw [hpc]; rfl)
  | swapReady =>
    simp only [hpc] at hs ⊢
    split_ifs at hs with hled
    · cases hs
      exact h.goto (t := t) (p := .waitWork) (fun _ => ⟨rfl, rfl, rfl, rfl⟩) rfl rfl
        (fun hnil => hnil) trivial (by rw [hpc]; rfl) (by rw [hpc]; rfl)
    · cases hs
      have hnil := not_not.mp (mt (hslots.led_iff hc hpc).mpr hled)
      obtain ⟨rfl, hframe⟩ := hc.first hpc hnil
      rw [hframe] at hnil ⊢
      exact h.goto (t := t) (p := .initBctx) (fun _ => ⟨rfl, rfl, rfl, rfl⟩) rfl rfl (fun _ => hnil)
        (h.unled rfl hnil) (by rw [hpc]; rfl) (by rw [hpc]; rfl)
  | initBctx =>
    simp only [hpc] at hs ⊢
    cases hs
    exact h.fill hc hpc
  | sync =>
    simp only [hpc] at hs ⊢
    rw [hpc] at himage
    cases hs
    exact h.goto (t := t) (fun _ => ⟨rfl, rfl, rfl, rfl⟩) rfl rfl (fun hnil => hnil) himage
      (by rw [hpc]; rfl) (by rw [hpc]; rfl)
  | skipFrame =>
    simp only [hpc] at hs ⊢
    rw [hpc] at himage
    cases hs
    cases choice with
    | true =>
      exact h.goto (t := t) (p := .skipSet) (fun _ => ⟨rfl, rfl, rfl, rfl⟩) rfl rfl
        (fun hnil => hnil) himage (by rw [hpc]; rfl) (by rw [hpc]; rfl)
    | false =>
      exact h.goto (t := t) (p := .imgNext) (fun _ => ⟨rfl, rfl, rfl, rfl⟩) rfl rfl
        (fun hnil => hnil) himage (by rw [hpc]; rfl) (by rw [hpc]; rfl)
  | skipSet =>
    simp only [hpc] at hs ⊢
    cases hs
    exact h.drop hc hpc _
  | skipIndex =>
    simp only [hpc] at hs ⊢
    rw [hpc] at himage
    cases hs
    exact h.goto (t := t) (fun _ => ⟨rfl, rfl, rfl, rfl⟩) rfl rfl (fun hnil => hnil) himage
      (by rw [hpc]; rfl) (by rw [hpc]; rfl)
  | skipRelease =>
    simp only [hpc] at hs ⊢
    rw [hpc] at himage
    cases hs
    obtain ⟨rfl, hframe, hled⟩ := (Encoder.ok_leading (by rw [hpc]; rfl)).mp (hc.encoder t)
    have hquiet := hc.quiet rfl rfl
    refine h.turn (t := t) (e := { s.encoders t with pc := .skipWait })
      (fun _ => ⟨rfl, rfl, rfl, rfl⟩) rfl rfl ?_ rfl rfl h.asked trivial
      (fun _ => ?_) (fun hlead => by simp at hlead) (fun hlead => by simp at hlead)
      (fun u hu => imageOk_of_not_ahead (hc.others hled hu)) (by rw [hpc]; rfl)
    · have hencoded := h.encoded t
      rw [hpc] at hencoded
      exact hencoded
    · show s.ScreenImage f s.screen
      cases hscreen : s.screen <;> rw [hscreen] at hquiet <;> first | exact himage | cases hquiet
  | skipWait =>
    simp only [hpc] at hs ⊢
    rw [hpc] at himage
    split_ifs at hs with hpos
    cases hs
    obtain ⟨rfl, -, -⟩ := hc.again_lead hpc hpos
    exact h.goto (t := t) (p := .initBctx) (fun _ => ⟨rfl, rfl, rfl, rfl⟩) rfl rfl
      (fun hnil => hnil) (himage rfl) (by rw [hpc]; rfl) (by rw [hpc]; rfl)
  | imgNext =>
    simp only [hpc] at hs ⊢
    cases hs
    exact h.next hc hpc
  | clearSkip =>
    simp only [hpc] at hs ⊢
    rw [hpc] at himage
    cases hs
    exact h.goto (t := t) (fun _ => ⟨rfl, rfl, rfl, rfl⟩) rfl rfl (fun hnil => hnil) himage
      (by rw [hpc]; rfl) (by rw [hpc]; rfl)
  | clearFlag =>
    simp only [hpc] at hs ⊢
    cases hs
    split
    · exact h.release hc hpc rfl (fun _ => ⟨rfl, rfl, rfl, rfl⟩) rfl (.inl ⟨rfl, rfl⟩)
    · exact h.release hc hpc rfl (fun _ => ⟨rfl, rfl, rfl, rfl⟩) rfl (.inr ⟨rfl, rfl⟩)
  | releaseWork j =>
    simp only [hpc] at hs ⊢
    rw [hpc] at hok
    split_ifs at hs
    · cases hs
      exact h.goto (t := t) (p := .releaseWork (j + 1)) (fun _ => ⟨rfl, rfl, rfl, rfl⟩) rfl rfl
        (fun hnil => hnil) trivial (by rw [hpc]; rfl) (by rw [hpc]; rfl)
    · cases hs
      exact h.goto (t := t) (p := .releaseWork (j + 1)) (fun _ => ⟨rfl, rfl, rfl, rfl⟩) rfl rfl
        (fun hnil => hnil) trivial (by rw [hpc]; rfl) (by rw [hpc]; rfl)
    · cases hs
      exact h.begin hc hok.2.2 (by rw [hpc]; rfl) (by rw [hpc]; rfl) s.work_ready
  | waitWork =>
    simp only [hpc] at hs ⊢
    split_ifs at hs with hpos
    cases hs
    have hwork := hc.work_ready t
    refine h.begin hc ?_ (by rw [hpc]; rfl) (by rw [hpc]; rfl) _
    omega
  | encode =>
    simp only [hpc] at hs ⊢
    rw [hpc] at hok
    have hlt : (s.encoders t).frame < f + ph.up := hok
    cases choice with
    | true =>
      rw [if_pos rfl] at hs
      cases hs
      by_cases hasked : (s.blit_ctxes (s.encoders t).work_index).should_capture = true
      · rw [if_pos hasked, if_neg fun hand => Bool.false_ne_true (hand.2.symm.trans hasked)]
        have hblit : update s.blit_ctxes (s.encoders t).work_index
            { s.blit_ctxes (s.encoders t).work_index with should_capture := true } =
            s.blit_ctxes := by
          rw [← hasked]
          exact Function.update_eq_self _ _
        exact h.goto (t := t) (p := .encode) (fun _ => ⟨rfl, hblit, rfl, rfl⟩) rfl rfl
          (fun hnil => hnil) trivial (by rw [hpc]) (by rw [hpc])
      · obtain ⟨rfl, hframe⟩ := h.first_asks hc hpc (Bool.eq_false_iff.mpr hasked)
        rw [if_neg hasked, if_pos ⟨rfl, Bool.eq_false_iff.mpr hasked⟩]
        exact h.ask hc hpc hframe
    | false =>
      rw [if_neg Bool.false_ne_true] at hs
      cases hs
      rw [if_neg fun hand => Bool.false_ne_true hand.1]
      obtain ⟨hlow, hhigh⟩ := hc.slot_bounds hlt
      rw [hc.slot]
      split
      · exact h.goto (t := t) (p := .clearCount) (fun _ => ⟨rfl, rfl, rfl, rfl⟩) rfl rfl
          (fun hnil => hnil) trivial (by rw [hpc]; rfl) (by rw [hpc]; rfl)
      · next hnot =>
        have hbehind := mt ((hslots.slot _ hlow hhigh).last_iff hpc).mpr hnot
        push Not at hbehind
        obtain ⟨u, hu, hreach⟩ := hbehind
        have hle : (s.encoders u).frame ≤ (s.encoders t).frame :=
          not_lt.mp fun hlt => hreach (.of_lt hlt (by omega))
        refine h.finish hc (t := t) rfl rfl rfl rfl hlt (by rw [hpc]; rfl) (by rw [hpc]; rfl)
          rfl rfl rfl
          rfl rfl (fun _ _ => rfl) fun m hm => ?_
        by_contra hne
        obtain ⟨-, v, hv⟩ := h.captured m hne
        refine hm ⟨u, ?_⟩
        show (update s.encoders t _ u).frame ≤ m
        rw [Function.update_of_ne hu]
        by_cases hvt : v = t
        · rw [hvt] at hv
          exact hle.trans hv
        · refine (hm ⟨v, ?_⟩).elim
          show (update s.encoders t _ v).frame ≤ m
          rw [Function.update_of_ne hvt]
          exact hv
  | capNext =>
    simp only [hpc] at hs ⊢
    rw [hpc] at hok
    cases hs
    obtain ⟨rfl, hframe⟩ := hok
    refine h.turn (t := t) (e := { s.encoders t with pc := .capRelease })
      (fun _ => ⟨rfl, rfl, rfl, rfl⟩) rfl rfl ?_ rfl rfl (fun m hm hex => ?_) trivial
      (fun hcaptures => by simp [Phase.captures] at hcaptures) (fun hlead => by simp at hlead)
        trivial
      (fun u hu => imageOk_of_not_ahead (hc.not_ahead (by simp [Ne.symm hu]))) (by rw [hpc]; rfl)
    · have hencoded := h.encoded t
      rw [hpc] at hencoded
      exact hencoded
    · rcases Nat.lt_succ_iff_lt_or_eq.mp hm with hm | rfl
      · exact h.asked m hm hex
      · exact h.asked_front
  | capRelease =>
    simp only [hpc] at hs ⊢
    rw [hpc] at hok
    cases hs
    obtain ⟨rfl, hframe⟩ := hok
    refine h.turn (t := t) (e := { s.encoders t with pc := .encode })
      (fun _ => ⟨rfl, rfl, rfl, rfl⟩) rfl rfl ?_ rfl rfl h.asked trivial
      (fun hcaptures => by simp [Phase.captures] at hcaptures) (fun hlead => by simp at hlead)
        trivial
      (fun u hu => imageOk_of_not_ahead (hc.not_ahead (by simp [Ne.symm hu]))) (by rw [hpc]; rfl)
    have hencoded := h.encoded t
    rw [hpc] at hencoded
    exact hencoded
  | clearCount =>
    simp only [hpc] at hs ⊢
    cases hs
    exact h.goto (t := t) (p := .clearReady) (fun _ => ⟨rfl, rfl, rfl, rfl⟩) rfl rfl
      (fun hnil => hnil) trivial (by rw [hpc]; rfl) (by rw [hpc]; rfl)
  | clearReady =>
    simp only [hpc] at hs ⊢
    cases hs
    exact h.goto (t := t) (p := .releaseDone) (fun _ => ⟨rfl, rfl, rfl, rfl⟩) rfl rfl
      (fun hnil => hnil) trivial (by rw [hpc]; rfl) (by rw [hpc]; rfl)
  | releaseDone =>
    simp only [hpc] at hs ⊢
    rw [hpc] at hok
    cases hs
    have hlt : (s.encoders t).frame < f + ph.up := hok
    have hothers : ∀ u, u ≠ t → (s.encoders t).frame < (s.encoders u).frame := fun u hu =>
      hslots.closing t u hu.symm (by rw [hpc]; exact Nat.succ_pos 2)
    obtain ⟨-, hblit⟩ := h.live _ hlt ⟨t, le_rfl⟩
    rw [hc.slot, hblit]
    refine h.finish hc (t := t) rfl rfl rfl rfl hlt (by rw [hpc]; rfl) (by rw [hpc]; rfl)
      rfl rfl rfl rfl
      rfl (fun m hm => ?_) fun m hm => ?_
    · obtain ⟨u, hu⟩ := hm
      have hu : (update s.encoders t _ u).frame ≤ m := hu
      refine Function.update_of_ne ?_ _ _
      by_cases hut : u = t
      · rw [hut, Function.update_self] at hu
        have hu : (s.encoders t).frame + 1 ≤ m := hu
        omega
      · rw [Function.update_of_ne hut] at hu
        have := hothers u hut
        omega
    · show update s.captured (s.encoders t).frame none m = none
      by_cases hmk : m = (s.encoders t).frame
      · rw [hmk, Function.update_self]
      · rw [Function.update_of_ne hmk]
        by_contra hne
        obtain ⟨-, u, hu⟩ := h.captured m hne
        refine hm ⟨u, ?_⟩
        show (update s.encoders t _ u).frame ≤ m
        by_cases hut : u = t
        · rw [hut, Function.update_self]
          rw [hut] at hu
          show (s.encoders t).frame + 1 ≤ m
          omega
        · rw [Function.update_of_ne hut]
          exact hu

end RemotePlay.Work.Dispatch
