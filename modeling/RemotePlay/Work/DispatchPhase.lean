import RemotePlay.Work.Dispatch

/-! # Phases of the dispatch

At any time one frame is in front: its slot is acquired, it is captured and offered to all threads,
one of them leads it, skipping it or releasing it, and one asks for the next frame.  The phases of
the front frame are those of `Phase`; how many permits a thread has of its semaphores follows from
the front frame, its phase and where the thread is (`Control`). -/

namespace RemotePlay.Work.Dispatch

open Lib.Threads
open Function (update)

/-! ### Phases -/

/-- The phases of the front frame. -/
inductive Phase (n : ℕ)
  /-- Its slot is not acquired. -/
  | fresh
  /-- It is being captured. -/
  | first
  /-- It has been skipped by its leader, and is being captured again. -/
  | retry (t : Fin n)
  /-- It is offered to the threads, or again to its leader. -/
  | lead
  /-- It is released to all threads. -/
  | encode
  /-- A thread is about to go on to the next frame. -/
  | take (t : Fin n)
  /-- It has just come to the front, and a thread is about to ask for its capture. -/
  | pass (t : Fin n)

namespace Phase

variable {n : ℕ}

/-- Whether the front frame's slot is acquired. -/
def acquired : Phase n → ℕ
  | fresh | pass _ => 0
  | first | retry _ | lead | encode | take _ => 1

/-- Whether `thread_ready` is released for the front frame. -/
def offered : Phase n → ℕ
  | fresh | first | pass _ => 0
  | retry _ | lead | encode | take _ => 1

/-- Whether the front frame is released to all threads. -/
def up : Phase n → ℕ
  | fresh | first | retry _ | lead | pass _ => 0
  | encode | take _ => 1

/-- Whether the screen thread has been asked for a capture. -/
def waits : Phase n → Bool
  | fresh | retry _ => true
  | first | lead | encode | take _ | pass _ => false

/-- Whether the front frame may be being captured. -/
def captures : Phase n → Bool
  | first | retry _ => true
  | fresh | lead | encode | take _ | pass _ => false

theorem up_le_offered (ph : Phase n) : ph.up ≤ ph.offered := by
  cases ph <;> simp [up, offered]

theorem offered_le_acquired (ph : Phase n) : ph.offered ≤ ph.acquired := by
  cases ph <;> simp [offered, acquired]

theorem acquired_le_one (ph : Phase n) : ph.acquired ≤ 1 := by
  cases ph <;> simp [acquired]

end Phase

/-! ### Where the threads are -/

namespace ScreenPc

/-- Whether `thread_ready` of thread `t` is yet to be released to all. -/
def tail (t : ℕ) : ScreenPc → ℕ
  | releaseAll j => if j ≤ t then 1 else 0
  | waitReady | readIndex | checkFlag _ | waitDone _ | setFlag _ | doScreen | readImg _ _
  | capture _ _ _ | setParams _ _ | readSkip _ | releaseOne => 0

/-- Whether the screen thread is done with its last capture. -/
def quiet : ScreenPc → Bool
  | waitReady | releaseAll _ => true
  | readIndex | checkFlag _ | waitDone _ | setFlag _ | doScreen | readImg _ _ | capture _ _ _
  | setParams _ _ | readSkip _ | releaseOne => false

/-- Where the screen thread can be. -/
def Ok {n : ℕ} (f : ℕ) (ph : Phase n) : ScreenPc → Prop
  | waitReady => ph ≠ .first
  | readIndex => ph.waits = true
  | checkFlag w => w = f % WORK_COUNT ∧ ph.waits = true
  | waitDone w => w = f % WORK_COUNT ∧ ph = .fresh
  | setFlag w => w = f % WORK_COUNT ∧ ph = .first
  | doScreen => ph.captures = true
  | readImg _ w | capture _ w _ | setParams _ w | readSkip w =>
    w = f % WORK_COUNT ∧ ph.captures = true
  | releaseOne => ∃ t, ph = .retry t
  | releaseAll j => j < n ∧ ph ≠ .first

end ScreenPc

namespace EncoderPc

/-- Whether the frame's `thread_ready` is acquired. -/
def arrived : EncoderPc → ℕ
  | waitThread => 0
  | swapReady | initBctx | sync | skipFrame | skipSet | skipIndex | skipRelease | skipWait | imgNext
  | clearSkip | clearFlag | releaseWork _ | waitWork | encode | capNext | capRelease | clearCount
  | clearReady | releaseDone => 1

/-- Whether the frame's `work_ready` is acquired, or passed over by the leader. -/
def beyond (t : ℕ) : EncoderPc → ℕ
  | releaseWork j => if t < j then 1 else 0
  | encode | capNext | capRelease | clearCount | clearReady | releaseDone => 1
  | waitThread | swapReady | initBctx | sync | skipFrame | skipSet | skipIndex |
      skipRelease | skipWait
  | imgNext | clearSkip | clearFlag | waitWork => 0

/-- Whether the leader has yet to release `work_ready` of thread `t`. -/
def pending (t : ℕ) : EncoderPc → ℕ
  | releaseWork j => if j ≤ t then 1 else 0
  | waitThread | swapReady | initBctx | sync | skipFrame | skipSet | skipIndex |
      skipRelease | skipWait
  | imgNext | clearSkip | clearFlag | waitWork | encode | capNext | capRelease | clearCount |
      clearReady
  | releaseDone => 0

/-- Whether a leader that skipped has been offered the frame again. -/
def again {n : ℕ} : Phase n → EncoderPc → ℕ
  | .lead, skipWait => 1
  | _, _ => 0

/-- Whether the thread may have led its frame. -/
def past : EncoderPc → ℕ
  | waitThread | swapReady | waitWork => 0
  | initBctx | sync | skipFrame | skipSet | skipIndex | skipRelease | skipWait | imgNext | clearSkip
  | clearFlag | releaseWork _ | encode | capNext | capRelease | clearCount | clearReady
  | releaseDone => 1

/-- Whether the thread leads the front frame, or goes on from it. -/
def ahead : EncoderPc → Bool
  | initBctx | sync | skipFrame | skipSet | skipIndex | skipRelease | skipWait | imgNext | clearSkip
  | clearFlag | capNext | capRelease => true
  | waitThread | swapReady | releaseWork _ | waitWork | encode | clearCount | clearReady
  | releaseDone => false

/-- Whether the thread leads the front frame and has neither skipped nor released it. -/
def leading : EncoderPc → Bool
  | initBctx | sync | skipFrame | skipSet | skipIndex | skipRelease | imgNext | clearSkip
  | clearFlag => true
  | waitThread | swapReady | skipWait | releaseWork _ | waitWork | encode | capNext | capRelease
  | clearCount | clearReady | releaseDone => false

/-- Whether the phase names the thread. -/
def named : EncoderPc → Bool
  | skipWait | capNext | capRelease => true
  | waitThread | swapReady | initBctx | sync | skipFrame | skipSet | skipIndex |
      skipRelease | imgNext
  | clearSkip | clearFlag | releaseWork _ | waitWork | encode | clearCount | clearReady
  | releaseDone => false

end EncoderPc

/-- Where an encoder thread can be. -/
def Encoder.Ok {n : ℕ} (f : ℕ) (ph : Phase n) (leads : ℕ → List (Fin n)) (t : Fin n) (e : Encoder) :
    Prop :=
  match e.pc with
  | .waitThread | .swapReady => True
  | .waitWork => leads e.frame ≠ []
  | .initBctx | .sync | .skipFrame | .skipSet | .skipIndex | .skipRelease | .imgNext | .clearSkip
  | .clearFlag => ph = .lead ∧ e.frame = f ∧ leads f = [t]
  | .skipWait => (ph = .lead ∨ ph = .retry t) ∧ e.frame = f ∧ leads f = [t]
  | .releaseWork j => j ≤ n ∧ leads e.frame = [t] ∧ e.frame < f + ph.up
  | .encode | .clearCount | .clearReady | .releaseDone => e.frame < f + ph.up
  | .capNext => ph = .take t ∧ e.frame = f
  | .capRelease => ph = .pass t ∧ e.frame + 1 = f

/-- What a leader that skips or releases the front frame has done to `skip_frames` of its slot and
to `thread_index`. -/
def Encoder.Skips {n : ℕ} (skip : Bool) (thread_index t : Fin n) (e : Encoder) : Prop :=
  match e.pc with
  | .skipIndex => skip = true
  | .skipRelease => skip = true ∧ thread_index = t
  | .clearFlag => skip = false
  | _ => True

variable {c : CoreCount}

theorem encoders_goto_self (s : Dispatch c) (t : Fin c.get) (pc : EncoderPc) :
    (s.goto t pc).encoders t = { s.encoders t with pc := pc } := Function.update_self _ _ _

theorem encoders_goto_ne (s : Dispatch c) {t u : Fin c.get} (hu : u ≠ t) (pc : EncoderPc) :
    (s.goto t pc).encoders u = s.encoders u := Function.update_of_ne hu _ _

/-- The thread that a phase names is where it says. -/
def Phase.Ok (s : Dispatch c) : Phase c.get → Prop
  | retry t => (s.encoders t).pc = .skipWait ∧ s.thread_index = t
  | take t => (s.encoders t).pc = .capNext
  | pass t => (s.encoders t).pc = .capRelease
  | fresh | first | lead | encode => True

/-- Whether `work_done_flag` of the front frame's slot is set. -/
def Phase.flagged {n : ℕ} (screen : ScreenPc) : Phase n → Bool
  | first => match screen with
    | .setFlag _ => false
    | _ => true
  | retry _ | lead => true
  | fresh | encode | take _ | pass _ => false

/-- What `skip_frames` of the front frame's slot is. -/
def Phase.SkipOk {n : ℕ} (skip : Bool) : Phase n → Prop
  | retry _ => skip = true
  | lead => True
  | fresh | first | encode | take _ | pass _ => skip = false

/-- **The front frame and its phase** agree with where the threads are, and with the counts, the
flags and the indices that they share. -/
structure Control (f : ℕ) (ph : Phase c.get) (s : Dispatch c) : Prop where
  released : s.released = f + ph.up
  work_index : s.work_index = f % WORK_COUNT
  screen_ready : s.screen_ready = (ph.waits && s.screen.quiet).toNat
  screen : s.screen.Ok f ph
  phase : ph.Ok s
  encoder : ∀ t, (s.encoders t).Ok f ph s.leads t
  slot : ∀ t, (s.encoders t).work_index = (s.encoders t).frame % WORK_COUNT
  low : ∀ t, f + ph.acquired ≤ (s.encoders t).frame + WORK_COUNT
  thread_ready : ∀ t, s.thread_ready t + (s.encoders t).frame + (s.encoders t).pc.arrived +
    s.screen.tail t = f + ph.offered + (s.encoders t).pc.again ph
  work_ready : ∀ t : Fin c.get, s.work_ready t + (s.encoders t).frame + (s.encoders t).pc.beyond t +
    total (fun e : Encoder => e.pc.pending t) s.encoders = f + ph.up
  led : ∀ m, ∀ t ∈ s.leads m, m < (s.encoders t).frame + (s.encoders t).pc.past
  leads_up : ∀ m < f + ph.up, ∃ t, s.leads m = [t]
  leads_front : ph = .lead → s.leads f = [] ∨ ∃ t, s.leads f = [t]
  leads_later : ∀ m, f + ph.offered ≤ m → s.leads m = []
  done_flag : ∀ w, s.work_done_flag w = (decide (w = f % WORK_COUNT) && ph.flagged s.screen)
  skip_other : ∀ w, w ≠ f % WORK_COUNT → s.skip_frames w = false
  skip_front : ph.SkipOk (s.skip_frames (f % WORK_COUNT))
  skips : ∀ t, (s.encoders t).Skips (s.skip_frames (f % WORK_COUNT)) s.thread_index t

/-! ### Changes of the phase -/

section

variable {n : ℕ} {f f' : ℕ} {ph ph' : Phase n} {leads : ℕ → List (Fin n)} {t : Fin n} {e : Encoder}

theorem Encoder.Ok.of_ahead (h : e.Ok f ph leads t) (ha : e.pc.ahead = true) :
    (ph = .lead ∧ leads f = [t]) ∨ ph = .retry t ∨ ph = .take t ∨ ph = .pass t := by
  unfold Encoder.Ok at h
  cases hpc : e.pc with
  | initBctx | sync | skipFrame | skipSet | skipIndex | skipRelease | imgNext | clearSkip |
      clearFlag =>
    simp only [hpc] at h
    exact .inl ⟨h.1, h.2.2⟩
  | skipWait =>
    simp only [hpc] at h
    rcases h.1 with hlead | hretry
    · exact .inl ⟨hlead, h.2.2⟩
    · exact .inr (.inl hretry)
  | capNext =>
    simp only [hpc] at h
    exact .inr (.inr (.inl h.1))
  | capRelease =>
    simp only [hpc] at h
    exact .inr (.inr (.inr h.1))
  | waitThread | swapReady | releaseWork j | waitWork | encode | clearCount | clearReady
  | releaseDone =>
    rw [hpc] at ha
    cases ha

theorem Encoder.Ok.of_not_ahead (h : e.Ok f ph leads t) (ha : e.pc.ahead = false)
    {leads' : ℕ → List (Fin n)} (hle : f + ph.up ≤ f' + ph'.up)
    (hleads : ∀ m, leads m ≠ [] → leads' m = leads m) : e.Ok f' ph' leads' t := by
  unfold Encoder.Ok at h ⊢
  cases hpc : e.pc with
  | waitThread | swapReady => trivial
  | waitWork =>
    simp only [hpc] at h ⊢
    rw [hleads _ h]
    exact h
  | releaseWork j =>
    simp only [hpc] at h ⊢
    obtain ⟨hj, hled, hlt⟩ := h
    refine ⟨hj, (hleads _ ?_).trans hled, hlt.trans_le hle⟩
    rw [hled]
    exact List.cons_ne_nil _ _
  | encode | clearCount | clearReady | releaseDone =>
    simp only [hpc] at h ⊢
    exact h.trans_le hle
  | initBctx | sync | skipFrame | skipSet | skipIndex | skipRelease | skipWait | imgNext | clearSkip
  | clearFlag | capNext | capRelease =>
    rw [hpc] at ha
    cases ha

theorem EncoderPc.again_eq_zero {pc : EncoderPc} (ha : pc.ahead = false) : pc.again ph = 0 := by
  cases ph with
  | lead => cases pc <;> first | rfl | cases ha
  | _ => rfl

theorem EncoderPc.again_of_ne {pc : EncoderPc} (h : ph ≠ .lead) : pc.again ph = 0 := by
  cases ph with
  | lead => exact (h rfl).elim
  | _ => rfl

theorem Encoder.ok_leading (hl : e.pc.leading = true) :
    e.Ok f ph leads t ↔ ph = .lead ∧ e.frame = f ∧ leads f = [t] := by
  unfold Encoder.Ok
  cases hpc : e.pc with
  | initBctx | sync | skipFrame | skipSet | skipIndex | skipRelease | imgNext | clearSkip
  | clearFlag => exact Iff.rfl
  | waitThread | swapReady | skipWait | releaseWork j | waitWork | encode | capNext | capRelease
  | clearCount | clearReady | releaseDone =>
    rw [hpc] at hl
    cases hl

theorem EncoderPc.of_leading {pc : EncoderPc} (hl : pc.leading = true) :
    pc.arrived = 1 ∧ (∀ u, pc.beyond u = 0) ∧ (∀ u, pc.pending u = 0) ∧ pc.past = 1 ∧
      pc.ahead = true ∧ pc.named = false := by
  cases pc with
  | initBctx | sync | skipFrame | skipSet | skipIndex | skipRelease | imgNext | clearSkip
  | clearFlag => exact ⟨rfl, fun _ => rfl, fun _ => rfl, rfl, rfl, rfl⟩
  | waitThread | swapReady | skipWait | releaseWork j | waitWork | encode | capNext | capRelease
  | clearCount | clearReady | releaseDone => cases hl

theorem EncoderPc.again_of_leading {pc : EncoderPc} (hl : pc.leading = true) : pc.again ph = 0 := by
  cases ph with
  | lead => cases pc <;> first | rfl | cases hl
  | _ => rfl

theorem Encoder.skips_of_not_ahead {skip : Bool} {u : Fin n} (ha : e.pc.ahead = false) :
    e.Skips skip t u := by
  unfold Encoder.Skips
  cases hpc : e.pc with
  | skipIndex | skipRelease | clearFlag =>
    rw [hpc] at ha
    cases ha
  | _ => trivial

end

end RemotePlay.Work.Dispatch
