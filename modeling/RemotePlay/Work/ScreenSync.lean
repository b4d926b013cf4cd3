import RemotePlay.Config
import RemotePlay.Lib.Threads

/-! # Synchronising the threads of delta frames

In delta mode the threads of a frame start together: the first to arrive makes the preparations
(`compute_dq`) while the others wait on the `work_sem` of the frame's work slot.  Two frames of one
screen may overlap when they are divided alike; otherwise the later one waits on the `screen_sem`
until the earlier one has been released by every thread.  `screen_bool` says whether the semaphore
is to be left alone: it is toggled by the first thread that acquires a frame and by the last that
releases it.

Every access to a shared variable is a step of its own. -/

namespace RemotePlay.Work

/-- Two threads or more. -/
structure Cores where
  val : ℕ
  two_le : 2 ≤ val
  le : val ≤ RP_CORE_COUNT_MAX

/-- A frame: whether it is of the top screen, its `restart_interval`, which counts rows and is
never zero, and which threads have no rows of it. -/
structure Job where
  is_top : Bool
  restart_interval : ℕ
  empty : ℕ → Bool
  pos : 0 < restart_interval

/-- Where a thread is within a frame.  `differs` remembers that the frame's `restart_interval` was
not the one recorded for its screen. -/
inductive Pc
  /-- Before `work_inited` is swapped, or `work_sem` waited for. -/
  | start
  /-- `work_inited` was false. -/
  | inited
  /-- About to swap `screen_bool`. -/
  | swapBool
  /-- Waiting for `screen_sem`. -/
  | waitScreen (differs : Bool)
  /-- About to clear `screen_bool`. -/
  | storeBool (differs : Bool)
  /-- About to record `restart_interval`. -/
  | storeLast (differs : Bool)
  /-- About to call the closure. -/
  | init (differs : Bool)
  /-- In the closure. -/
  | running (differs : Bool)
  /-- About to release `work_sem` for the others. -/
  | releaseWork
  /-- Waiting for `work_sem`. -/
  | waitWork
  /-- Encoding, up to the countdown in `screen_work_release`. -/
  | working
  /-- Last to count down: about to reset the count. -/
  | storeCount
  /-- About to clear `work_inited`. -/
  | storeInited
  /-- About to swap `screen_bool` again. -/
  | swapRelease
  /-- `screen_bool` was true: about to clear it. -/
  | clearBool
  /-- `screen_bool` was false: about to release `screen_sem`. -/
  | releaseScreen
  deriving DecidableEq, Repr

/-- The shared variables, by work slot and by screen, and each thread's frame and place in it;
`started` and `finished` count the calls of each frame's closure. -/
structure SyncState (c : Cores) where
  threads : Fin c.val → ℕ × Pc
  work_inited : Fin 2 → Bool
  work_sem_count : Fin 2 → ℕ
  work_sem : Fin 2 → ℕ
  screen_bool : Bool → Bool
  screen_sem : Bool → ℕ
  last_restart_interval : Bool → ℕ
  started : ℕ → ℕ
  finished : ℕ → ℕ

/-- `CommonSharedMut::init`, and the semaphores as created. -/
def SyncState.start (c : Cores) : SyncState c where
  threads _ := (0, .start)
  work_inited _ := false
  work_sem_count _ := c.val
  work_sem _ := 0
  screen_bool _ := false
  screen_sem _ := 1
  last_restart_interval _ := 0
  started _ := 0
  finished _ := 0

/-- The work slot of a frame. -/
def slot (k : ℕ) : Fin 2 := ⟨k % 2, Nat.mod_lt _ (by decide)⟩

namespace SyncState

variable {c : Cores} (jobs : ℕ → Job) (st : SyncState c) (i : Fin c.val)

/-- Thread `i` goes on to `pc` of its frame. -/
def goto (pc : Pc) : SyncState c :=
  { st with threads := Function.update st.threads i ((st.threads i).1, pc) }

/-- Thread `i` has released its frame. -/
def next : SyncState c :=
  { st with threads := Function.update st.threads i ((st.threads i).1 + 1, .start) }

/-- One step of thread `i`, unless it waits.  A frame is begun only when its slot is free: every
thread has released the frame before the last. -/
def step : Option (SyncState c) :=
  let k := (st.threads i).1
  let job := jobs k
  let w := slot k
  let s := job.is_top
  match (st.threads i).2 with
  -- `screen_work_acquire`, or `empty_work_acquire`
  | .start =>
    if ∀ t, k ≤ (st.threads t).1 + 1 then
      if job.empty i then some (st.goto i .waitWork)
      else if st.work_inited w then some (st.goto i .waitWork)
      else some { st.goto i .inited with work_inited := Function.update st.work_inited w true }
    else none
  | .inited =>
    if job.restart_interval ≠ st.last_restart_interval s then some (st.goto i (.waitScreen true))
    else some (st.goto i .swapBool)
  | .swapBool =>
    some { st.goto i (if st.screen_bool s then .waitScreen false else .init false) with
      screen_bool := Function.update st.screen_bool s true }
  | .waitScreen differs =>
    if 0 < st.screen_sem s then
      some { st.goto i (.storeBool differs) with
        screen_sem := Function.update st.screen_sem s (st.screen_sem s - 1) }
    else none
  | .storeBool differs =>
    some { st.goto i (.storeLast differs) with
      screen_bool := Function.update st.screen_bool s false }
  | .storeLast differs =>
    some { st.goto i (.init differs) with
      last_restart_interval :=
        Function.update st.last_restart_interval s job.restart_interval }
  | .init differs =>
    some { st.goto i (.running differs) with
      started := Function.update st.started k (st.started k + 1) }
  | .running _ =>
    some { st.goto i .releaseWork with
      finished := Function.update st.finished k (st.finished k + 1) }
  | .releaseWork =>
    some { st.goto i .working with
      work_sem := Function.update st.work_sem w (st.work_sem w + (c.val - 1)) }
  | .waitWork =>
    if 0 < st.work_sem w then
      some { st.goto i .working with
        work_sem := Function.update st.work_sem w (st.work_sem w - 1) }
    else none
  -- `screen_work_release`; the count is an `u8`
  | .working =>
    some { (if st.work_sem_count w = 1 then st.goto i .storeCount else st.next i) with
      work_sem_count :=
        Function.update st.work_sem_count w ((st.work_sem_count w + 255) % 256) }
  | .storeCount =>
    some { st.goto i .storeInited with
      work_sem_count := Function.update st.work_sem_count w c.val }
  | .storeInited =>
    some { st.goto i .swapRelease with
      work_inited := Function.update st.work_inited w false }
  | .swapRelease =>
    some { st.goto i (if st.screen_bool s then .clearBool else .releaseScreen) with
      screen_bool := Function.update st.screen_bool s true }
  | .clearBool =>
    some { st.next i with screen_bool := Function.update st.screen_bool s false }
  | .releaseScreen =>
    some { st.next i with
      screen_sem := Function.update st.screen_sem s (st.screen_sem s + 1) }

/-- A step of one of the threads. -/
def Step (st st' : SyncState c) : Prop := ∃ i, st.step jobs i = some st'

end SyncState

/-! ### One frame -/

/-- A frame seen from a thread: not begun, at a place within it, or released. -/
inductive View
  | before
  | during (pc : Pc)
  | after
  deriving DecidableEq

/-- How a thread is seen from frame `k`. -/
def view (k : ℕ) (th : ℕ × Pc) : View :=
  if th.1 < k ∨ th.1 = k ∧ th.2 = .start then .before
  else if th.1 = k then .during th.2
  else .after

/-- A thread that has not got past `work_sem`. -/
def View.Waiting (x : View) : Prop := x = .before ∨ x = .during .waitWork

/-- A thread of a frame whose preparations are made. -/
def View.Passing (x : View) : Prop := x.Waiting ∨ x = .during .working ∨ x = .after

/-- Not past `work_sem` yet, and not the first to arrive. -/
def View.unpassed : View → ℕ
  | .before => 1
  | .during .waitWork => 1
  | _ => 0

/-- Not counted down yet. -/
def View.uncounted : View → ℕ
  | .before => 1
  | .during .waitWork => 1
  | .during .working => 1
  | _ => 0

/-- The places of the thread that arrives first. -/
def Pc.Initing : Pc → Prop
  | .inited | .swapBool | .waitScreen _ | .storeBool _ | .storeLast _ | .init _ | .running _
  | .releaseWork => True
  | _ => False

/-- The places of the thread that releases last. -/
def Pc.Closing : Pc → Prop
  | .storeCount | .storeInited | .swapRelease | .clearBool | .releaseScreen => True
  | _ => False

/-- What has become of a frame. -/
inductive Phase (n : ℕ)
  | fresh
  | initing (i : Fin n) (pc : Pc)
  | opened
  | closing (i : Fin n) (pc : Pc)
  | done

/-- The variables of a work slot. -/
structure SlotVars where
  inited : Bool
  sem : ℕ
  count : ℕ

/-- The variables while the last thread releases a frame. -/
def closingVars (n : ℕ) : Pc → SlotVars
  | .storeCount => ⟨true, 0, 0⟩
  | .storeInited => ⟨true, 0, n⟩
  | _ => ⟨false, 0, n⟩

/-- One for a thread that has gone on with the frame. -/
def Pc.startedBy : Pc → ℕ
  | .running _ | .releaseWork => 1
  | _ => 0

/-- One for a thread that is done with the frame. -/
def Pc.finishedBy : Pc → ℕ
  | .releaseWork => 1
  | _ => 0

open Lib.Threads in
/-- What holds of a frame, of the threads' views of it, the variables of its slot, and the calls of
its closure. -/
def FrameInv {n : ℕ} (V : Fin n → View) (v : SlotVars) (started finished : ℕ) : Phase n → Prop
  | .fresh => (∀ t, (V t).Waiting) ∧ v = ⟨false, 0, n⟩ ∧ started = 0 ∧ finished = 0
  | .initing i pc => V i = .during pc ∧ pc.Initing ∧
      (∀ t, t ≠ i → (V t).Waiting) ∧ v = ⟨true, 0, n⟩ ∧
      started = pc.startedBy ∧ finished = pc.finishedBy
  | .opened => (∀ t, (V t).Passing) ∧
      v = ⟨true, total View.unpassed V, total View.uncounted V⟩ ∧ 0 < total View.uncounted V ∧
      total View.unpassed V < n ∧ started = 1 ∧ finished = 1
  | .closing i pc => V i = .during pc ∧ pc.Closing ∧ (∀ t, t ≠ i → V t = .after) ∧
      v = closingVars n pc ∧ started = 1 ∧ finished = 1
  | .done => (∀ t, V t = .after) ∧ started = 1 ∧ finished = 1

end RemotePlay.Work
