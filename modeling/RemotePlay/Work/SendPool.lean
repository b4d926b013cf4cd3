import RemotePlay.Config
import RemotePlay.Lib.Threads

/-! # The pool of send buffers

In the reliable stream the encoder threads fill buffers of `send_pool`, and the nwm thread queues
them for sending; a buffer is free again when it is acknowledged.  A thread acquires `SEG_MEM_SEM`
for each buffer of data, and gives it back with the buffer.  The ends of the slices of a frame are
put together by the last thread to be done in term buffers; for these it acquires `SEG_MEM_TERM_SEM`
once, which is released as soon as the last of them has been sent for the first time.

Acquiring a semaphore, allocating and freeing a buffer, and every access to what threads share are
steps of their own.  The threads are not reset: one that fails stays where it is.  When a thread
begins a frame, which segment is sent or acknowledged next, and how many term buffers a frame takes
are left open.  A state also remembers how many calls of `send_term_dsts` have acquired the
semaphore, so that a term buffer can say which it belongs to, and whether an allocation failed. -/

namespace RemotePlay.Work

open Lib.Threads
open Function (update)

/-! ### Counts -/

/-- The buffers with data at the largest rate. -/
def RP_ARQ_ENCODE_BUFS_COUNT : ℕ := RP_ARQ_ENCODE_COUNT_MAX
/-- The buffers beside them. -/
def RP_ARQ_EXTRA_BUFS_COUNT : ℕ := RP_ARQ_EXTRA_COUNT_MAX
/-- The buffers of the pool. -/
def SEND_BUFS_COUNT : ℕ := SEND_BUFS_DATA_COUNT

/-- The share of a count for a bandwidth, in `u32`. -/
def qosShare (count qos : ℕ) : ℕ := (count * qos % 2 ^ 32 + RP_QOS_MAX / 2) % 2 ^ 32 / RP_QOS_MAX

/-- The settings that the counts depend on. -/
structure PoolConfig where
  core_count : CoreCount
  qos : ℕ
  delta_prog : Bool

namespace PoolConfig

variable (c : PoolConfig)

/-- The count of `SEG_MEM_SEM`. -/
def segMem : ℕ := qosShare RP_ARQ_ENCODE_BUFS_COUNT c.qos

/-- The count of `SEG_MEM_TERM_SEM`. -/
def segMemTerm : ℕ := if c.delta_prog then WORK_COUNT else 1

/-- The count of `nwm_syn`. -/
def nwmSyn : ℕ := qosShare RP_ARQ_ENCODE_BUFS_COUNT c.qos + RP_ARQ_EXTRA_BUFS_COUNT

/-- `n_snd_max`, set by `ikcp_wndsize`. -/
def nSndMax : ℕ := min (qosShare ARQ_PREFERRED_COUNT_MAX c.qos) ARQ_PREFERRED_COUNT_MAX

end PoolConfig

/-! ### The state -/

/-- There is a first work slot. -/
instance neZero_workCount : NeZero WORK_COUNT := ⟨by decide⟩

/-- What is queued for sending: a buffer of data, a term buffer of a call of `send_term_dsts`, the
last of which is flagged, or audio, which has buffers of its own. -/
inductive Packet
  | data
  | term (call : ℕ) (notify : Bool)
  | audio
  deriving DecidableEq

namespace Packet

/-- A buffer of data. -/
def isData : Packet → Bool
  | data => true
  | term _ _ | audio => false

/-- A term buffer. -/
def isTerm : Packet → Bool
  | term _ _ => true
  | data | audio => false

/-- A term buffer of the given call. -/
def isOf (call : ℕ) : Packet → Bool
  | term call' _ => call' = call
  | data | audio => false

/-- The last term buffer of a call. -/
def notifies : Packet → Bool
  | term _ notify => notify
  | data | audio => false

end Packet

/-- A segment in the lists of `ikcpcb`. -/
structure PoolSeg where
  packet : Packet
  sent : Bool
  deriving DecidableEq

/-- Where an encoder thread is.  In `send_term_dsts` it has `n` term buffers, and has given back the
first `i` ends of slices. -/
inductive PoolPc
  | idle
  /-- In `rp_data_buf_malloc`, waiting for `SEG_MEM_SEM`. -/
  | waitMem
  /-- About to allocate a buffer of data. -/
  | malloc
  /-- Encoding into a buffer. -/
  | fill
  /-- About to count up `work_done_count`. -/
  | done
  /-- Waiting for `SEG_MEM_TERM_SEM`. -/
  | waitTerm
  /-- About to allocate a term buffer. -/
  | termMalloc (call n i : ℕ)
  /-- Copying to the term buffers. -/
  | copy (call n i : ℕ)
  /-- A buffer has been freed; about to release `SEG_MEM_SEM`. -/
  | releaseMem (call n i : ℕ)
  /-- About to queue the term buffers from `j` on. -/
  | push (call n j : ℕ)
  /-- About to clear `work_done_count`. -/
  | clearCount
  deriving DecidableEq

/-- An encoder thread: the work slot it is in, and where it is. -/
structure PoolThread where
  work_index : Fin WORK_COUNT
  pc : PoolPc

/-- **The pool and the threads that use it**; `used` buffers of the pool are allocated, `dst` is the
buffer that the nwm thread has taken from `nwm_syn`, and `freed` buffers of data were freed without
`SEG_MEM_SEM` having been released yet. -/
structure SendPool (c : PoolConfig) where
  mem_sem : ℕ
  term_sem : ℕ
  used : ℕ
  threads : Fin c.core_count.get → PoolThread
  term_dsts : Fin WORK_COUNT × Fin c.core_count.get → Bool
  work_done_count : Fin WORK_COUNT → ℕ
  nwm_syn : List Packet
  dst : Option Packet
  segs : List PoolSeg
  freed : ℕ
  calls : ℕ
  null : Bool

theorem exists_split {α : Type} {l : List α} {i : ℕ} {x : α} (h : l[i]? = some x) :
    ∃ xs ys, l = xs ++ x :: ys ∧ l.eraseIdx i = xs ++ ys ∧ ∀ y, l.set i y = xs ++ y :: ys := by
  obtain ⟨hi, rfl⟩ := List.getElem?_eq_some_iff.mp h
  refine ⟨l.take i, l.drop (i + 1), ?_, List.eraseIdx_eq_take_drop_succ l i, fun y => ?_⟩
  · rw [← List.drop_eq_getElem_cons hi, List.take_append_drop]
  · rw [List.set_eq_take_append_cons_drop, if_pos hi]

namespace SendPool

variable {c : PoolConfig}

/-- `init_seg_mem_handles` and `init_reliable_stream_cb`. -/
def start (c : PoolConfig) : SendPool c where
  mem_sem := c.segMem
  term_sem := c.segMemTerm
  used := 0
  threads _ := ⟨0, .idle⟩
  term_dsts _ := false
  work_done_count _ := 0
  nwm_syn := []
  dst := none
  segs := []
  freed := 0
  calls := 0
  null := false

variable (s : SendPool c)

/-! ### Encoder threads -/

/-- Thread `t` goes on to `pc`. -/
def goto (t : Fin c.core_count.get) (pc : PoolPc) : SendPool c :=
  { s with threads := update s.threads t { s.threads t with pc := pc } }

/-- A thread is done with its frame. -/
def finish (t : Fin c.core_count.get) : SendPool c :=
  { s with threads := update s.threads t ⟨(s.threads t).work_index + 1, .idle⟩ }

/-- `mp_malloc` on `send_pool`. -/
def mpMalloc (t : Fin c.core_count.get) (pc : PoolPc) : SendPool c :=
  if s.used < SEND_BUFS_COUNT then { s with used := s.used + 1 }.goto t pc
  else { s with null := true }

/-- A step of an encoder thread: `choice` says whether the slice has an end only, or whether another
term buffer is needed. -/
def threadStep (t : Fin c.core_count.get) (choice : Bool) : Option (SendPool c) :=
  let w := (s.threads t).work_index
  match (s.threads t).pc with
  | .idle => some (s.goto t .waitMem)
  | .waitMem =>
    if 0 < s.mem_sem then some ({ s with mem_sem := s.mem_sem - 1 }.goto t .malloc) else none
  | .malloc => some (s.mpMalloc t .fill)
  | .fill =>
    if choice = true then
      -- `set_term_dst`
      if s.term_dsts (w, t) = false then
        some ({ s with term_dsts := update s.term_dsts (w, t) true }.goto t .done)
      else none
    else some ({ s with nwm_syn := s.nwm_syn ++ [Packet.data] }.goto t .waitMem)
  | .done =>
    let f := s.work_done_count w
    let s := { s with work_done_count := update s.work_done_count w (f + 1) }
    if f = c.core_count.get - 1 then
      let first := s.term_dsts (w, ⟨0, c.core_count.get_pos⟩)
      some (s.goto t (if first = true then .waitTerm else .clearCount))
    else some (s.finish t)
  | .waitTerm =>
    if 0 < s.term_sem then
      some ({ s with term_sem := s.term_sem - 1, calls := s.calls + 1 }.goto t
        (.termMalloc s.calls 0 0))
    else none
  | .termMalloc call n i => some (s.mpMalloc t (.copy call (n + 1) i))
  | .copy call n i =>
    if choice = true then
      -- the length of `terms`
      if n < RP_CORE_COUNT_MAX + 1 then some (s.goto t (.termMalloc call n i)) else none
    else if h : i < c.core_count.get then
      if ∀ u : Fin c.core_count.get, i ≤ u → s.term_dsts (w, u) = true then
        some ({ s with
          used := s.used - 1
          term_dsts := update s.term_dsts (w, ⟨i, h⟩) false }.goto t (.releaseMem call n (i + 1)))
      else none
    else some (s.goto t (.push call n 0))
  | .releaseMem call n i => some ({ s with mem_sem := s.mem_sem + 1 }.goto t (.copy call n i))
  | .push call n j =>
    some ({ s with nwm_syn := s.nwm_syn ++ [Packet.term call (j + 1 = n)] }.goto t
      (if j + 1 < n then .push call n (j + 1) else .clearCount))
  | .clearCount =>
    some ({ s with work_done_count := update s.work_done_count w 0 }.finish t)

/-! ### Sending and acknowledging -/

/-- What the nwm thread and acknowledgements do. -/
inductive NwmStep
  /-- A buffer is taken from `nwm_syn`, if there is room to queue it. -/
  | take
  /-- An audio packet is taken. -/
  | audio
  /-- `ikcp_queue`. -/
  | queue
  /-- Segment `i` is sent for the first time. -/
  | send (i : ℕ)
  /-- Segment `i` is acknowledged. -/
  | ack (i : ℕ)
  /-- `SEG_MEM_SEM` is released for a buffer freed. -/
  | release

/-- A step of the nwm thread, or an acknowledgement. -/
def nwmStep : NwmStep → Option (SendPool c)
  | .take =>
    match s.dst, s.nwm_syn with
    | none, p :: ps =>
      if s.segs.length < c.nSndMax then some { s with dst := some p, nwm_syn := ps } else none
    | _, _ => none
  | .audio =>
    if s.dst = none ∧ s.segs.length < c.nSndMax then some { s with dst := some Packet.audio }
    else none
  | .queue => do
    let p ← s.dst
    if s.segs.length < c.nSndMax then
      some { s with dst := none, segs := s.segs ++ [⟨p, false⟩] }
    else none
  | .send i => do
    let seg ← s.segs[i]?
    if seg.sent = true then none
    else
      -- `rp_term_notify`
      let term_sem := if seg.packet.notifies = true then s.term_sem + 1 else s.term_sem
      some { s with segs := s.segs.set i { seg with sent := true }, term_sem := term_sem }
  | .ack i => do
    let seg ← s.segs[i]?
    let s := { s with segs := s.segs.eraseIdx i }
    match seg.packet with
    | .data => some { s with used := s.used - 1, freed := s.freed + 1 }
    | .term _ _ => some { s with used := s.used - 1 }
    | .audio => some s
  | .release =>
    if 0 < s.freed then some { s with freed := s.freed - 1, mem_sem := s.mem_sem + 1 } else none

/-- What a run is made of. -/
inductive PoolEvent (c : PoolConfig)
  | thread (t : Fin c.core_count.get) (choice : Bool)
  | nwm (e : NwmStep)

/-- An event. -/
def step : PoolEvent c → Option (SendPool c)
  | .thread t choice => s.threadStep t choice
  | .nwm e => s.nwmStep e

/-- The states reached from the start. -/
def Reached (s : SendPool c) : Prop :=
  Reachable (· = start c) (fun s s' => ∃ e, s.step e = some s') s

/-- Where the threads are. -/
def pcs : Fin c.core_count.get → PoolPc := fun t => (s.threads t).pc

theorem pcs_eq (s : SendPool c) : s.pcs = fun t => (s.threads t).pc := rfl

/-- What is taken or in `nwm_syn`, the first to be queued first. -/
def queue : List Packet := s.dst.toList ++ s.nwm_syn

@[simp] theorem pcs_goto (t : Fin c.core_count.get) (pc : PoolPc) :
    (s.goto t pc).pcs = update s.pcs t pc := by
  funext u
  by_cases hu : u = t
  · subst hu
    simp [pcs, goto]
  · simp [pcs, goto, hu]

@[simp] theorem pcs_finish (t : Fin c.core_count.get) :
    (s.finish t).pcs = update s.pcs t .idle := by
  funext u
  by_cases hu : u = t
  · subst hu
    simp [pcs, finish]
  · simp [pcs, finish, hu]

/-! ### What the steps of the nwm thread do -/

variable {s} {s' : SendPool c}

theorem nwmStep_take (hs : s.nwmStep .take = some s') :
    ∃ p ps, s.dst = none ∧ s.nwm_syn = p :: ps ∧ s' = { s with dst := some p, nwm_syn := ps } := by
  unfold nwmStep at hs
  cases hdst : s.dst with
  | some p =>
    rw [hdst] at hs
    cases hs
  | none =>
    cases hsyn : s.nwm_syn with
    | nil =>
      rw [hdst, hsyn] at hs
      cases hs
    | cons p ps =>
      simp only [hdst, hsyn, Option.ite_none_right_eq_some, Option.some.injEq] at hs
      obtain ⟨-, rfl⟩ := hs
      exact ⟨p, ps, rfl, rfl, rfl⟩

theorem nwmStep_audio (hs : s.nwmStep .audio = some s') :
    s.dst = none ∧ s' = { s with dst := some Packet.audio } := by
  unfold nwmStep at hs
  simp only [Option.ite_none_right_eq_some, Option.some.injEq] at hs
  exact ⟨hs.1.1, hs.2.symm⟩

theorem nwmStep_queue (hs : s.nwmStep .queue = some s') :
    ∃ p, s.dst = some p ∧ s.segs.length < c.nSndMax ∧
      s' = { s with dst := none, segs := s.segs ++ [⟨p, false⟩] } := by
  unfold nwmStep at hs
  simp only [Option.bind_eq_bind, Option.bind_eq_some_iff, Option.ite_none_right_eq_some,
    Option.some.injEq] at hs
  obtain ⟨p, hdst, hroom, hs⟩ := hs
  exact ⟨p, hdst, hroom, hs.symm⟩

theorem nwmStep_send {i : ℕ} (hs : s.nwmStep (.send i) = some s') :
    ∃ xs p ys, s.segs = xs ++ ⟨p, false⟩ :: ys ∧
      s' = { s with segs := xs ++ ⟨p, true⟩ :: ys, term_sem := s.term_sem + p.notifies.toNat } := by
  unfold nwmStep at hs
  simp only [Option.bind_eq_bind, Option.bind_eq_some_iff] at hs
  obtain ⟨⟨p, sent⟩, hseg, hs⟩ := hs
  obtain ⟨xs, ys, hsegs, -, hset⟩ := exists_split hseg
  simp only [Option.ite_none_left_eq_some, Option.some.injEq, Bool.not_eq_true] at hs
  obtain ⟨rfl, rfl⟩ := hs
  refine ⟨xs, p, ys, hsegs, ?_⟩
  rw [hset]
  cases p.notifies <;> rfl

theorem nwmStep_ack {i : ℕ} (hs : s.nwmStep (.ack i) = some s') :
    ∃ xs seg ys, s.segs = xs ++ seg :: ys ∧
      s' = { s with
        segs := xs ++ ys
        used := s.used - (seg.packet.isData.toNat + seg.packet.isTerm.toNat)
        freed := s.freed + seg.packet.isData.toNat } := by
  unfold nwmStep at hs
  simp only [Option.bind_eq_bind, Option.bind_eq_some_iff] at hs
  obtain ⟨⟨p, sent⟩, hseg, hs⟩ := hs
  obtain ⟨xs, ys, hsegs, herase, -⟩ := exists_split hseg
  rw [herase] at hs
  refine ⟨xs, ⟨p, sent⟩, ys, hsegs, ?_⟩
  cases p with
  | data =>
    cases hs
    rfl
  | term call notify =>
    cases hs
    rfl
  | audio =>
    cases hs
    rfl

theorem nwmStep_release (hs : s.nwmStep .release = some s') :
    0 < s.freed ∧ s' = { s with freed := s.freed - 1, mem_sem := s.mem_sem + 1 } := by
  unfold nwmStep at hs
  simp only [Option.ite_none_right_eq_some, Option.some.injEq] at hs
  exact ⟨hs.1, hs.2.symm⟩

end SendPool

end RemotePlay.Work
