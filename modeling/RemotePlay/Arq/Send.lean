import RemotePlay.Arq.Kcp
import RemotePlay.Lib.Threads

/-! # Sending

`ikcp_queue_send_cur` takes the next segments from the queues, puts them into a group with recovery
data and the group into `snd_cur`.  `ikcp_send_next` sends the first segment of `snd_cur`; while
`rp_udp_output` waits the lock is released, and answers come in.  So a state of the sender also has
where `ikcp_send_next` is (`SendPc`).

The output of a packet, the encoder of the recovery data and the freeing of buffers succeed. -/

namespace RemotePlay.Arq

open Function (update)

/-- `enum ARQ_QUEUE`. -/
inductive ArqQueue
  | rsnd2 | rsnd1 | rsnd0 | snd
  deriving DecidableEq, Repr

/-- `FEC_TYPES`. -/
def fecTypeFromQueue : ArqQueue → FecType
  | .rsnd2 => .t2_3
  | .rsnd1 => .t1_1
  | .rsnd0 => .t1_1
  | .snd => .t1_1

/-- The type of a group whose recovery packets get no block. -/
def FEC_FALLBACK_TYPE : FecType := .t1_1

namespace Kcp

variable (kcp : Kcp)

/-! ### Putting a group together -/

/-- What `arq_seg_iter_init` and `arq_seg_iter_next` come to next, unlinked from its queue. -/
def popSeg : Option (ArqQueue × Seg × Kcp) :=
  match kcp.rsnd_lsts 2, kcp.rsnd_lsts 1, kcp.rsnd_lsts 0, kcp.snd_lst with
  | seg :: l, _, _, _ => some (.rsnd2, seg, { kcp with rsnd_lsts := update kcp.rsnd_lsts 2 l })
  | [], seg :: l, _, _ => some (.rsnd1, seg, { kcp with rsnd_lsts := update kcp.rsnd_lsts 1 l })
  | [], [], seg :: l, _ => some (.rsnd0, seg, { kcp with rsnd_lsts := update kcp.rsnd_lsts 0 l })
  | [], [], [], seg :: l => some (.snd, seg, { kcp with snd_lst := l })
  | [], [], [], [] => none

/-- The other originals of a group. -/
def popSegs : ℕ → Kcp → Option (List Seg × Kcp)
  | 0, kcp => some ([], kcp)
  | n + 1, kcp => do
    let (_, seg, kcp) ← kcp.popSeg
    let (segs, kcp) ← popSegs n kcp
    some (seg :: segs, kcp)

/-- The number of a new group is taken. -/
def newGroup : Kcp :=
  { kcp with fid := kcp.fid + 1 &&& (1 <<< FID_NBITS - 1), next_grp := kcp.next_grp + 1 }

/-- What is inserted: how many of the group's segments came before and how far these were moved in
all determine the slot asked for. -/
def member (fty : FecType) (fid grp count wsn : ℕ) (seg : Seg) : Seg :=
  { seg with
    fid := fid, fty := fty, gid := count, grp := grp
    wsn := (count * kcp.fec_send_intervals fty + wsn) % 2 ^ 16 }

/-- `ikcp_insert_standalone_send_cur`. -/
def insertCur (seg : Seg) : Kcp × ℕ :=
  let (ret, snd_cur) := insertStandalone seg kcp.snd_cur
  ({ kcp with snd_cur := snd_cur }, ret)

/-- The originals of a group, with the number of those inserted and how far they were moved. -/
def queueOriginals (fty : FecType) (fid grp : ℕ) : ℕ → ℕ → Kcp → List Seg → ℕ × ℕ × Kcp
  | count, wsn, kcp, [] => (count, wsn, kcp)
  | count, wsn, kcp, seg :: segs =>
    let (kcp, ret) := kcp.insertCur (kcp.member fty fid grp count wsn seg)
    queueOriginals fty fid grp (count + 1) (wsn + ret) kcp segs

/-- A segment is allocated. -/
def segAlloc : Kcp := { kcp with seg_used := kcp.seg_used + 1, next_id := kcp.next_id + 1 }

/-- `ikcp_seg_data_buf_malloc`, for the segment last allocated. -/
def curBufAlloc : Kcp := { kcp with cur_bufs := kcp.cur_bufs ++ [kcp.next_id - 1] }

/-- A segment as it is allocated, with a block for recovery data. -/
def poolSeg : Seg where
  data_buf := kcp.next_id
  pid := 0
  fid := 0
  wsn := 0
  wrn := 0
  fty := .t1_1
  gid := 0
  recovery_data := false
  weak_data := false
  is_kcp_seg_data := true
  is_term_seg_data := false
  is_audio_seg_data := false
  term_notify := false
  gid_end := false
  send_time := 0
  id := kcp.next_id
  grp := 0
  sent := false

/-- The recovery data of a group, of which `n` packets are left to insert. -/
def queueRecovery (fty : FecType) (fid grp : ℕ) : ℕ → ℕ → ℕ → Kcp → Kcp × ℤ
  | 0, _, _, kcp => (kcp, 0)
  | n + 1, count, wsn, kcp =>
    if kcp.seg_used = ARQ_SEG_MEM_COUNT then (kcp, -17)
    else if kcp.cur_bufs.length = SEND_CUR_BUFS_COUNT then (kcp.segAlloc, -16)
    else
      let seg := { kcp.poolSeg with pid := 2 ^ 16 - 1, recovery_data := true, gid_end := n = 0 }
      let kcp := kcp.segAlloc.curBufAlloc
      let (kcp, ret) := kcp.insertCur (kcp.member fty fid grp count wsn seg)
      queueRecovery fty fid grp n (count + 1) (wsn + ret) kcp

/-- The copies of a group's only original, of which `n` are left to insert; the last one owns the
buffer. -/
def queueCopies (fty : FecType) (fid grp : ℕ) (orig : Seg) : ℕ → ℕ → ℕ → Kcp → Kcp × ℤ
  | 0, _, _, kcp => (kcp, 0)
  | n + 1, count, wsn, kcp =>
    if kcp.seg_used = ARQ_SEG_MEM_COUNT then (kcp, -7)
    else
      let copy := { orig with id := kcp.next_id }
      let seg :=
        if n = 0 then { copy with gid_end := true, recovery_data := false, weak_data := false }
        else copy
      let kcp := kcp.segAlloc
      let (kcp, ret) := kcp.insertCur (kcp.member fty fid grp count wsn seg)
      queueCopies fty fid grp orig n (count + 1) (wsn + ret) kcp

/-- A group with one original. -/
def queueSingle (fty : FecType) (seg : Seg) : Kcp × ℤ :=
  let n := fty.counts.recovery_count
  let fid := kcp.fid
  let grp := kcp.next_grp
  let kcp := kcp.newGroup
  let orig :=
    if n = 0 then { seg with gid_end := true }
    else { seg with recovery_data := true, weak_data := true }
  let orig := kcp.member fty fid grp 0 0 orig
  let (kcp, ret) := kcp.insertCur orig
  queueCopies fty fid grp orig n 1 ret kcp

/-- A group with several originals. -/
def queueGroup (fty : FecType) (segs : List Seg) : Kcp × ℤ :=
  let fid := kcp.fid
  let grp := kcp.next_grp
  let (count, wsn, kcp) := queueOriginals fty fid grp 0 0 kcp.newGroup segs
  queueRecovery fty fid grp fty.counts.recovery_count count wsn kcp

/-- `ikcp_queue_send_cur`. -/
def queueSendCur : Kcp × ℤ :=
  match kcp.popSeg with
  | none => (kcp, 1)
  | some (queue, seg, kcp) =>
    let fty := fecTypeFromQueue queue
    if fty.counts.original_count = 1 then kcp.queueSingle fty seg
    else
      match kcp.popSegs (fty.counts.original_count - 1) with
      | some (segs, kcp) => kcp.queueGroup fty (seg :: segs)
      | none => kcp.queueSingle FEC_FALLBACK_TYPE seg

/-- `ikcp_send_cur_get_delay`. -/
def sendCurGetDelay : ℤ :=
  match kcp.snd_cur with
  | [] => -1
  | seg :: _ => seg.wsn

/-- `ikcp_send_ready_and_get_delay`. -/
def sendReadyAndGetDelay : Kcp × ℤ :=
  if kcp.n_snd = 0 then (kcp, -3)
  else if kcp.session_established = false then (kcp, 0)
  else
    let (kcp, ret) := if kcp.sendCurGetDelay ≠ 0 then kcp.queueSendCur else (kcp, 0)
    if ret < 0 then (kcp, ret * 0x10 - 2)
    else ({ kcp with session_new_data_received := false }, kcp.sendCurGetDelay)

/-! ### Sending a packet -/

/-- A packet of `snd_cur` has been output: its segment is unlinked and appended to `snd_wak`. -/
def sendCur (seg : Seg) (tick : ℕ) : Kcp :=
  let seg := (kcp.snd_cur.find? fun s => s.id = seg.id).getD seg
  let kcp := { kcp with snd_cur := kcp.snd_cur.filter fun s => s.id ≠ seg.id }
  let owned : Bool := seg.recovery_data && !seg.weak_data && seg.is_kcp_seg_data
  let kcp := if owned = true then kcp.curBufFree seg else kcp
  let seg := { seg with
    send_time := tick % 2 ^ 32, weak_data := seg.weak_data || owned, term_notify := false,
    sent := true }
  { kcp with snd_wak := kcp.snd_wak ++ [seg] }

end Kcp

/-- Where `ikcp_send_next` is: not called, or in `rp_udp_output` with the first packet of a session
or with a packet of `snd_cur`. -/
inductive SendPc
  | idle
  | init (seg : Seg)
  | cur (seg : Seg)
  deriving DecidableEq, Repr

/-- **The sender**, with the packets it has transmitted. -/
structure Sender where
  kcp : Kcp
  pc : SendPc
  transmitted : List Seg

/-- What happens: a buffer is queued, a group is put together, a packet is handed to
`rp_udp_output`, which returns, and an answer comes in. -/
inductive Event
  | queue (buffer len : ℕ)
  | ready
  | send
  | output (tick : ℕ)
  | input (data : List UInt8) (tick : ℕ) (f : Factors)

namespace Sender

variable (s : Sender)

/-- An attempt of the loop in `ikcp_send_next`. -/
def attempt : Sender :=
  match s.kcp.snd_cur with
  | [] => { s with pc := .idle }
  | seg :: _ => { s with kcp := { s.kcp with rp_output_retry := false }, pc := .cur seg }

/-- `ikcp_send_next`, until the packet is handed to `rp_udp_output`. -/
def sendNext : Sender :=
  if s.kcp.session_established = true then s.attempt
  else if s.kcp.seg_used = ARQ_SEG_MEM_COUNT then s
  else if s.kcp.cur_bufs.length = SEND_CUR_BUFS_COUNT then s
  else
    let seg := { s.kcp.poolSeg with gid := 1 <<< GID_NBITS - 1, fid := s.kcp.cid }
    { s with
      kcp := { s.kcp.segAlloc.curBufAlloc with rp_output_retry := false }
      pc := .init seg }

/-- `rp_udp_output` returns, and `ikcp_send_next` goes on. -/
def output (tick : ℕ) : Sender :=
  match s.pc with
  | .idle => s
  | .init seg =>
    if s.kcp.rp_output_retry = true then { s with kcp := { s.kcp with rp_output_retry := false } }
    else { kcp := s.kcp.segFree seg, pc := .idle, transmitted := s.transmitted ++ [seg] }
  | .cur seg =>
    if s.kcp.rp_output_retry = true then s.attempt
    else { kcp := s.kcp.sendCur seg tick, pc := .idle, transmitted := s.transmitted ++ [seg] }

/-- An event, if it is possible. -/
def step : Event → Option Sender
  | .queue buffer len =>
    if s.pc = .idle then some { s with kcp := (s.kcp.queue buffer len).1 } else none
  | .ready => if s.pc = .idle then some { s with kcp := s.kcp.sendReadyAndGetDelay.1 } else none
  | .send => if s.pc = .idle then some s.sendNext else none
  | .output tick => if s.pc = .idle then none else some (s.output tick)
  | .input data tick f => (s.kcp.input data tick f).map fun r => { s with kcp := r.1 }

/-- A session is created, with its windows. -/
def Start (s : Sender) : Prop :=
  ∃ cid qos sndwnd curwnd,
    s = { kcp := ((Kcp.create cid qos).wndsize sndwnd curwnd).1, pc := .idle, transmitted := [] }

/-- A step of a run. -/
def Step (s s' : Sender) : Prop := ∃ e, s.step e = some s'

end Sender

end RemotePlay.Arq
