import RemotePlay.Arq.Nack
import RemotePlay.Arq.Segment
import RemotePlay.Arq.Congc

/-! # The reliable stream's sender

A segment waits in `snd_lst`, or in one of the `rsnd_lsts` when it has been reported missing, until
`ikcp_queue_send_cur` puts it into a group and the group's segments into free slots of `snd_cur`; it
is sent from there and waits for an answer in `snd_wak`.  `ikcp_input` takes the groups an answer is
about out of `snd_wak`, and frees their segments or queues them again.

The lists are lists of segments, and the pool of segments is the number of those in use.  A block of
the pool for recovery data has the number of the segment it was taken for.  A state also remembers
how many segments and groups there have been (`next_id`, `next_grp`), the segments freed, the
segments whose buffers have been freed, and the rates set. -/

namespace RemotePlay.Arq

open Function (update)

/-- The bits of a session in a header. -/
def CID_NBITS : ℕ := 1
/-- The bits of a group in a header. -/
def FID_NBITS : ℕ := 12
/-- The bits of a place in a group in a header. -/
def GID_NBITS : ℕ := 2
/-- The queues for packets to be sent again. -/
def RSND_COUNT : ℕ := 3
/-- The originals that a window can have. -/
def ARQ_BUFS_COUNT : ℕ := ARQ_PREFERRED_COUNT_MAX
/-- The packets that `snd_cur` is filled up to. -/
def ARQ_CUR_BUFS_COUNT : ℕ := ARQ_CUR_COUNT_MAX
/-- The blocks for recovery data. -/
def SEND_CUR_BUFS_COUNT : ℕ := ARQ_CUR_COUNT_MAX_2
/-- The segments of the pool. -/
def ARQ_SEG_MEM_COUNT : ℕ := ARQ_PREFERRED_COUNT_MAX + ARQ_PREFERRED_COUNT_MAX_2

/-- What a sent segment that is reported missing is queued again as. -/
def Seg.resend (seg : Seg) : Seg :=
  { seg with gid_end := false, wrn := if seg.wrn < RSND_COUNT then seg.wrn + 1 else seg.wrn }

/-- `struct IKCPCB`, with the rates and the send intervals. -/
structure Kcp where
  cid : ℕ
  pid : ℕ
  fid : ℕ
  n_snd : ℕ
  n_snd_max : ℕ
  n_cur_max : ℕ
  snd_lst : List Seg
  rsnd_lsts : ℕ → List Seg
  snd_cur : List Seg
  snd_wak : List Seg
  congc : Congc
  session_established : Bool
  session_new_data_received : Bool
  rp_output_retry : Bool
  fec_send_intervals : FecType → ℕ
  rp_max_qos : ℕ
  rp_current_qos : ℕ
  rates : List ℕ
  seg_used : ℕ
  cur_bufs : List ℕ
  next_id : ℕ
  next_grp : ℕ
  freed : List Seg
  freed_bufs : List ℕ

namespace Kcp

/-! ### Creating -/

/-- `ikcp_create`. -/
def create (cid qos : ℕ) : Kcp where
  cid := cid &&& (1 <<< CID_NBITS - 1)
  pid := 0
  fid := 0
  n_snd := 0
  n_snd_max := ARQ_BUFS_COUNT
  n_cur_max := ARQ_CUR_BUFS_COUNT
  snd_lst := []
  rsnd_lsts _ := []
  snd_cur := []
  snd_wak := []
  congc := ⟨0, 0, 0, 0, 0, 0, 0, 0, 0, false⟩
  session_established := false
  session_new_data_received := false
  rp_output_retry := false
  fec_send_intervals _ := 0
  rp_max_qos := qos
  rp_current_qos := qos
  rates := []
  seg_used := 0
  cur_bufs := []
  next_id := 0
  next_grp := 0
  freed := []
  freed_bufs := []

/-- An element of `fec_send_intervals`. -/
def sendInterval (n_cur_max : ℕ) (fty : FecType) : ℕ :=
  (n_cur_max + max fty.total 3 / 2) / max fty.total 3

variable (kcp : Kcp)

/-- `ikcp_wndsize`. -/
def wndsize (sndwnd curwnd : ℤ) : Kcp × ℤ :=
  if sndwnd ≤ 0 then (kcp, -1)
  else
    let kcp := { kcp with n_snd_max := min sndwnd.toNat ARQ_BUFS_COUNT }
    if curwnd ≤ 0 then (kcp, -2)
    else
      let n_cur_max := min curwnd.toNat ARQ_CUR_BUFS_COUNT
      ({ kcp with n_cur_max := n_cur_max, fec_send_intervals := sendInterval n_cur_max }, 0)

/-! ### Segments -/

/-- `ikcp_seg_data_buf_free`. -/
def curBufFree (seg : Seg) : Kcp :=
  { kcp with cur_bufs := kcp.cur_bufs.erase seg.data_buf, freed_bufs := kcp.freed_bufs ++ [seg.id] }

/-- `ikcp_segment_free`.  The buffers that are not from the pool for recovery data are freed by
their owners. -/
def segFree (seg : Seg) : Kcp :=
  let kcp :=
    if seg.weak_data = true then kcp
    else if seg.is_kcp_seg_data = true then kcp.curBufFree seg
    else { kcp with freed_bufs := kcp.freed_bufs ++ [seg.id] }
  { kcp with seg_used := kcp.seg_used - 1, freed := kcp.freed ++ [seg] }

/-- A segment that counts for `n_snd` is freed. -/
def ackFree (seg : Seg) : Kcp := { kcp with n_snd := kcp.n_snd - 1 }.segFree seg

/-- A segment is added to the queue of `arq_queue_get_from_wrn`. -/
def requeue (seg : Seg) : Kcp :=
  if 0 < seg.wrn then
    let i := min seg.wrn RSND_COUNT - 1
    { kcp with rsnd_lsts := update kcp.rsnd_lsts i (kcp.rsnd_lsts i ++ [seg]) }
  else { kcp with snd_lst := kcp.snd_lst ++ [seg] }

/-- The segments that are not in a group, in the order in which they are taken. -/
def queued : List Seg :=
  kcp.rsnd_lsts 2 ++ (kcp.rsnd_lsts 1 ++ (kcp.rsnd_lsts 0 ++ kcp.snd_lst))

/-! ### Queueing -/

/-- `ikcp_queue`; `len` has the flags of a buffer in its upper bits. -/
def queue (buffer len : ℕ) : Kcp × ℤ :=
  let term := len.testBit 31
  let notify := len.testBit 30
  let audio := len.testBit 29
  if len &&& (1 <<< 29 - 1) ≠ ARQ_DATA_SIZE then (kcp, -2)
  else if kcp.n_snd_max ≤ kcp.n_snd then (kcp, -4)
  else if kcp.seg_used = ARQ_SEG_MEM_COUNT then (kcp, -3)
  else
    let seg : Seg :=
      { data_buf := buffer, pid := kcp.pid, fid := 0, wsn := 0
        wrn := if audio = true then RSND_COUNT - 1 else 0
        fty := .t1_1, gid := 0, recovery_data := false, weak_data := false, is_kcp_seg_data := false
        is_term_seg_data := term, is_audio_seg_data := audio, term_notify := notify,
        gid_end := false
        send_time := 0, id := kcp.next_id, grp := 0, sent := false }
    let kcp := { kcp with
      pid := kcp.pid + 1 &&& (1 <<< PID_NBITS - 1), n_snd := kcp.n_snd + 1
      seg_used := kcp.seg_used + 1, next_id := kcp.next_id + 1 }
    if audio = true then
      let i := min seg.wrn RSND_COUNT - 1
      ({ kcp with rsnd_lsts := update kcp.rsnd_lsts i (seg :: kcp.rsnd_lsts i) }, 0)
    else ({ kcp with snd_lst := kcp.snd_lst ++ [seg] }, 0)

/-! ### An answer about sent segments -/

section

variable (nacks : List Nack)

/-- A segment of a group in `snd_wak`: it is freed, or reported missing and queued again.  Beside
the state are `ack_count` and `nack_count`. -/
def wakSeg (r : Kcp × ℕ × ℕ) (seg : Seg) : Kcp × ℕ × ℕ :=
  let (kcp, ack_count, nack_count) := r
  if seg.recovery_data = true then (kcp.segFree seg, ack_count, nack_count)
  else if checkNack seg.pid nacks = false then (kcp.ackFree seg, ack_count + 1, nack_count)
  else (kcp.requeue seg.resend, ack_count, nack_count + 1)

/-- The segments of a group are looked for backwards in `snd_wak`: the group's others, given
`count`, the number of the last one taken, and the list before it, its nearest element first. -/
def wakBack (fid : ℕ) (fty : FecType) :
    ℕ → Kcp × ℕ × ℕ → List Seg → (Kcp × ℕ × ℕ) × List Seg × ℤ
  | _, r, [] => (r, [], -1)
  | count, r, seg :: pre =>
    if seg.fid = fid then
      if seg.gid ≠ count - 1 ∨ seg.fty ≠ fty then (r, seg :: pre, -2)
      else if seg.gid = 0 then (wakSeg nacks r seg, pre, 0)
      else wakBack fid fty (count - 1) (wakSeg nacks r seg) pre
    else
      let (r, pre, ret) := wakBack fid fty count r pre
      (r, seg :: pre, ret)

/-- A count of a group's packets, in fixed point and scaled to the size of the group. -/
def fixCount (fty : FecType) (n : ℕ) : ℕ :=
  (n <<< 16 * fty.total % 2 ^ 32) / fty.counts.original_count

/-- The counts of a group are added. -/
def addCounts (fty : FecType) (r : Kcp × ℕ × ℕ) : Kcp :=
  let (kcp, ack_count, nack_count) := r
  { kcp with
    congc := { kcp.congc with
      curr_ack_count := (kcp.congc.curr_ack_count + fixCount fty ack_count) % 2 ^ 32
      curr_nack_count := (kcp.congc.curr_nack_count + fixCount fty nack_count) % 2 ^ 32
      wrapped := kcp.congc.wrapped || 2 ^ 32 ≤ ack_count <<< 16 * fty.total ||
        2 ^ 32 ≤ nack_count <<< 16 * fty.total ||
        wraps kcp.congc.curr_ack_count (fixCount fty ack_count) ||
        wraps kcp.congc.curr_nack_count (fixCount fty nack_count) } }

/-- `curr_send_time` is set. -/
def setCurrSendTime (tick : ℕ) : Kcp :=
  { kcp with congc := { kcp.congc with curr_send_time := tick } }

/-- `ikcp_input_handle_send_wak_nack` for a segment and the list before it. -/
def handleSendWakNack (seg : Seg) (pre : List Seg) : Kcp × List Seg × ℤ :=
  let kcp := kcp.setCurrSendTime seg.send_time
  if seg.gid ≠ seg.fty.total - 1 then (kcp, seg :: pre, -2)
  else
    let r := wakSeg nacks (kcp, 0, 0) seg
    let (r, pre, ret) :=
      if seg.gid = 0 then (r, pre, 0) else wakBack nacks seg.fid seg.fty (seg.fty.total - 1) r pre
    if ret < 0 then (r.1, pre, ret) else (addCounts seg.fty r, pre, 0)

/-- `!((fid - seg->fid) & (1 << (FID_NBITS - 1)))`. -/
def notAfter (fid seg_fid : ℕ) : Bool := !(fid + 2 ^ 32 - seg_fid).testBit (FID_NBITS - 1)

/-- The loop over `snd_wak`, given the list before a segment and from it on. -/
def wakScan (fid gid : ℕ) : Kcp → List Seg → List Seg → Kcp × ℤ
  | kcp, pre, [] => ({ kcp with snd_wak := pre.reverse }, 0)
  | kcp, pre, seg :: rest =>
    let should_break : Bool := seg.fid = fid ∧ seg.gid = gid
    if notAfter fid seg.fid = true ∧ seg.gid_end = true then
      let (kcp, pre, ret) := kcp.handleSendWakNack nacks seg pre
      if ret < 0 then ({ kcp with snd_wak := pre.reverse ++ rest }, ret * 0x10 - 3)
      else if should_break = true then ({ kcp with snd_wak := pre.reverse ++ rest }, 0)
      else wakScan fid gid kcp pre rest
    else if should_break = true then ({ kcp with snd_wak := pre.reverse ++ seg :: rest }, 0)
    else wakScan fid gid kcp (seg :: pre) rest

/-! ### An answer about queued segments -/

/-- `ikcp_input_handle_nack`. -/
def handleNack (i : ℕ) : Kcp :=
  let gone := (kcp.rsnd_lsts i).filter fun seg => checkNack seg.pid nacks = false
  let kept := (kcp.rsnd_lsts i).filter fun seg => checkNack seg.pid nacks = true
  gone.foldl ackFree { kcp with rsnd_lsts := update kcp.rsnd_lsts i kept }

/-- The other segments of a group are looked for in `snd_cur`, after its first one.  The result is
how many segments the group has, and how many were passed; or what is returned without it. -/
def curCollect (fty : FecType) (fid : ℕ) : ℕ → List Seg → Except ℤ (ℕ × ℕ)
  | _, [] => .error 2
  | count, seg :: rest =>
    if seg.fid = fid then
      if seg.fty ≠ fty then .error (-2)
      else if seg.wrn = 0 ∨ seg.recovery_data = false ∧ checkNack seg.pid nacks = true then .error 1
      else if seg.gid ≠ count then .error (-1)
      else if seg.gid_end = true then .ok (count + 1, 1)
      else (curCollect fty fid (count + 1) rest).map fun r => (r.1, r.2 + 1)
    else (curCollect fty fid count rest).map fun r => (r.1, r.2 + 1)

/-- The group's segments among the first `n` are taken out; the next one waits for their slots. -/
def curRemove (fid : ℕ) : ℕ → ℕ → List Seg → List Seg
  | _, _, [] => []
  | 0, carry, seg :: rest => seg.setWsn ((seg.wsn + carry) % 2 ^ 16) :: rest
  | n + 1, carry, seg :: rest =>
    let wsn := (seg.wsn + carry) % 2 ^ 16
    if seg.fid = fid then curRemove fid n (wsn + 1) rest
    else seg.setWsn wsn :: curRemove fid n 0 rest

/-- A segment of a group in `snd_cur` is freed. -/
def curFree (seg : Seg) : Kcp :=
  if seg.recovery_data = true then kcp.segFree seg else kcp.ackFree seg

/-- `ikcp_input_handle_send_cur_nack` for a segment and the list after it. -/
def handleSendCurNack (seg : Seg) (rest : List Seg) : Kcp × List Seg × ℤ :=
  match curCollect nacks seg.fty seg.fid 1 rest with
  | .error ret => (kcp, seg :: rest, ret)
  | .ok (count, n) =>
    if count ≠ seg.fty.total then (kcp, seg :: rest, -3)
    else
      let gone := (seg :: rest.take n).filter fun s => s.fid = seg.fid
      (gone.foldl curFree kcp, curRemove seg.fid (n + 1) 0 (seg :: rest), 0)

/-- The loop over `snd_cur`, given the list before a segment and from it on; `first` says that the
segment is the one the loop started with, and the first argument bounds the iterations. -/
def curScan : ℕ → Kcp → Bool → List Seg → List Seg → Kcp × ℤ
  | 0, kcp, _, pre, rest => ({ kcp with snd_cur := pre ++ rest }, 0)
  | _ + 1, kcp, _, pre, [] => ({ kcp with snd_cur := pre }, 0)
  | n + 1, kcp, first, pre, seg :: rest =>
    if seg.wrn ≠ 0 ∧ seg.gid = 0 ∧ checkNack seg.pid nacks = false then
      let (kcp, rest', ret) := kcp.handleSendCurNack nacks seg rest
      if ret < 0 then
        ({ kcp with snd_cur := pre ++ rest', rp_output_retry := true }, ret * 0x10 - 4)
      else if ret = 0 then
        let kcp := if first = true then { kcp with rp_output_retry := true } else kcp
        -- the loop goes on with the first segment after the group's first one that is left
        curScan n kcp false pre rest'
      else curScan n kcp false (pre ++ [seg]) rest
    else curScan n kcp false (pre ++ [seg]) rest

end

/-! ### Input -/

/-- The counts of the call are zeroed. -/
def clearCurr : Kcp :=
  { kcp with congc := { kcp.congc with curr_ack_count := 0, curr_nack_count := 0 } }

/-- What `ikcp_input_congc` leaves, and `rp_set_qos` if it is called. -/
def setCongc (congc : Congc) (set : Option ℕ) : Kcp :=
  { kcp with
    congc := congc, rp_current_qos := set.getD kcp.rp_current_qos,
    rates := kcp.rates ++ set.toList }

/-- An answer's ranges are taken into account. -/
def answer (nacks : List Nack) (fid gid : ℕ) (f : Factors) : Option (Kcp × ℤ) :=
  let (kcp, ret) := wakScan nacks fid gid kcp.clearCurr [] kcp.snd_wak
  if ret < 0 then some (kcp, ret)
  else do
    let (congc, set) ← kcp.congc.input kcp.rp_max_qos kcp.rp_current_qos f
    let kcp := kcp.setCongc congc set
    let kcp := ((kcp.handleNack nacks 0).handleNack nacks 1).handleNack nacks 2
    let (kcp, ret) := curScan nacks (kcp.snd_cur.length + 1) kcp true [] kcp.snd_cur
    if ret < 0 then some (kcp, ret) else some ({ kcp with session_new_data_received := true }, 0)

/-- `ikcp_input` with the time at which it is called. -/
def input (data : List UInt8) (tick : ℕ) (f : Factors) : Option (Kcp × ℤ) :=
  match data with
  | a :: b :: data =>
    let hdr := a.toNat + b.toNat <<< 8
    let fid := hdr >>> (GID_NBITS + CID_NBITS + 1) &&& (1 <<< FID_NBITS - 1)
    let gid := hdr >>> (CID_NBITS + 1) &&& (1 <<< GID_NBITS - 1)
    let cid := hdr >>> 1 &&& (1 <<< CID_NBITS - 1)
    let reset := hdr &&& (1 <<< 1 - 1)
    if kcp.cid ≠ cid then some (kcp, 0)
    else if reset ≠ 0 then some (kcp, -2)
    else if data = [] then
      if fid = 0 ∧ gid = 1 <<< GID_NBITS - 1 then
        if kcp.session_established = true then some (kcp, 0)
        else
          some ({ kcp with
            session_established := true
            congc := { kcp.congc with last_send_time := tick % 2 ^ 32 } }, 0)
      else some (kcp, -5)
    else if kcp.session_established = false then some (kcp, 0)
    else if ARQ_PREFERRED_COUNT_MAX < (words data).length then some (kcp, -4)
    else kcp.answer (parseNacks (words data)) fid gid f
  | _ => some (kcp, -1)

end Kcp

end RemotePlay.Arq
