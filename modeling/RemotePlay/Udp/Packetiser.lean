import RemotePlay.Udp.Buffers
import RemotePlay.Lib.Pieces

/-! # The packetiser

Without the reliable stream the encoder threads leave the bytes of a frame in their buffers, and the
sending thread makes packets of them: it follows the threads by number, fills up a packet that ends
with a thread's last bytes with the bytes of the next, and gives up, to try again, when there are
not enough.  A thread's `pos` says how far its bytes go and `flag` that there are no more; the
sending thread reads the two one after the other and may sleep before it acts on them.

Every access to what the threads share is a step of its own.  A state also remembers, for each
frame, the packets sent (`sent`) and how many frames have been released (`released`). -/

namespace RemotePlay.Udp

open RemotePlay.Encode RemotePlay.Work Lib.Pieces

open Function (update)

/-! ### Headers -/

/-- The bit of `DataHdr` that the last packet of a frame has set. -/
def TERM_FLAG : ℕ := 0x10

/-- `DataHdr`, byte by byte. -/
structure DataHdr where
  b0 : UInt8
  b1 : UInt8
  b2 : UInt8
  b3 : UInt8
  deriving DecidableEq, Repr

/-- The header as it is sent. -/
def DataHdr.bytes (h : DataHdr) : List UInt8 := [h.b0, h.b1, h.b2, h.b3]

/-- A flag as a byte. -/
def boolByte (b : Bool) : UInt8 := if b then 1 else 0

/-- `DataHdr::init`. -/
def DataHdr.init (top_screen_width : TopScreenWidth) (frame_id : UInt8) (is_top : Bool)
    (downsample : UInt8) (lossless both_eyes : Bool) : DataHdr where
  b0 := frame_id
  b1 := if is_top then
      if top_screen_width = .both then
        boolByte is_top ||| ((1 : UInt8) <<< 1) ||| (boolByte both_eyes <<< 2)
      else boolByte is_top
    else boolByte is_top
  b2 := (2 : UInt8) ||| (downsample <<< 2) ||| boolByte lossless
  b3 := 0

/-- `LosslessDataHdr`. -/
structure LosslessDataHdr where
  b0 : UInt8
  b1 : UInt8
  deriving DecidableEq, Repr

/-- The header as it is sent. -/
def LosslessDataHdr.bytes (h : LosslessDataHdr) : List UInt8 := [h.b0, h.b1]

/-- `rp_lossless_huffman_hdr`. -/
def rpLosslessHuffmanHdr (is_table : Bool) (huff_tbl_no : UInt8) : UInt8 :=
  boolByte is_table ||| ((huff_tbl_no &&& 0x7) <<< 1)

/-- `LosslessDataHdr::init`. -/
def LosslessDataHdr.init (huff_tbl_no chroma_ss color_bias rest_int : UInt8) : LosslessDataHdr where
  b0 := rpLosslessHuffmanHdr false huff_tbl_no ||| ((chroma_ss &&& 0x3) <<< 4) |||
    ((color_bias &&& 0x3) <<< 6)
  b1 := (rest_int &&& 0xf) <<< 2

/-! ### The settings and the frames -/

/-- What does not change while frames are sent; `nwm_hdr` are the bytes that the system's headers
put before a packet of a size. -/
structure Link where
  lossless : Bool
  core_count : CoreCount
  top_screen_width : TopScreenWidth
  nwm_hdr : ℕ → List UInt8
  length_nwm_hdr : ∀ size, (nwm_hdr size).length = NWM_HDR_SIZE

namespace Link

variable (L : Link)

/-- The bytes of a full packet. -/
def packet_data_size : ℕ := (packetDataSize L.lossless false).val
/-- The number of threads. -/
def n : ℕ := L.core_count.get
/-- The buffer of thread `t` in work slot `w`. -/
def ninfo (w t : ℕ) : NwmThreadInfo := initNwmInfos L.lossless L.core_count w t

/-- `next_wrapped_n(&thread_index_last)`. -/
def nextWrapped (t : ℕ) : ℕ := if t = L.n - 1 then 0 else t + 1

end Link

/-- A frame: what its headers say, and the bytes of each thread, which have room in its buffer. -/
structure Frame (L : Link) where
  frame_id : UInt8
  is_top : Bool
  downsample : UInt8
  both_eyes : Bool
  chroma_ss : UInt8
  color_bias : UInt8
  rest_int : UInt8
  stream : ℕ → List UInt8
  fits : ∀ w, ∀ t < L.n, (L.ninfo w t).buf + (stream t).length ≤ (L.ninfo w t).buf_packet_last

/-- The header of its packets. -/
def Frame.dataHdr {L : Link} (f : Frame L) : DataHdr :=
  .init L.top_screen_width f.frame_id f.is_top f.downsample L.lossless f.both_eyes

/-- The lossless header of its packets, before it is known what they start with. -/
def Frame.losslessHdr {L : Link} (f : Frame L) : LosslessDataHdr :=
  .init 0 f.chroma_ss f.color_bias f.rest_int

/-! ### The state -/

/-- What an encoder thread and the sending thread share of a buffer. -/
structure DataInfo where
  send_pos : ℕ
  pos : ℕ
  flag : ℕ

/-- Whether a thread has bytes to write, has counted its last ones, or has said so. -/
inductive Stage
  | encoding | counted | ended
  deriving DecidableEq

/-- An encoder thread in a frame: the bytes it has written, and its `WorkerDst`. -/
structure Encoder where
  written : ℕ
  dst : ℕ
  free_in_bytes : ℕ
  stage : Stage

/-- A packet in the making: the thread it starts with, whose `flag` was read, the bytes so far, the
thread they end with and how many are this one's, and whether there are no more of either's. -/
structure Attempt where
  w : ℕ
  t : ℕ
  flag : ℕ
  thread_done : Bool
  total_size : ℕ
  end_index : ℕ
  end_size : ℕ
  end_done : Bool

/-- Where the sending thread is. -/
inductive NwmPc
  /-- `send_next_buffer` -/
  | top
  /-- `nwm_ready_acquire` -/
  | acquire (w t : ℕ)
  /-- `data_buffer_filled` -/
  | readFlag (w t : ℕ)
  | readPos (w t flag : ℕ)
  /-- `do_send_next_buffer`, perhaps after a sleep -/
  | attempt (w t flag pos : ℕ)
  /-- `data_buffer_filled` for the following thread -/
  | nextFlag (a : Attempt)
  | nextPos (a : Attempt) (flag : ℕ)
  /-- About to copy the following thread's bytes. -/
  | copy (a : Attempt) (size : ℕ) (done : Bool)
  /-- About to write the headers and send. -/
  | send (a : Attempt)
  /-- Sent. -/
  | finish (a : Attempt)

/-- A packet sent. -/
structure Packet where
  data_hdr : DataHdr
  lossless_hdr : Option LosslessDataHdr
  payload : List UInt8

/-- The packet carries the term flag. -/
def Packet.Term (p : Packet) : Prop := p.data_hdr.b1 &&& UInt8.ofNat TERM_FLAG ≠ 0

/-- The memory and variables that are shared, where the sending thread is, the frames acquired,
announced and begun, what the threads have done of each frame, and what has been sent. -/
structure NwmState where
  mem : ℕ → UInt8
  info : ℕ → ℕ → DataInfo
  data_hdr : ℕ → DataHdr
  lossless_hdr : ℕ → LosslessDataHdr
  nwm_ready : ℕ → ℕ
  nwm_done : ℕ → ℕ
  pc : NwmPc
  work_index : ℕ
  thread_index : ℕ
  need_syn : ℕ → Bool
  acquired : ℕ
  readied : ℕ
  begun : ℕ
  enc : ℕ → ℕ → Encoder
  released : ℕ
  sent : ℕ → List Packet

/-- Before the first frame. -/
def NwmState.start (L : Link) : NwmState where
  mem _ := 0
  info _ _ := ⟨0, 0, 0⟩
  data_hdr _ := ⟨0, 0, 0, 0⟩
  lossless_hdr _ := ⟨0, 0⟩
  nwm_ready _ := 0
  nwm_done _ := 1
  pc := .top
  work_index := 0
  thread_index := 0
  need_syn _ := true
  acquired := 0
  readied := 0
  begun := 0
  enc k t := ⟨0, (L.ninfo (k % WORK_COUNT) t).buf, L.packet_data_size, .encoding⟩
  released := 0
  sent _ := []

/-- What can happen next: the encoder threads start the next frame, or thread `t` goes on with frame
`k`, or the sending thread goes on. -/
inductive Act
  | acquire | ready | begin
  | write (k t : ℕ)
  | flush (k t : ℕ)
  | term (k t : ℕ)
  | flag (k t : ℕ)
  | nwm
  deriving DecidableEq

namespace NwmState

variable (L : Link) (frames : ℕ → Frame L) (st : NwmState)

/-! ### The encoder threads -/

/-- `nwm_done_acquire`. -/
def acquire : Option NwmState :=
  let w := st.acquired % WORK_COUNT
  if st.acquired = st.begun ∧ 0 < st.nwm_done w then
    some { st with
      acquired := st.acquired + 1
      nwm_done := update st.nwm_done w (st.nwm_done w - 1)
      info := update st.info w fun t => ⟨(L.ninfo w t).buf, (L.ninfo w t).buf, 0⟩
      data_hdr := update st.data_hdr w (frames st.acquired).dataHdr }
  else none

/-- `nwm_ready_release`. -/
def ready : Option NwmState :=
  let w := st.readied % WORK_COUNT
  if st.readied < st.acquired then
    some { st with
      readied := st.readied + 1
      nwm_ready := update st.nwm_ready w (st.nwm_ready w + 1) }
  else none

/-- `frame_release` sets the header of the frame's packets, and the threads begin. -/
def begin : Option NwmState :=
  if st.begun < st.readied then
    some { st with
      begun := st.begun + 1
      lossless_hdr :=
        update st.lossless_hdr (st.begun % WORK_COUNT) (frames st.begun).losslessHdr }
  else none

/-- Thread `t` of frame `k` from now on. -/
def setEnc (k t : ℕ) (e : Encoder) : NwmState :=
  { st with enc := update st.enc k (update (st.enc k) t e) }

/-- A buffer from now on. -/
def setInfo (w t : ℕ) (i : DataInfo) : NwmState :=
  { st with info := update st.info w (update (st.info w) t i) }

/-- Thread `t` of frame `k` is encoding. -/
def Encoding (k t : ℕ) : Prop := k < st.begun ∧ t < L.n ∧ (st.enc k t).stage = .encoding

instance (k t : ℕ) : Decidable (Encoding L st k t) := inferInstanceAs (Decidable (_ ∧ _ ∧ _))

/-- A byte, while there is room in the packet. -/
def write (k t : ℕ) : Option NwmState :=
  let e := st.enc k t
  if Encoding L st k t ∧ 0 < e.free_in_bytes then
    ((frames k).stream t)[e.written]?.map fun b =>
      { st.setEnc k t { e with
          written := e.written + 1, dst := e.dst + 1, free_in_bytes := e.free_in_bytes - 1 } with
        mem := Lib.Pieces.write st.mem e.dst [b] }
  else none

/-- `rp_send_buffer`, not `term`. -/
def flush (k t : ℕ) : Option NwmState :=
  let e := st.enc k t
  let w := k % WORK_COUNT
  let i := st.info w t
  if Encoding L st k t ∧ e.free_in_bytes = 0 then
    let (pos, dst, _) := rpSendBuffer (L.ninfo w t) i.pos L.packet_data_size false
    some ((st.setEnc k t { e with dst := dst, free_in_bytes := L.packet_data_size }).setInfo w t
      { i with pos := pos })
  else none

/-- `rp_send_buffer`, `term`, up to `pos`. -/
def term (k t : ℕ) : Option NwmState :=
  let e := st.enc k t
  let w := k % WORK_COUNT
  let i := st.info w t
  if Encoding L st k t ∧ e.written = ((frames k).stream t).length then
    let (pos, dst, _) :=
      rpSendBuffer (L.ninfo w t) i.pos (L.packet_data_size - e.free_in_bytes) true
    some ((st.setEnc k t { e with
        dst := dst, free_in_bytes := L.packet_data_size, stage := .counted }).setInfo w t
      { i with pos := pos })
  else none

/-- `rp_send_buffer`, `term`, `flag`. -/
def flag (k t : ℕ) : Option NwmState :=
  let e := st.enc k t
  let w := k % WORK_COUNT
  if k < st.begun ∧ t < L.n ∧ e.stage = .counted then
    some ((st.setEnc k t { e with stage := .ended }).setInfo w t
      { st.info w t with flag := TERM_FLAG })
  else none

/-! ### The sending thread -/

/-- `data_buffer_filled`. -/
def filled (i : DataInfo) (pos flag : ℕ) : Prop := i.send_pos < pos ∨ 0 < flag

instance (i : DataInfo) (pos flag : ℕ) : Decidable (filled i pos flag) :=
  inferInstanceAs (Decidable (_ ∨ _))

/-- The attempt goes on with the following thread, if this one is done and not the last. -/
def attemptNext (a : Attempt) : NwmPc :=
  if a.end_done ∧ a.end_index ≠ 0 then .nextFlag a else .send a

/-- The headers, and the system's before them. -/
def headers (L : Link) (a : Attempt) (dh : DataHdr) (lh : LosslessDataHdr) : List UInt8 :=
  let packet_size :=
    a.total_size + DATA_HDR_SIZE + if L.lossless then RP_LOSSLESS_HDR_SIZE else 0
  L.nwm_hdr packet_size ++ dh.bytes ++ if L.lossless then lh.bytes else []

/-- One step of the sending thread; none while it waits for `nwm_ready`. -/
def nwm : Option NwmState :=
  match st.pc with
  | .top => some { st with pc := .acquire st.work_index st.thread_index }
  | .acquire w t =>
    if st.need_syn w then
      if 0 < st.nwm_ready w then
        some { st with
          pc := .readFlag w t
          nwm_ready := update st.nwm_ready w (st.nwm_ready w - 1)
          need_syn := update st.need_syn w false }
      else none
    else some { st with pc := .readFlag w t }
  | .readFlag w t => some { st with pc := .readPos w t (st.info w t).flag }
  | .readPos w t flag =>
    let i := st.info w t
    if filled i i.pos flag then some { st with pc := .attempt w t flag i.pos }
    else some { st with pc := .top }
  | .attempt w t flag pos =>
    let send_pos := (st.info w t).send_pos
    let size := min (pos - send_pos) L.packet_data_size
    let thread_done : Bool := send_pos + size = pos ∧ 0 < flag
    if size < L.packet_data_size ∧ ¬thread_done then some { st with pc := .top }
    else
      some { st with
        pc := attemptNext
          ⟨w, t, flag, thread_done, size, if thread_done then L.nextWrapped t else t, size,
            thread_done⟩ }
  | .nextFlag a => some { st with pc := .nextPos a (st.info a.w a.end_index).flag }
  | .nextPos a flag =>
    let i := st.info a.w a.end_index
    if filled i i.pos flag then
      let remaining_size := L.packet_data_size - a.total_size
      let size := min (i.pos - i.send_pos) remaining_size
      let thread_done : Bool := i.send_pos + size = i.pos ∧ 0 < flag
      if size < remaining_size ∧ ¬thread_done then some { st with pc := .top }
      else some { st with pc := .copy a size thread_done }
    else some { st with pc := .top }
  | .copy a size done =>
    some { st with
      mem := Lib.Pieces.write st.mem ((st.info a.w a.t).send_pos + a.total_size)
        (read st.mem (st.info a.w a.end_index).send_pos size)
      pc := attemptNext { a with
        total_size := a.total_size + size
        end_size := size
        end_done := done
        end_index := if done then L.nextWrapped a.end_index else a.end_index } }
  | .send a =>
    let data_buf := (st.info a.w a.t).send_pos
    let dh := st.data_hdr a.w
    let dh := if a.end_done ∧ a.end_index = 0 then
      { dh with b1 := dh.b1 ||| UInt8.ofNat a.flag } else dh
    let lh := st.lossless_hdr a.w
    let lh := { lh with b1 := lh.b1 ||| (UInt8.ofNat a.t &&& 0x3) }
    let hdrs := headers L a dh lh
    let mem := Lib.Pieces.write st.mem (data_buf - hdrs.length) hdrs
    some { st with
      mem := mem
      data_hdr := update st.data_hdr a.w
        { st.data_hdr a.w with b3 := (st.data_hdr a.w).b3 + 1 }
      pc := .finish a
      sent := update st.sent st.released (st.sent st.released ++
        [⟨dh, if L.lossless then some lh else none, read mem data_buf a.total_size⟩]) }
  | .finish a =>
    let i := st.info a.w a.end_index
    let st := if a.end_done then st
      else st.setInfo a.w a.end_index { i with send_pos := i.send_pos + a.end_size }
    let st := if a.thread_done then { st with thread_index := a.end_index } else st
    if a.thread_done ∧ a.end_index = 0 then
      -- `nwm_done_release`
      some { st with
        nwm_done := update st.nwm_done a.w (st.nwm_done a.w + 1)
        need_syn := update st.need_syn a.w true
        work_index := (st.work_index + 1) % WORK_COUNT
        released := st.released + 1
        pc := .top }
    else some { st with pc := .acquire a.w st.thread_index }

/-! ### Together -/

/-- An action of a thread, or of the system. -/
def step : Act → Option NwmState
  | .acquire => acquire L frames st
  | .ready => ready st
  | .begin => begin L frames st
  | .write k t => write L frames st k t
  | .flush k t => flush L st k t
  | .term k t => term L frames st k t
  | .flag k t => flag L st k t
  | .nwm => nwm L st

/-- One step. -/
def Step (st st' : NwmState) : Prop := ∃ act, step L frames st act = some st'

end NwmState

end RemotePlay.Udp
