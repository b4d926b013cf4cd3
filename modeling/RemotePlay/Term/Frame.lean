import RemotePlay.Lib.Words
import RemotePlay.Work.Rows

/-! # Term packets of a frame

In the reliable stream a thread sends its full packets as it goes and leaves the rest, its *tail*,
in `TERM_DSTS`.  The thread that finishes the frame last calls `send_term_dsts`, which writes the
frame header, one word for each thread (its tail's length and its row count) and the tails into as
many *term packets* as it takes. -/

namespace RemotePlay.Term

open RemotePlay.Lib.Words RemotePlay.Work

/-- The bits of the quality. -/
def RP_KCP_HDR_QUALITY_NBITS : ℕ := 7
/-- The bits of a thread's number. -/
def RP_KCP_HDR_T_NBITS : ℕ := 2
/-- The bits of a work slot's number. -/
def RP_KCP_HDR_W_NBITS : ℕ := 1
/-- The bits of the chroma subsampling. -/
def RP_KCP_HDR_CHROMASS_NBITS : ℕ := 2
/-- The bits of a tail's size. -/
def RP_KCP_HDR_SIZE_NBITS : ℕ := 11
/-- The bits of a thread's row count. -/
def RP_KCP_HDR_RC_NBITS : ℕ := 5
/-- The first header word has a second one behind it. -/
def EX_HDR_BIT : ℕ := 15
/-- The second word is of version 2. -/
def EXHDR_V2_BIT : ℕ := 14
/-- The bits of a packet id. -/
def PID_NBITS : ℕ := 12
/-- The bits of a session. -/
def CID_NBITS : ℕ := 1

/-- What the encoder returns for a frame, with the values its `quality` field can take. -/
inductive EncodeRet
  | losslessRet (color_bias : ColorBias)
  | jpegRet (quality : Fin 101)
  | jpegDqRet (delta_q : Fin 32)
  deriving DecidableEq

/-- `TermInfo`: the screen and the partition of its rows. -/
structure TermInfo where
  is_top : Bool
  core_count : CoreCount
  v_adjusted : ℕ
  v_last_adjusted : ℕ
  even_odd : Bool

/-- The settings `send_term_dsts` reads; `chroma_ss` and `downsample` are those of the frame's
screen. -/
structure Settings where
  chroma_ss : ChromaSs
  downsample : Downsample
  top_screen_width : TopScreenWidth
  audio_kcp : Bool
  delta_prog : Bool

/-- The end of a thread's stream, less than a packet or exactly one. -/
abbrev Tail := {bs : List UInt8 // bs.length ≤ ARQ_RP_DATA_SIZE}

/-- A term packet as it is handed to the sender: the size word with its flags, the packet header
and the packet's data. -/
structure TermPacket where
  size : ℕ
  hdr : ℕ
  data : List UInt8
  deriving DecidableEq

/-! ### Filling the packets -/

/-- The packets under construction: the full ones, and the one being filled up to `term_size`. -/
structure Terms where
  full : List (List UInt8)
  cur : List UInt8

/-- What a packet after the first starts with. -/
def contHdr (term_v2 : Bool) : List UInt8 :=
  if term_v2 then le16 (1 <<< EX_HDR_BIT) ++ le16 (1 <<< EXHDR_V2_BIT) else []

theorem length_contHdr (v2 : Bool) : (contHdr v2).length < ARQ_RP_DATA_SIZE := by
  cases v2 <;> decide

/-- `copy_to_terms`.  `alloc k` says whether the buffer of packet `k` can be had. -/
def copyToTerms (alloc : ℕ → Bool) (term_v2 : Bool) (t : Terms) (data : List UInt8) :
    Option Terms :=
  let len_0 := ARQ_RP_DATA_SIZE - t.cur.length
  if data = [] then some t
  else if _ : data.length ≤ len_0 then some { t with cur := t.cur ++ data }
  else if alloc (t.full.length + 1) then
    copyToTerms alloc term_v2 ⟨t.full ++ [t.cur ++ data.take len_0], contHdr term_v2⟩
      (data.drop len_0)
  else none
  -- an iteration that copies nothing opens a packet with room in it
  termination_by 2 * data.length + if ARQ_RP_DATA_SIZE ≤ t.cur.length then 1 else 0
  decreasing_by
    have := length_contHdr term_v2
    simp only [List.length_drop]
    split_ifs <;> omega

/-! ### The header words -/

/-- The `quality` field and the `delta_prog` bit. -/
def deltaProgQuality (cfg : Settings) : EncodeRet → Bool × ℕ
  | .losslessRet color_bias =>
    (cfg.delta_prog,
      color_bias.val ||| if cfg.delta_prog then 1 <<< (RP_KCP_HDR_QUALITY_NBITS - 1) else 0)
  | .jpegRet quality => (false, quality)
  | .jpegDqRet delta_q => (true, delta_q)

/-- `need_even_odd`. -/
def needEvenOdd (cfg : Settings) : Bool :=
  cfg.downsample = .checker ∨ cfg.downsample = .evenOdd

/-- The top screen in double width. -/
def fullWidth (cfg : Settings) (info : TermInfo) : Bool :=
  info.is_top ∧ cfg.top_screen_width = .both

/-- Whether a second header word follows the first. -/
def exHdr (cfg : Settings) (info : TermInfo) : Bool :=
  needEvenOdd cfg ∨ cfg.audio_kcp ∨ fullWidth cfg info

/-- The first header word. -/
def frameHdr (cfg : Settings) (info : TermInfo) (ret : EncodeRet) : ℕ :=
  let (delta_prog, quality) := deltaProgQuality cfg ret
  let hdr :=
    cfg.downsample.val <<<
        (RP_KCP_HDR_QUALITY_NBITS + RP_KCP_HDR_T_NBITS + 1 + RP_KCP_HDR_CHROMASS_NBITS + 1)
      ||| delta_prog.toNat <<<
        (RP_KCP_HDR_QUALITY_NBITS + RP_KCP_HDR_T_NBITS + 1 + RP_KCP_HDR_CHROMASS_NBITS)
      ||| cfg.chroma_ss.val <<< (RP_KCP_HDR_QUALITY_NBITS + RP_KCP_HDR_T_NBITS + 1)
      ||| isTopIndex info.is_top <<< (RP_KCP_HDR_QUALITY_NBITS + RP_KCP_HDR_T_NBITS)
      ||| info.core_count.get <<< RP_KCP_HDR_QUALITY_NBITS
      ||| quality
  if exHdr cfg info then hdr ||| 1 <<< EX_HDR_BIT else hdr

/-- The second header word. -/
def frameExHdr (cfg : Settings) (info : TermInfo) (both_eyes : Bool) : ℕ :=
  let hdr := 0
  let hdr := if needEvenOdd cfg then hdr ||| info.even_odd.toNat else hdr
  let hdr := if fullWidth cfg info then hdr ||| 1 <<< 1 else hdr
  let hdr := if fullWidth cfg info && both_eyes then hdr ||| 1 <<< 2 else hdr
  if cfg.audio_kcp then hdr ||| 1 <<< EXHDR_V2_BIT else hdr

/-- The rows of thread `i`. -/
def rowsOf (info : TermInfo) (i : ℕ) : ℕ :=
  if i = info.core_count.get - 1 then info.v_last_adjusted else info.v_adjusted

/-- The word of thread `i`: the size and, above it, the row count cut to its field. -/
def threadHdr (info : TermInfo) (i size : ℕ) : ℕ :=
  size % 65536 |||
    (rowsOf info i % 65536 &&& ((1 <<< RP_KCP_HDR_RC_NBITS) - 1)) <<< RP_KCP_HDR_SIZE_NBITS

/-! ### Sending -/

/-- `copy_to_terms` for several pieces in a row. -/
def copyAll (alloc : ℕ → Bool) (term_v2 : Bool) : Terms → List (List UInt8) → Option Terms
  | t, [] => some t
  | t, data :: rest => do copyAll alloc term_v2 (← copyToTerms alloc term_v2 t data) rest

/-- The packet for `terms[i]`; `last` is `i == term_cur`.  Only the last packet is short of its
size, and is filled up with zeros. -/
def termPacket (w : Fin 2) (last : Bool) (data : List UInt8) : TermPacket where
  size := ARQ_RP_DATA_SIZE + ARQ_DATA_HDR_SIZE ||| 1 <<< 31 ||| if last then 1 <<< 30 else 0
  hdr := (w : ℕ) <<< (PID_NBITS + CID_NBITS)
    ||| RP_CORE_COUNT_MAX <<< (PID_NBITS + CID_NBITS + RP_KCP_HDR_W_NBITS)
  data := data ++ List.replicate (ARQ_RP_DATA_SIZE - data.length) 0

/-- **`send_term_dsts`.**  The packets pushed to the sender, or `none` where the code returns
`false`.  `dsts i` is `TERM_DSTS` of thread `i`, `none` for a null pointer.  The core count in use
is the one `init_work` stored in `info`: it does not change while the threads run. -/
def sendTermDsts (alloc : ℕ → Bool) (w : Fin 2) (cfg : Settings) (info : TermInfo)
    (both_eyes : Bool) (ret : EncodeRet) (dsts : ℕ → Option Tail) : Option (List TermPacket) :=
  if (dsts 0).isNone then some []
  else if !alloc 0 then none
  else do
    let term_v2 := cfg.audio_kcp
    let t : Terms := ⟨[], []⟩
    let t ← copyToTerms alloc term_v2 t (le16 (frameHdr cfg info ret))
    let t ← if exHdr cfg info then
        copyToTerms alloc term_v2 t (le16 (frameExHdr cfg info both_eyes)) else some t
    let tails ← (List.range info.core_count.get).mapM dsts
    let t ← copyAll alloc term_v2 t
      (tails.mapIdx fun i tail => le16 (threadHdr info i tail.1.length))
    let t ← copyAll alloc term_v2 t (tails.map (·.1))
    some (t.full.map (termPacket w false) ++ [termPacket w true t.cur])

end RemotePlay.Term
