import Mathlib.Data.Nat.Notation

/-! # Constants and settings

The compile-time constants of `constants.h` for the New 3DS build, the enumerations of its menus and
the sizes that follow from them.  A setting is an enumeration here, so an out-of-range one cannot be
built. -/

namespace RemotePlay

/-! ### Packets -/

/-- The bytes of a datagram after the headers of the system. -/
def PACKET_SIZE : ℕ := 1448
/-- The bytes of the headers of the system, up to the one of UDP. -/
def NWM_HDR_SIZE : ℕ := 0x2a + 8
/-- The bytes of `DataHdr`. -/
def DATA_HDR_SIZE : ℕ := 4
/-- The bytes of the group header that the reliable stream puts before a packet. -/
def ARQ_OVERHEAD_SIZE : ℕ := 2
/-- What is left of a packet for the reliable stream. -/
def ARQ_DATA_SIZE : ℕ := PACKET_SIZE - ARQ_OVERHEAD_SIZE
/-- The bytes of the packet id before the data of the reliable stream. -/
def ARQ_DATA_HDR_SIZE : ℕ := 2
/-- What is left of a packet of the reliable stream for headers and data of a frame. -/
def ARQ_RP_DATA_SIZE : ℕ := ARQ_DATA_SIZE - ARQ_DATA_HDR_SIZE
/-- What is left of a packet without the reliable stream. -/
def RP_DATA_SIZE : ℕ := PACKET_SIZE - DATA_HDR_SIZE
/-- The bytes of `LosslessDataHdr`. -/
def RP_LOSSLESS_HDR_SIZE : ℕ := 2
/-- What is left of a lossless packet without the reliable stream. -/
def RP_LOSSLESS_DATA_SIZE : ℕ := RP_DATA_SIZE - RP_LOSSLESS_HDR_SIZE

/-! ### Screens and threads -/

/-- The encoder threads there can be. -/
def RP_CORE_COUNT_MAX : ℕ := 3
/-- The slots in which frames are encoded, used in turn. -/
def WORK_COUNT : ℕ := 2
/-- The pixels of a line: the screens are scanned by columns. -/
def GSP_SCREEN_WIDTH : ℕ := 240
/-- The lines of the top screen. -/
def GSP_SCREEN_HEIGHT_TOP : ℕ := 400
/-- The lines of the top screen in double width or for both eyes. -/
def GSP_SCREEN_HEIGHT_TOP_2X : ℕ := 800
/-- The lines of the bottom screen. -/
def GSP_SCREEN_HEIGHT_BOTTOM : ℕ := 320

/-- The number of encoder threads in use, `RP_CORE_COUNT_MIN ..= RP_CORE_COUNT_MAX`. -/
inductive CoreCount
  | one | two | three
  deriving DecidableEq, Repr

/-- The count as a number. -/
def CoreCount.get : CoreCount → ℕ
  | one => 1
  | two => 2
  | three => 3

theorem CoreCount.get_pos (c : CoreCount) : 0 < c.get := by cases c <;> decide

theorem CoreCount.get_le (c : CoreCount) : c.get ≤ RP_CORE_COUNT_MAX := by cases c <;> decide

/-- `is_top_index(is_top).get()`: `RP_SCREEN_TOP` is 0. -/
def isTopIndex (is_top : Bool) : ℕ := if is_top then 0 else 1

/-- `RP_CHROMASS_*`: how the chroma components are subsampled. -/
inductive ChromaSs
  | ss420 | ss422 | ss444
  deriving DecidableEq, Repr

/-- Its number in the settings and in headers. -/
def ChromaSs.val : ChromaSs → ℕ
  | ss420 => 0
  | ss422 => 1
  | ss444 => 2

/-- `RP_DOWNSAMPLE_*`: which pixels of the screen are encoded. -/
inductive Downsample
  | none | checker | evenOdd | quarter
  deriving DecidableEq, Repr

/-- Its number in the settings and in headers. -/
def Downsample.val : Downsample → ℕ
  | none => 0
  | checker => 1
  | evenOdd => 2
  | quarter => 3

/-- `RP_COLOR_BIAS_*`: how many low bits of the samples are dropped. -/
inductive ColorBias
  | none | bias1 | bias2
  deriving DecidableEq, Repr

/-- Its number in the settings and in headers. -/
def ColorBias.val : ColorBias → ℕ
  | none => 0
  | bias1 => 1
  | bias2 => 2

/-- `TopScreenWidth`: the top screen as seen by the left eye or the right, or both. -/
inductive TopScreenWidth
  | left | right | both
  deriving DecidableEq, Repr

/-- Components are numbered from 0 to 2. -/
instance neZero_components : @NeZero ℕ Zero.ofOfNat0 3 := Nat.instNeZeroSucc

/-- `rp_screen_height!`. -/
def rpScreenHeight (is_top : Bool) (width : TopScreenWidth) : ℕ :=
  if is_top then
    if width = .both then GSP_SCREEN_HEIGHT_TOP_2X else GSP_SCREEN_HEIGHT_TOP
  else GSP_SCREEN_HEIGHT_BOTTOM

/-! ### Buffers and windows -/

/-- The most bytes that a compressed frame is taken to have. -/
def RP_COMPRESSED_SIZE_MAX : ℕ := 0x90000

/-- The packets of as many frames as there are work slots. -/
def RP_COMPRESSED_COUNT_MAX : ℕ :=
  (RP_COMPRESSED_SIZE_MAX + RP_LOSSLESS_DATA_SIZE - 1) / RP_LOSSLESS_DATA_SIZE * WORK_COUNT

/-- The largest rate, in bytes a second. -/
def RP_QOS_MAX : ℕ := 5 * 1024 * 1024 / 2
/-- The packets a second at the largest rate. -/
def RP_QOS_PACKET_RATE_MAX : ℕ := (RP_QOS_MAX + PACKET_SIZE - 1) / PACKET_SIZE
/-- The reliable stream keeps packets for this part of a second. -/
def ARQ_PREFERRED_BUFFER_DURATION_FACTOR : ℕ := 4

/-- The packets it keeps, which is the size of its window. -/
def ARQ_PREFERRED_COUNT_MAX : ℕ :=
  (RP_QOS_PACKET_RATE_MAX + ARQ_PREFERRED_BUFFER_DURATION_FACTOR - 1) /
    ARQ_PREFERRED_BUFFER_DURATION_FACTOR

/-- A buffer for each encoder thread in each work slot. -/
def RP_ARQ_ENCODE_COUNT : ℕ := RP_CORE_COUNT_MAX * WORK_COUNT
/-- The buffers with data in the window. -/
def RP_ARQ_ENCODE_COUNT_MAX : ℕ := ARQ_PREFERRED_COUNT_MAX
/-- The frames a second that are expected at most. -/
def RP_FRAME_RATE_EXPECTED_MAX : ℕ := 120

/-- The term buffers of the frames that the window reaches back to. -/
def RP_ARQ_TERM_COUNT : ℕ :=
  (RP_CORE_COUNT_MAX + 1) *
    ((RP_FRAME_RATE_EXPECTED_MAX + ARQ_PREFERRED_BUFFER_DURATION_FACTOR - 1) /
      ARQ_PREFERRED_BUFFER_DURATION_FACTOR)

/-- The buffers beside those with data in the window. -/
def RP_ARQ_EXTRA_COUNT_MAX : ℕ := RP_ARQ_ENCODE_COUNT + RP_ARQ_TERM_COUNT
/-- The buffers that the reliable stream needs. -/
def RP_ARQ_PREFERRED_COUNT_MAX : ℕ := RP_ARQ_ENCODE_COUNT_MAX + RP_ARQ_EXTRA_COUNT_MAX
/-- The buffers there are, for either way of sending. -/
def SEND_BUFS_DATA_COUNT : ℕ := max RP_COMPRESSED_COUNT_MAX RP_ARQ_PREFERRED_COUNT_MAX
/-- The packets of a fortieth of a second. -/
def ARQ_CUR_COUNT_MAX : ℕ := (RP_QOS_PACKET_RATE_MAX + 40 - 1) / 40
/-- The groups of two in the window. -/
def ARQ_CUR_COUNT_MAX_2 : ℕ := (ARQ_PREFERRED_COUNT_MAX + 2 - 1) / 2
/-- The recovery packets of the window, two for each packet. -/
def ARQ_PREFERRED_COUNT_MAX_2 : ℕ := ARQ_PREFERRED_COUNT_MAX * 2

end RemotePlay
