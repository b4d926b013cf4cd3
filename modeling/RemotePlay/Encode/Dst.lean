import RemotePlay.Config
import Mathlib.Data.List.Basic
import Mathlib.Tactic.Linarith

/-! # The output of a worker

A worker writes into the buffer of one packet; when it is full the next write sends it and starts on
another.  What is written, cut into packets, is one byte string (`stream`): each way of writing
appends to it, and the packets sent are full (`Ok`). -/

namespace RemotePlay.Encode

/-- A size of packets: an `u16`, and no less than the arrays that blocks are encoded in. -/
structure PacketDataSize where
  val : ℕ
  le : 512 ≤ val
  lt : val < 2 ^ 16

theorem PacketDataSize.pos (P : PacketDataSize) : 0 < P.val := Nat.lt_of_lt_of_le (by decide) P.le

/-- `set_packet_data_size`. -/
def packetDataSize (lossless rel_stream : Bool) : PacketDataSize :=
  if rel_stream then ⟨ARQ_RP_DATA_SIZE, by decide, by decide⟩
  else if lossless then ⟨RP_LOSSLESS_DATA_SIZE, by decide, by decide⟩
  else ⟨RP_DATA_SIZE, by decide, by decide⟩

/-- `WorkerDst`: `cur` is what is written in the buffer up to `dst`, `sent` the buffers handed to
`rp_send_buffer` and `updates` the calls of `rp_dq_update_size`. -/
structure WorkerDst where
  blkn : ℕ
  free_in_bytes : ℕ
  cur : List UInt8
  sent : List (List UInt8)
  updates : List (ℕ × ℕ)
  deriving DecidableEq, Repr

namespace WorkerDst

section

variable (P : PacketDataSize) (d : WorkerDst)

/-- `flush`: the whole buffer is sent. -/
def flush : WorkerDst where
  blkn := 0
  free_in_bytes := P.val
  cur := []
  sent := d.sent ++ [d.cur]
  updates := d.updates ++ [(P.val, d.blkn)]

/-- `term`: the part of the buffer that is written is sent. -/
def term : WorkerDst where
  blkn := 0
  free_in_bytes := P.val
  cur := []
  sent := d.sent ++ [d.cur]
  updates := d.updates ++ [(P.val - d.free_in_bytes, d.blkn)]

/-- `write_byte`. -/
def writeByte (byte : UInt8) : WorkerDst :=
  let d := if d.free_in_bytes = 0 then d.flush P else d
  { d with cur := d.cur ++ [byte], free_in_bytes := d.free_in_bytes - 1 }

/-- `advance_to`, over bytes written directly; it fails when `free_in_bytes` would go below zero. -/
def advanceTo (bytes : List UInt8) : Option WorkerDst :=
  if bytes.length ≤ d.free_in_bytes then
    some { d with cur := d.cur ++ bytes, free_in_bytes := d.free_in_bytes - bytes.length }
  else none

/-- `write_bytes`, of a slice whose length is an `u16`. -/
def writeBytes (bytes : List UInt8) : Option WorkerDst :=
  if bytes.length ≥ 2 ^ 16 then none
  else if d.free_in_bytes > 0 then
    if d.free_in_bytes < bytes.length then
      -- the rest of the buffer first
      let d' := { d with cur := d.cur ++ bytes.take d.free_in_bytes, free_in_bytes := 0 }
      (d'.flush P).advanceTo (bytes.drop d.free_in_bytes)
    else d.advanceTo bytes
  else (d.flush P).advanceTo bytes

end

/-- All that was written. -/
def stream (d : WorkerDst) : List UInt8 := d.sent.flatten ++ d.cur

/-- The free bytes are those after what is written, and the packets sent are full. -/
structure Ok (P : PacketDataSize) (d : WorkerDst) : Prop where
  free : d.cur.length + d.free_in_bytes = P.val
  full : ∀ p ∈ d.sent, p.length = P.val

variable {P : PacketDataSize} {d d' : WorkerDst}

@[simp] theorem stream_flush (d : WorkerDst) : (d.flush P).stream = d.stream := by
  simp [stream, flush]

@[simp] theorem free_flush (d : WorkerDst) : (d.flush P).free_in_bytes = P.val := rfl

theorem Ok.flush (h : d.Ok P) (h0 : d.free_in_bytes = 0) : (d.flush P).Ok P := by
  refine ⟨by simp [WorkerDst.flush], fun p hp => ?_⟩
  rcases List.mem_append.mp hp with hp | hp
  · exact h.full p hp
  · have hfree := h.free
    rw [List.mem_singleton.mp hp]
    omega

@[simp] theorem stream_writeByte (d : WorkerDst) (byte : UInt8) :
    (d.writeByte P byte).stream = d.stream ++ [byte] := by
  unfold writeByte
  split_ifs
  · rw [← stream_flush (P := P) d]
    simp [stream]
  · simp [stream]

theorem Ok.writeByte (h : d.Ok P) (byte : UInt8) : (d.writeByte P byte).Ok P := by
  have hone : ∀ {d : WorkerDst}, d.Ok P → 0 < d.free_in_bytes →
      Ok P { d with cur := d.cur ++ [byte], free_in_bytes := d.free_in_bytes - 1 } := by
    intro d h hpos
    have hfree := h.free
    exact ⟨by simp only [List.length_append, List.length_singleton]; omega, h.full⟩
  unfold WorkerDst.writeByte
  split_ifs with h0
  · exact hone (h.flush h0) P.pos
  · exact hone h (Nat.pos_of_ne_zero h0)

theorem Ok.advanceTo (h : d.Ok P) {bytes : List UInt8} (hd : d.advanceTo bytes = some d') :
    d'.Ok P ∧ d'.stream = d.stream ++ bytes := by
  unfold WorkerDst.advanceTo at hd
  split_ifs at hd with hle
  cases hd
  have hfree := h.free
  exact ⟨⟨by simp only [List.length_append]; omega, h.full⟩, by simp [stream]⟩

theorem Ok.writeBytes (h : d.Ok P) {bytes : List UInt8} (hd : d.writeBytes P bytes = some d') :
    d'.Ok P ∧ d'.stream = d.stream ++ bytes := by
  unfold WorkerDst.writeBytes at hd
  split_ifs at hd with h1 h2 h3
  · have hfree := h.free
    have hfill : Ok P { d with cur := d.cur ++ bytes.take d.free_in_bytes, free_in_bytes := 0 } :=
      ⟨by simp only [List.length_append, List.length_take]; omega, h.full⟩
    obtain ⟨hok, hstream⟩ := (hfill.flush rfl).advanceTo hd
    refine ⟨hok, ?_⟩
    rw [hstream, stream_flush]
    simp [stream]
  · exact h.advanceTo hd
  · obtain ⟨hok, hstream⟩ := (h.flush (by omega)).advanceTo hd
    exact ⟨hok, by rw [hstream, stream_flush]⟩

/-- A slice no longer than a packet is always written. -/
theorem writeBytes_isSome (d : WorkerDst) {bytes : List UInt8} (hle : bytes.length ≤ P.val) :
    (d.writeBytes P bytes).isSome := by
  have hlt := P.lt
  unfold WorkerDst.writeBytes
  rw [if_neg (by omega)]
  split_ifs with h2 h3
  · rw [WorkerDst.advanceTo, free_flush, if_pos (by rw [List.length_drop]; omega)]
    rfl
  · rw [WorkerDst.advanceTo, if_pos (by omega)]
    rfl
  · rw [WorkerDst.advanceTo, free_flush, if_pos hle]
    rfl

theorem Ok.cur_le (h : d.Ok P) : d.cur.length ≤ P.val := by
  have hfree := h.free
  omega

end WorkerDst

end RemotePlay.Encode
