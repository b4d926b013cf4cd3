import RemotePlay.Encode.BitStream
import Mathlib.Data.List.FinRange

/-! # The uncompressed mode

Without the reliable stream, and with neither a bias nor subsampled chroma, a lossless frame is sent
as it is: the lines of an RGB8 image, all of their pixels or every second one, or the averages of
two by two pixels.  Whatever the samples, a slice makes a fixed number of bytes, which leave as full
packets and the rest (`losslessEncode_spec`). -/

namespace RemotePlay.Udp

open RemotePlay.Encode

/-- The lines of a block row. -/
def LOSSLESS_BLOCK_SIZE : ℕ := 16

/-- What a worker reads of its slice: the lines of the image, and for a quarter of the screen the
samples made of each two lines. -/
structure SliceData where
  line : ℕ → ℕ → UInt8
  quarter : ℕ → Fin 3 → ℕ → UInt8

section

variable (P : PacketDataSize)

/-- An output at the start of a frame. -/
def freshStart : Start P := ⟨0, [], Nat.zero_le _⟩

/-- `copy_rgb8::<2, 1, 0, 3, 0>` without a bias. -/
def copyRgb8 (start step : ℕ) (input : ℕ → UInt8) (d : WorkerDst) : Option WorkerDst :=
  (List.range (GSP_SCREEN_WIDTH / step)).foldlM
    (fun d i => d.writeBytes P ((List.range 3).map fun k => input ((i * step + start) * 3 + k))) d

/-- `do_uncompressed_encode::<false, false>` without a bias, for a quarter of the screen. -/
def uncompressedEncode (input : Fin 3 → ℕ → UInt8) (d : WorkerDst) : WorkerDst :=
  (List.range (GSP_SCREEN_WIDTH / 2)).foldl
    (fun d x => (List.finRange 3).foldl (fun d c => d.writeByte P (input c x)) d) d

/-- `process` for each step of a slice of `height` lines. -/
def processAll (downsample : Downsample) (even_odd : Bool) (s : SliceData) (height : ℕ)
    (d : WorkerDst) : Option WorkerDst :=
  match downsample with
  | .quarter =>
    some ((List.range (height / 2)).foldl (fun d i => uncompressedEncode P (s.quarter i) d) d)
  | .evenOdd =>
    (List.range height).foldlM (fun d i => copyRgb8 P (if even_odd then 1 else 0) 2 (s.line i) d) d
  | _ => (List.range height).foldlM (fun d i => copyRgb8 P 0 1 (s.line i) d) d

/-- `lossless_encode`: the steps, the bits that wait, of which there are none, and `term`. -/
def losslessEncode (downsample : Downsample) (even_odd : Bool) (s : SliceData) (height : ℕ)
    (d : WorkerDst) : Option WorkerDst := do
  let d ← processAll P downsample even_odd s height d
  let d ← BitEncoderState.reset.flush P true d
  return d.term P

end

/-- The bytes a slice makes. -/
def sliceBytes (downsample : Downsample) (height : ℕ) : ℕ := match downsample with
  | .quarter => height / 2 * (GSP_SCREEN_WIDTH / 2 * 3)
  | .evenOdd => height * (GSP_SCREEN_WIDTH / 2 * 3)
  | _ => height * (GSP_SCREEN_WIDTH * 3)

/-! ### What is written -/

variable {P : PacketDataSize}

/-- `d'` is `d` after `n` more bytes. -/
def Wrote (P : PacketDataSize) (n : ℕ) (d d' : WorkerDst) : Prop :=
  d'.Ok P ∧ d'.stream.length = d.stream.length + n

/-- **Writes of one size after another.** -/
theorem foldlM_wrote {α : Type} {f : WorkerDst → α → Option WorkerDst} {n : ℕ}
    (hf : ∀ d a, d.Ok P → ∃ d', f d a = some d' ∧ Wrote P n d d') (l : List α) {d : WorkerDst}
    (h : d.Ok P) : ∃ d', l.foldlM f d = some d' ∧ Wrote P (l.length * n) d d' := by
  induction l generalizing d with
  | nil => exact ⟨d, rfl, h, by simp⟩
  | cons a l ih =>
    obtain ⟨d₁, h₁, hok, hlen⟩ := hf d a h
    obtain ⟨d₂, h₂, hok', hlen'⟩ := ih hok
    refine ⟨d₂, ?_, hok', ?_⟩
    · rw [List.foldlM_cons, h₁]
      exact h₂
    · rw [hlen', hlen, List.length_cons, Nat.succ_mul]
      omega

theorem foldl_wrote {α : Type} {f : WorkerDst → α → WorkerDst} {n : ℕ}
    (hf : ∀ d a, d.Ok P → Wrote P n d (f d a)) (l : List α) {d : WorkerDst} (h : d.Ok P) :
    Wrote P (l.length * n) d (l.foldl f d) := by
  obtain ⟨d', hd', hw⟩ := foldlM_wrote (f := fun d a => some (f d a))
    (fun d a hd => ⟨f d a, rfl, hf d a hd⟩) l h
  have heq : l.foldlM (fun d a => some (f d a)) d = some (l.foldl f d) := List.foldlM_pure
  rw [heq] at hd'
  cases hd'
  exact hw

theorem copyRgb8_wrote (start step : ℕ) (input : ℕ → UInt8) {d : WorkerDst} (h : d.Ok P) :
    ∃ d', copyRgb8 P start step input d = some d' ∧
      Wrote P (GSP_SCREEN_WIDTH / step * 3) d d' := by
  have hpixel : ∀ (d : WorkerDst) (i : ℕ), d.Ok P → ∃ d', d.writeBytes P
      ((List.range 3).map fun k => input ((i * step + start) * 3 + k)) = some d' ∧
        Wrote P 3 d d' := by
    intro d i hd
    have hle : ((List.range 3).map fun k => input ((i * step + start) * 3 + k)).length ≤ P.val := by
      rw [List.length_map, List.length_range]
      exact le_trans (by decide) P.le
    obtain ⟨d', hd'⟩ := Option.isSome_iff_exists.mp (WorkerDst.writeBytes_isSome d hle)
    obtain ⟨hok, hstream⟩ := hd.writeBytes hd'
    exact ⟨d', hd', hok, by rw [hstream]; simp⟩
  obtain ⟨d', hd', hw⟩ := foldlM_wrote hpixel (List.range (GSP_SCREEN_WIDTH / step)) h
  rw [List.length_range] at hw
  exact ⟨d', hd', hw⟩

theorem uncompressedEncode_wrote (input : Fin 3 → ℕ → UInt8) {d : WorkerDst} (h : d.Ok P) :
    Wrote P (GSP_SCREEN_WIDTH / 2 * 3) d (uncompressedEncode P input d) := by
  have hx := foldl_wrote (P := P) (n := 3) (f := fun d x =>
    (List.finRange 3).foldl (fun d c => d.writeByte P (input c x)) d) (fun d x hd => by
      have hc := foldl_wrote (P := P) (n := 1) (f := fun d c => d.writeByte P (input c x))
        (fun d c hd => ⟨hd.writeByte _, by simp⟩) (List.finRange 3) hd
      rwa [List.length_finRange] at hc) (List.range (GSP_SCREEN_WIDTH / 2)) h
  rwa [List.length_range] at hx

/-- **The last flush writes nothing**, but sends a packet that is full. -/
theorem reset_flush (P : PacketDataSize) (d : WorkerDst) :
    BitEncoderState.reset.flush P true d = some (if d.free_in_bytes = 0 then d.flush P else d) := by
  have hadv : ∀ d : WorkerDst, d.advanceTo [] = some d := fun d => by simp [WorkerDst.advanceTo]
  have hloop : flushLoop P BitEncoderState.reset.c
      (BIT_BUF_SIZE - BitEncoderState.reset.free_bits : ℤ).toNat
      (EncodeBuffer.init 16 BitEncoderState.reset d true) =
        EncodeBuffer.init 16 BitEncoderState.reset d true := by
    rw [flushLoop]
    rfl
  rw [BitEncoderState.flush, hloop]
  simp only [EncodeBuffer.store, EncodeBuffer.init, OfNat.ofNat_ne_zero, if_false]
  by_cases hbase : d.free_in_bytes < 16 % 2 ^ 16
  · rw [if_pos hbase]
    simp only [WorkerDst.writeBytes, hadv, List.length_nil, Nat.zero_le, if_true]
    rw [if_neg (by decide), if_neg (Nat.not_lt_zero _)]
    split_ifs with h1 h2 <;> first | rfl | omega
  · have hfull : d.free_in_bytes ≠ 0 := fun h0 => hbase (h0 ▸ by decide)
    rw [if_neg hbase, if_neg hfull]
    exact hadv d

theorem processAll_wrote (downsample : Downsample) (even_odd : Bool) (s : SliceData) (height : ℕ)
    {d : WorkerDst} (h : d.Ok P) : ∃ d', processAll P downsample even_odd s height d = some d' ∧
      Wrote P (sliceBytes downsample height) d d' := by
  cases downsample with
  | quarter =>
    have hw := foldl_wrote (P := P) (fun d i hd => uncompressedEncode_wrote (s.quarter i) hd)
      (List.range (height / 2)) h
    rw [List.length_range] at hw
    exact ⟨_, rfl, hw⟩
  | evenOdd =>
    obtain ⟨d', hd', hw⟩ := foldlM_wrote (P := P) (fun d i hd =>
      copyRgb8_wrote (if even_odd then 1 else 0) 2 (s.line i) hd) (List.range height) h
    rw [List.length_range] at hw
    exact ⟨d', hd', hw⟩
  | none | checker =>
    obtain ⟨d', hd', hw⟩ := foldlM_wrote (P := P) (fun d i hd => copyRgb8_wrote 0 1 (s.line i) hd)
      (List.range height) h
    rw [List.length_range] at hw
    exact ⟨d', hd', hw⟩

/-- **A slice leaves as full packets and the rest**, which is less than a packet. -/
theorem losslessEncode_spec (P : PacketDataSize) (downsample : Downsample) (even_odd : Bool)
    (s : SliceData) (height : ℕ) :
    ∃ d, losslessEncode P downsample even_odd s height (freshStart P).dst = some d ∧
      d.sent.map List.length =
        List.replicate (sliceBytes downsample height / P.val) P.val ++
          [sliceBytes downsample height % P.val] := by
  have hP := P.pos
  have hlen0 : (freshStart P).dst.stream.length = 0 := rfl
  obtain ⟨d, hd, hok, hlen⟩ := processAll_wrote downsample even_odd s height (freshStart P).ok
  rw [hlen0, Nat.zero_add] at hlen
  -- after the flush the packet is not full
  obtain ⟨e, he, hok', hlen', hlt⟩ : ∃ e, BitEncoderState.reset.flush P true d = some e ∧ e.Ok P ∧
      e.stream.length = d.stream.length ∧ e.cur.length < P.val := by
    refine ⟨_, reset_flush P d, ?_⟩
    split_ifs with hfull
    · exact ⟨hok.flush hfull, by rw [WorkerDst.stream_flush], hP⟩
    · have hfree := hok.free
      exact ⟨hok, rfl, by omega⟩
  refine ⟨e.term P, ?_, ?_⟩
  · simp only [losslessEncode, hd, Option.bind_eq_bind, Option.bind_some, he]
    rfl
  · have hsent : e.sent.map List.length = List.replicate e.sent.length P.val :=
      List.eq_replicate_iff.mpr ⟨List.length_map _, fun n hn => by
        obtain ⟨p, hp, rfl⟩ := List.mem_map.mp hn
        exact hok'.full p hp⟩
    have htotal : sliceBytes downsample height = P.val * e.sent.length + e.cur.length := by
      rw [← hlen, ← hlen', WorkerDst.stream, List.length_append, List.length_flatten, hsent,
        List.sum_replicate_nat, Nat.mul_comm]
    show (e.sent ++ [e.cur]).map List.length = _
    rw [List.map_append, hsent, htotal, Nat.mul_add_div hP, Nat.div_eq_of_lt hlt, Nat.add_zero,
      Nat.mul_add_mod, Nat.mod_eq_of_lt hlt]
    rfl

end RemotePlay.Udp
