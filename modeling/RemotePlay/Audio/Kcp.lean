import RemotePlay.Audio.Sequence
import RemotePlay.Lib.Words
import Mathlib.Tactic.IntervalCases

/-! # The packets of the audio thread on the reliable stream

`thread_audio_kcp` fills a packet with the frames that follow one another, and sends it when there
is no room for one more, or when a frame was missed: then the packet goes as it is, and the new
frame is left to the next poll.  A bit of the packet says that its first frame does not follow the
last one of the packet before. -/

namespace RemotePlay.Audio

open Lib.Pieces Lib.Words

/-- The first header word has a second one behind it. -/
def EX_HDR_BIT : ℕ := 15
/-- The second word is of version 2. -/
def EXHDR_V2_BIT : ℕ := 14
/-- The second word is of audio. -/
def RP_KCP_EXHDR_AUDIO_SHIFT : ℕ := 15
/-- The largest count of frames. -/
def RP_KCP_EXHDR_AUDIO_COUNT_MASK : ℕ := 3
/-- Where the count of frames is. -/
def RP_KCP_EXHDR_AUDIO_COUNT_SHIFT : ℕ := 12
/-- Where the reprime bit is. -/
def RP_KCP_EXHDR_AUDIO_REPRIME_SHIFT : ℕ := 11

/-- A poll, with what is in the buffer that it is given if it needs one. -/
structure KcpPoll where
  reading : Reading
  mem : ℕ → UInt8

/-- `staging` and `staging_next`, which is an offset. -/
structure KcpStaging where
  bytes : ℕ → UInt8
  next : ℕ

/-- The header of a buffer from `rp_audio_data_buf_malloc`; `staging_hdr2` is at offset 2. -/
def KcpStaging.fresh (mem : ℕ → UInt8) : KcpStaging :=
  ⟨write mem 0 (le16 (1 <<< EX_HDR_BIT)), 4⟩

/-- A frame added. -/
def KcpStaging.push (sg : KcpStaging) (samples : AudioFrame) : KcpStaging :=
  ⟨write sg.bytes sg.next (List.ofFn samples), sg.next + AUDIO_FRAME_BYTES⟩

/-- `staging_left`. -/
def KcpStaging.left (sg : KcpStaging) : ℕ := ARQ_RP_DATA_SIZE - sg.next

/-- The second header. -/
def kcpHdr (count : ℕ) (reprime : Bool) : ℕ :=
  1 <<< RP_KCP_EXHDR_AUDIO_SHIFT ||| 1 <<< EXHDR_V2_BIT |||
    (count &&& RP_KCP_EXHDR_AUDIO_COUNT_MASK) <<< RP_KCP_EXHDR_AUDIO_COUNT_SHIFT |||
    reprime.toNat <<< RP_KCP_EXHDR_AUDIO_REPRIME_SHIFT

/-- The packet: the rest is zeroed, and the second header written. -/
def KcpStaging.packet (sg : KcpStaging) (count : ℕ) (reprime : Bool) : List UInt8 :=
  let bytes := write sg.bytes sg.next (List.replicate sg.left 0)
  let bytes := write bytes 2 (le16 (kcpHdr count reprime))
  read bytes 0 ARQ_RP_DATA_SIZE

/-- The state that `thread_audio_kcp` keeps from poll to poll. -/
structure KcpThread where
  staging : Option KcpStaging
  staging_count : ℕ
  staging_reprime : Bool
  last_fc : UInt16
  have_last : Bool

namespace KcpThread

/-- Nothing is staged, and no frame has been seen. -/
def start : KcpThread := ⟨none, 0, false, 0, false⟩

section

variable (st : KcpThread) (p : KcpPoll)

/-- The staging buffer, a new one if there is none. -/
def buffer : KcpStaging := st.staging.getD (KcpStaging.fresh p.mem)

/-- Nothing to do: the mix has not advanced. -/
def skips : Bool := st.have_last && p.reading.fc == st.last_fc

/-- `fc_diff`. -/
def fcDiff : ℕ := if st.have_last then (p.reading.fc - st.last_fc).toNat else 1

/-- `fc_reprime`. -/
def fcReprime : Bool := decide (st.fcDiff p > 1)

/-- A frame was missed, and what is staged has to go first. -/
def force : Bool := !st.skips p && (st.fcReprime p && decide (st.staging_count > 0))

/-- An iteration of `thread_audio_kcp`, with the packet it enqueues. -/
def poll : KcpThread × Option (List UInt8) :=
  let sg := st.buffer p
  if st.skips p then ({ st with staging := some sg }, none)
  else
    let force := st.fcReprime p && decide (st.staging_count > 0)
    let sg' := if force then sg else sg.push p.reading.samples
    let st' : KcpThread :=
      if force then st
      else
        { staging := none
          staging_count := st.staging_count + 1
          staging_reprime := st.staging_reprime || st.fcReprime p
          last_fc := p.reading.fc
          have_last := true }
    if force ∨ sg'.left < AUDIO_FRAME_BYTES then
      ({ st' with staging := none, staging_count := 0, staging_reprime := false },
        some (sg'.packet st'.staging_count st'.staging_reprime))
    else ({ st' with staging := some sg' }, none)

end

/-- `thread_audio_kcp`: the state it ends in and the packets, by the polls that found the stream
ready. -/
def run : KcpThread → List KcpPoll → KcpThread × List (List UInt8)
  | st, [] => (st, [])
  | st, p :: ps =>
    let (st, pkt) := st.poll p
    let (st, pkts) := run st ps
    (st, pkt.toList ++ pkts)

/-- Which polls force a packet out. -/
def forces : KcpThread → List KcpPoll → List Bool
  | _, [] => []
  | st, p :: ps => st.force p :: forces (st.poll p).1 ps

end KcpThread

/-! ### What the packets should say -/

/-- The second header of a packet. -/
def hdr2 (pkt : List UInt8) : ℕ := (pkt.getD 2 0).toNat + 256 * (pkt.getD 3 0).toNat

/-- The count of frames in the second header. -/
def countField (pkt : List UInt8) : ℕ := hdr2 pkt / 2 ^ 12 % 4

/-- The reprime bit in the second header. -/
def reprimeBit (pkt : List UInt8) : Bool := (hdr2 pkt).testBit 11

/-- The bytes of frames. -/
def frameBytes (frames : List Reading) : List UInt8 := frames.flatMap fun r => List.ofFn r.samples

/-- A packet, and the readings it was made of. -/
structure KcpEmitted where
  pkt : List UInt8
  frames : List Reading

/-- **What a packet is.** -/
structure KcpEmitted.Ok (e : KcpEmitted) : Prop where
  pos : e.frames ≠ []
  consecutive : e.frames.IsChain fun r r' => r'.fc - r.fc = 1
  fits : 4 + e.frames.length * AUDIO_FRAME_BYTES ≤ ARQ_RP_DATA_SIZE
  count : countField e.pkt = e.frames.length
  bytes : e.pkt = le16 (1 <<< EX_HDR_BIT) ++ le16 (hdr2 e.pkt) ++ frameBytes e.frames ++
    List.replicate (ARQ_RP_DATA_SIZE - (4 + e.frames.length * AUDIO_FRAME_BYTES)) 0

/-- What the reprime bit of a packet says of the one before. -/
def KcpEmitted.Follows (e e' : KcpEmitted) : Prop :=
  ∀ r ∈ e.frames.getLast?, ∀ r' ∈ e'.frames.head?, reprimeBit e'.pkt = true ↔ r'.fc - r.fc ≠ 1

/-! ### A packet -/

theorem hdr2_append {x : ℕ} (hx : x < 65536) (y : ℕ) (rest : List UInt8) :
    hdr2 (le16 y ++ le16 x ++ rest) = x := by
  simp only [hdr2, le16, List.cons_append, List.nil_append, List.getD_cons_succ,
    List.getD_cons_zero, UInt8.toNat_ofNat']
  omega

theorem kcpHdr_lt {count : ℕ} (hcount : count ≤ 2) (reprime : Bool) :
    kcpHdr count reprime < 65536 := by
  interval_cases count <;> cases reprime <;> decide

theorem kcpHdr_count {count : ℕ} (hcount : count ≤ 2) (reprime : Bool) :
    kcpHdr count reprime / 2 ^ 12 % 4 = count := by
  interval_cases count <;> cases reprime <;> rfl

theorem kcpHdr_reprime {count : ℕ} (hcount : count ≤ 2) (reprime : Bool) :
    (kcpHdr count reprime).testBit 11 = reprime := by
  interval_cases count <;> cases reprime <;> decide

namespace KcpStaging

variable {sg : KcpStaging} {frames : List Reading}

/-- The frames staged. -/
structure Holds (sg : KcpStaging) (frames : List Reading) : Prop where
  next : sg.next = 4 + frames.length * AUDIO_FRAME_BYTES
  hdr : read sg.bytes 0 2 = le16 (1 <<< EX_HDR_BIT)
  frames : read sg.bytes 4 (frames.length * AUDIO_FRAME_BYTES) = frameBytes frames

theorem fresh_holds (mem : ℕ → UInt8) : (fresh mem).Holds [] := by
  refine ⟨rfl, read_write mem 0 _, ?_⟩
  rw [List.length_nil, Nat.zero_mul]
  rfl

theorem Holds.push (h : sg.Holds frames) (r : Reading) :
    (sg.push r.samples).Holds (frames ++ [r]) := by
  have hlen : (frames ++ [r]).length * AUDIO_FRAME_BYTES =
      frames.length * AUDIO_FRAME_BYTES + AUDIO_FRAME_BYTES := by
    rw [List.length_append, List.length_singleton, Nat.succ_mul]
  have hnext := h.next
  refine ⟨?_, ?_, ?_⟩
  · rw [hlen, KcpStaging.push, hnext, Nat.add_assoc]
  · rw [KcpStaging.push, read_write_of_disjoint (by omega), h.hdr]
  · have hlast := read_write sg.bytes sg.next (List.ofFn r.samples)
    rw [List.length_ofFn, hnext] at hlast
    rw [hlen, read_add, KcpStaging.push, hnext, read_write_of_disjoint (by omega), h.frames, hlast,
      frameBytes, frameBytes, List.flatMap_append, List.flatMap_singleton]

/-- **The packet is right** for the frames staged. -/
theorem Holds.packet (h : sg.Holds frames) (h0 : frames ≠ []) (h2 : frames.length ≤ 2)
    (hchain : frames.IsChain fun r r' => r'.fc - r.fc = 1) (reprime : Bool) :
    KcpEmitted.Ok ⟨sg.packet frames.length reprime, frames⟩ ∧
      reprimeBit (sg.packet frames.length reprime) = reprime := by
  have hnext := h.next
  have hfits : 4 + frames.length * AUDIO_FRAME_BYTES ≤ ARQ_RP_DATA_SIZE :=
    le_trans (Nat.add_le_add_left (Nat.mul_le_mul_right _ h2) 4) (by decide)
  have hsize : ARQ_RP_DATA_SIZE = 2 + 2 + frames.length * AUDIO_FRAME_BYTES + sg.left := by
    rw [left, hnext]
    omega
  have hbytes : sg.packet frames.length reprime = le16 (1 <<< EX_HDR_BIT) ++
      le16 (kcpHdr frames.length reprime) ++ frameBytes frames ++ List.replicate sg.left 0 := by
    have hhdr := read_write (write sg.bytes sg.next (List.replicate sg.left 0)) 2
      (le16 (kcpHdr frames.length reprime))
    have hzero := read_write sg.bytes sg.next (List.replicate sg.left (0 : UInt8))
    rw [length_le16] at hhdr
    rw [List.length_replicate] at hzero
    have hstart : 0 + (2 + 2 + frames.length * AUDIO_FRAME_BYTES) = sg.next := by omega
    unfold KcpStaging.packet
    simp only
    rw [hsize, read_add, read_add, read_add, hstart, read_write_of_disjoint (n := 2) (by omega),
      read_write_of_disjoint (n := 2) (by omega), h.hdr, Nat.zero_add, hhdr,
      read_write_of_disjoint (b := 2) (by rw [length_le16]; omega),
      read_write_of_disjoint (b := sg.next) (by omega), Nat.zero_add, h.frames,
      read_write_of_disjoint (b := 2) (by rw [length_le16]; omega), hzero]
  have hhdr2 : hdr2 (sg.packet frames.length reprime) = kcpHdr frames.length reprime := by
    rw [hbytes, List.append_assoc, hdr2_append (kcpHdr_lt h2 reprime)]
  refine ⟨⟨h0, hchain, hfits, ?_, ?_⟩, ?_⟩
  · rw [countField, hhdr2, kcpHdr_count h2]
  · rw [hhdr2, hbytes, left, hnext]
  · rw [reprimeBit, hhdr2, kcpHdr_reprime h2]

end KcpStaging

/-! ### Changes of the counter -/

/-- The readings that show a new frame, after one with the counter `last`. -/
def changes : Option UInt16 → List Reading → List Reading
  | _, [] => []
  | last, r :: rs => if last = some r.fc then changes last rs else r :: changes (some r.fc) rs

theorem changes_cons (last : Option UInt16) (r : Reading) (rs : List Reading) :
    changes last (r :: rs) = changes last [r] ++ changes (some r.fc) rs := by
  simp only [changes]
  split_ifs with h
  · rw [h, List.nil_append]
  · rfl

theorem cons_changes (r : Reading) (rs : List Reading) :
    r :: changes (some r.fc) rs = rs.destutter' (fun r r' => r.fc ≠ r'.fc) r := by
  induction rs generalizing r with
  | nil => rfl
  | cons r' rs ih =>
    rw [changes, List.destutter'_cons]
    by_cases h : r.fc = r'.fc
    · rw [if_pos (congrArg some h), if_neg (not_not_intro h), ← ih]
    · rw [if_neg fun hs => h (Option.some.inj hs), if_pos h, ih]

theorem captured_eq_changes (rs : List Reading) : captured rs = changes none rs := by
  rcases rs with _ | ⟨r, rs⟩
  · rfl
  · exact (cons_changes r rs).symm

/-! ### One poll -/

namespace KcpThread

/-- The counter of the last frame taken. -/
def lastFc (st : KcpThread) : Option UInt16 := if st.have_last then some st.last_fc else none

/-- The readings of the polls that did not force a packet out. -/
def kept (st : KcpThread) (ps : List KcpPoll) : List Reading :=
  ((ps.zip (st.forces ps)).filter fun x => !x.2).map fun x => x.1.reading

/-- Packets sent, and frames staged. -/
structure Inv (st : KcpThread) (es : List KcpEmitted) (staged : List Reading) : Prop where
  ok : ∀ e ∈ es, e.Ok
  follows : es.IsChain KcpEmitted.Follows
  buffer : st.staging = none ∧ staged = [] ∨ ∃ sg, st.staging = some sg ∧ sg.Holds staged
  count : st.staging_count = staged.length
  le : staged.length ≤ 1
  last : st.lastFc = (es.flatMap KcpEmitted.frames ++ staged).getLast?.map Reading.fc
  fresh : staged = [] → st.staging_reprime = false
  reprime : ∀ r ∈ staged.head?, (st.staging_reprime = true ↔
    ∃ r₀ ∈ (es.flatMap KcpEmitted.frames).getLast?, r.fc - r₀.fc ≠ 1)

theorem start_inv : Inv start [] [] :=
  ⟨fun _ he => absurd he List.not_mem_nil, .nil, Or.inl ⟨rfl, rfl⟩, rfl, Nat.zero_le _, rfl,
    fun _ => rfl, fun _ hr => absurd hr (Option.not_mem_none _)⟩

variable {st : KcpThread} {es : List KcpEmitted} {staged : List Reading} {p : KcpPoll}

theorem Inv.holds (h : Inv st es staged) (p : KcpPoll) : (st.buffer p).Holds staged := by
  obtain ⟨hnone, rfl⟩ | ⟨sg, hsome, hsg⟩ := h.buffer
  · rw [KcpThread.buffer, hnone]
    exact KcpStaging.fresh_holds p.mem
  · rw [KcpThread.buffer, hsome]
    exact hsg

theorem skips_iff : st.skips p = true ↔ st.lastFc = some p.reading.fc := by
  unfold skips lastFc
  rcases st.have_last
  · simp only [Bool.false_and, Bool.false_eq_true, ↓reduceIte, reduceCtorEq]
  · simp only [Bool.true_and, beq_iff_eq, ↓reduceIte, Option.some.injEq]
    exact eq_comm

theorem fcReprime_iff (h : st.skips p = false) :
    st.fcReprime p = true ↔ ∃ fc ∈ st.lastFc, p.reading.fc - fc ≠ 1 := by
  unfold skips at h
  unfold fcReprime fcDiff lastFc
  cases hl : st.have_last
  · simp
  · have hne : p.reading.fc ≠ st.last_fc := by
      rintro heq
      rw [hl, heq] at h
      simp at h
    have hpos := AudioThread.toNat_sub_pos hne
    have hone : p.reading.fc - st.last_fc = 1 ↔ (p.reading.fc - st.last_fc).toNat = 1 :=
      UInt16.toNat_inj.symm
    simp only [↓reduceIte, decide_eq_true_eq, Option.mem_def, Option.some.injEq,
      exists_eq_left', ne_eq, hone]
    omega

theorem Inv.flush {g : List Reading} {r₀ : Reading} {sg : KcpStaging} {st' : KcpThread}
    (h : Inv st es [r₀]) (hsg : sg.Holds g) (hhead : g.head? = some r₀) (hle : g.length ≤ 2)
    (hchain : g.IsChain fun r r' => r'.fc - r.fc = 1)
    (hlast : st'.lastFc = g.getLast?.map Reading.fc)
    (hstaging : st'.staging = none) (hcount : st'.staging_count = 0)
    (hreprime : st'.staging_reprime = false) :
    Inv st' (es ++ [⟨sg.packet g.length st.staging_reprime, g⟩]) [] := by
  have hne : g ≠ [] := by
    rintro rfl
    cases hhead
  obtain ⟨hok, hbit⟩ := hsg.packet hne hle hchain st.staging_reprime
  refine ⟨?_, ?_, Or.inl ⟨hstaging, rfl⟩, hcount, Nat.zero_le _, ?_, fun _ => hreprime,
    fun _ hr => absurd hr (Option.not_mem_none _)⟩
  · intro _ he
    rcases List.mem_append.mp he with he | he
    · exact h.ok _ he
    · rw [List.mem_singleton.mp he]
      exact hok
  · refine List.isChain_append.mpr ⟨h.follows, List.isChain_singleton _, ?_⟩
    rintro e he e' he' r hr r' hr'
    obtain rfl := Option.some.inj he'
    obtain rfl : r₀ = r' := Option.some.inj (hhead.symm.trans hr')
    have hprev : (es.flatMap KcpEmitted.frames).getLast? = some r := by
      obtain ⟨es', rfl⟩ := List.getLast?_eq_some_iff.mp he
      rw [List.flatMap_append, List.flatMap_singleton, List.getLast?_append, hr]
      rfl
    dsimp only
    rw [hbit, h.reprime r₀ rfl, hprev]
    simp only [Option.mem_def, Option.some.injEq, exists_eq_left']
  · rw [List.append_nil, List.flatMap_append, List.flatMap_singleton, List.getLast?_append, hlast]
    rcases hg : g.getLast? with _ | r
    · exact absurd (List.getLast?_eq_none_iff.mp hg) hne
    · rfl

theorem poll_of_skips (h : st.skips p = true) :
    st.poll p = ({ st with staging := some (st.buffer p) }, none) := by
  unfold KcpThread.poll
  simp only [h, ↓reduceIte]

theorem poll_of_force (h : st.force p = true) :
    st.poll p = ({ st with staging := none, staging_count := 0, staging_reprime := false },
      some ((st.buffer p).packet st.staging_count st.staging_reprime)) := by
  unfold force at h
  rw [Bool.and_eq_true, Bool.not_eq_true'] at h
  unfold KcpThread.poll
  simp only [h.1, h.2, Bool.false_eq_true, ↓reduceIte, true_or]

theorem poll_of_takes (hs : st.skips p = false) (hf : st.force p = false) :
    st.poll p =
      let sg := (st.buffer p).push p.reading.samples
      let st' : KcpThread :=
        ⟨none, st.staging_count + 1, st.staging_reprime || st.fcReprime p, p.reading.fc, true⟩
      if sg.left < AUDIO_FRAME_BYTES then
        ({ st' with staging_count := 0, staging_reprime := false },
          some (sg.packet st'.staging_count st'.staging_reprime))
      else ({ st' with staging := some sg }, none) := by
  unfold force at hf
  rw [hs, Bool.not_false, Bool.true_and] at hf
  unfold KcpThread.poll
  simp only [hs, hf, Bool.false_eq_true, ↓reduceIte, false_or]

/-- **What a poll does to the packets and frames.** -/
theorem Inv.poll (h : Inv st es staged) (p : KcpPoll) :
    ∃ es' staged', Inv (st.poll p).1 (es ++ es') staged' ∧
      (st.poll p).2.toList = es'.map KcpEmitted.pkt ∧
      (es ++ es').flatMap KcpEmitted.frames ++ staged' =
        es.flatMap KcpEmitted.frames ++ staged ++
          if st.force p then [] else changes st.lastFc [p.reading] := by
  have hsg := h.holds p
  by_cases hs : st.skips p = true
  · have hf : st.force p = false := by
      unfold force
      rw [hs]
      rfl
    have hsame : changes st.lastFc [p.reading] = [] := by
      rw [changes, if_pos (skips_iff.mp hs)]
      rfl
    rw [poll_of_skips hs, hf]
    refine ⟨[], staged, ?_, rfl, ?_⟩
    · rw [List.append_nil]
      exact { h with buffer := Or.inr ⟨_, rfl, hsg⟩ }
    · rw [if_neg Bool.false_ne_true, hsame, List.append_nil, List.append_nil]
  rw [Bool.not_eq_true] at hs
  by_cases hf : st.force p = true
  · have hcount : 0 < st.staging_count := by
      unfold force at hf
      rw [Bool.and_eq_true, Bool.and_eq_true, decide_eq_true_eq] at hf
      exact hf.2.2
    obtain ⟨r₀, rfl⟩ : ∃ r₀, staged = [r₀] :=
      List.length_eq_one_iff.mp (by have := h.count; have := h.le; omega)
    rw [poll_of_force hf, h.count]
    refine ⟨[⟨(st.buffer p).packet [r₀].length st.staging_reprime, [r₀]⟩], [],
      h.flush hsg rfl (by simp) (List.isChain_singleton _) ?_ rfl rfl rfl, ?_, ?_⟩
    · exact h.last.trans (by rw [List.getLast?_append, List.getLast?_singleton, Option.some_or])
    · simp only [Option.toList_some, List.map_cons, List.map_nil]
    · rw [if_pos hf, List.append_nil, List.append_nil, List.flatMap_append, List.flatMap_singleton]
  rw [Bool.not_eq_true] at hf
  have hnew : changes st.lastFc [p.reading] = [p.reading] := by
    have hne : st.lastFc ≠ some p.reading.fc := by
      intro heq
      rw [skips_iff.mpr heq] at hs
      cases hs
    rw [changes, if_neg hne]
    rfl
  have hpush := hsg.push p.reading
  have hnext := hpush.next
  have hreprime := fcReprime_iff hs
  rw [h.last] at hreprime
  rw [poll_of_takes hs hf, hf, hnew, if_neg Bool.false_ne_true]
  rcases staged with _ | ⟨r₀, _ | ⟨r₁, staged⟩⟩
  · -- the first frame of a packet, which leaves room for another
    have hroom : ¬((st.buffer p).push p.reading.samples).left < AUDIO_FRAME_BYTES := by
      rw [KcpStaging.left, hnext]
      exact (by decide : ¬ARQ_RP_DATA_SIZE - (4 + 1 * AUDIO_FRAME_BYTES) < AUDIO_FRAME_BYTES)
    simp only [if_neg hroom]
    refine ⟨[], [p.reading], ?_, rfl, by simp only [List.append_nil]⟩
    rw [List.append_nil] at hreprime ⊢
    refine ⟨h.ok, h.follows, Or.inr ⟨_, rfl, hpush⟩, ?_, le_rfl, ?_, ?_, ?_⟩
    · rw [h.count]
      rfl
    · rw [List.getLast?_append, List.getLast?_singleton, Option.some_or]
      rfl
    · intro h0
      cases h0
    · rintro r hr
      obtain rfl := Option.some.inj hr
      rw [h.fresh rfl, Bool.false_or, hreprime]
      simp only [Option.mem_def, Option.map_eq_some_iff, exists_exists_and_eq_and]
  · -- the second one
    have hfull : ((st.buffer p).push p.reading.samples).left < AUDIO_FRAME_BYTES := by
      rw [KcpStaging.left, hnext]
      exact (by decide : ARQ_RP_DATA_SIZE - (4 + 2 * AUDIO_FRAME_BYTES) < AUDIO_FRAME_BYTES)
    have hfalse : st.fcReprime p = false := by
      unfold force at hf
      rw [hs, h.count] at hf
      simpa using hf
    have hone : p.reading.fc - r₀.fc = 1 := by
      by_contra hne
      rw [hfalse, List.getLast?_append, List.getLast?_singleton, Option.some_or] at hreprime
      exact Bool.false_ne_true (hreprime.mpr ⟨r₀.fc, rfl, hne⟩)
    simp only [if_pos hfull, hfalse, Bool.or_false, h.count]
    refine ⟨[⟨((st.buffer p).push p.reading.samples).packet ([r₀] ++ [p.reading]).length
      st.staging_reprime, [r₀] ++ [p.reading]⟩], [], h.flush hpush rfl le_rfl ?_ rfl rfl rfl
        rfl, ?_, ?_⟩
    · exact List.isChain_pair.mpr hone
    · simp only [Option.toList_some, List.map_cons, List.map_nil, List.length_append,
        List.length_singleton]
    · rw [List.append_nil, List.flatMap_append, List.flatMap_singleton, List.append_assoc]
  · exact absurd h.le (by simp)

/-- A packet is forced out when one frame is staged and the counter is neither its own nor the
next. -/
theorem Inv.force_iff (h : Inv st es staged) : st.force p = true ↔
    ∃ r ∈ staged.getLast?, p.reading.fc ≠ r.fc ∧ p.reading.fc - r.fc ≠ 1 := by
  have hcount := h.count
  rcases hg : staged.getLast? with _ | r
  · rw [List.getLast?_eq_none_iff.mp hg] at hcount
    unfold force
    simp [hcount]
  · have hpos : 0 < st.staging_count := by
      rw [hcount]
      exact List.length_pos_iff.mpr fun h0 => by simp [h0] at hg
    have hlast : st.lastFc = some r.fc := by
      rw [h.last, List.getLast?_append, hg]
      rfl
    have hne : st.skips p = false ↔ p.reading.fc ≠ r.fc := by
      rw [← Bool.not_eq_true, skips_iff, hlast, Option.some.injEq, ne_comm]
    unfold force
    rw [Bool.and_eq_true, Bool.and_eq_true, Bool.not_eq_true', decide_eq_true hpos]
    simp only [and_true, Option.mem_def, Option.some.injEq, exists_eq_left']
    rw [← hne]
    refine and_congr_right fun hs => ?_
    rw [fcReprime_iff hs, hlast]
    simp only [Option.mem_def, Option.some.injEq, exists_eq_left']

theorem force_next (h : st.force p = true) (p' : KcpPoll) : (st.poll p).1.force p' = false := by
  rw [poll_of_force h]
  unfold force
  simp

/-! ### Whole runs -/

theorem forces_isChain (st : KcpThread) (ps : List KcpPoll) :
    (st.forces ps).IsChain fun a b => ¬(a = true ∧ b = true) := by
  induction ps generalizing st with
  | nil => exact .nil
  | cons p ps ih =>
    have hrest := ih (st.poll p).1
    rcases ps with _ | ⟨p', ps⟩
    · exact List.isChain_singleton _
    · refine List.isChain_cons_cons.mpr ⟨?_, hrest⟩
      rintro ⟨h, h'⟩
      rw [force_next h p'] at h'
      cases h'

theorem kept_cons (st : KcpThread) (p : KcpPoll) (ps : List KcpPoll) :
    st.kept (p :: ps) = (if st.force p then [] else [p.reading]) ++ (st.poll p).1.kept ps := by
  unfold kept
  rw [forces, List.zip_cons_cons, List.filter_cons]
  by_cases hf : st.force p = true
  · simp only [hf, Bool.not_true, Bool.false_eq_true, ↓reduceIte, List.nil_append]
  · rw [Bool.not_eq_true] at hf
    simp only [hf, Bool.not_false, Bool.false_eq_true, ↓reduceIte, List.map_cons,
      List.singleton_append]

theorem lastFc_poll (st : KcpThread) (p : KcpPoll) :
    (st.poll p).1.lastFc = if st.force p then st.lastFc else some p.reading.fc := by
  by_cases hf : st.force p = true
  · rw [poll_of_force hf, if_pos hf]
    rfl
  rw [if_neg hf]
  by_cases hs : st.skips p = true
  · rw [poll_of_skips hs]
    exact skips_iff.mp hs
  · rw [Bool.not_eq_true] at hs hf
    rw [poll_of_takes hs hf]
    simp only
    split_ifs
    · rfl
    · rfl

theorem Inv.run (h : Inv st es staged) (ps : List KcpPoll) :
    ∃ es' staged', Inv (st.run ps).1 (es ++ es') staged' ∧ (st.run ps).2 = es'.map KcpEmitted.pkt ∧
      (es ++ es').flatMap KcpEmitted.frames ++ staged' =
        es.flatMap KcpEmitted.frames ++ staged ++ changes st.lastFc (st.kept ps) := by
  induction ps generalizing st es staged with
  | nil =>
    refine ⟨[], staged, by rwa [List.append_nil], rfl, ?_⟩
    rw [List.append_nil]
    exact (List.append_nil _).symm
  | cons p ps ih =>
    obtain ⟨es₁, staged₁, h₁, hpkt₁, hframes₁⟩ := h.poll p
    obtain ⟨es₂, staged₂, h₂, hpkt₂, hframes₂⟩ := ih h₁
    refine ⟨es₁ ++ es₂, staged₂, ?_, ?_, ?_⟩
    · rw [← List.append_assoc]
      exact h₂
    · rw [List.map_append, ← hpkt₁, ← hpkt₂]
      rfl
    · rw [← List.append_assoc, hframes₂, hframes₁, kept_cons, lastFc_poll, List.append_assoc]
      congr 1
      by_cases hf : st.force p = true
      · simp only [hf, ↓reduceIte, List.nil_append]
      · rw [if_neg hf, if_neg hf, if_neg hf, List.singleton_append, ← changes_cons]

end KcpThread

/-- **What is asked of the packets**, and of the frames that are still staged. -/
structure KcpLaw (ps : List KcpPoll) (es : List KcpEmitted) (staged : List Reading) : Prop where
  packets : (KcpThread.start.run ps).2 = es.map KcpEmitted.pkt
  ok : ∀ e ∈ es, e.Ok
  reprime : es.IsChain KcpEmitted.Follows
  frames : es.flatMap KcpEmitted.frames ++ staged = captured (KcpThread.start.kept ps)
  staging : ∀ sg, (KcpThread.start.run ps).1.staging = some sg → sg.Holds staged
  room : 4 + (staged.length + 1) * AUDIO_FRAME_BYTES ≤ ARQ_RP_DATA_SIZE
  forces : ∀ p, (KcpThread.start.run ps).1.force p = true ↔
    ∃ r ∈ staged.getLast?, p.reading.fc ≠ r.fc ∧ p.reading.fc - r.fc ≠ 1

/-- **The packets of the reliable stream are right** for every sequence of readings.  Each is of one
or more frames that follow one another, says how many, and whether the first one follows the packet
before; and the frames sent and staged are the changes of the counter, each once and in order, but
for those seen only by a poll that forces a packet out, after which the next poll does not. -/
theorem kcpLaw (ps : List KcpPoll) :
    (∃ es staged, KcpLaw ps es staged) ∧
      (KcpThread.start.forces ps).IsChain fun a b => ¬(a = true ∧ b = true) := by
  obtain ⟨es, staged, h, hpkts, hframes⟩ := KcpThread.start_inv.run ps
  rw [List.nil_append] at h hframes
  refine ⟨⟨es, staged, hpkts, h.ok, h.follows, ?_, ?_, ?_, fun p => h.force_iff⟩,
    KcpThread.forces_isChain _ ps⟩
  · rw [hframes, captured_eq_changes]
    rfl
  · rintro sg hsg
    obtain ⟨hnone, -⟩ | ⟨sg', hsome, hholds⟩ := h.buffer
    · rw [hnone] at hsg
      cases hsg
    · rw [Option.some.inj (hsg.symm.trans hsome)]
      exact hholds
  · exact le_trans (Nat.add_le_add_left (Nat.mul_le_mul_right _ (Nat.succ_le_succ h.le)) 4)
      (by decide)

end RemotePlay.Audio
