import RemotePlay.Audio.Queue
import RemotePlay.Lib.Pieces
import Mathlib.Data.List.Destutter

/-! # The packets of the audio thread

The audio thread polls the frame counters of the two regions of the sound processor, and sends a
packet whenever the newer of the two has moved on.  A packet holds two frames, the newest one in the
last slot, and `hdr[0]` is to number its newest frame.

The payload is right for every sequence of readings.  The number is not: after a gap `hdr[0]` jumps
but `seq`, which the next packet starts from, does not (`seqLaw_iff`). -/

namespace RemotePlay.Audio

open Lib.Pieces

/-- The type of an audio packet. -/
def AUDIO_HDR_TYPE : UInt8 := 4
/-- The format: samples of 16 bits. -/
def AUDIO_FMT_PCM16 : UInt8 := 0
/-- A gap of so many frames or more is reported as half of the range. -/
def SEQ_GAP_SAFE : ℕ := 32

/-- A frame of samples, by its bytes. -/
abbrev AudioFrame := Fin AUDIO_FRAME_BYTES → UInt8

/-- What the audio thread reads of a region of the sound processor. -/
structure DspRegion where
  frame_counter : UInt16
  final_samples : AudioFrame

/-- The two regions of the sound processor. -/
inductive RegionId
  | region0
  | region1

/-- Fresher region by frame counter. -/
def newerRegion (fc0 fc1 : UInt16) : RegionId :=
  if fc1 ≠ fc0 ∧ fc1 - fc0 < 0x8000 then .region1 else .region0

/-- A poll of the two regions. -/
structure Reading where
  region0 : DspRegion
  region1 : DspRegion

namespace Reading

variable (r : Reading)

/-- `src`, the fresher region. -/
def src : DspRegion :=
  match newerRegion r.region0.frame_counter r.region1.frame_counter with
  | .region0 => r.region0
  | .region1 => r.region1

/-- `fc`, its frame counter. -/
def fc : UInt16 := r.src.frame_counter
/-- Its samples. -/
def samples : AudioFrame := r.src.final_samples

end Reading

/-! ### The staging buffer -/

/-- The payload, after the header in the staging buffer. -/
def payload : ℕ := DATA_HDR_SIZE

/-- The payload's last slot. -/
def newestSlot : ℕ := payload + (AUDIO_REDUNDANCY - 1) * AUDIO_FRAME_BYTES

/-- The oldest frames are dropped, as many as the frame counter has advanced. -/
def shiftFrames (staging : ℕ → UInt8) (fc_diff : ℕ) : ℕ → UInt8 :=
  if fc_diff < AUDIO_REDUNDANCY then
    write staging payload (read staging (payload + AUDIO_FRAME_BYTES * fc_diff)
      ((AUDIO_REDUNDANCY - fc_diff) * AUDIO_FRAME_BYTES))
  else staging

/-- Frames that were missed are silent. -/
def silence (staging : ℕ → UInt8) (fc_gap : ℕ) : ℕ → UInt8 :=
  if 0 < fc_gap then
    write staging (newestSlot - AUDIO_FRAME_BYTES * fc_gap)
      (List.replicate (AUDIO_FRAME_BYTES * fc_gap) (UInt8.ofNat 0))
  else staging

/-- `fc_gap`: how many of the slots before the newest were missed. -/
def fcGap (fc_diff : ℕ) : ℕ := min fc_diff AUDIO_REDUNDANCY - 1

/-- The frames are shifted, those missed are silenced, and the new one is put last. -/
def pushFrame (staging : ℕ → UInt8) (fc_diff : ℕ) (samples : AudioFrame) : ℕ → UInt8 :=
  write (silence (shiftFrames staging fc_diff) (fcGap fc_diff)) newestSlot (List.ofFn samples)

/-- What is added to `seq` in a packet's header. -/
def seqJump (fc_diff : ℕ) : UInt8 :=
  if fc_diff < SEQ_GAP_SAFE then UInt8.ofNat (fcGap fc_diff) else UInt8.ofNat (255 / 2)

/-- The staging buffer's bytes. -/
def packetOf (staging : ℕ → UInt8) : AudioPkt := fun i => staging i

/-! ### The thread -/

/-- The state that `thread_audio` keeps from poll to poll. -/
structure AudioThread where
  staging : ℕ → UInt8
  seq : UInt8
  last_fc : UInt16
  have_last : Bool

namespace AudioThread

/-- A header and silence, before any frame has been seen. -/
def start : AudioThread where
  staging i := if i = 2 then AUDIO_HDR_TYPE else if i = 3 then AUDIO_FMT_PCM16 else UInt8.ofNat 0
  seq := 0
  last_fc := 0
  have_last := false

variable (st : AudioThread)

/-- `fc_diff`. -/
def fcDiff (fc : UInt16) : ℕ := if st.have_last = true then (fc - st.last_fc).toNat else 1

/-- The staging buffer with the next packet. -/
def staged (r : Reading) : ℕ → UInt8 :=
  Function.update (pushFrame st.staging (st.fcDiff r.fc) r.samples) 0
    (st.seq + seqJump (st.fcDiff r.fc))

/-- An iteration of `thread_audio`, with the packet it enqueues. -/
def poll (r : Reading) : AudioThread × Option AudioPkt :=
  if st.have_last = true ∧ r.fc = st.last_fc then (st, none)
  else
    ({ staging := st.staged r, seq := st.seq + 1, last_fc := r.fc, have_last := true },
      some (packetOf (st.staged r)))

/-- A packet, and the reading it was made of. -/
structure Emitted where
  reading : Reading
  pkt : AudioPkt

/-- `thread_audio`. -/
def run : AudioThread → List Reading → List Emitted
  | _, [] => []
  | st, r :: rs =>
    match st.poll r with
    | (st, none) => run st rs
    | (st, some pkt) => ⟨r, pkt⟩ :: run st rs

end AudioThread

/-! ### What the packets should say -/

/-- A byte of a packet. -/
def byteAt (pkt : AudioPkt) (x : ℕ) : UInt8 :=
  if h : x < AUDIO_PKT_SIZE then pkt ⟨x, h⟩ else UInt8.ofNat 0

/-- A slot of a packet's payload. -/
def slot (pkt : AudioPkt) (k : ℕ) : AudioFrame := fun i =>
  byteAt pkt (payload + k * AUDIO_FRAME_BYTES + i)

namespace AudioThread.Emitted

variable (e e' : Emitted)

/-- The newer of the two frames in the packet. -/
def newest : AudioFrame := slot e.pkt 1
/-- The older of the two frames in the packet. -/
def older : AudioFrame := slot e.pkt 0
/-- The sequence number in the packet. -/
def hdr0 : UInt8 := byteAt e.pkt 0

/-- How far `hdr[0]` advances from a packet to another. -/
def advance : ℕ := (e'.hdr0 - e.hdr0).toNat

/-- A packet is right after another. -/
structure Follows : Prop where
  older : e'.older = if e'.reading.fc - e.reading.fc = 1 then e.reading.samples else fun _ => 0
  advance_pos : 1 ≤ advance e e'
  advance_le : advance e e' ≤ 128
  advance_eq : e'.reading.fc - e.reading.fc = 1 → advance e e' = 1
  advance_gap : e'.reading.fc - e.reading.fc ≠ 1 → 1 < advance e e'

end AudioThread.Emitted

/-- **What is asked of the packets.** -/
structure SeqLaw (es : List AudioThread.Emitted) : Prop where
  newest : ∀ e ∈ es, e.newest = e.reading.samples
  first : ∀ e ∈ es.head?, e.older = fun _ => 0
  follows : es.IsChain AudioThread.Emitted.Follows

/-- The readings that show a new frame. -/
def captured (rs : List Reading) : List Reading := rs.destutter fun r r' => r.fc ≠ r'.fc

/-- How far the frame counter advances from one reading to the next. -/
def gapsFrom (last : UInt16) : List Reading → List ℕ
  | [] => []
  | r :: rs => (r.fc - last).toNat :: gapsFrom r.fc rs

/-- How far the frame counter advances from capture to capture, and one for the first of them. -/
def gaps : List Reading → List ℕ
  | [] => []
  | r :: rs => 1 :: gapsFrom r.fc rs

/-- `hdr[0]` of a packet after a gap is right only if the next gap is a long one. -/
def GapOk (d d' : ℕ) : Prop := d = 1 ∨ d < SEQ_GAP_SAFE ∧ SEQ_GAP_SAFE ≤ d'

/-! ### The payload -/

theorem pushFrame_newest (m : ℕ → UInt8) (d : ℕ) (samples : AudioFrame)
    (i : Fin AUDIO_FRAME_BYTES) : pushFrame m d samples (newestSlot + i) = samples i :=
  write_ofFn _ _ _ _

theorem pushFrame_older_one (m : ℕ → UInt8) (samples : AudioFrame) (i : Fin AUDIO_FRAME_BYTES) :
    pushFrame m 1 samples (payload + i) = m (newestSlot + i) := by
  have hi : payload + (i : ℕ) < newestSlot := by
    have := i.isLt
    simp only [newestSlot, AUDIO_REDUNDANCY]
    omega
  have hlt : (i : ℕ) < (AUDIO_REDUNDANCY - 1) * AUDIO_FRAME_BYTES := by
    rw [show (AUDIO_REDUNDANCY - 1) * AUDIO_FRAME_BYTES = AUDIO_FRAME_BYTES by decide]
    exact i.isLt
  rw [pushFrame, write_of_lt hi, silence, if_neg (by decide), shiftFrames, if_pos (by decide)]
  refine Option.some.inj ((write_at (by rwa [length_read])).trans ?_)
  exact getElem?_read hlt

theorem pushFrame_older_gap (m : ℕ → UInt8) {d : ℕ} (hd : 1 < d) (samples : AudioFrame)
    (i : Fin AUDIO_FRAME_BYTES) : pushFrame m d samples (payload + i) = 0 := by
  have hi : payload + (i : ℕ) < newestSlot := by
    have := i.isLt
    simp only [newestSlot, AUDIO_REDUNDANCY]
    omega
  have hgap : fcGap d = 1 := by
    simp only [fcGap, AUDIO_REDUNDANCY]
    omega
  rw [pushFrame, write_of_lt hi, silence, hgap, if_pos Nat.one_pos,
    show newestSlot - AUDIO_FRAME_BYTES * 1 = payload from rfl]
  refine Option.some.inj
    ((write_at (by rw [List.length_replicate, Nat.mul_one]; exact i.isLt)).trans ?_)
  rw [List.getElem?_replicate, if_pos (by rw [Nat.mul_one]; exact i.isLt)]
  rfl

/-! ### The number -/

theorem seqJump_one : seqJump 1 = 0 := rfl

theorem seqJump_short {d : ℕ} (h1 : 1 < d) (h2 : d < SEQ_GAP_SAFE) : seqJump d = 1 := by
  have hgap : fcGap d = 1 := by
    simp only [fcGap, AUDIO_REDUNDANCY]
    omega
  rw [seqJump, if_pos h2, hgap]
  rfl

theorem seqJump_long {d : ℕ} (h : SEQ_GAP_SAFE ≤ d) : seqJump d = 127 := if_neg (not_lt.mpr h)

theorem byteAt_packetOf (m : ℕ → UInt8) {x : ℕ} (h : x < AUDIO_PKT_SIZE) :
    byteAt (packetOf m) x = m x := dif_pos h

theorem gap_cases {d : ℕ} (h : 1 ≤ d) :
    d = 1 ∨ (1 < d ∧ d < SEQ_GAP_SAFE) ∨ SEQ_GAP_SAFE ≤ d := by omega

/-- **When the number is right**, of two gaps that follow one another. -/
theorem advance_iff {d d' : ℕ} (hd : 1 ≤ d) (hd' : 1 ≤ d') :
    (1 ≤ (1 + seqJump d' - seqJump d).toNat ∧ (1 + seqJump d' - seqJump d).toNat ≤ 128 ∧
      (d' = 1 → (1 + seqJump d' - seqJump d).toNat = 1) ∧
      (d' ≠ 1 → 1 < (1 + seqJump d' - seqJump d).toNat)) ↔ GapOk d d' := by
  have hsafe : 1 < SEQ_GAP_SAFE := by decide
  unfold GapOk
  rcases gap_cases hd with rfl | ⟨h1, h2⟩ | h1
  · refine iff_of_true ?_ (Or.inl rfl)
    rcases gap_cases hd' with rfl | ⟨h1', h2'⟩ | h1'
    · rw [seqJump_one]
      decide
    · rw [seqJump_one, seqJump_short h1' h2']
      exact ⟨by decide, by decide, fun h => absurd h h1'.ne', fun _ => by decide⟩
    · rw [seqJump_one, seqJump_long h1']
      exact ⟨by decide, by decide, fun h => absurd h (hsafe.trans_le h1').ne', fun _ => by decide⟩
  · rw [seqJump_short h1 h2]
    rcases gap_cases hd' with rfl | ⟨h1', h2'⟩ | h1'
    · refine iff_of_false (fun h => absurd h.1 (by decide)) (by omega)
    · rw [seqJump_short h1' h2']
      refine iff_of_false (fun h => absurd (h.2.2.2 h1'.ne') (by decide)) (by omega)
    · rw [seqJump_long h1']
      refine iff_of_true ?_ (Or.inr ⟨h2, h1'⟩)
      exact ⟨by decide, by decide, fun h => absurd h (hsafe.trans_le h1').ne', fun _ => by decide⟩
  · rw [seqJump_long h1]
    refine iff_of_false (fun h => ?_) (by omega)
    rcases gap_cases hd' with rfl | ⟨h1', h2'⟩ | h1'
    · exact absurd h.2.1 (by decide)
    · rw [seqJump_short h1' h2'] at h
      exact absurd h.2.1 (by decide)
    · rw [seqJump_long h1'] at h
      exact absurd (h.2.2.2 (hsafe.trans_le h1').ne') (by decide)

/-! ### One poll -/

namespace AudioThread

variable {st : AudioThread} {r : Reading} {e : Emitted} {d : ℕ}

variable (st e d) in
/-- The thread's state after a packet; `d` is the gap before it. -/
structure After : Prop where
  have_last : st.have_last = true
  last_fc : st.last_fc = e.reading.fc
  staging : ∀ i : Fin AUDIO_FRAME_BYTES, st.staging (newestSlot + i) = e.reading.samples i
  hdr0 : st.seq + seqJump d = e.hdr0 + 1
  gap_pos : 1 ≤ d

theorem staged_newest (i : Fin AUDIO_FRAME_BYTES) : st.staged r (newestSlot + i) = r.samples i := by
  rw [staged, Function.update_of_ne (by simp only [newestSlot, payload, DATA_HDR_SIZE]; omega)]
  exact pushFrame_newest _ _ _ _

theorem staged_older (i : Fin AUDIO_FRAME_BYTES) : st.staged r (payload + i) =
    pushFrame st.staging (st.fcDiff r.fc) r.samples (payload + i) :=
  Function.update_of_ne (by simp only [payload, DATA_HDR_SIZE]; omega) _ _

theorem staged_zero : st.staged r 0 = st.seq + seqJump (st.fcDiff r.fc) :=
  Function.update_self _ _ _

/-- The packet of a poll. -/
def emit (st : AudioThread) (r : Reading) : Emitted := ⟨r, packetOf (st.staged r)⟩

theorem newest_emit : (emit st r).newest = r.samples := by
  funext i
  refine (byteAt_packetOf _ ?_).trans (staged_newest i)
  have := i.isLt
  simp only [newestSlot, payload, DATA_HDR_SIZE, AUDIO_PKT_SIZE, AUDIO_PAYLOAD_BYTES,
    AUDIO_REDUNDANCY, AUDIO_FRAME_BYTES] at this ⊢
  omega

theorem older_emit (i : Fin AUDIO_FRAME_BYTES) : (emit st r).older i =
    pushFrame st.staging (st.fcDiff r.fc) r.samples (payload + i) := by
  have hi : payload + 0 * AUDIO_FRAME_BYTES + (i : ℕ) < AUDIO_PKT_SIZE := by
    have := i.isLt
    simp only [payload, DATA_HDR_SIZE, AUDIO_PKT_SIZE, AUDIO_PAYLOAD_BYTES, AUDIO_REDUNDANCY,
      AUDIO_FRAME_BYTES] at this ⊢
    omega
  unfold Emitted.older slot
  rw [emit, byteAt_packetOf _ hi, Nat.zero_mul, Nat.add_zero]
  exact staged_older i

theorem hdr0_emit : (emit st r).hdr0 = st.seq + seqJump (st.fcDiff r.fc) :=
  (byteAt_packetOf _ (by decide)).trans staged_zero

theorem poll_new (h : ¬(st.have_last = true ∧ r.fc = st.last_fc)) (hpos : 1 ≤ st.fcDiff r.fc) :
    ∃ st', st.poll r = (st', some (emit st r).pkt) ∧ After st' (emit st r) (st.fcDiff r.fc) := by
  refine ⟨_, if_neg h, rfl, rfl, staged_newest, ?_, hpos⟩
  rw [hdr0_emit]
  show st.seq + 1 + seqJump (st.fcDiff r.fc) = _
  rw [UInt8.add_assoc, UInt8.add_comm 1, ← UInt8.add_assoc]

theorem After.fcDiff (ha : After st e d) : st.fcDiff r.fc = (r.fc - e.reading.fc).toNat := by
  rw [AudioThread.fcDiff, if_pos ha.have_last, ha.last_fc]

theorem toNat_sub_pos {a b : UInt16} (h : a ≠ b) : 1 ≤ (a - b).toNat := by
  by_contra hlt
  have h0 : (a - b).toNat = (0 : UInt16).toNat := by
    rw [UInt16.toNat_zero]
    omega
  refine h ?_
  rw [UInt16.sub_eq_iff_eq_add.mp (UInt16.toNat_inj.mp h0), UInt16.zero_add]

/-- **A packet is right after the one before** exactly if their gaps allow it. -/
theorem After.follows_iff (ha : After st e d) (hne : r.fc ≠ e.reading.fc) :
    e.Follows (emit st r) ↔ GapOk d (r.fc - e.reading.fc).toNat := by
  have hdiff := ha.fcDiff (r := r)
  have hadv : e.advance (emit st r) =
      (1 + seqJump (r.fc - e.reading.fc).toNat - seqJump d).toNat := by
    have hhdr := ha.hdr0
    rw [Emitted.advance, hdr0_emit, hdiff]
    generalize e.hdr0 = h0 at hhdr ⊢
    congr 1
    grind
  have hone : r.fc - e.reading.fc = 1 ↔ (r.fc - e.reading.fc).toNat = 1 := UInt16.toNat_inj.symm
  have hpos := toNat_sub_pos hne
  have holder : (emit st r).older =
      if r.fc - e.reading.fc = 1 then e.reading.samples else fun _ => 0 := by
    funext i
    rw [older_emit, hdiff]
    split_ifs with h1
    · rw [hone.mp h1, pushFrame_older_one, ha.staging]
    · exact pushFrame_older_gap _ (lt_of_le_of_ne hpos fun h => h1 (hone.mpr h.symm)) _ _
  rw [← advance_iff ha.gap_pos hpos, ← hadv]
  constructor
  · intro h
    exact ⟨h.advance_pos, h.advance_le, fun h1 => h.advance_eq (hone.mpr h1),
      fun h1 => h.advance_gap fun h2 => h1 (hone.mp h2)⟩
  · rintro ⟨h1, h2, h3, h4⟩
    exact ⟨holder, h1, h2, fun h => h3 (hone.mp h), fun h => h4 fun h' => h (hone.mpr h')⟩

/-! ### Whole runs -/

theorem run_of_new {rs : List Reading} {st' : AudioThread}
    (h : st.poll r = (st', some (emit st r).pkt)) : run st (r :: rs) = emit st r :: run st' rs := by
  rw [run, h]
  rfl

theorem run_of_old {rs : List Reading} (h : st.have_last = true ∧ r.fc = st.last_fc) :
    run st (r :: rs) = run st rs := by
  rw [run, poll, if_pos h]

/-- **The packets of a run** after one, by the readings. -/
theorem After.run (ha : After st e d) (rs : List Reading) :
    (e :: run st rs).map Emitted.reading =
        rs.destutter' (fun r r' => r.fc ≠ r'.fc) e.reading ∧
      (∀ e' ∈ run st rs, e'.newest = e'.reading.samples) ∧
      ((e :: run st rs).IsChain Emitted.Follows ↔
        (d :: gapsFrom e.reading.fc ((run st rs).map Emitted.reading)).IsChain GapOk) := by
  induction rs generalizing st e d with
  | nil =>
    refine ⟨rfl, ?_, ?_⟩
    · rintro e' ⟨⟩
    · exact iff_of_true (List.isChain_singleton _) (List.isChain_singleton _)
  | cons r rs ih =>
    by_cases hold : r.fc = e.reading.fc
    · rw [run_of_old ⟨ha.have_last, hold.trans ha.last_fc.symm⟩,
        List.destutter'_cons_neg rs (by rw [hold]; exact not_not_intro rfl)]
      exact ih ha
    · have hnew : ¬(st.have_last = true ∧ r.fc = st.last_fc) := by
        rintro ⟨-, h⟩
        exact hold (h.trans ha.last_fc)
      obtain ⟨st', hpoll, ha'⟩ := poll_new hnew (by rw [ha.fcDiff]; exact toNat_sub_pos hold)
      obtain ⟨hmap, hnewest, hchain⟩ := ih ha'
      rw [run_of_new hpoll, List.destutter'_cons, if_pos (Ne.symm hold)]
      refine ⟨?_, ?_, ?_⟩
      · rw [List.map_cons, hmap]
        rfl
      · intro e' he'
        rcases List.mem_cons.mp he' with rfl | he'
        · exact newest_emit
        · exact hnewest e' he'
      · rw [List.isChain_cons_cons, List.map_cons, gapsFrom, List.isChain_cons_cons,
          ha.follows_iff hold, hchain, ha.fcDiff]
        exact Iff.rfl

/-- **The audio thread sends one packet for every new frame**, with the right payload, and the
packets are numbered right exactly if no gap is followed by one that it does not fit. -/
theorem seqLaw_iff (rs : List Reading) :
    (run start rs).map Emitted.reading = captured rs ∧
      (SeqLaw (run start rs) ↔ (gaps (captured rs)).IsChain GapOk) := by
  rcases rs with _ | ⟨r, rs⟩
  · refine ⟨rfl, iff_of_true ⟨?_, ?_, .nil⟩ .nil⟩
    · rintro e ⟨⟩
    · rintro e ⟨⟩
  · have hnew : ¬(start.have_last = true ∧ r.fc = start.last_fc) := by
      rintro ⟨h, -⟩
      cases h
    have hdiff : start.fcDiff r.fc = 1 := rfl
    obtain ⟨st', hpoll, ha⟩ := poll_new hnew hdiff.ge
    obtain ⟨hmap, hnewest, hchain⟩ := ha.run rs
    have hcaptured : (run start (r :: rs)).map Emitted.reading = captured (r :: rs) := by
      rw [run_of_new hpoll, hmap]
      rfl
    refine ⟨hcaptured, ?_⟩
    rw [← hcaptured, run_of_new hpoll, List.map_cons, gaps]
    refine ⟨fun h => hchain.mp h.follows, fun h => ⟨?_, ?_, hchain.mpr h⟩⟩
    · intro e he
      rcases List.mem_cons.mp he with rfl | he
      · exact newest_emit
      · exact hnewest e he
    · -- nothing has been captured before, and the payload starts out silent
      intro e he
      obtain rfl := Option.some.inj he
      funext i
      rw [older_emit, hdiff, pushFrame_older_one]
      have hi : newestSlot + (i : ℕ) ≠ 2 ∧ newestSlot + (i : ℕ) ≠ 3 := by
        simp only [newestSlot, payload, DATA_HDR_SIZE]
        omega
      exact (if_neg hi.1).trans (if_neg hi.2)

/-- A reading of a counter, of silence. -/
def silentReading (fc : UInt16) : Reading where
  region0 := ⟨fc, fun _ => UInt8.ofNat 0⟩
  region1 := ⟨fc, fun _ => UInt8.ofNat 0⟩

/-- After one frame is missed two packets have the same number. -/
theorem not_seqLaw : ¬SeqLaw (run start [silentReading 1, silentReading 3, silentReading 4]) := by
  intro h
  have hfollows := h.follows.tail.rel_head? rfl
  exact absurd hfollows.advance_pos (by decide)

end AudioThread

end RemotePlay.Audio
