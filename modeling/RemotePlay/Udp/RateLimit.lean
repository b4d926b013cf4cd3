import RemotePlay.Arq.Congc
import Mathlib.Data.BitVec

/-! # The rate limiter

Packets are sent no faster than the rate set.  `RP_OUTPUT_NEXT_TICK` says when the next one is due:
a packet that comes early waits and is scheduled for then, one that comes late is scheduled at once,
and what its length takes at the rate, a share of `MIN_SEND_INTERVAL_TICK`, is added for the next.
Ticks are kept in 32 bits and wrap; the schedule is read from them through the ticks they stand for
(`Paced`). -/

namespace RemotePlay.Udp

open RemotePlay.Arq

namespace RateLimit

/-- The smallest rate, in bytes a second. -/
def RP_QOS_MIN : ℕ := 1 * 1024 * 1024 / 2
/-- The interval after a packet is in proportion to its length. -/
def NWM_PROPORTIONAL_MIN_INTERVAL : ℕ := 1
/-- A packet that has waited counts as sent at the tick it waited for. -/
def NWM_AGGRESSIVE_NEXT_TICK : ℕ := 1

/-- `CURRENT_QOS`, `MIN_SEND_INTERVAL_TICK` and `RP_OUTPUT_NEXT_TICK`. -/
structure Pace where
  current_qos : ℕ
  min_send_interval_tick : BitVec 32
  rp_output_next_tick : BitVec 32

/-- A packet sent: the tick it was scheduled for, its length, and the rate set then. -/
structure Sent where
  tick : BitVec 32
  len : ℕ
  qos : ℕ

/-- What `rp_udp_output` reads: the length, the tick now and after waiting, whether the lock is got
back, and the session's flags. -/
structure Call where
  len : ℕ
  now : BitVec 32
  woken : BitVec 32
  locked : Bool
  rp_output_retry : Bool
  session_established : Bool

/-- `init_min_send_interval`. -/
def initMinSendInterval (p : Pace) (qos : ℕ) : Pace :=
  { p with
    current_qos := qos
    min_send_interval_tick := BitVec.ofNat 32 (SYSCLOCK_ARM11 * PACKET_SIZE / qos) }

/-- `init`, at tick `now`. -/
def init (qos : ℕ) (now : BitVec 32) : Pace :=
  let p := initMinSendInterval ⟨0, 0, 0⟩ qos
  { p with rp_output_next_tick := now + p.min_send_interval_tick }

/-- `DurationTick::get_ns` of a positive difference. -/
def durationNs (tick_diff : ℤ) : ℤ :=
  if tick_diff > 0 then tick_diff * 1000000000 / SYSCLOCK_ARM11 else 0

/-- What a packet takes at the rate: `MIN_SEND_INTERVAL_TICK` in proportion to its length. -/
def proportional (p : Pace) (len : ℕ) : BitVec 32 :=
  p.min_send_interval_tick * BitVec.ofNat 32 len / BitVec.ofNat 32 PACKET_SIZE

/-- `rp_udp_output`, with the result and the packet sent. -/
def rpUdpOutput (p : Pace) (c : Call) : Pace × ℤ × Option Sent :=
  if c.len > PACKET_SIZE then (p, -3, none)
  else
    let next_send_tick := p.rp_output_next_tick
    let duration_ns := durationNs (next_send_tick - c.now).toInt
    if duration_ns > 0 ∧ c.locked = false then (p, -0x10 - 5, none)
    else if duration_ns > 0 ∧ c.rp_output_retry = true then (p, 0, none)
    else
      let curr_tick :=
        if duration_ns > 0 then
          if NWM_AGGRESSIVE_NEXT_TICK > 0 then next_send_tick else c.woken
        else c.now
      let next_interval :=
        if c.session_established = true ∧ NWM_PROPORTIONAL_MIN_INTERVAL > 0 then
          proportional p c.len
        else p.min_send_interval_tick
      ({ p with rp_output_next_tick := curr_tick + next_interval }, c.len,
        some ⟨curr_tick, c.len, p.current_qos⟩)

/-- The tick `do_send_next_buffer` and `drain_audio` pass to `rp_output`. -/
def sendTick (p : Pace) (now woken : BitVec 32) : BitVec 32 :=
  if (p.rp_output_next_tick - now).toInt > 0 then
    if NWM_AGGRESSIVE_NEXT_TICK > 0 then p.rp_output_next_tick else woken
  else now

/-- `rp_output`. -/
def rpOutput (p : Pace) (packet_size : ℕ) (tick : BitVec 32) : Pace × Sent :=
  ({ p with
    rp_output_next_tick := tick +
      if NWM_PROPORTIONAL_MIN_INTERVAL > 0 then proportional p packet_size
      else p.min_send_interval_tick }, ⟨tick, packet_size, p.current_qos⟩)

/-- The calls. -/
inductive Event
  | setQos (qos : ℕ)
  | udpOutput (c : Call)
  | output (packet_size : ℕ) (now woken : BitVec 32)

/-- A rate that can be set. -/
def QosOk (qos : ℕ) : Prop := RP_QOS_MIN / 4 ≤ qos ∧ qos ≤ RP_QOS_MAX

/-- The rates that are set and the lengths that are passed. -/
def Event.Admitted : Event → Prop
  | .setQos qos => QosOk qos
  | .udpOutput _ => True
  | .output packet_size _ _ => packet_size ≤ PACKET_SIZE

/-- One call, with the packets sent so far. -/
def step (st : Pace × List Sent) : Event → Pace × List Sent
  | .setQos qos => (initMinSendInterval st.1 qos, st.2)
  | .udpOutput c =>
    let (p, _, sent) := rpUdpOutput st.1 c
    (p, st.2 ++ sent.toList)
  | .output packet_size now woken =>
    let (p, sent) := rpOutput st.1 packet_size (sendTick st.1 now woken)
    (p, st.2 ++ [sent])

/-- A run from `init`. -/
def run (qos : ℕ) (now : BitVec 32) (es : List Event) : Pace × List Sent :=
  es.foldl step (init qos now, [])

/-! ### Intervals -/

/-- The ticks a packet of full length takes at a rate. -/
def interval (qos : ℕ) : ℕ := SYSCLOCK_ARM11 * PACKET_SIZE / qos

/-- The ticks a packet takes at its rate. -/
def Sent.share (s : Sent) : ℕ := interval s.qos * s.len / PACKET_SIZE

theorem interval_le {qos : ℕ} (h : QosOk qos) : interval qos ≤ 2961929 := by
  have hmin : RP_QOS_MIN / 4 = 131072 := rfl
  have hprod : SYSCLOCK_ARM11 * PACKET_SIZE = 388225967488 := rfl
  have hq := h.1
  rw [interval, hprod]
  calc 388225967488 / qos ≤ 388225967488 / 131072 := Nat.div_le_div_left (by omega) (by decide)
    _ = 2961929 := rfl

/-- **The product does not wrap.** -/
theorem interval_mul_lt {qos len : ℕ} (h : QosOk qos) (hlen : len ≤ PACKET_SIZE) :
    interval qos * len < 2 ^ 32 := by
  have hpacket : PACKET_SIZE = 1448 := rfl
  have := Nat.mul_le_mul (interval_le h) hlen
  omega

theorem share_le {s : Sent} (hlen : s.len ≤ PACKET_SIZE) : s.share ≤ interval s.qos :=
  Nat.div_le_of_le_mul (by rw [Nat.mul_comm]; exact Nat.mul_le_mul_right _ hlen)

/-- The interval is the one of the rate. -/
def Pace.Ok (p : Pace) : Prop :=
  QosOk p.current_qos ∧ p.min_send_interval_tick = BitVec.ofNat 32 (interval p.current_qos)

theorem proportional_eq {p : Pace} (h : p.Ok) {len : ℕ} (hlen : len ≤ PACKET_SIZE) :
    proportional p len = BitVec.ofNat 32 (interval p.current_qos * len / PACKET_SIZE) := by
  have hpacket : PACKET_SIZE = 1448 := rfl
  have hle := interval_le h.1
  have hmul := interval_mul_lt h.1 hlen
  have hdiv : interval p.current_qos * len / PACKET_SIZE < 2 ^ 32 :=
    (Nat.div_le_self _ _).trans_lt hmul
  have hi : interval p.current_qos % 2 ^ 32 = interval p.current_qos := Nat.mod_eq_of_lt (by omega)
  have hl : len % 2 ^ 32 = len := Nat.mod_eq_of_lt (by omega)
  have hp : PACKET_SIZE % 2 ^ 32 = PACKET_SIZE := rfl
  refine BitVec.eq_of_toNat_eq ?_
  rw [proportional, h.2, BitVec.toNat_udiv, BitVec.toNat_mul, BitVec.toNat_ofNat,
    BitVec.toNat_ofNat, BitVec.toNat_ofNat, BitVec.toNat_ofNat, hi, hl, hp,
    Nat.mod_eq_of_lt hmul, Nat.mod_eq_of_lt hdiv]

/-! ### One packet after another -/

/-- A packet is scheduled by its predecessor's share or more after it, at most half the range of
ticks after that is due. -/
def Follows (a b : Sent) : Prop :=
  ∃ w, a.share ≤ w ∧ w ≤ interval a.qos + 2 ^ 31 ∧ b.tick = a.tick + BitVec.ofNat 32 w

/-- `RP_OUTPUT_NEXT_TICK` after a packet. -/
def Due (a : Sent) (next : BitVec 32) : Prop :=
  ∃ i, a.share ≤ i ∧ i ≤ interval a.qos ∧ next = a.tick + BitVec.ofNat 32 i

theorem late {next now : BitVec 32} (h : ¬(next - now).toInt > 0) :
    ∃ d ≤ 2 ^ 31, now = next + BitVec.ofNat 32 d := by
  refine ⟨(now - next).toNat, ?_, ?_⟩
  · rw [BitVec.toInt_eq_toNat_cond] at h
    split_ifs at h <;> bv_omega
  · bv_omega

theorem Due.follows {a b : Sent} {next now : BitVec 32} (h : Due a next)
    (hb : b.tick = if (next - now).toInt > 0 then next else now) : Follows a b := by
  obtain ⟨i, hlo, hhi, rfl⟩ := h
  split_ifs at hb with hearly
  · exact ⟨i, hlo, by omega, hb⟩
  · obtain ⟨d, hd, rfl⟩ := late hearly
    refine ⟨i + d, by omega, by omega, ?_⟩
    rw [hb, BitVec.ofNat_add, BitVec.add_assoc]

theorem durationNs_pos {x : ℤ} (hx : x < 2 ^ 31) : durationNs x > 0 ↔ x > 0 := by
  unfold durationNs
  have hclock : (SYSCLOCK_ARM11 : ℤ) = 268111856 := rfl
  split_ifs with h
  · rw [hclock]
    constructor
    · intro
      exact h
    · intro
      omega
  · omega

/-! ### Runs -/

/-- What holds after every call: each packet follows its predecessor, and the next one is due. -/
structure Inv (st : Pace × List Sent) : Prop where
  ok : st.1.Ok
  chain : st.2.IsChain Follows
  due : ∀ s ∈ st.2.getLast?, Due s st.1.rp_output_next_tick

theorem Pace.ok_set (p : Pace) {qos : ℕ} (h : QosOk qos) : (initMinSendInterval p qos).Ok :=
  ⟨h, rfl⟩

theorem Inv.send {st : Pace × List Sent} (h : Inv st) {len : ℕ} (hlen : len ≤ PACKET_SIZE)
    {tick now next : BitVec 32}
    (htick : tick =
      if (st.1.rp_output_next_tick - now).toInt > 0 then st.1.rp_output_next_tick else now)
    (hnext : next = tick + proportional st.1 len ∨ next = tick + st.1.min_send_interval_tick) :
    Inv ({ st.1 with rp_output_next_tick := next }, st.2 ++ [⟨tick, len, st.1.current_qos⟩]) := by
  have hdue : Due ⟨tick, len, st.1.current_qos⟩ next := by
    rcases hnext with rfl | rfl
    · exact ⟨_, le_rfl, share_le hlen, by rw [proportional_eq h.ok hlen]; rfl⟩
    · exact ⟨_, share_le hlen, le_rfl, by rw [h.ok.2]⟩
  constructor
  case ok => exact h.ok
  case chain =>
    refine List.isChain_append.mpr ⟨h.chain, List.isChain_singleton _, ?_⟩
    intro a ha b hb
    obtain rfl : _ = b := Option.some.inj hb
    exact (h.due a ha).follows htick
  case due =>
    intro s hs
    rw [List.getLast?_append, List.getLast?_singleton, Option.some_or] at hs
    obtain rfl : _ = s := Option.some.inj hs
    exact hdue

/-- **`rp_udp_output` keeps the schedule**, and does not touch it when it returns early. -/
theorem Inv.udpOutput {st : Pace × List Sent} (h : Inv st) (c : Call) :
    Inv (step st (.udpOutput c)) := by
  have hpos : durationNs (st.1.rp_output_next_tick - c.now).toInt > 0 ↔
      (st.1.rp_output_next_tick - c.now).toInt > 0 := durationNs_pos BitVec.toInt_lt
  have hsame : Inv (st.1, st.2 ++ (none : Option Sent).toList) := by
    rw [Option.toList_none, List.append_nil]
    exact h
  have hagg : NWM_AGGRESSIVE_NEXT_TICK > 0 := Nat.one_pos
  have hprop : NWM_PROPORTIONAL_MIN_INTERVAL > 0 := Nat.one_pos
  simp only [step, rpUdpOutput, hpos, hagg, hprop, if_true, and_true]
  split_ifs with hlen hlock hretry hearly hest hest
  · exact hsame
  · exact hsame
  · exact hsame
  · exact h.send (not_lt.mp hlen) (if_pos hearly).symm (Or.inl rfl)
  · exact h.send (not_lt.mp hlen) (if_pos hearly).symm (Or.inr rfl)
  · exact h.send (not_lt.mp hlen) (if_neg hearly).symm (Or.inl rfl)
  · exact h.send (not_lt.mp hlen) (if_neg hearly).symm (Or.inr rfl)

theorem Inv.step {st : Pace × List Sent} (h : Inv st) {e : Event} (he : e.Admitted) :
    Inv (step st e) := by
  cases e with
  | setQos qos => exact { h with ok := st.1.ok_set he }
  | udpOutput c => exact h.udpOutput c
  | output packet_size now woken => exact h.send he rfl (Or.inl rfl)

theorem Inv.run {qos : ℕ} (hqos : QosOk qos) (now : BitVec 32) {es : List Event}
    (hes : ∀ e ∈ es, e.Admitted) : Inv (run qos now es) := by
  have hinit : Inv (init qos now, []) :=
    ⟨⟨hqos, rfl⟩, List.isChain_nil, by simp⟩
  unfold RateLimit.run
  generalize (init qos now, []) = st at hinit ⊢
  induction es generalizing st with
  | nil => exact hinit
  | cons e es ih =>
    exact ih (fun e he => hes e (List.mem_cons_of_mem _ he)) _
      (hinit.step (hes e List.mem_cons_self))

/-! ### Windows -/

/-- Ticks from a first one and the waits after it. -/
def ticks (t : ℕ) (w : ℕ → ℕ) : ℕ → ℕ
  | 0 => t
  | k + 1 => ticks t w k + w k

/-- **Ticks that the scheduled ones stand for**: each is at most half the range after the packet is
due, and the packets of a window take no less than their shares. -/
structure Paced (sent : List Sent) (T : ℕ → ℕ) : Prop where
  lifts : ∀ k (h : k < sent.length), BitVec.ofNat 32 (T k) = sent[k].tick
  next : ∀ k (h : k + 1 < sent.length), T k + sent[k].share ≤ T (k + 1) ∧
    T (k + 1) ≤ T k + interval sent[k].qos + 2 ^ 31
  window : ∀ i j, i ≤ j → j < sent.length →
    T i + (((sent.take j).drop i).map Sent.share).sum ≤ T j

theorem exists_paced {sent : List Sent} (h : sent.IsChain Follows) : ∃ T, Paced sent T := by
  have hstep : ∀ k, ∃ w, ∀ h : k + 1 < sent.length, sent[k].share ≤ w ∧
      w ≤ interval sent[k].qos + 2 ^ 31 ∧ sent[k + 1].tick = sent[k].tick + BitVec.ofNat 32 w := by
    intro k
    by_cases hk : k + 1 < sent.length
    · obtain ⟨w, hw⟩ := List.isChain_iff_getElem.mp h k hk
      exact ⟨w, fun _ => hw⟩
    · exact ⟨0, fun h => absurd h hk⟩
  choose w hw using hstep
  refine ⟨ticks (sent.head?.elim 0 fun s => s.tick.toNat) w, ?_⟩
  generalize ht : (sent.head?.elim 0 fun s => s.tick.toNat) = t
  have hnext : ∀ k (h : k + 1 < sent.length), ticks t w k + sent[k].share ≤ ticks t w (k + 1) := by
    intro k hk
    exact Nat.add_le_add_left (hw k hk).1 _
  constructor
  case lifts =>
    intro k
    induction k with
    | zero =>
      intro h0
      rw [List.head?_eq_getElem?, List.getElem?_eq_getElem h0] at ht
      rw [ticks, ← ht]
      rw [Option.elim_some, BitVec.ofNat_toNat, BitVec.setWidth_eq]
    | succ k ih =>
      intro hk
      rw [ticks, BitVec.ofNat_add, ih (by omega), (hw k hk).2.2]
  case next =>
    intro k hk
    refine ⟨hnext k hk, ?_⟩
    rw [Nat.add_assoc]
    exact Nat.add_le_add_left (hw k hk).2.1 _
  case window =>
    intro i j hij
    induction j, hij using Nat.le_induction with
    | base =>
      intro hi
      have hnil : (sent.take i).drop i = [] := by simp
      rw [hnil]
      exact le_rfl
    | succ j hij ih =>
      intro hj
      have hj' : j < sent.length := by omega
      have hlen : i ≤ (sent.take j).length := by
        rw [List.length_take]
        omega
      have hsum := ih hj'
      have hlast := hnext j hj
      rw [List.take_succ_eq_append_getElem hj', List.drop_append_of_le_length hlen, List.map_append,
        List.sum_append, List.map_singleton, List.sum_singleton]
      omega

/-- **The rate is kept**: the product does not wrap, and in every run no packet is scheduled before
its predecessor's share has passed, so none of the windows of the run has more than the rate. -/
theorem rate_kept :
    (∀ qos len, QosOk qos → len ≤ PACKET_SIZE → ∀ p : Pace,
      (initMinSendInterval p qos).min_send_interval_tick.toNat = interval qos ∧
        interval qos * len < 2 ^ 32) ∧
    ∀ qos now es, QosOk qos → (∀ e ∈ es, Event.Admitted e) →
      ∃ T, Paced (run qos now es).2 T := by
  refine ⟨fun qos len hqos hlen p => ⟨?_, interval_mul_lt hqos hlen⟩, fun qos now es hqos hes => ?_⟩
  · have := interval_le hqos
    show (BitVec.ofNat 32 (interval qos)).toNat = interval qos
    rw [BitVec.toNat_ofNat]
    exact Nat.mod_eq_of_lt (by omega)
  · exact exists_paced (Inv.run hqos now hes).chain

/-- A packet of full length, one that comes early and one that comes late. -/
theorem rate_kept_three :
    ∃ T, Paced (run RP_QOS_MAX 0
      [.output 1448 200000 0, .udpOutput ⟨100, 300000, 0, true, false, true⟩,
      .udpOutput ⟨100, 400000, 0, true, true, true⟩, .output 1448 900000 0]).2 T :=
  rate_kept.2 _ _ _ ⟨by decide, by decide⟩ (by
    rintro e (_ | ⟨_, _ | ⟨_, _ | ⟨_, _ | ⟨_, ⟨⟩⟩⟩⟩⟩)
    · exact le_rfl
    · trivial
    · trivial
    · exact le_rfl)

end RateLimit

end RemotePlay.Udp
