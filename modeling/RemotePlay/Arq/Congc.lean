import RemotePlay.Config
import Mathlib.Data.Rat.Floor
import Mathlib.Tactic.Linarith
import Mathlib.Tactic.Positivity

/-! # Congestion control

`ikcp_input_congc` counts the packets received and missing, in fixed point with sixteen fraction
bits: those of the last call, those since the rate was last looked at and a moving average.  When
enough have been counted it lowers the rate, raises it or leaves it.

A division is `none` when its divisor is zero, and a sum of counts that does not fit in a word is
remembered (`wrapped`).  The factors that the code computes in floating point are arbitrary numbers
here (`Factors`).  As long as one call counts no more than a full window, no sum wraps around and no
divisor is zero (`Congc.input_spec`). -/

namespace RemotePlay.Arq

/-- The packets counted before the rate is looked at. -/
def KCP_CONGC_COUNT_THRES : ℕ := 16 <<< 16
/-- The packets that the average is taken over. -/
def KCP_CONGC_COUNT_AVG : ℕ := 48 <<< 16
/-- The rate is lowered when more than one packet of so many is missing. -/
def KCP_CONGC_DEC_THRES : ℕ := 12
/-- The rate is not lowered below this part of the largest. -/
def KCP_CONGC_DEC_MINF : ℕ := 4
/-- The rate is raised when no more than one packet of so many is missing. -/
def KCP_CONGC_INC_THRES : ℕ := 18
/-- The rate is raised beyond the average by `KCP_CONGC_DEC_MINF` over this, at the most. -/
def KCP_CONGC_INC_MAXF : ℕ := 2
/-- The rate is raised by this part of the largest at a time. -/
def KCP_CONGC_INC_RATEF : ℕ := 96

/-- Ticks in a second. -/
def SYSCLOCK_ARM11 : ℕ := 268111856

/-- `struct IKCPCC`, and whether a sum of counts has wrapped around. -/
structure Congc where
  curr_send_time : ℕ
  last_send_time : ℕ
  curr_ack_count : ℕ
  curr_nack_count : ℕ
  last_ack_count : ℕ
  last_nack_count : ℕ
  avg_ack_count : ℕ
  avg_nack_count : ℕ
  avg_dur : ℕ
  wrapped : Bool
  deriving DecidableEq, Repr

/-- `qos_f` and `qos_dec_f`, which is a power of a number below one. -/
structure Factors where
  qos_f : ℚ
  qos_dec_f : ℚ
  qos_f_nonneg : 0 ≤ qos_f
  qos_dec_f_nonneg : 0 ≤ qos_dec_f
  qos_dec_f_le : qos_dec_f ≤ 1

/-- A number converted to a word of 32 bits. -/
def toU32 (x : ℚ) : ℕ := min ⌊x⌋₊ (2 ^ 32 - 1)

/-- A division, `none` when the divisor is zero. -/
def checkedDiv (a b : ℕ) : Option ℕ := if b = 0 then none else some (a / b)

/-- A sum does not fit in a word of 32 bits. -/
def wraps (a b : ℕ) : Bool := 2 ^ 32 ≤ a + b

namespace Congc

variable (c : Congc)

/-- The last call's counts are added. -/
def addCurr : Congc :=
  let last_ack_count := (c.last_ack_count + c.curr_ack_count) % 2 ^ 32
  let last_nack_count := (c.last_nack_count + c.curr_nack_count) % 2 ^ 32
  { c with
    last_ack_count := last_ack_count
    last_nack_count := last_nack_count
    wrapped := c.wrapped || wraps c.last_ack_count c.curr_ack_count ||
      wraps c.last_nack_count c.curr_nack_count || wraps last_ack_count last_nack_count ||
      wraps c.avg_ack_count c.avg_nack_count }

/-- `last_count_total`. -/
def lastTotal : ℕ := (c.last_ack_count + c.last_nack_count) % 2 ^ 32
/-- `avg_count_total`. -/
def avgTotal : ℕ := (c.avg_ack_count + c.avg_nack_count) % 2 ^ 32

/-- The average makes room for what is added to it. -/
def rescaleAvg : Option Congc :=
  if KCP_CONGC_COUNT_AVG ≤ c.avgTotal then do
    let avg_count_remain := if c.lastTotal < c.avgTotal then c.avgTotal - c.lastTotal else 0
    let avg_ack_count ← checkedDiv (c.avg_ack_count * avg_count_remain) c.avgTotal
    let avg_nack_count ← checkedDiv (c.avg_nack_count * avg_count_remain) c.avgTotal
    let avg_dur ← checkedDiv (c.avg_dur * avg_count_remain) c.avgTotal
    some { c with
      avg_ack_count := avg_ack_count % 2 ^ 32
      avg_nack_count := avg_nack_count % 2 ^ 32
      avg_dur := avg_dur % 2 ^ 32 }
  else some c

/-- The counts since the rate was last looked at are added to the average. -/
def addLast : Congc :=
  let avg_ack_count := (c.avg_ack_count + c.last_ack_count) % 2 ^ 32
  let avg_nack_count := (c.avg_nack_count + c.last_nack_count) % 2 ^ 32
  { c with
    avg_ack_count := avg_ack_count
    avg_nack_count := avg_nack_count
    wrapped := c.wrapped || wraps c.avg_ack_count c.last_ack_count ||
      wraps c.avg_nack_count c.last_nack_count || wraps avg_ack_count avg_nack_count
    avg_dur := (c.avg_dur + (c.curr_send_time + 2 ^ 32 - c.last_send_time) % 2 ^ 32) % 2 ^ 32
    last_send_time := c.curr_send_time }

/-- Whether the rate is to be lowered; `avg_nack_iratio` is the quotient. -/
def shouldDec : Option Bool :=
  if c.last_nack_count ≠ 0 ∧ c.avg_nack_count ≠ 0 then
    (checkedDiv c.avgTotal c.avg_nack_count).map fun ratio => ratio < KCP_CONGC_DEC_THRES
  else some false

/-- Whether the rate is to be raised. -/
def shouldInc : Option Bool :=
  if c.avg_nack_count = 0 then some true
  else (checkedDiv c.avgTotal c.avg_nack_count).map fun ratio => KCP_CONGC_INC_THRES ≤ ratio

/-- The rate is lowered; the second component is the argument of `rp_set_qos`. -/
def dec (qos_max qos : ℕ) (f : Factors) : Option (Congc × Option ℕ) := do
  let avg_nack_count := toU32 (c.avg_nack_count * f.qos_dec_f)
  let avg_dur ← checkedDiv (c.avg_dur * ((c.avg_ack_count + avg_nack_count) % 2 ^ 32)) c.avgTotal
  let qos := min (toU32 (qos * f.qos_dec_f)) qos_max
  some ({ c with
      avg_nack_count := avg_nack_count, avg_dur := avg_dur % 2 ^ 32
      wrapped := c.wrapped || wraps c.avg_ack_count avg_nack_count },
    some (max qos (qos_max / KCP_CONGC_DEC_MINF)))

/-- The rate is raised. -/
def inc (qos_max qos : ℕ) (f : Factors) : Option (Congc × Option ℕ) := do
  let quot ← checkedDiv (c.avg_ack_count * PACKET_SIZE * SYSCLOCK_ARM11 % 2 ^ 64) c.avg_dur
  let qos_avg := quot >>> 16 % 2 ^ 32
  let qos_thres :=
    (qos_avg + max qos_avg (qos_max / (KCP_CONGC_DEC_MINF / KCP_CONGC_INC_MAXF))) % 2 ^ 32
  let qos' := min (min ((qos + toU32 (f.qos_f / KCP_CONGC_INC_RATEF * qos_max)) % 2 ^ 32) qos_thres)
    qos_max
  some (c, if qos < qos' then some qos' else none)

/-- The rate is lowered, raised or left. -/
def adjust (qos_max qos : ℕ) (f : Factors) : Option (Congc × Option ℕ) :=
  if 0 < c.avgTotal ∧ 0 < c.avg_dur then do
    if ← c.shouldDec then c.dec qos_max qos f
    else if ← c.shouldInc then c.inc qos_max qos f
    else some (c, none)
  else some (c, none)

/-- `ikcp_input_congc`, with the rates and the argument of `rp_set_qos` when it is called. -/
def input (qos_max qos : ℕ) (f : Factors) : Option (Congc × Option ℕ) :=
  if c.curr_ack_count = 0 ∧ c.curr_nack_count = 0 then some (c, none)
  else if c.addCurr.lastTotal < KCP_CONGC_COUNT_THRES then some (c.addCurr, none)
  else do
    let c ← c.addCurr.rescaleAvg
    let (c, set) ← c.addLast.adjust qos_max qos f
    some ({ c with last_ack_count := 0, last_nack_count := 0 }, set)

/-! ### Bounds -/

/-- The most packets a call counts: those of a full window and of the groups they are in. -/
def COUNT_MAX : ℕ := 680 <<< 16

/-- **The counts between two calls.** -/
structure Small : Prop where
  last : c.last_ack_count + c.last_nack_count < KCP_CONGC_COUNT_THRES
  avg : c.avg_ack_count + c.avg_nack_count ≤ KCP_CONGC_COUNT_AVG + KCP_CONGC_COUNT_THRES + COUNT_MAX
  wrapped : c.wrapped = false

/-- A rate the code may set. -/
def Rate (qos_max qos : ℕ) : Prop := qos_max / KCP_CONGC_DEC_MINF ≤ qos ∧ qos ≤ qos_max

variable {c}

theorem wraps_eq_false {a b : ℕ} (h : a + b < 2 ^ 32) : wraps a b = false :=
  decide_eq_false (not_le.mpr h)

theorem toU32_le {x : ℚ} {n : ℕ} (h : x ≤ n) : toU32 x ≤ n :=
  (min_le_left _ _).trans (Nat.floor_le_of_le h)

theorem toU32_mul_le (n : ℕ) {x : ℚ} (h : x ≤ 1) : toU32 (n * x) ≤ n :=
  toU32_le (mul_le_of_le_one_right n.cast_nonneg h)

theorem scaled_le {a b t r : ℕ} (hab : a + b = t) : a * r / t + b * r / t ≤ r := by
  rcases t.eq_zero_or_pos with rfl | ht
  · simp only [Nat.div_zero, Nat.add_zero, Nat.zero_le]
  · refine Nat.le_of_mul_le_mul_left ?_ ht
    calc t * (a * r / t + b * r / t) = t * (a * r / t) + t * (b * r / t) := Nat.mul_add _ _ _
      _ ≤ a * r + b * r := Nat.add_le_add (Nat.mul_div_le _ _) (Nat.mul_div_le _ _)
      _ = t * r := by rw [← Nat.add_mul, hab]

/-- **Room is made** for what is added to the average. -/
theorem rescaleAvg_spec (hlast : c.last_ack_count + c.last_nack_count < 2 ^ 32)
    (havg : c.avg_ack_count + c.avg_nack_count < 2 ^ 32) :
    ∃ c', c.rescaleAvg = some c' ∧ c'.last_ack_count = c.last_ack_count ∧
      c'.last_nack_count = c.last_nack_count ∧ c'.wrapped = c.wrapped ∧
      c'.avg_ack_count + c'.avg_nack_count + (c.last_ack_count + c.last_nack_count) ≤
        max (c.avg_ack_count + c.avg_nack_count)
          (KCP_CONGC_COUNT_AVG + (c.last_ack_count + c.last_nack_count)) := by
  have hl : c.lastTotal = c.last_ack_count + c.last_nack_count := Nat.mod_eq_of_lt hlast
  have ha : c.avgTotal = c.avg_ack_count + c.avg_nack_count := Nat.mod_eq_of_lt havg
  unfold rescaleAvg
  by_cases h : KCP_CONGC_COUNT_AVG ≤ c.avgTotal
  · rw [if_pos h]
    have hpos : c.avgTotal ≠ 0 := fun h0 => by
      rw [h0] at h
      exact absurd h (by decide)
    simp only [checkedDiv, if_neg hpos, Option.bind_eq_bind, Option.bind_some]
    refine ⟨_, rfl, rfl, rfl, rfl, ?_⟩
    dsimp only
    set r := if c.lastTotal < c.avgTotal then c.avgTotal - c.lastTotal else 0 with hr
    have hsum := scaled_le (r := r) ha.symm
    have h1 := Nat.mod_le (c.avg_ack_count * r / c.avgTotal) (2 ^ 32)
    have h2 := Nat.mod_le (c.avg_nack_count * r / c.avgTotal) (2 ^ 32)
    have hle : r + c.lastTotal ≤ max c.avgTotal c.lastTotal := by
      rw [hr]
      split_ifs <;> omega
    rw [← hl, ← ha]
    exact (Nat.add_le_add_right ((Nat.add_le_add h1 h2).trans hsum) _).trans
      (hle.trans (max_le_max le_rfl (Nat.le_add_left _ _)))
  · rw [if_neg h]
    refine ⟨c, rfl, rfl, rfl, rfl, ?_⟩
    rw [ha] at h
    omega

theorem shouldDec_ne_none : ∃ b, c.shouldDec = some b := by
  unfold shouldDec
  split_ifs with h
  · rw [checkedDiv, if_neg h.2]
    exact ⟨_, rfl⟩
  · exact ⟨_, rfl⟩

theorem shouldInc_ne_none : ∃ b, c.shouldInc = some b := by
  unfold shouldInc
  split_ifs with h
  · exact ⟨_, rfl⟩
  · rw [checkedDiv, if_neg h]
    exact ⟨_, rfl⟩

/-- **Lowering** sets a rate, which is not above the current one. -/
theorem dec_spec {qos_max qos : ℕ} (hq : Rate qos_max qos) (f : Factors) (hpos : 0 < c.avgTotal)
    (hsum : c.avg_ack_count + c.avg_nack_count < 2 ^ 32) :
    ∃ c' q, c.dec qos_max qos f = some (c', some q) ∧ Rate qos_max q ∧ q ≤ qos ∧
      c'.avg_ack_count = c.avg_ack_count ∧ c'.avg_nack_count ≤ c.avg_nack_count ∧
      c'.wrapped = c.wrapped := by
  have hnack : toU32 (c.avg_nack_count * f.qos_dec_f) ≤ c.avg_nack_count :=
    toU32_mul_le _ f.qos_dec_f_le
  unfold dec
  simp only [checkedDiv, if_neg hpos.ne', Option.bind_eq_bind, Option.bind_some]
  refine ⟨_, _, rfl, ⟨le_max_right _ _, max_le (min_le_right _ _) (Nat.div_le_self _ _)⟩,
    max_le ((min_le_left _ _).trans (toU32_mul_le qos f.qos_dec_f_le)) hq.1, rfl, hnack, ?_⟩
  dsimp only
  rw [wraps_eq_false (by omega), Bool.or_false]

/-- **Raising** sets a rate only if it is above the current one. -/
theorem inc_spec {qos_max qos : ℕ} (hq : Rate qos_max qos) (f : Factors) (hpos : 0 < c.avg_dur) :
    ∃ set, c.inc qos_max qos f = some (c, set) ∧ ∀ q ∈ set, Rate qos_max q ∧ qos ≤ q := by
  unfold inc
  simp only [checkedDiv, if_neg hpos.ne', Option.bind_eq_bind, Option.bind_some]
  refine ⟨_, rfl, fun q hset => ?_⟩
  split_ifs at hset with hlt
  · obtain rfl := Option.some.inj hset
    exact ⟨⟨hq.1.trans hlt.le, min_le_right _ _⟩, hlt.le⟩
  · cases hset

theorem adjust_spec {qos_max qos : ℕ} (hq : Rate qos_max qos) (f : Factors)
    (hsum : c.avg_ack_count + c.avg_nack_count < 2 ^ 32) :
    ∃ c' set, c.adjust qos_max qos f = some (c', set) ∧ (∀ q ∈ set, Rate qos_max q) ∧
      c'.avg_ack_count = c.avg_ack_count ∧ c'.avg_nack_count ≤ c.avg_nack_count ∧
      c'.wrapped = c.wrapped := by
  unfold adjust
  split_ifs with hpos
  · obtain ⟨b, hb⟩ := c.shouldDec_ne_none
    obtain ⟨b', hb'⟩ := c.shouldInc_ne_none
    rw [hb, hb']
    rcases b with _ | _
    · rcases b' with _ | _
      · exact ⟨c, none, rfl, by rintro _ ⟨⟩, rfl, le_rfl, rfl⟩
      · obtain ⟨set, h, hset⟩ := inc_spec hq f hpos.2
        exact ⟨c, set, h, fun q hmem => (hset q hmem).1, rfl, le_rfl, rfl⟩
    · obtain ⟨c', q, h, hrate, -, hack, hnack, hwrap⟩ := dec_spec hq f hpos.1 hsum
      refine ⟨c', some q, h, fun q' hmem => ?_, hack, hnack, hwrap⟩
      obtain rfl := Option.some.inj hmem
      exact hrate
  · exact ⟨c, none, rfl, by rintro _ ⟨⟩, rfl, le_rfl, rfl⟩

/-- **No divisor is zero, the rates set are allowed and the counts stay small**, if a call does not
count too many packets. -/
theorem input_spec (hc : c.Small) (hcurr : c.curr_ack_count + c.curr_nack_count ≤ COUNT_MAX)
    {qos_max qos : ℕ} (hq : Rate qos_max qos) (f : Factors) :
    ∃ c' set, c.input qos_max qos f = some (c', set) ∧ c'.Small ∧ ∀ q ∈ set, Rate qos_max q := by
  have h1 := hc.last
  have h2 := hc.avg
  simp only [KCP_CONGC_COUNT_THRES, KCP_CONGC_COUNT_AVG, COUNT_MAX,
    Nat.reduceShiftLeft] at h1 h2 hcurr
  have hack : c.addCurr.last_ack_count = c.last_ack_count + c.curr_ack_count :=
    Nat.mod_eq_of_lt (by omega)
  have hnack : c.addCurr.last_nack_count = c.last_nack_count + c.curr_nack_count :=
    Nat.mod_eq_of_lt (by omega)
  have hlast : c.addCurr.lastTotal = c.addCurr.last_ack_count + c.addCurr.last_nack_count :=
    Nat.mod_eq_of_lt (by omega)
  have hwrapped : c.addCurr.wrapped = false := by
    have hl : wraps c.addCurr.last_ack_count c.addCurr.last_nack_count = false :=
      wraps_eq_false (by omega)
    have he : c.addCurr.wrapped = (c.wrapped || wraps c.last_ack_count c.curr_ack_count ||
      wraps c.last_nack_count c.curr_nack_count ||
      wraps c.addCurr.last_ack_count c.addCurr.last_nack_count ||
      wraps c.avg_ack_count c.avg_nack_count) := rfl
    rw [he, hc.wrapped, hl, wraps_eq_false (by omega), wraps_eq_false (by omega),
      wraps_eq_false (by omega)]
    rfl
  unfold input
  split_ifs with hzero hthres
  · exact ⟨c, none, rfl, hc, by rintro _ ⟨⟩⟩
  · refine ⟨_, none, rfl, ⟨?_, hc.avg, hwrapped⟩, by rintro _ ⟨⟩⟩
    rwa [hlast] at hthres
  · have havg₁ : c.addCurr.avg_ack_count = c.avg_ack_count := rfl
    have havg₂ : c.addCurr.avg_nack_count = c.avg_nack_count := rfl
    obtain ⟨c₁, hc₁, hack₁, hnack₁, hwrap₁, hle⟩ :=
      rescaleAvg_spec (c := c.addCurr) (by omega) (by omega)
    simp only [KCP_CONGC_COUNT_AVG, Nat.reduceShiftLeft] at hle
    have hadd₁ : c₁.addLast.avg_ack_count = c₁.avg_ack_count + c₁.last_ack_count :=
      Nat.mod_eq_of_lt (by omega)
    have hadd₂ : c₁.addLast.avg_nack_count = c₁.avg_nack_count + c₁.last_nack_count :=
      Nat.mod_eq_of_lt (by omega)
    have hwrap₂ : c₁.addLast.wrapped = false := by
      have ha : wraps c₁.addLast.avg_ack_count c₁.addLast.avg_nack_count = false :=
        wraps_eq_false (by omega)
      have he : c₁.addLast.wrapped = (c₁.wrapped || wraps c₁.avg_ack_count c₁.last_ack_count ||
        wraps c₁.avg_nack_count c₁.last_nack_count ||
        wraps c₁.addLast.avg_ack_count c₁.addLast.avg_nack_count) := rfl
      rw [he, hwrap₁, hwrapped, ha, wraps_eq_false (by omega), wraps_eq_false (by omega)]
      rfl
    obtain ⟨c₂, set, hadj, hset, hack₂, hnack₂, hwrap₃⟩ :=
      adjust_spec (c := c₁.addLast) hq f (by omega)
    rw [hc₁]
    simp only [Option.bind_eq_bind, Option.bind_some, hadj]
    refine ⟨_, set, rfl, ⟨Nat.succ_pos _, ?_, hwrap₃.trans hwrap₂⟩, hset⟩
    simp only [KCP_CONGC_COUNT_THRES, KCP_CONGC_COUNT_AVG, COUNT_MAX, Nat.reduceShiftLeft]
    omega

end Congc

end RemotePlay.Arq
