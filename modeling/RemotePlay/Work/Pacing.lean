import RemotePlay.Config
import Mathlib.Data.List.Count
import Mathlib.Logic.Function.Basic
import Mathlib.Tactic.IntervalCases
import Mathlib.Tactic.Linarith

/-! # Pacing the screens

`do_screen` captures the screen whose turn it is.  Each screen has a queue of credits, refilled when
neither can pay: the priority screen pays one unit for a frame, the other `priority_factor` units.
A screen that is not ready lets the other one go first, and what the other cannot pay is forgiven.

In whole units the queues are all there is to it (`Credits`): the priority screen has at most
`priority_factor` frames left, the other at most one, and as long as both screens are ready the
frames captured are those paid for (`Credits.ready`). -/

namespace RemotePlay.Work

open Function (update)

/-- The fraction bits of the factors. -/
def SCALE_BITS : ℕ := 16

/-- `fix`, of a whole number: a half is added and the fraction dropped, up to the largest `u32`. -/
def fix (x : ℕ) : ℕ := min ((2 * (x * 2 ^ SCALE_BITS) + 1) / 2) (2 ^ 32 - 1)

/-- `Config`; a screen is given by `is_top`. -/
structure ScreenConfig where
  priority_is_top : Bool
  priority_factor : ℕ
  priority_factor_scaled : ℕ
  frame_counts : Bool → ℕ
  frame_queues : Bool → ℕ

/-- `init`. -/
def ScreenConfig.init (mode : ℕ) : ScreenConfig :=
  let factor := mode &&& 0xff
  { priority_is_top := decide ((mode &&& 0xff00) > 0)
    priority_factor := factor
    priority_factor_scaled := fix factor
    frame_counts := fun _ => 1
    frame_queues := fun _ => fix factor }

/-- What a round of the loop finds: the game, if the time allowed is up, which screens are ready
(`screen_port_sync` without waiting), if the priority screen gets ready in time, and which screen
`screens_ports_sync` finds ready in time. -/
structure PacingPoll where
  game_pid : ℕ
  late : Bool
  ready : Bool → Bool
  sync : Bool
  any_sync : Option Bool

namespace ScreenConfig

variable (conf : ScreenConfig)

/-- `get_prio_scaled`. -/
def prio (s : Bool) : ℕ :=
  if s = conf.priority_is_top then 1 <<< SCALE_BITS else conf.priority_factor_scaled

/-- `get_factor`, cast to `u32`. -/
def factor (b : Bool) : ℕ := (1 <<< SCALE_BITS) * conf.frame_queues b / conf.prio b % 2 ^ 32

/-- The additions wrap. -/
def refill : ScreenConfig :=
  if conf.factor false < 1 <<< SCALE_BITS ∧ conf.factor true < 1 <<< SCALE_BITS then
    { conf with
      frame_queues := fun b => (conf.frame_queues b + conf.priority_factor_scaled) % 2 ^ 32 }
  else conf

/-- The screen whose turn it is; the factors are those from before the queues are refilled. -/
def turn (is_top : Bool) : Bool :=
  if conf.factor is_top ≥ conf.factor !is_top then is_top else !is_top

/-- A screen's queue has its price. -/
def canPay (b : Bool) : Bool := decide (conf.frame_queues b ≥ conf.prio b)

/-- What is missing of the price is forgiven. -/
def pay (b : Bool) : ScreenConfig :=
  { conf with frame_queues := update conf.frame_queues b (conf.frame_queues b - conf.prio b) }

/-- Without a game the screens take turns by a count. -/
def countFrame (is_top : Bool) : ScreenConfig × Bool :=
  if conf.priority_factor ≠ 0 then
    let frame_count := conf.frame_counts is_top
    if frame_count ≥ conf.priority_factor then
      let frame_counts := update conf.frame_counts is_top (frame_count - conf.priority_factor)
      ({ conf with frame_counts }, !is_top)
    else
      let frame_counts := update conf.frame_counts is_top (frame_count + 1)
      ({ conf with frame_counts }, is_top)
  else (conf, is_top)

/-- A round of the loop of `do_screen`: the configuration, `is_top`, and if the loop is left. -/
def pollRound (is_top : Bool) (e : PacingPoll) : ScreenConfig × Bool × Bool :=
  if e.game_pid = 0 then
    let (conf, is_top) := conf.countFrame is_top
    (conf, is_top, true)
  else if e.late then (conf, is_top, true)
  else if conf.priority_factor = 0 then (conf, is_top, e.sync)
  else
    let s := conf.turn is_top
    let conf := conf.refill
    if conf.canPay s && e.ready s then (conf.pay s, s, true)
    else if conf.canPay !s && e.ready !s then (conf.pay !s, !s, true)
    else match e.any_sync with
      | some s => (conf.pay s, s, true)
      | none => (conf, s, false)

end ScreenConfig

/-- The thread: `call` is `is_top` of the call of `do_screen` under way. -/
structure PacingState where
  conf : ScreenConfig
  call : Option Bool

namespace PacingState

/-- The queues of a mode, and no call under way. -/
def start (mode : ℕ) : PacingState := ⟨ScreenConfig.init mode, none⟩

/-- A round, and the screen captured when it is the last of its call. -/
def poll (st : PacingState) (e : PacingPoll) : PacingState × Option Bool :=
  let (conf, is_top, done) := st.conf.pollRound (st.call.getD st.conf.priority_is_top) e
  if done then (⟨conf, none⟩, some is_top) else (⟨conf, some is_top⟩, none)

/-- The rounds of any number of calls, and the screens captured. -/
def run : PacingState → List PacingPoll → PacingState × List Bool
  | st, [] => (st, [])
  | st, e :: es =>
    let (st, captured) := st.poll e
    let (st, rest) := run st es
    (st, captured.toList ++ rest)

end PacingState

/-! ### Credits -/

/-- The queues in whole frames: the priority screen can pay for `a`, the other for `b`. -/
structure Credits (conf : ScreenConfig) (p : Bool) (f a b : ℕ) : Prop where
  priority : conf.priority_is_top = p
  factor : conf.priority_factor = f
  scaled : conf.priority_factor_scaled = f * 2 ^ SCALE_BITS
  queue : conf.frame_queues p = a * 2 ^ SCALE_BITS
  other : conf.frame_queues (!p) = b * (f * 2 ^ SCALE_BITS)
  le : a ≤ f
  other_le : b ≤ 1

theorem fix_eq {f : ℕ} (hf : f ≤ 255) : fix f = f * 2 ^ SCALE_BITS := by
  unfold fix SCALE_BITS
  omega

theorem Credits.init {mode : ℕ} :
    Credits (ScreenConfig.init mode) (decide ((mode &&& 0xff00) > 0)) (mode &&& 0xff)
      (mode &&& 0xff)
      1 := by
  have hle : mode &&& 0xff ≤ 255 := Nat.and_le_right
  exact ⟨rfl, rfl, fix_eq hle, fix_eq hle, (fix_eq hle).trans (Nat.one_mul _).symm, le_rfl, le_rfl⟩

section

variable {conf : ScreenConfig} {p : Bool} {f a b : ℕ}

theorem screen_cases (p s : Bool) : s = p ∨ s = !p := by
  cases p <;> cases s <;> simp

namespace Credits

theorem prio_self (h : Credits conf p f a b) : conf.prio p = 2 ^ SCALE_BITS := by
  rw [ScreenConfig.prio, if_pos h.priority.symm, Nat.one_shiftLeft]

theorem prio_other (h : Credits conf p f a b) : conf.prio (!p) = f * 2 ^ SCALE_BITS := by
  rw [ScreenConfig.prio, if_neg (by rw [h.priority]; simp), h.scaled]

theorem factor_self (h : Credits conf p f a b) (hf : f ≤ 255) :
    conf.factor p = a * 2 ^ SCALE_BITS := by
  have hle := h.le
  rw [ScreenConfig.factor, h.prio_self, h.queue, Nat.one_shiftLeft,
    Nat.mul_div_cancel_left _ (Nat.two_pow_pos _), Nat.mod_eq_of_lt]
  unfold SCALE_BITS
  omega

theorem factor_other (h : Credits conf p f a b) (h0 : 0 < f) :
    conf.factor (!p) = b * 2 ^ SCALE_BITS := by
  have hle := h.other_le
  have hmul : 1 <<< SCALE_BITS * (b * (f * 2 ^ SCALE_BITS)) =
      b * 2 ^ SCALE_BITS * (f * 2 ^ SCALE_BITS) := by
    rw [Nat.one_shiftLeft, ← Nat.mul_assoc, Nat.mul_comm _ b]
  rw [ScreenConfig.factor, h.prio_other, h.other, hmul,
    Nat.mul_div_cancel _ (Nat.mul_pos h0 (Nat.two_pow_pos _)), Nat.mod_eq_of_lt]
  unfold SCALE_BITS
  omega

theorem refill (h : Credits conf p f a b) (h0 : 0 < f) (hf : f ≤ 255) :
    ∃ a' b', Credits conf.refill p f a' b' ∧
      (a', b') = if a = 0 ∧ b = 0 then (f, 1) else (a, b) := by
  have hself := h.factor_self hf
  have hother := h.factor_other h0
  have hcond : (conf.factor false < 1 <<< SCALE_BITS ∧ conf.factor true < 1 <<< SCALE_BITS) ↔
      a = 0 ∧ b = 0 := by
    have hboth : (conf.factor false < 1 <<< SCALE_BITS ∧ conf.factor true < 1 <<< SCALE_BITS) ↔
        conf.factor p < 1 <<< SCALE_BITS ∧ conf.factor (!p) < 1 <<< SCALE_BITS := by
      cases p
      · exact Iff.rfl
      · exact and_comm
    rw [hboth, hself, hother, Nat.one_shiftLeft]
    unfold SCALE_BITS
    omega
  unfold ScreenConfig.refill
  by_cases hz : a = 0 ∧ b = 0
  · rw [if_pos (hcond.mpr hz), if_pos hz]
    refine ⟨f, 1, ⟨h.priority, h.factor, h.scaled, ?_, ?_, le_rfl, le_rfl⟩, rfl⟩
    · simp only [h.queue, h.scaled, hz.1, Nat.zero_mul, Nat.zero_add]
      exact Nat.mod_eq_of_lt (by unfold SCALE_BITS; omega)
    · simp only [h.other, h.scaled, hz.2, Nat.zero_mul, Nat.zero_add, Nat.one_mul]
      exact Nat.mod_eq_of_lt (by unfold SCALE_BITS; omega)
  · rw [if_neg fun hc => hz (hcond.mp hc), if_neg hz]
    exact ⟨a, b, h, rfl⟩

theorem canPay_self (h : Credits conf p f a b) : conf.canPay p = true ↔ 0 < a := by
  rw [ScreenConfig.canPay, decide_eq_true_eq, h.prio_self, h.queue]
  unfold SCALE_BITS
  omega

theorem canPay_other (h : Credits conf p f a b) (h0 : 0 < f) : conf.canPay (!p) = true ↔ 0 < b := by
  have hpos : 0 < f * 2 ^ SCALE_BITS := Nat.mul_pos h0 (Nat.two_pow_pos _)
  rw [ScreenConfig.canPay, decide_eq_true_eq, h.prio_other, h.other]
  constructor
  · intro hle
    by_contra hb
    obtain rfl : b = 0 := by omega
    omega
  · intro hb
    exact Nat.le_mul_of_pos_left _ hb

theorem pay_self (h : Credits conf p f a b) : Credits (conf.pay p) p f (a - 1) b := by
  have hle := h.le
  refine ⟨h.priority, h.factor, h.scaled, ?_, ?_, by omega, h.other_le⟩
  · simp only [ScreenConfig.pay, Function.update_self, h.queue, h.prio_self]
    rw [Nat.sub_mul, Nat.one_mul]
  · simp only [ScreenConfig.pay]
    rw [Function.update_of_ne (by cases p <;> decide), h.other]

theorem pay_other (h : Credits conf p f a b) : Credits (conf.pay !p) p f a (b - 1) := by
  have hle := h.other_le
  refine ⟨h.priority, h.factor, h.scaled, ?_, ?_, h.le, by omega⟩
  · simp only [ScreenConfig.pay]
    rw [Function.update_of_ne (by cases p <;> decide), h.queue]
  · simp only [ScreenConfig.pay, Function.update_self, h.other, h.prio_other]
    rw [Nat.sub_mul, Nat.one_mul]

theorem pay (h : Credits conf p f a b) (s : Bool) : ∃ a' b', Credits (conf.pay s) p f a' b' := by
  rcases screen_cases p s with rfl | rfl
  · exact ⟨_, _, h.pay_self⟩
  · exact ⟨_, _, h.pay_other⟩

theorem countFrame (h : Credits conf p f a b) (is_top : Bool) :
    Credits (conf.countFrame is_top).1 p f a b := by
  unfold ScreenConfig.countFrame
  simp only
  split_ifs
  · exact ⟨h.priority, h.factor, h.scaled, h.queue, h.other, h.le, h.other_le⟩
  · exact ⟨h.priority, h.factor, h.scaled, h.queue, h.other, h.le, h.other_le⟩
  · exact h

/-- **Every round leaves whole frames in the queues**, whatever is ready. -/
theorem pollRound (h : Credits conf p f a b) (h0 : 0 < f) (hf : f ≤ 255) (is_top : Bool)
    (e : PacingPoll) : ∃ a' b', Credits (conf.pollRound is_top e).1 p f a' b' := by
  unfold ScreenConfig.pollRound
  by_cases hgame : e.game_pid = 0
  · rw [if_pos hgame]
    exact ⟨a, b, h.countFrame is_top⟩
  rw [if_neg hgame]
  by_cases hlate : e.late = true
  · rw [if_pos hlate]
    exact ⟨a, b, h⟩
  rw [if_neg hlate, if_neg (by rw [h.factor]; omega)]
  obtain ⟨a₁, b₁, h₁, -⟩ := h.refill h0 hf
  simp only
  split_ifs
  · exact h₁.pay _
  · exact h₁.pay _
  · rcases e.any_sync with _ | s
    · exact ⟨a₁, b₁, h₁⟩
    · exact h₁.pay s

theorem turn (h : Credits conf p f a b) (h0 : 0 < f) (hf : f ≤ 255) :
    conf.turn p = if b ≤ a then p else !p := by
  rw [ScreenConfig.turn, h.factor_self hf, h.factor_other h0]
  refine if_congr ?_ rfl rfl
  unfold SCALE_BITS
  omega

/-- **With both screens ready** the screen whose turn it is is captured and pays. -/
theorem ready (h : Credits conf p f a b) (h0 : 0 < f) (hf : f ≤ 255) {e : PacingPoll}
    (hgame : e.game_pid ≠ 0) (hlate : e.late = false) (hready : ∀ s, e.ready s = true) :
    ∃ conf' s a' b', conf.pollRound p e = (conf', s, true) ∧ Credits conf' p f a' b' ∧
      (s = p ∧ (a' : ℤ) - f * b' = a - f * b - 1 ∨ s = !p ∧ (a' : ℤ) - f * b' = a - f * b + f) := by
  obtain ⟨a₁, b₁, h₁, hrefill⟩ := h.refill h0 hf
  have hle := h.le
  have hother := h.other_le
  have hturn := h.turn h0 hf
  have hround : ∀ s, conf.turn p = s → conf.refill.canPay s = true →
      conf.pollRound p e = (conf.refill.pay s, s, true) := by
    rintro s rfl hpay
    unfold ScreenConfig.pollRound
    rw [if_neg hgame, if_neg (by rw [hlate]; decide), if_neg (by rw [h.factor]; omega)]
    simp only [hpay, hready, Bool.and_self, ↓reduceIte]
  by_cases hab : b ≤ a
  · have hpos : 0 < a₁ := by
      split_ifs at hrefill with hz <;> (injection hrefill; omega)
    refine ⟨_, p, _, _, hround p (by rw [hturn, if_pos hab]) (h₁.canPay_self.mpr hpos), h₁.pay_self,
      Or.inl ⟨rfl, ?_⟩⟩
    split_ifs at hrefill with hz
    · injection hrefill with ha hb
      subst ha hb
      rw [hz.1, hz.2]
      push_cast
      omega
    · injection hrefill with ha hb
      subst ha hb
      omega
  · obtain ⟨rfl, rfl⟩ : a = 0 ∧ b = 1 := by omega
    rw [if_neg (by decide)] at hrefill
    injection hrefill with ha hb
    subst ha hb
    refine ⟨_, !p, _, _, hround _ (by rw [hturn, if_neg hab]) ((h₁.canPay_other h0).mpr one_pos),
      h₁.pay_other, Or.inr ⟨rfl, ?_⟩⟩
    push_cast
    omega

end Credits

end

/-! ### Runs -/

/-- A game is running, the call is in time, and both screens are ready. -/
structure PacingPoll.BothReady (e : PacingPoll) : Prop where
  game : e.game_pid ≠ 0
  late : e.late = false
  ready : ∀ s, e.ready s = true

namespace PacingState

variable {st : PacingState} {p : Bool} {f a b : ℕ}

theorem poll_conf (st : PacingState) (e : PacingPoll) :
    (st.poll e).1.conf = (st.conf.pollRound (st.call.getD st.conf.priority_is_top) e).1 := by
  unfold poll
  simp only
  split_ifs
  · rfl
  · rfl

theorem run_credits (h : Credits st.conf p f a b) (h0 : 0 < f) (hf : f ≤ 255)
    (es : List PacingPoll) : ∃ a' b', Credits (st.run es).1.conf p f a' b' := by
  induction es generalizing st a b with
  | nil => exact ⟨a, b, h⟩
  | cons e es ih =>
    obtain ⟨a₁, b₁, h₁⟩ := h.pollRound h0 hf (st.call.getD st.conf.priority_is_top) e
    rw [← poll_conf] at h₁
    exact ih h₁

/-- **Over calls that find both screens ready** the frames captured are those paid for. -/
theorem run_ready (h : Credits st.conf p f a b) (h0 : 0 < f) (hf : f ≤ 255) (hcall : st.call = none)
    {es : List PacingPoll} (hes : ∀ e ∈ es, e.BothReady) :
    (st.run es).2.length = es.length ∧ ∃ a' b', Credits (st.run es).1.conf p f a' b' ∧
      ((st.run es).2.count p : ℤ) - f * (st.run es).2.count (!p) = a - f * b - (a' - f * b') := by
  induction es generalizing st a b with
  | nil => exact ⟨rfl, a, b, h, by simp [run]⟩
  | cons e es ih =>
    obtain ⟨hgame, hlate, hready⟩ := hes e List.mem_cons_self
    obtain ⟨conf, s, a₁, b₁, hround, h₁, hpaid⟩ := h.ready h0 hf hgame hlate hready
    have hpoll : st.poll e = (⟨conf, none⟩, some s) := by
      unfold poll
      rw [hcall, Option.getD_none, h.priority, hround]
      rfl
    have hrun : st.run (e :: es) =
        ((run ⟨conf, none⟩ es).1, s :: (run ⟨conf, none⟩ es).2) := by
      rw [run, hpoll]
      rfl
    obtain ⟨hlen, a', b', h', hcount⟩ :=
      @ih ⟨conf, none⟩ _ _ h₁ rfl fun e he => hes e (List.mem_cons_of_mem _ he)
    rw [hrun]
    refine ⟨congrArg Nat.succ hlen, a', b', h', ?_⟩
    rcases hpaid with ⟨rfl, hpaid⟩ | ⟨rfl, hpaid⟩
    · rw [List.count_cons_self, List.count_cons_of_ne (by simp)]
      push_cast
      omega
    · rw [List.count_cons_self, List.count_cons_of_ne (by simp)]
      push_cast
      rw [Int.mul_add]
      omega

end PacingState

/-- **What is asked of the pacing** in a state, with the priority screen `p` and its factor `f`. -/
structure PacingOk (p : Bool) (f : ℕ) (st : PacingState) : Prop where
  below : ∀ s, st.conf.frame_queues s < st.conf.prio s + st.conf.priority_factor_scaled
  no_wrap : ∀ s, st.conf.frame_queues s + st.conf.priority_factor_scaled < 2 ^ 32
  whole : ∀ s, st.conf.prio s ∣ st.conf.frame_queues s
  /-- From here on, for as long as both screens are ready. -/
  fair : st.call = none → ∀ es : List PacingPoll, (∀ e ∈ es, e.BothReady) →
    (st.run es).2.length = es.length ∧
      |((st.run es).2.count p : ℤ) - f * (st.run es).2.count (!p)| ≤ 2 * f

theorem Credits.toOk {st : PacingState} {p : Bool} {f a b : ℕ} (h : Credits st.conf p f a b)
    (h0 : 0 < f) (hf : f ≤ 255) : PacingOk p f st := by
  have hle := h.le
  have hother := h.other_le
  have hb : b * (f * 2 ^ SCALE_BITS) ≤ f * 2 ^ SCALE_BITS := by
    calc b * (f * 2 ^ SCALE_BITS) ≤ 1 * (f * 2 ^ SCALE_BITS) := Nat.mul_le_mul_right _ hother
      _ = f * 2 ^ SCALE_BITS := Nat.one_mul _
  have ha : a * 2 ^ SCALE_BITS ≤ f * 2 ^ SCALE_BITS := Nat.mul_le_mul_right _ hle
  have hpos : 0 < f * 2 ^ SCALE_BITS := Nat.mul_pos h0 (Nat.two_pow_pos _)
  have hbig : f * 2 ^ SCALE_BITS + f * 2 ^ SCALE_BITS < 2 ^ 32 := by
    unfold SCALE_BITS
    omega
  refine ⟨?_, ?_, ?_, ?_⟩
  · intro s
    rcases screen_cases p s with rfl | rfl
    · rw [h.queue, h.prio_self, h.scaled]
      have := Nat.two_pow_pos SCALE_BITS
      omega
    · rw [h.other, h.prio_other, h.scaled]
      omega
  · intro s
    rcases screen_cases p s with rfl | rfl
    · rw [h.queue, h.scaled]
      omega
    · rw [h.other, h.scaled]
      omega
  · intro s
    rcases screen_cases p s with rfl | rfl
    · rw [h.queue, h.prio_self]
      exact Nat.dvd_mul_left _ _
    · rw [h.other, h.prio_other]
      exact Nat.dvd_mul_left _ _
  · intro hcall es hes
    obtain ⟨hlen, a', b', h', hcount⟩ := PacingState.run_ready h h0 hf hcall hes
    have hle' := h'.le
    have hother' := h'.other_le
    have hfb : ∀ n : ℕ, n ≤ 1 → 0 ≤ (f : ℤ) * n ∧ (f : ℤ) * n ≤ f := by
      intro n hn
      interval_cases n
      · simp
      · simp
    obtain ⟨h1, h2⟩ := hfb b hother
    obtain ⟨h3, h4⟩ := hfb b' hother'
    refine ⟨hlen, ?_⟩
    rw [hcount, abs_le]
    constructor <;> omega

/-- **The screens are captured in proportion.**  In every run of `do_screen` each queue holds whole
frames and less than a frame more than a refill, so that nothing wraps; and from wherever a run has
got, for as long as both screens are ready, the priority screen gets `f` frames for each of the
other, give or take `2 * f`. -/
theorem pacingOk (mode : ℕ) (h0 : 0 < mode &&& 0xff) (es : List PacingPoll) :
    PacingOk (decide ((mode &&& 0xff00) > 0)) (mode &&& 0xff)
      ((PacingState.start mode).run es).1 := by
  have hf : mode &&& 0xff ≤ 255 := Nat.and_le_right
  have hinit : Credits (PacingState.start mode).conf (decide ((mode &&& 0xff00) > 0))
      (mode &&& 0xff) (mode &&& 0xff) 1 := Credits.init
  obtain ⟨a, b, h⟩ := PacingState.run_credits hinit h0 hf es
  exact h.toOk h0 hf

/-- With factor 2, after a frame of the other screen, the only one that was ready. -/
theorem pacingOk_two : PacingOk true 2
    ((PacingState.start 0x102).run [⟨1, false, fun _ => false, false, some false⟩]).1 :=
  pacingOk 0x102 (by decide) _

end RemotePlay.Work
