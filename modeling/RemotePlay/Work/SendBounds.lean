import RemotePlay.Work.SendTerms

/-! # Bounds on the pool of send buffers

The buffers of data are bounded by `SEG_MEM_SEM`, the term buffers before the ARQ window by
`SEG_MEM_TERM_SEM`, and those in it by the window only.  So `nwm_syn` never holds more than its
count, and no allocation fails if the pool has a buffer for each of these
(`SendPool.reached_accounting`).  At the highest bandwidth it has not: `SEND_BUFS_COUNT` allows for
the term buffers of a quarter of a second, but a window can be full of them
(`SendPool.mpMalloc_null`). -/

namespace RemotePlay.Work

open Lib.Threads
open Function (update)

/-! ### Term buffers before the window -/

theorem PoolPc.termBufs_add_pushed {pc : PoolPc} (h : pc.Fits) :
    pc.termBufs + pc.pushed ≤ RP_CORE_COUNT_MAX + 1 := by
  cases pc with
  | termMalloc call n i => exact le_of_lt h
  | copy call n i => exact h.2
  | releaseMem call n i => exact h.2
  | push call n j =>
    obtain ⟨hj, hn⟩ := h
    show n - j + j ≤ _
    omega
  | _ => exact Nat.zero_le _

theorem PoolPc.termBufs_eq_zero {pc : PoolPc} (h : pc.call? = none) : pc.termBufs = 0 := by
  cases pc <;> first | rfl | cases h

theorem countP_isTerm {queue : List Packet} {opened : Finset ℕ}
    (h : ∀ p ∈ queue, ∀ id, p.isOf id = true → id ∈ opened) :
    queue.countP Packet.isTerm = ∑ id ∈ opened, queue.countP (Packet.isOf id) := by
  induction queue with
  | nil => simp
  | cons p queue ih =>
    have ih := ih fun q hq => h q (List.mem_cons_of_mem _ hq)
    simp only [countP_cons_toNat, Finset.sum_add_distrib, ← ih, Nat.add_left_cancel_iff]
    cases p with
    | data => exact Finset.sum_const_zero.symm
    | audio => exact Finset.sum_const_zero.symm
    | term call b =>
      have hmem := h _ List.mem_cons_self call (Packet.isOf_iff.mpr ⟨b, rfl⟩)
      rw [Finset.sum_eq_single_of_mem call hmem fun id _ hne => ?_]
      · simp [Packet.isTerm, Packet.isOf]
      · simp [Packet.isOf, hne.symm]

namespace TermCalls

variable {n permits calls term_sem : ℕ} {queue : List Packet} {segs : List PoolSeg}
  {pcs : Fin n → PoolPc} {opened : Finset ℕ}

theorem call_bufs (h : TermCalls permits calls term_sem queue segs pcs opened) (id : ℕ) :
    (∑ t, if (pcs t).call? = some id then (pcs t).termBufs else 0) +
      queue.countP (Packet.isOf id) ≤ RP_CORE_COUNT_MAX + 1 := by
  by_cases hex : ∃ t, (pcs t).call? = some id
  · obtain ⟨t, ht⟩ := hex
    have hsum : (∑ u, if (pcs u).call? = some id then (pcs u).termBufs else 0) =
        (pcs t).termBufs := by
      rw [Finset.sum_eq_single_of_mem t (Finset.mem_univ t), if_pos ht]
      intro u _ hut
      exact if_neg fun hu => hut (h.own u t id hu ht)
    have hpushed := h.pushed t id ht
    have hfits := PoolPc.termBufs_add_pushed (h.fits t)
    omega
  · have hsum : (∑ u, if (pcs u).call? = some id then (pcs u).termBufs else 0) = 0 :=
      Finset.sum_eq_zero fun u _ => if_neg fun hu => hex ⟨u, hu⟩
    rw [hsum, Nat.zero_add]
    exact h.few id

/-- **Before the window** there are few term buffers for each permit. -/
theorem bufs (h : TermCalls permits calls term_sem queue segs pcs opened) :
    total PoolPc.termBufs pcs + queue.countP Packet.isTerm ≤ (RP_CORE_COUNT_MAX + 1) * permits := by
  have hthread : ∀ t, (pcs t).termBufs =
      ∑ id ∈ opened, if (pcs t).call? = some id then (pcs t).termBufs else 0 := by
    intro t
    cases hcall : (pcs t).call? with
    | none =>
      rw [PoolPc.termBufs_eq_zero hcall]
      exact (Finset.sum_eq_zero fun id _ => ite_self 0).symm
    | some id =>
      rw [Finset.sum_eq_single_of_mem id (h.thread_mem t id hcall), if_pos rfl]
      intro id' _ hne
      exact if_neg fun heq => hne (Option.some.inj heq).symm
  calc total PoolPc.termBufs pcs + queue.countP Packet.isTerm
      = (∑ id ∈ opened, ∑ t, if (pcs t).call? = some id then (pcs t).termBufs else 0) +
          ∑ id ∈ opened, queue.countP (Packet.isOf id) := by
        rw [countP_isTerm h.queue_mem, Finset.sum_comm, total]
        exact congrArg (· + _) (Finset.sum_congr rfl fun t _ => hthread t)
    _ = ∑ id ∈ opened, ((∑ t, if (pcs t).call? = some id then (pcs t).termBufs else 0) +
          queue.countP (Packet.isOf id)) := Finset.sum_add_distrib.symm
    _ ≤ ∑ _id ∈ opened, (RP_CORE_COUNT_MAX + 1) := Finset.sum_le_sum fun id _ => h.call_bufs id
    _ = (RP_CORE_COUNT_MAX + 1) * opened.card := by
        rw [Finset.sum_const, smul_eq_mul, Nat.mul_comm]
    _ ≤ (RP_CORE_COUNT_MAX + 1) * permits := by
        refine Nat.mul_le_mul_left _ ?_
        have := h.card
        omega

end TermCalls

theorem PoolPc.dataBufs_le_tokens (pc : PoolPc) : pc.dataBufs ≤ pc.tokens := by
  cases pc with
  | fill => exact le_rfl
  | _ => exact Nat.zero_le _

namespace SendPool

variable {c : PoolConfig} {s s' : SendPool c} {permits permits' : ℕ} {opened : Finset ℕ}

theorem Counted.total_dataBufs (h : s.Counted permits) :
    total PoolPc.dataBufs s.pcs + s.ends + s.held Packet.isData ≤ permits := by
  have hmem := h.mem
  have hle : total PoolPc.dataBufs s.pcs ≤ total PoolPc.tokens s.pcs :=
    Finset.sum_le_sum fun t _ => (s.pcs t).dataBufs_le_tokens
  omega

theorem Counted.held_isTerm (h : s.Counted permits) :
    s.held Packet.isTerm ≤ s.queue.countP Packet.isTerm + c.nSndMax :=
  Nat.add_le_add_left (List.countP_le_length.trans h.window) _

/-- **The buffers allocated.** -/
theorem used_le (h : s.Counted permits) (hcalls : s.Calls permits' opened) :
    s.used ≤ permits + c.nSndMax + (RP_CORE_COUNT_MAX + 1) * permits' := by
  have hused := h.used
  have hdata := h.total_dataBufs
  have hheld := h.held_isTerm
  have hbufs := TermCalls.bufs hcalls
  unfold termBufs at hused
  omega

/-- A thread about to allocate leaves room for one buffer more. -/
theorem used_lt (h : s.Counted permits) (hcalls : s.Calls permits' opened)
    {t : Fin c.core_count.get}
    (ht : s.pcs t = .malloc ∨ ∃ call n i, s.pcs t = .termMalloc call n i) :
    s.used < permits + c.nSndMax + (RP_CORE_COUNT_MAX + 1) * permits' := by
  have hused := h.used
  have hheld := h.held_isTerm
  unfold termBufs at hused
  rcases ht with ht | ⟨call, n, i, ht⟩
  · have hmem := h.mem
    have hbufs := TermCalls.bufs hcalls
    have hlt : total PoolPc.dataBufs s.pcs < total PoolPc.tokens s.pcs := by
      refine Finset.sum_lt_sum (fun u _ => (s.pcs u).dataBufs_le_tokens) ⟨t, Finset.mem_univ t, ?_⟩
      rw [ht]
      exact Nat.zero_lt_one
    omega
  · have hdata := h.total_dataBufs
    have hfits := hcalls.fits t
    rw [ht] at hfits
    have hgoto : TermCalls permits' s.calls s.term_sem s.queue s.segs
        (update s.pcs t (.copy call (n + 1) i)) opened := by
      refine TermCalls.goto hcalls ⟨Nat.le_add_left 1 n, hfits⟩ fun id hid => ?_
      rw [ht]
      exact ⟨hid, le_rfl⟩
    have hbufs := hgoto.bufs
    have hupdate := total_update PoolPc.termBufs s.pcs t (.copy call (n + 1) i)
    rw [ht] at hupdate
    have hcopy : (PoolPc.copy call (n + 1) i).termBufs =
        (PoolPc.termMalloc call n i).termBufs + 1 := rfl
    omega

/-- An allocation fails only if all buffers are in use. -/
theorem threadStep_null {t : Fin c.core_count.get} {choice : Bool}
    (hs : s.threadStep t choice = some s') :
    s'.null = s.null ∨ ¬ s.used < SEND_BUFS_COUNT ∧
      (s.pcs t = .malloc ∨ ∃ call n i, s.pcs t = .termMalloc call n i) := by
  have hmalloc : ∀ pc : PoolPc, (s.mpMalloc t pc).null = s.null ∨ ¬ s.used < SEND_BUFS_COUNT := by
    intro pc
    unfold mpMalloc
    split
    · exact .inl rfl
    · rename_i hfull
      exact .inr hfull
  unfold SendPool.threadStep at hs
  cases hpc : (s.threads t).pc with
  | malloc =>
    simp only [hpc] at hs
    cases hs
    exact (hmalloc _).imp_right fun hfull => ⟨hfull, .inl hpc⟩
  | termMalloc call n i =>
    simp only [hpc] at hs
    cases hs
    exact (hmalloc _).imp_right fun hfull => ⟨hfull, .inr ⟨call, n, i, hpc⟩⟩
  | idle | releaseMem call n i | push call n j | clearCount =>
    simp only [hpc] at hs
    cases hs
    exact .inl rfl
  | waitMem | fill | done | waitTerm | copy call n i =>
    simp only [hpc] at hs
    split_ifs at hs <;> cases hs <;> exact .inl rfl

theorem threadStep_nwm_syn {t : Fin c.core_count.get} {choice : Bool}
    (hs : s.threadStep t choice = some s') {p : Packet} (hp : p ∈ s'.nwm_syn) :
    p ∈ s.nwm_syn ∨ p ≠ .audio := by
  have hpush : ∀ q : Packet, q ≠ .audio → p ∈ s.nwm_syn ++ [q] → p ∈ s.nwm_syn ∨ p ≠ .audio := by
    intro q hq hmem
    rcases List.mem_append.mp hmem with hmem | hmem
    · exact .inl hmem
    · rw [List.mem_singleton.mp hmem]
      exact .inr hq
  unfold SendPool.threadStep at hs
  cases hpc : (s.threads t).pc with
  | malloc | termMalloc call n i =>
    simp only [hpc] at hs
    cases hs
    unfold mpMalloc at hp
    split at hp <;> exact .inl hp
  | push call n j =>
    simp only [hpc] at hs
    cases hs
    exact hpush _ Packet.noConfusion hp
  | idle | releaseMem call n i | clearCount =>
    simp only [hpc] at hs
    cases hs
    exact .inl hp
  | fill =>
    simp only [hpc] at hs
    split_ifs at hs
    · cases hs
      exact .inl hp
    · cases hs
      exact hpush _ Packet.noConfusion hp
  | waitMem | done | waitTerm | copy call n i =>
    simp only [hpc] at hs
    split_ifs at hs <;> cases hs <;> exact .inl hp

theorem length_le_countP {l : List Packet} (h : ∀ p ∈ l, p ≠ Packet.audio) :
    l.length = l.countP Packet.isData + l.countP Packet.isTerm := by
  induction l with
  | nil => rfl
  | cons p l ih =>
    have ih := ih fun q hq => h q (List.mem_cons_of_mem _ hq)
    rw [List.length_cons, countP_cons_toNat, countP_cons_toNat, ih]
    cases p with
    | data => exact Nat.add_right_comm _ _ _
    | term call b => exact Nat.add_assoc _ _ _
    | audio => exact (h _ List.mem_cons_self rfl).elim

/-- **What holds in every state.** -/
structure Inv (s : SendPool c) : Prop where
  counted : s.Counted c.segMem
  calls : ∃ opened, s.Calls c.segMemTerm opened
  syn : ∀ p ∈ s.nwm_syn, p ≠ Packet.audio

theorem inv_start (c : PoolConfig) : (start c).Inv where
  counted := counted_start c
  calls := ⟨∅, calls_start c⟩
  syn _ hp := (List.not_mem_nil hp).elim

theorem Inv.step (h : s.Inv) {e : PoolEvent c} (hs : s.step e = some s') : s'.Inv := by
  obtain ⟨hcounted, ⟨opened, hcalls⟩, hsyn⟩ := h
  cases e with
  | thread t choice =>
    have hs : s.threadStep t choice = some s' := hs
    refine ⟨hcounted.threadStep (hcalls.fits t) hs, hcalls.threadStep hs, fun p hp => ?_⟩
    exact (threadStep_nwm_syn hs hp).elim (hsyn p) id
  | nwm e =>
    have hs : s.nwmStep e = some s' := hs
    refine ⟨hcounted.nwmStep hs, hcalls.nwmStep hs, fun p hp => hsyn p ?_⟩
    cases e with
    | take =>
      obtain ⟨q, ps, -, hq, rfl⟩ := nwmStep_take hs
      rw [hq]
      exact List.mem_cons_of_mem q hp
    | audio =>
      obtain ⟨-, rfl⟩ := nwmStep_audio hs
      exact hp
    | queue =>
      obtain ⟨q, -, -, rfl⟩ := nwmStep_queue hs
      exact hp
    | send i =>
      obtain ⟨xs, q, ys, -, rfl⟩ := nwmStep_send hs
      exact hp
    | ack i =>
      obtain ⟨xs, seg, ys, -, rfl⟩ := nwmStep_ack hs
      exact hp
    | release =>
      obtain ⟨-, rfl⟩ := nwmStep_release hs
      exact hp

theorem reached_inv (h : s.Reached) : s.Inv :=
  Reachable.invariant (fun s (hs : s = start c) => hs ▸ inv_start c)
    (fun _ _ h hstep => hstep.elim fun _ hs => h.step hs) h

/-- `nwm_syn` holds data and term buffers only. -/
theorem length_nwm_syn_le (h : s.Counted permits) (hcalls : s.Calls permits' opened)
    (hsyn : ∀ p ∈ s.nwm_syn, p ≠ Packet.audio) :
    s.nwm_syn.length ≤ permits + (RP_CORE_COUNT_MAX + 1) * permits' := by
  have hdata := h.total_dataBufs
  have hbufs := TermCalls.bufs hcalls
  have hqueue : ∀ f, s.nwm_syn.countP f ≤ s.queue.countP f := by
    intro f
    unfold queue
    rw [List.countP_append]
    exact Nat.le_add_left _ _
  have h1 := hqueue Packet.isData
  have h2 := hqueue Packet.isTerm
  rw [length_le_countP hsyn]
  unfold held at hdata
  omega

end SendPool

namespace PoolConfig

/-- The most buffers that can be in use. -/
def bufsMax (c : PoolConfig) : ℕ :=
  c.segMem + c.nSndMax + (RP_CORE_COUNT_MAX + 1) * c.segMemTerm

theorem segMemTerm_le (c : PoolConfig) : c.segMemTerm ≤ WORK_COUNT := by
  unfold segMemTerm
  split
  · exact le_rfl
  · decide

end PoolConfig

namespace SendPool

variable {c : PoolConfig} {s s' : SendPool c}

theorem null_step (h : s.Inv) (hmax : c.bufsMax ≤ SEND_BUFS_COUNT) {e : PoolEvent c}
    (hs : s.step e = some s') (hnull : s.null = false) : s'.null = false := by
  cases e with
  | thread t choice =>
    have hs : s.threadStep t choice = some s' := hs
    rcases threadStep_null hs with heq | ⟨hfull, hpc⟩
    · rw [heq, hnull]
    · obtain ⟨opened, hcalls⟩ := h.calls
      exact (hfull ((used_lt h.counted hcalls hpc).trans_le hmax)).elim
  | nwm e =>
    have hs : s.nwmStep e = some s' := hs
    cases e with
    | take =>
      obtain ⟨q, ps, -, -, rfl⟩ := nwmStep_take hs
      exact hnull
    | audio =>
      obtain ⟨-, rfl⟩ := nwmStep_audio hs
      exact hnull
    | queue =>
      obtain ⟨q, -, -, rfl⟩ := nwmStep_queue hs
      exact hnull
    | send i =>
      obtain ⟨xs, q, ys, -, rfl⟩ := nwmStep_send hs
      exact hnull
    | ack i =>
      obtain ⟨xs, seg, ys, -, rfl⟩ := nwmStep_ack hs
      exact hnull
    | release =>
      obtain ⟨-, rfl⟩ := nwmStep_release hs
      exact hnull

theorem reached_run (h : s.Reached) {es : List (PoolEvent c)} (hrun : es.foldlM step s = some s') :
    s'.Reached :=
  Reachable.foldlM (fun _ e _ hs => ⟨e, hs⟩) h hrun

/-- **The accounting of send buffers**: `nwm_syn` never holds more than its count, the buffers in
use are bounded by the semaphores and the ARQ window, and no allocation fails if the pool has so
many. -/
theorem reached_accounting (c : PoolConfig) {s : SendPool c} (h : s.Reached) :
    s.nwm_syn.length ≤ c.nwmSyn ∧ s.used ≤ c.bufsMax ∧
      (c.bufsMax ≤ SEND_BUFS_COUNT → s.null = false) := by
  have hinv := reached_inv h
  obtain ⟨opened, hcalls⟩ := hinv.calls
  refine ⟨?_, used_le hinv.counted hcalls, fun hmax => ?_⟩
  · refine (length_nwm_syn_le hinv.counted hcalls hinv.syn).trans ?_
    refine Nat.add_le_add_left ?_ _
    exact (Nat.mul_le_mul_left _ c.segMemTerm_le).trans (by decide)
  · have hboth : s.Inv ∧ s.null = false := by
      refine Reachable.invariant (p := fun s => s.Inv ∧ s.null = false) (fun s hs => ?_)
        (fun s s' hs hstep => ?_) h
      · rw [hs]
        exact ⟨inv_start c, rfl⟩
      · obtain ⟨e, he⟩ := hstep
        exact ⟨hs.1.step he, null_step hs.1 hmax he hs.2⟩
    exact hboth.2

/-- A buffer of data is queued, at the default bandwidth. -/
theorem reached_accounting_data : ∃ s : SendPool ⟨.three, 2 * 1024 * 1024, true⟩,
    [.thread ⟨1, by decide⟩ false, .thread ⟨1, by decide⟩ false, .thread ⟨1, by decide⟩ false,
        .thread ⟨1, by decide⟩ false, .nwm .take, .nwm .queue].foldlM step
      (start ⟨.three, 2 * 1024 * 1024, true⟩) = some s ∧ s.null = false := by
  have hsome : ([.thread ⟨1, by decide⟩ false, .thread ⟨1, by decide⟩ false,
      .thread ⟨1, by decide⟩ false, .thread ⟨1, by decide⟩ false, .nwm .take,
      .nwm .queue].foldlM step (start ⟨.three, 2 * 1024 * 1024, true⟩)).isSome = true := by
    rfl
  obtain ⟨s, hs⟩ := Option.isSome_iff_exists.mp hsome
  exact ⟨s, hs, (reached_accounting _ (reached_run (.start rfl) hs)).2.2 (by decide)⟩

end SendPool

/-! ### A window full of term buffers -/

namespace PoolConfig

/-- One core and the highest bandwidth. -/
def fastest : PoolConfig := ⟨.one, RP_QOS_MAX, false⟩

/-- The encoder thread. -/
def encoder : Fin fastest.core_count.get := ⟨0, Nat.zero_lt_one⟩

instance subsingleton_encoder : Subsingleton (Fin fastest.core_count.get) :=
  inferInstanceAs (Subsingleton (Fin 1))

theorem fastest_last : fastest.core_count.get - 1 = 0 := rfl

theorem fastest_pos : (0 < fastest.core_count.get) = True := eq_true Nat.zero_lt_one

theorem fastest_le : (1 < fastest.core_count.get) = False := eq_false (Nat.lt_irrefl 1)

theorem fastest_segMem : fastest.segMem = 453 := by decide

theorem fastest_nSndMax : fastest.nSndMax = 453 := by decide

end PoolConfig

namespace SendPool

open PoolConfig

/-- The state with one encoder thread and nothing taken from `nwm_syn`. -/
def solo (pc : PoolPc) (w : Fin WORK_COUNT) (mem term used : ℕ) (ended : Bool) (count : ℕ)
    (syn : List Packet) (segs : List PoolSeg) (calls : ℕ) : SendPool fastest where
  mem_sem := mem
  term_sem := term
  used := used
  threads := Function.const _ ⟨w, pc⟩
  term_dsts := update (fun _ => false) (w, encoder) ended
  work_done_count := update (fun _ => 0) w count
  nwm_syn := syn
  dst := none
  segs := segs
  freed := 0
  calls := calls
  null := false

variable {w : Fin WORK_COUNT} {mem term used calls : ℕ} {syn : List Packet} {segs : List PoolSeg}

theorem solo_begin :
    (solo .idle w mem term used false 0 syn segs calls).step (.thread encoder false) =
    some (solo .waitMem w mem term used false 0 syn segs calls) := by
  simp [step, threadStep, solo, goto, Function.update_eq_const_of_subsingleton]

theorem solo_data (h : used < SEND_BUFS_COUNT) :
    [.thread encoder false, .thread encoder false, .thread encoder false].foldlM step
        (solo .waitMem w (mem + 1) term used false 0 syn segs calls) =
      some (solo .waitMem w mem term (used + 1) false 0 (syn ++ [.data]) segs calls) := by
  simp [step, threadStep, solo, goto, mpMalloc, h, Function.update_eq_const_of_subsingleton]

theorem solo_end (h : used < SEND_BUFS_COUNT) :
    [.thread encoder false, .thread encoder false, .thread encoder true,
        .thread encoder false].foldlM step
        (solo .waitMem w (mem + 1) term used false 0 syn segs calls) =
      some (solo .waitTerm w mem term (used + 1) true 1 syn segs calls) := by
  have hfirst : (⟨0, fastest.core_count.get_pos⟩ : Fin fastest.core_count.get) = encoder := rfl
  simp [step, threadStep, solo, goto, mpMalloc, h, fastest_last, hfirst,
    Function.update_eq_const_of_subsingleton]

theorem solo_term (h : used < SEND_BUFS_COUNT) :
    [.thread encoder false, .thread encoder false, .thread encoder false,
        .thread encoder false].foldlM step
        (solo .waitTerm w mem (term + 1) used true 1 syn segs calls) =
      some (solo (.copy calls 1 1) w (mem + 1) term used false 1 syn segs (calls + 1)) := by
  have hset : ∀ u, update (fun _ : Fin WORK_COUNT × Fin fastest.core_count.get => false)
      (w, encoder) true (w, u) = true := by
    intro u
    rw [Subsingleton.elim u encoder, Function.update_self]
  have hzero : ∀ h, (⟨0, h⟩ : Fin fastest.core_count.get) = encoder := fun _ => rfl
  simp [step, threadStep, solo, goto, mpMalloc, h, fastest_pos, hset, hzero,
    Function.update_eq_const_of_subsingleton]

theorem solo_push :
    [.thread encoder false, .thread encoder false, .thread encoder false].foldlM step
        (solo (.copy calls 1 1) w mem term used false 1 syn segs (calls + 1)) =
      some (solo .idle (w + 1) mem term used false 0 (syn ++ [.term calls true]) segs
        (calls + 1)) := by
  simp [step, threadStep, solo, goto, finish, fastest_le, Function.update_eq_const_of_subsingleton]

theorem solo_send (h : segs.length < 453) (p : Packet) :
    [.nwm .take, .nwm .queue, .nwm (.send segs.length)].foldlM step
        (solo .idle w mem term used false 0 [p] segs calls) =
      some (solo .idle w mem (term + p.notifies.toNat) used false 0 [] (segs ++ [⟨p, true⟩])
        calls) := by
  simp [step, nwmStep, solo, fastest_nSndMax, h]
  cases p.notifies <;> rfl

theorem solo_full (h : ¬ used < SEND_BUFS_COUNT) : ∃ s,
    [.thread encoder false, .thread encoder false].foldlM step
        (solo .waitMem w (mem + 1) term used false 0 syn segs calls) = some s ∧
      s.null = true := by
  simp [step, threadStep, solo, goto, mpMalloc, h, Function.update_eq_const_of_subsingleton]

theorem reached_data (n : ℕ) (hused : used + n ≤ SEND_BUFS_COUNT)
    (h : (solo .waitMem w (mem + n) term used false 0 syn segs calls).Reached) :
    ∃ syn', (solo .waitMem w mem term (used + n) false 0 syn' segs calls).Reached := by
  induction n generalizing used syn with
  | zero => exact ⟨syn, h⟩
  | succ n ih =>
    have hnext := reached_run h (solo_data (by omega))
    rw [Nat.add_succ, ← Nat.succ_add]
    exact ih (by omega) hnext

theorem reached_end (hused : used + 1 < SEND_BUFS_COUNT)
    (h : (solo .waitMem w (mem + 1) (term + 1) used false 0 syn segs calls).Reached) :
    (solo .idle (w + 1) (mem + 1) term (used + 1) false 0 (syn ++ [.term calls true]) segs
      (calls + 1)).Reached :=
  reached_run (reached_run (reached_run h (solo_end (by omega))) (solo_term hused)) solo_push

theorem reached_window (n : ℕ) (hn : n ≤ 453) : ∃ w segs, segs.length = n ∧
    (solo .idle w 453 1 n false 0 [] segs n).Reached := by
  induction n with
  | zero =>
    have hstart : solo .idle 0 453 1 0 false 0 [] [] 0 = start fastest := by
      unfold solo start
      rw [Function.update_eq_self, Function.update_eq_self, fastest_segMem]
      rfl
    exact ⟨0, [], rfl, .start hstart⟩
  | succ n ih =>
    obtain ⟨w, segs, hlen, h⟩ := ih (by omega)
    have hused : n + 1 < SEND_BUFS_COUNT := lt_of_le_of_lt hn (by decide)
    have hterm := reached_end hused (.step h ⟨_, solo_begin⟩)
    have hsent := reached_run hterm (solo_send (by omega) _)
    have hone : 0 + (Packet.term n true).notifies.toNat = 1 := rfl
    rw [hone] at hsent
    refine ⟨w + 1, segs ++ [⟨Packet.term n true, true⟩], ?_, hsent⟩
    rw [List.length_append, hlen]
    rfl

/-- **An allocation fails** after a window of frames of one term buffer each and two frames of 183
buffers of data. -/
theorem mpMalloc_null : ∃ s : SendPool fastest, s.Reached ∧ s.null = true := by
  obtain ⟨w, segs, -, hwindow⟩ := reached_window 453 le_rfl
  obtain ⟨syn, hdata⟩ := reached_data 183 (by decide) (.step hwindow ⟨_, solo_begin⟩)
  have hframe := reached_end (by decide) hdata
  obtain ⟨syn, hfull⟩ := reached_data 183 (by decide) (.step hframe ⟨_, solo_begin⟩)
  have hcount : ¬ 453 + 183 + 1 + 183 < SEND_BUFS_COUNT := by decide
  obtain ⟨s, hs, hnull⟩ := solo_full hcount
  exact ⟨s, reached_run hfull hs, hnull⟩

end SendPool

end RemotePlay.Work
