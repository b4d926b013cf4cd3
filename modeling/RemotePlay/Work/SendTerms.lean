import RemotePlay.Work.SendCount

/-! # Calls of `send_term_dsts`

A call of `send_term_dsts` is open from when it acquires `SEG_MEM_TERM_SEM` until the last of its
term buffers is queued for sending; the semaphore is released a little later, when that buffer is
sent. The term buffers with threads and before the ARQ window are those of open calls
(`TermCalls`). -/

namespace RemotePlay.Work

open Lib.Threads
open Function (update)

/-- The last term buffer of a call, not sent yet. -/
def PoolSeg.pending (seg : PoolSeg) : Bool := seg.packet.notifies && !seg.sent

theorem Packet.isOf_iff {p : Packet} {id : ℕ} : p.isOf id = true ↔ ∃ b, p = Packet.term id b := by
  cases p with
  | data => exact ⟨fun h => (Bool.false_ne_true h).elim, fun ⟨_, h⟩ => Packet.noConfusion h⟩
  | audio => exact ⟨fun h => (Bool.false_ne_true h).elim, fun ⟨_, h⟩ => Packet.noConfusion h⟩
  | term call b =>
    simp only [Packet.isOf, decide_eq_true_eq, Packet.term.injEq]
    exact ⟨fun h => ⟨b, h, rfl⟩, fun ⟨_, h, _⟩ => h⟩

/-! ### Open calls -/

/-- **The open calls** have a permit of `SEG_MEM_TERM_SEM` each, and the term buffers before the
window are theirs.  A thread in a call has queued only some of its buffers, none of which is
flagged; behind a flagged one there is none of its call. -/
structure TermCalls {n : ℕ} (permits calls term_sem : ℕ) (queue : List Packet) (segs : List PoolSeg)
    (pcs : Fin n → PoolPc) (opened : Finset ℕ) : Prop where
  card : opened.card + term_sem + segs.countP PoolSeg.pending ≤ permits
  lt : ∀ id ∈ opened, id < calls
  few : ∀ id, queue.countP (Packet.isOf id) ≤ RP_CORE_COUNT_MAX + 1
  queue_mem : ∀ p ∈ queue, ∀ id, p.isOf id = true → id ∈ opened
  thread_mem : ∀ t id, (pcs t).call? = some id → id ∈ opened
  pushed : ∀ t id, (pcs t).call? = some id → queue.countP (Packet.isOf id) ≤ (pcs t).pushed
  fits : ∀ t, (pcs t).Fits
  own : ∀ t u id, (pcs t).call? = some id → (pcs u).call? = some id → t = u
  last : queue.Pairwise fun p q => ∀ id, p = Packet.term id true → q.isOf id = false
  closed : ∀ id, Packet.term id true ∈ queue → ∀ t, (pcs t).call? ≠ some id

namespace TermCalls

variable {n permits calls term_sem : ℕ} {queue : List Packet} {segs : List PoolSeg}
  {pcs : Fin n → PoolPc} {opened : Finset ℕ}

theorem goto (h : TermCalls permits calls term_sem queue segs pcs opened) {t : Fin n} {pc : PoolPc}
    (hfits : pc.Fits)
    (hcall : ∀ id, pc.call? = some id → (pcs t).call? = some id ∧ (pcs t).pushed ≤ pc.pushed) :
    TermCalls permits calls term_sem queue segs (update pcs t pc) opened := by
  have hback : ∀ u id, (update pcs t pc u).call? = some id →
      (pcs u).call? = some id ∧ (pcs u).pushed ≤ (update pcs t pc u).pushed := by
    intro u id hu
    by_cases hut : u = t
    · subst hut
      rw [Function.update_self] at hu ⊢
      exact hcall id hu
    · rw [Function.update_of_ne hut] at hu ⊢
      exact ⟨hu, le_rfl⟩
  refine { h with thread_mem := ?_, pushed := ?_, fits := ?_, own := ?_, closed := ?_ }
  · intro u id hu
    exact h.thread_mem u id (hback u id hu).1
  · intro u id hu
    exact (h.pushed u id (hback u id hu).1).trans (hback u id hu).2
  · intro u
    by_cases hut : u = t
    · subst hut
      rw [Function.update_self]
      exact hfits
    · rw [Function.update_of_ne hut]
      exact h.fits u
  · intro u v id hu hv
    exact h.own u v id (hback u id hu).1 (hback v id hv).1
  · intro id hid u hu
    exact h.closed id hid u (hback u id hu).1

theorem insert_other (h : TermCalls permits calls term_sem queue segs pcs opened) {p : Packet}
    (hp : ∀ id, p.isOf id = false) {queue' : List Packet}
    (hperm : queue' = queue ++ [p] ∨ queue' = p :: queue) :
    TermCalls permits calls term_sem queue' segs pcs opened := by
  have hcount : ∀ id, queue'.countP (Packet.isOf id) = queue.countP (Packet.isOf id) := by
    intro id
    rcases hperm with rfl | rfl
    · rw [List.countP_append, List.countP_singleton, hp]
      rfl
    · rw [List.countP_cons, hp]
      rfl
  have hmem : ∀ q ∈ queue', q = p ∨ q ∈ queue := by
    intro q hq
    rcases hperm with rfl | rfl
    · rcases List.mem_append.mp hq with hq | hq
      · exact .inr hq
      · exact .inl (List.mem_singleton.mp hq)
    · exact List.mem_cons.mp hq
  have hne : ∀ id b, p ≠ Packet.term id b := by
    intro id b hpt
    have := hp id
    rw [Packet.isOf_iff.mpr ⟨b, hpt⟩] at this
    cases this
  refine { h with few := ?_, queue_mem := ?_, pushed := ?_, last := ?_, closed := ?_ }
  · intro id
    rw [hcount]
    exact h.few id
  · intro q hq id hid
    rcases hmem q hq with rfl | hq
    · rw [hp] at hid
      cases hid
    · exact h.queue_mem q hq id hid
  · intro t id ht
    rw [hcount]
    exact h.pushed t id ht
  · rcases hperm with rfl | rfl
    · rw [List.pairwise_append]
      refine ⟨h.last, List.pairwise_singleton _ _, fun q _ r hr id _ => ?_⟩
      rw [List.mem_singleton.mp hr]
      exact hp id
    · exact List.pairwise_cons.mpr ⟨fun q _ id hid => (hne id true hid).elim, h.last⟩
  · intro id hid
    rcases hmem _ hid with hq | hq
    · exact (hne id true hq.symm).elim
    · exact h.closed id hq

theorem acquire (h : TermCalls permits calls (term_sem + 1) queue segs pcs opened) {t : Fin n} :
    TermCalls permits (calls + 1) term_sem queue segs
      (update pcs t (PoolPc.termMalloc calls 0 0)) (insert calls opened) := by
  have hnew : calls ∉ opened := fun hmem => lt_irrefl _ (h.lt _ hmem)
  have hcall : ∀ u id, (update pcs t (PoolPc.termMalloc calls 0 0) u).call? = some id →
      (u = t ∧ id = calls) ∨ (u ≠ t ∧ (pcs u).call? = some id) := by
    intro u id hu
    by_cases hut : u = t
    · subst hut
      rw [Function.update_self] at hu
      exact .inl ⟨rfl, (Option.some.inj hu).symm⟩
    · rw [Function.update_of_ne hut] at hu
      exact .inr ⟨hut, hu⟩
  refine { h with
    card := ?_, lt := ?_, queue_mem := ?_, thread_mem := ?_, pushed := ?_, fits := ?_, own := ?_,
    closed := ?_ }
  · have := h.card
    rw [Finset.card_insert_of_notMem hnew]
    omega
  · intro id hid
    rcases Finset.mem_insert.mp hid with rfl | hid
    · exact Nat.lt_succ_self _
    · exact (h.lt id hid).trans (Nat.lt_succ_self _)
  · intro p hp id hid
    exact Finset.mem_insert_of_mem (h.queue_mem p hp id hid)
  · intro u id hu
    rcases hcall u id hu with ⟨-, rfl⟩ | ⟨-, hu⟩
    · exact Finset.mem_insert_self _ _
    · exact Finset.mem_insert_of_mem (h.thread_mem u id hu)
  · intro u id hu
    rcases hcall u id hu with ⟨-, rfl⟩ | ⟨hut, hu⟩
    · rw [List.countP_eq_zero.mpr fun p hp hid => hnew (h.queue_mem p hp _ hid)]
      exact Nat.zero_le _
    · rw [Function.update_of_ne hut]
      exact h.pushed u id hu
  · intro u
    by_cases hut : u = t
    · subst hut
      rw [Function.update_self]
      exact Nat.succ_pos _
    · rw [Function.update_of_ne hut]
      exact h.fits u
  · intro u v id hu hv
    rcases hcall u id hu with ⟨rfl, rfl⟩ | ⟨-, hu'⟩
    · rcases hcall v _ hv with ⟨rfl, -⟩ | ⟨-, hv'⟩
      · rfl
      · exact (hnew (h.thread_mem v _ hv')).elim
    · rcases hcall v _ hv with ⟨-, rfl⟩ | ⟨-, hv'⟩
      · exact (hnew (h.thread_mem u _ hu')).elim
      · exact h.own u v id hu' hv'
  · intro id hid u hu
    rcases hcall u id hu with ⟨-, rfl⟩ | ⟨-, hu⟩
    · exact hnew (h.queue_mem _ hid _ (Packet.isOf_iff.mpr ⟨true, rfl⟩))
    · exact h.closed id hid u hu

theorem push (h : TermCalls permits calls term_sem queue segs pcs opened) {id : ℕ} {b : Bool}
    (hid : id ∈ opened) (hfew : queue.countP (Packet.isOf id) ≤ RP_CORE_COUNT_MAX)
    (hlast : Packet.term id true ∉ queue)
    (hpushed : ∀ t, (pcs t).call? = some id →
      queue.countP (Packet.isOf id) < (pcs t).pushed ∧ b = false) :
    TermCalls permits calls term_sem (queue ++ [Packet.term id b]) segs pcs opened := by
  have hcount : ∀ id', (queue ++ [Packet.term id b]).countP (Packet.isOf id') =
      queue.countP (Packet.isOf id') + if id = id' then 1 else 0 := by
    intro id'
    rw [List.countP_append, List.countP_singleton]
    simp only [Packet.isOf, decide_eq_true_eq]
  refine { h with few := ?_, queue_mem := ?_, pushed := ?_, last := ?_, closed := ?_ }
  · intro id'
    have := h.few id'
    rw [hcount]
    split_ifs with heq
    · subst heq
      omega
    · exact this
  · intro p hp id' hid'
    rcases List.mem_append.mp hp with hp | hp
    · exact h.queue_mem p hp id' hid'
    · rw [List.mem_singleton.mp hp] at hid'
      rw [← of_decide_eq_true hid']
      exact hid
  · intro t id' ht
    have := h.pushed t id' ht
    rw [hcount]
    split_ifs with heq
    · subst heq
      exact (hpushed t ht).1
    · exact this
  · rw [List.pairwise_append]
    refine ⟨h.last, List.pairwise_singleton _ _, fun p hp q hq id' hid' => ?_⟩
    rw [List.mem_singleton.mp hq]
    refine decide_eq_false fun heq => hlast ?_
    rw [heq, ← hid']
    exact hp
  · intro id' hmem t ht
    rcases List.mem_append.mp hmem with hmem | hmem
    · exact h.closed id' hmem t ht
    · have heq := List.mem_singleton.mp hmem
      simp only [Packet.term.injEq] at heq
      obtain ⟨rfl, hb⟩ := heq
      rw [(hpushed t ht).2] at hb
      cases hb

/-- **The first packet is queued for sending**; its call is closed if it is flagged. -/
theorem queue_step {p : Packet}
    (h : TermCalls permits calls term_sem (p :: queue) segs pcs opened) :
    ∃ opened', TermCalls permits calls term_sem queue (segs ++ [⟨p, false⟩]) pcs opened' := by
  have hfew : ∀ id, queue.countP (Packet.isOf id) ≤ (p :: queue).countP (Packet.isOf id) := by
    intro id
    rw [List.countP_cons]
    exact Nat.le_add_right _ _
  have hmem : ∀ q ∈ queue, q ∈ p :: queue := fun q hq => List.mem_cons_of_mem _ hq
  obtain ⟨hlast, hpairs⟩ := List.pairwise_cons.mp h.last
  cases hp : p.notifies with
  | true =>
    obtain ⟨id, rfl⟩ : ∃ id, p = Packet.term id true := by
      cases p with
      | data => cases hp
      | audio => cases hp
      | term id b =>
        have hb : b = true := hp
        exact ⟨id, by rw [hb]⟩
    have hid : id ∈ opened := h.queue_mem _ List.mem_cons_self id (Packet.isOf_iff.mpr ⟨true, rfl⟩)
    refine ⟨opened.erase id, ?_⟩
    refine { h with
      card := ?_, lt := ?_, few := ?_, queue_mem := ?_, thread_mem := ?_, pushed := ?_,
      last := hpairs, closed := ?_ }
    · have hcard := h.card
      have hpos := Finset.card_pos.mpr ⟨id, hid⟩
      have hpend : PoolSeg.pending ⟨Packet.term id true, false⟩ = true := rfl
      rw [List.countP_append, List.countP_singleton, if_pos hpend, Finset.card_erase_of_mem hid]
      omega
    · intro id' hid'
      exact h.lt id' (Finset.mem_of_mem_erase hid')
    · intro id'
      exact (hfew id').trans (h.few id')
    · intro q hq id' hid'
      refine Finset.mem_erase.mpr ⟨?_, h.queue_mem q (hmem q hq) id' hid'⟩
      rintro rfl
      rw [hlast q hq _ rfl] at hid'
      cases hid'
    · intro t id' ht
      refine Finset.mem_erase.mpr ⟨?_, h.thread_mem t id' ht⟩
      rintro rfl
      exact h.closed _ List.mem_cons_self t ht
    · intro t id' ht
      exact (hfew id').trans (h.pushed t id' ht)
    · intro id' hid'
      exact h.closed id' (hmem _ hid')
  | false =>
    refine ⟨opened, { h with
      card := ?_, few := ?_, queue_mem := ?_, pushed := ?_, last := hpairs, closed := ?_ }⟩
    · have hpend : PoolSeg.pending ⟨p, false⟩ = false := by
        unfold PoolSeg.pending
        rw [hp]
        rfl
      rw [List.countP_append, List.countP_singleton, hpend]
      exact h.card
    · intro id'
      exact (hfew id').trans (h.few id')
    · intro q hq
      exact h.queue_mem q (hmem q hq)
    · intro t id' ht
      exact (hfew id').trans (h.pushed t id' ht)
    · intro id' hid'
      exact h.closed id' (hmem _ hid')

theorem segs_step (h : TermCalls permits calls term_sem queue segs pcs opened) {term_sem' : ℕ}
    {segs' : List PoolSeg}
    (hle : term_sem' + segs'.countP PoolSeg.pending ≤ term_sem + segs.countP PoolSeg.pending) :
    TermCalls permits calls term_sem' queue segs' pcs opened := by
  have hcard := h.card
  exact { h with card := by omega }

end TermCalls

namespace SendPool

variable {c : PoolConfig} {s s' : SendPool c} {permits : ℕ} {opened : Finset ℕ}

/-- The open calls of a state. -/
def Calls (permits : ℕ) (opened : Finset ℕ) (s : SendPool c) : Prop :=
  TermCalls permits s.calls s.term_sem s.queue s.segs s.pcs opened

theorem calls_start (c : PoolConfig) : (start c).Calls c.segMemTerm ∅ where
  card := by
    show (∅ : Finset ℕ).card + c.segMemTerm + 0 ≤ c.segMemTerm
    rw [Finset.card_empty, Nat.zero_add, Nat.add_zero]
  lt _ hid := (Finset.notMem_empty _ hid).elim
  few _ := Nat.zero_le _
  queue_mem _ hp := (List.not_mem_nil hp).elim
  thread_mem _ _ ht := (Option.some_ne_none _ ht.symm).elim
  pushed _ _ ht := (Option.some_ne_none _ ht.symm).elim
  fits _ := trivial
  own _ _ _ ht := (Option.some_ne_none _ ht.symm).elim
  last := List.Pairwise.nil
  closed _ hid := (List.not_mem_nil hid).elim

theorem Calls.goto (h : s.Calls permits opened) {t : Fin c.core_count.get} {pc : PoolPc}
    (hfits : pc.Fits)
    (hcall : ∀ id, pc.call? = some id → (s.pcs t).call? = some id ∧ (s.pcs t).pushed ≤ pc.pushed) :
    (s.goto t pc).Calls permits opened := by
  unfold Calls
  rw [pcs_goto]
  exact TermCalls.goto h hfits hcall

theorem Calls.goto_none (h : s.Calls permits opened) {t : Fin c.core_count.get} {pc : PoolPc}
    (hfits : pc.Fits) (hnone : pc.call? = none) : (s.goto t pc).Calls permits opened := by
  refine h.goto hfits fun id hid => ?_
  rw [hnone] at hid
  cases hid

theorem Calls.finish (h : s.Calls permits opened) (t : Fin c.core_count.get) :
    (s.finish t).Calls permits opened := by
  have hgoto : (s.goto t .idle).Calls permits opened := h.goto_none trivial rfl
  unfold Calls at hgoto ⊢
  rw [pcs_goto] at hgoto
  rw [pcs_finish]
  exact hgoto

theorem Calls.mpMalloc (h : s.Calls permits opened) {t : Fin c.core_count.get} {pc : PoolPc}
    (hfits : pc.Fits)
    (hcall : ∀ id, pc.call? = some id → (s.pcs t).call? = some id ∧ (s.pcs t).pushed ≤ pc.pushed) :
    (s.mpMalloc t pc).Calls permits opened := by
  unfold SendPool.mpMalloc
  split
  · exact Calls.goto (s := { s with used := s.used + 1 }) h hfits hcall
  · exact h

/-- **A step of a thread** opens at most its own call. -/
theorem Calls.threadStep (h : s.Calls permits opened) {t : Fin c.core_count.get} {choice : Bool}
    (hs : s.threadStep t choice = some s') : ∃ opened', s'.Calls permits opened' := by
  have hfits := h.fits t
  unfold SendPool.threadStep at hs
  cases hpc : (s.threads t).pc with
  | idle =>
    simp only [hpc] at hs
    cases hs
    exact ⟨opened, h.goto_none trivial rfl⟩
  | waitMem =>
    simp only [hpc] at hs
    split_ifs at hs
    cases hs
    exact ⟨opened, Calls.goto_none (s := { s with mem_sem := s.mem_sem - 1 }) h trivial rfl⟩
  | malloc =>
    simp only [hpc] at hs
    cases hs
    exact ⟨opened, h.mpMalloc trivial fun _ hid => (Option.some_ne_none _ hid.symm).elim⟩
  | fill =>
    simp only [hpc] at hs
    split_ifs at hs
    · cases hs
      exact ⟨opened, Calls.goto_none h trivial rfl⟩
    · cases hs
      refine ⟨opened, Calls.goto_none ?_ trivial rfl⟩
      have hother : ∀ id, Packet.data.isOf id = false := fun _ => rfl
      exact h.insert_other hother (.inl (List.append_assoc _ _ _).symm)
  | done =>
    simp only [hpc] at hs
    split_ifs at hs
    · cases hs
      exact ⟨opened, Calls.goto_none h trivial rfl⟩
    · cases hs
      exact ⟨opened, Calls.goto_none h trivial rfl⟩
    · cases hs
      exact ⟨opened, Calls.finish h t⟩
  | waitTerm =>
    simp only [hpc] at hs
    split_ifs at hs with hpos
    cases hs
    obtain ⟨term_sem, hterm⟩ : ∃ n, s.term_sem = n + 1 := Nat.exists_eq_add_one.mpr hpos
    refine ⟨insert s.calls opened, ?_⟩
    unfold Calls at h ⊢
    rw [hterm] at h
    rw [pcs_goto, hterm]
    exact h.acquire
  | termMalloc call n i =>
    simp only [hpc] at hs
    cases hs
    have hpcs : s.pcs t = .termMalloc call n i := hpc
    rw [hpcs] at hfits
    refine ⟨opened, h.mpMalloc ⟨Nat.le_add_left 1 n, hfits⟩ fun id hid => ?_⟩
    rw [hpcs]
    exact ⟨hid, le_rfl⟩
  | copy call n i =>
    simp only [hpc] at hs
    have hpcs : s.pcs t = .copy call n i := hpc
    rw [hpcs] at hfits
    split_ifs at hs with hmore hroom hi
    · cases hs
      refine ⟨opened, Calls.goto h hroom fun id hid => ?_⟩
      rw [hpcs]
      exact ⟨hid, le_rfl⟩
    · cases hs
      refine ⟨opened, Calls.goto h hfits fun id hid => ?_⟩
      show (s.pcs t).call? = some id ∧ (s.pcs t).pushed ≤ _
      rw [hpcs]
      exact ⟨hid, le_rfl⟩
    · cases hs
      refine ⟨opened, Calls.goto h ⟨hfits.1, hfits.2⟩ fun id hid => ?_⟩
      rw [hpcs]
      exact ⟨hid, le_rfl⟩
  | releaseMem call n i =>
    simp only [hpc] at hs
    cases hs
    have hpcs : s.pcs t = .releaseMem call n i := hpc
    rw [hpcs] at hfits
    refine ⟨opened, Calls.goto h hfits fun id hid => ?_⟩
    show (s.pcs t).call? = some id ∧ (s.pcs t).pushed ≤ _
    rw [hpcs]
    exact ⟨hid, le_rfl⟩
  | push call n j =>
    simp only [hpc] at hs
    cases hs
    have hpcs : s.pcs t = .push call n j := hpc
    rw [hpcs] at hfits
    obtain ⟨hj, hn⟩ := hfits
    have hcall : (s.pcs t).call? = some call := by rw [hpcs]; rfl
    have hpushed := h.pushed t call hcall
    have hopened := h.thread_mem t call hcall
    have hlast : Packet.term call true ∉ s.queue := fun hmem => h.closed call hmem t hcall
    rw [hpcs] at hpushed
    have hpushed : s.queue.countP (Packet.isOf call) ≤ j := hpushed
    refine ⟨opened, ?_⟩
    unfold Calls
    rw [pcs_goto]
    show TermCalls _ _ _ (s.dst.toList ++ (s.nwm_syn ++ _)) _ (update s.pcs t _) _
    rw [← List.append_assoc]
    have hother : ∀ (pc : PoolPc) (u : Fin c.core_count.get), u ≠ t →
        (update s.pcs t pc u).call? ≠ some call := by
      intro pc u hut hu
      rw [Function.update_of_ne hut] at hu
      exact hut (h.own u t call hu hcall)
    by_cases hmore : j + 1 < n
    · rw [if_pos hmore]
      have hgoto : TermCalls permits s.calls s.term_sem s.queue s.segs
          (update s.pcs t (.push call n (j + 1))) opened := by
        refine TermCalls.goto h ⟨hmore, hn⟩ fun id hid => ?_
        rw [hpcs]
        exact ⟨hid, Nat.le_succ j⟩
      refine hgoto.push hopened (by omega) hlast fun u hu => ?_
      by_cases hut : u = t
      · subst hut
        rw [Function.update_self]
        exact ⟨Nat.lt_succ_of_le hpushed, decide_eq_false hmore.ne⟩
      · exact (hother _ u hut hu).elim
    · rw [if_neg hmore]
      have hgoto : TermCalls permits s.calls s.term_sem s.queue s.segs
          (update s.pcs t .clearCount) opened :=
        TermCalls.goto h trivial fun id hid => (Option.some_ne_none _ hid.symm).elim
      refine hgoto.push hopened (by omega) hlast fun u hu => ?_
      by_cases hut : u = t
      · subst hut
        rw [Function.update_self] at hu
        cases hu
      · exact (hother _ u hut hu).elim
  | clearCount =>
    simp only [hpc] at hs
    cases hs
    exact ⟨opened, Calls.finish h t⟩

/-- **A step of the nwm thread, or an acknowledgement**, closes at most one call. -/
theorem Calls.nwmStep (h : s.Calls permits opened) {e : NwmStep} (hs : s.nwmStep e = some s') :
    ∃ opened', s'.Calls permits opened' := by
  unfold Calls SendPool.queue at h
  cases e with
  | take =>
    obtain ⟨p, ps, hdst, hsyn, rfl⟩ := nwmStep_take hs
    rw [hdst, hsyn] at h
    exact ⟨opened, h⟩
  | audio =>
    obtain ⟨hdst, rfl⟩ := nwmStep_audio hs
    rw [hdst] at h
    have hother : ∀ id, Packet.audio.isOf id = false := fun _ => rfl
    exact ⟨opened, h.insert_other hother (.inr rfl)⟩
  | queue =>
    obtain ⟨p, hdst, -, rfl⟩ := nwmStep_queue hs
    rw [hdst] at h
    exact TermCalls.queue_step h
  | send i =>
    obtain ⟨xs, p, ys, hsegs, rfl⟩ := nwmStep_send hs
    refine ⟨opened, TermCalls.segs_step h ?_⟩
    have hbefore : PoolSeg.pending ⟨p, false⟩ = p.notifies := Bool.and_true _
    have hafter : PoolSeg.pending ⟨p, true⟩ = false := Bool.and_false _
    simp only [hsegs, List.countP_append, countP_cons_toNat, hbefore, hafter, Bool.toNat_false]
    omega
  | ack i =>
    obtain ⟨xs, seg, ys, hsegs, rfl⟩ := nwmStep_ack hs
    refine ⟨opened, TermCalls.segs_step h ?_⟩
    simp only [hsegs, List.countP_append, countP_cons_toNat]
    omega
  | release =>
    obtain ⟨-, rfl⟩ := nwmStep_release hs
    exact ⟨opened, h⟩

end SendPool

end RemotePlay.Work
