import RemotePlay.Work.SendPool

/-! # Counting permits and buffers

Each permit of `SEG_MEM_SEM` is with the semaphore, a thread, the end of a slice, a buffer of data
between a thread and its acknowledgement, or a buffer just freed; each buffer of the pool that is
allocated is with a thread, an end or a packet (`SendPool.Counted`). -/

namespace RemotePlay.Work

open Lib.Threads
open Function (update)

/-! ### Weights -/

namespace PoolPc

/-- The permits of `SEG_MEM_SEM` of a thread without a buffer at the end of its slice. -/
def tokens : PoolPc → ℕ
  | malloc | fill | releaseMem _ _ _ => 1
  | idle | waitMem | done | waitTerm | termMalloc _ _ _ | copy _ _ _ | push _ _ _ | clearCount => 0

/-- The buffers of data a thread fills. -/
def dataBufs : PoolPc → ℕ
  | fill => 1
  | idle | waitMem | malloc | done | waitTerm | termMalloc _ _ _ | copy _ _ _ | releaseMem _ _ _
  | push _ _ _ | clearCount => 0

/-- The term buffers a thread has. -/
def termBufs : PoolPc → ℕ
  | termMalloc _ n _ | copy _ n _ | releaseMem _ n _ => n
  | push _ n j => n - j
  | idle | waitMem | malloc | fill | done | waitTerm | clearCount => 0

/-- The call of `send_term_dsts` a thread is in, with the semaphore acquired. -/
def call? : PoolPc → Option ℕ
  | termMalloc call _ _ | copy call _ _ | releaseMem call _ _ | push call _ _ => some call
  | idle | waitMem | malloc | fill | done | waitTerm | clearCount => none

/-- The term buffers of its call that a thread has queued. -/
def pushed : PoolPc → ℕ
  | push _ _ j => j
  | idle | waitMem | malloc | fill | done | waitTerm | termMalloc _ _ _ | copy _ _ _
  | releaseMem _ _ _ | clearCount => 0

/-- The number of term buffers fits `terms`. -/
def Fits : PoolPc → Prop
  | termMalloc _ n _ => n < RP_CORE_COUNT_MAX + 1
  | copy _ n _ | releaseMem _ n _ => 1 ≤ n ∧ n ≤ RP_CORE_COUNT_MAX + 1
  | push _ n j => j < n ∧ n ≤ RP_CORE_COUNT_MAX + 1
  | idle | waitMem | malloc | fill | done | waitTerm | clearCount => True

end PoolPc

theorem countP_cons_toNat {α : Type} (f : α → Bool) (x : α) (xs : List α) :
    (x :: xs).countP f = xs.countP f + (f x).toNat := by
  rw [List.countP_cons]
  cases f x <;> rfl

/-! ### Threads -/

namespace SendPool

variable {c : PoolConfig} {s s' : SendPool c} {permits : ℕ}

/-- The ends of slices waiting for `send_term_dsts`. -/
def ends (s : SendPool c) : ℕ := total Bool.toNat s.term_dsts

/-- The packets of a kind between the threads and their acknowledgement. -/
def held (s : SendPool c) (f : Packet → Bool) : ℕ :=
  s.queue.countP f + s.segs.countP fun seg => f seg.packet

/-- The term buffers that are allocated. -/
def termBufs (s : SendPool c) : ℕ := total PoolPc.termBufs s.pcs + s.held Packet.isTerm

/-- **The permits of `SEG_MEM_SEM` and the buffers of the pool** are where the threads and the
packets are. -/
structure Counted (permits : ℕ) (s : SendPool c) : Prop where
  mem : s.mem_sem + total PoolPc.tokens s.pcs + s.ends + s.held Packet.isData + s.freed = permits
  used : s.used = total PoolPc.dataBufs s.pcs + s.ends + s.held Packet.isData + s.termBufs
  window : s.segs.length ≤ c.nSndMax

theorem counted_start (c : PoolConfig) : (start c).Counted c.segMem := by
  refine ⟨?_, ?_, Nat.zero_le _⟩
  · simp [start, ends, held, queue, pcs, total, PoolPc.tokens]
  · simp [start, ends, held, queue, pcs, total, termBufs, PoolPc.dataBufs, PoolPc.termBufs]

theorem countP_push (f : Packet → Bool) (s : SendPool c) (p : Packet) :
    (s.dst.toList ++ (s.nwm_syn ++ [p])).countP f =
      (s.dst.toList ++ s.nwm_syn).countP f + (f p).toNat := by
  rw [← List.append_assoc, List.countP_append, List.countP_singleton]
  cases f p <;> rfl

theorem counted_goto {t : Fin c.core_count.get} {pc : PoolPc}
    (hmem : s.mem_sem + total PoolPc.tokens s.pcs + pc.tokens + s.ends + s.held Packet.isData +
      s.freed = permits + (s.pcs t).tokens)
    (hused : s.used + (s.pcs t).dataBufs + (s.pcs t).termBufs =
      total PoolPc.dataBufs s.pcs + pc.dataBufs + total PoolPc.termBufs s.pcs +
      pc.termBufs + s.ends +
        s.held Packet.isData + s.held Packet.isTerm)
    (hwindow : s.segs.length ≤ c.nSndMax) : (s.goto t pc).Counted permits := by
  have htok := total_update PoolPc.tokens s.pcs t pc
  have hdata := total_update PoolPc.dataBufs s.pcs t pc
  have hterm := total_update PoolPc.termBufs s.pcs t pc
  refine ⟨?_, ?_, hwindow⟩
  · rw [pcs_goto]
    show s.mem_sem + _ + s.ends + s.held Packet.isData + s.freed = _
    omega
  · rw [termBufs, pcs_goto]
    show s.used = _ + s.ends + s.held Packet.isData + (_ + s.held Packet.isTerm)
    omega

theorem counted_finish {t : Fin c.core_count.get} (h : (s.goto t .idle).Counted permits) :
    (s.finish t).Counted permits := by
  obtain ⟨hmem, hused, hwindow⟩ := h
  rw [termBufs] at hused
  rw [pcs_goto] at hmem hused
  refine ⟨?_, ?_, hwindow⟩
  · rw [pcs_finish]
    exact hmem
  · rw [termBufs, pcs_finish]
    exact hused

theorem counted_mpMalloc {t : Fin c.core_count.get} {pc : PoolPc} (h : s.Counted permits)
    (hfree : ({ s with used := s.used + 1 }.goto t pc).Counted permits) :
    (s.mpMalloc t pc).Counted permits := by
  unfold mpMalloc
  split
  · exact hfree
  · exact ⟨h.mem, h.used, h.window⟩

/-- **A step of a thread** keeps count of permits and buffers. -/
theorem Counted.threadStep (h : s.Counted permits) {t : Fin c.core_count.get} {choice : Bool}
    (hfits : (s.pcs t).Fits) (hs : s.threadStep t choice = some s') :
    s'.Counted permits := by
  have hmem := h.mem
  have hused := h.used
  have hwindow := h.window
  unfold termBufs at hused
  unfold SendPool.threadStep at hs
  simp only [pcs_eq, ends, held, queue] at hmem hused
  cases hpc : (s.threads t).pc with
  | idle =>
    simp only [hpc] at hs
    cases hs
    refine counted_goto ?_ ?_ hwindow
    · simp only [pcs_eq, ends, held, queue, hpc, PoolPc.tokens]
      omega
    · simp only [pcs_eq, ends, held, queue, hpc, PoolPc.dataBufs, PoolPc.termBufs]
      omega
  | waitMem =>
    simp only [hpc] at hs
    split_ifs at hs with hpos
    cases hs
    refine counted_goto ?_ ?_ hwindow
    · simp only [pcs_eq, ends, held, queue, hpc, PoolPc.tokens]
      omega
    · simp only [pcs_eq, ends, held, queue, hpc, PoolPc.dataBufs, PoolPc.termBufs]
      omega
  | malloc =>
    simp only [hpc] at hs
    cases hs
    refine counted_mpMalloc h (counted_goto ?_ ?_ hwindow)
    · simp only [pcs_eq, ends, held, queue, hpc, PoolPc.tokens]
      omega
    · simp only [pcs_eq, ends, held, queue, hpc, PoolPc.dataBufs, PoolPc.termBufs]
      omega
  | fill =>
    simp only [hpc] at hs
    split_ifs at hs with hend hdst
    · cases hs
      have hset := total_update Bool.toNat s.term_dsts ((s.threads t).work_index, t) true
      rw [hdst, Bool.toNat_true, Bool.toNat_false] at hset
      refine counted_goto ?_ ?_ hwindow
      · simp only [pcs_eq, ends, held, queue, hpc, PoolPc.tokens]
        omega
      · simp only [pcs_eq, ends, held, queue, hpc, PoolPc.dataBufs, PoolPc.termBufs]
        omega
    · cases hs
      have hdata : Packet.data.isData.toNat = 1 := rfl
      have hterm : Packet.data.isTerm.toNat = 0 := rfl
      refine counted_goto ?_ ?_ hwindow
      · simp only [pcs_eq, ends, held, queue, hpc, PoolPc.tokens, countP_push]
        omega
      · simp only [pcs_eq, ends, held, queue, hpc, PoolPc.dataBufs, PoolPc.termBufs, countP_push]
        omega
  | done =>
    simp only [hpc] at hs
    split_ifs at hs with hlast hfirst
    · cases hs
      refine counted_goto ?_ ?_ hwindow
      · simp only [pcs_eq, ends, held, queue, hpc, PoolPc.tokens]
        omega
      · simp only [pcs_eq, ends, held, queue, hpc, PoolPc.dataBufs, PoolPc.termBufs]
        omega
    · cases hs
      refine counted_goto ?_ ?_ hwindow
      · simp only [pcs_eq, ends, held, queue, hpc, PoolPc.tokens]
        omega
      · simp only [pcs_eq, ends, held, queue, hpc, PoolPc.dataBufs, PoolPc.termBufs]
        omega
    · cases hs
      refine counted_finish (counted_goto ?_ ?_ hwindow)
      · simp only [pcs_eq, ends, held, queue, hpc, PoolPc.tokens]
        omega
      · simp only [pcs_eq, ends, held, queue, hpc, PoolPc.dataBufs, PoolPc.termBufs]
        omega
  | waitTerm =>
    simp only [hpc] at hs
    split_ifs at hs with hpos
    cases hs
    refine counted_goto ?_ ?_ hwindow
    · simp only [pcs_eq, ends, held, queue, hpc, PoolPc.tokens]
      omega
    · simp only [pcs_eq, ends, held, queue, hpc, PoolPc.dataBufs, PoolPc.termBufs]
      omega
  | termMalloc call n i =>
    simp only [hpc] at hs
    cases hs
    refine counted_mpMalloc h (counted_goto ?_ ?_ hwindow)
    · simp only [pcs_eq, ends, held, queue, hpc, PoolPc.tokens]
      omega
    · simp only [pcs_eq, ends, held, queue, hpc, PoolPc.dataBufs, PoolPc.termBufs]
      omega
  | copy call n i =>
    simp only [hpc] at hs
    split_ifs at hs with hmore hroom hi hall
    · cases hs
      refine counted_goto ?_ ?_ hwindow
      · simp only [pcs_eq, ends, held, queue, hpc, PoolPc.tokens]
        omega
      · simp only [pcs_eq, ends, held, queue, hpc, PoolPc.dataBufs, PoolPc.termBufs]
        omega
    · cases hs
      have hset := total_update Bool.toNat s.term_dsts ((s.threads t).work_index, ⟨i, hi⟩) false
      rw [hall ⟨i, hi⟩ le_rfl, Bool.toNat_true, Bool.toNat_false] at hset
      refine counted_goto ?_ ?_ hwindow
      · simp only [pcs_eq, ends, held, queue, hpc, PoolPc.tokens]
        omega
      · simp only [pcs_eq, ends, held, queue, hpc, PoolPc.dataBufs, PoolPc.termBufs]
        omega
    · cases hs
      refine counted_goto ?_ ?_ hwindow
      · simp only [pcs_eq, ends, held, queue, hpc, PoolPc.tokens]
        omega
      · simp only [pcs_eq, ends, held, queue, hpc, PoolPc.dataBufs, PoolPc.termBufs]
        omega
  | releaseMem call n i =>
    simp only [hpc] at hs
    cases hs
    refine counted_goto ?_ ?_ hwindow
    · simp only [pcs_eq, ends, held, queue, hpc, PoolPc.tokens]
      omega
    · simp only [pcs_eq, ends, held, queue, hpc, PoolPc.dataBufs, PoolPc.termBufs]
      omega
  | push call n j =>
    simp only [hpc] at hs
    cases hs
    have hdata : (Packet.term call (j + 1 = n)).isData.toNat = 0 := rfl
    have hterm : (Packet.term call (j + 1 = n)).isTerm.toNat = 1 := rfl
    simp only [pcs_eq, hpc] at hfits
    obtain ⟨hj, -⟩ := hfits
    split
    all_goals
      refine counted_goto ?_ ?_ hwindow
      · simp only [pcs_eq, ends, held, queue, hpc, PoolPc.tokens, countP_push]
        omega
      · simp only [pcs_eq, ends, held, queue, hpc, PoolPc.dataBufs, PoolPc.termBufs, countP_push]
        omega
  | clearCount =>
    simp only [hpc] at hs
    cases hs
    refine counted_finish (counted_goto ?_ ?_ hwindow)
    · simp only [pcs_eq, ends, held, queue, hpc, PoolPc.tokens]
      omega
    · simp only [pcs_eq, ends, held, queue, hpc, PoolPc.dataBufs, PoolPc.termBufs]
      omega

/-! ### The nwm thread -/

/-- **A step of the nwm thread, or an acknowledgement**, keeps count of permits and buffers. -/
theorem Counted.nwmStep (h : s.Counted permits) {e : NwmStep} (hs : s.nwmStep e = some s') :
    s'.Counted permits := by
  obtain ⟨hmem, hused, hwindow⟩ := h
  unfold termBufs at hused
  unfold ends held queue at hmem hused
  cases e with
  | take =>
    obtain ⟨p, ps, hdst, hsyn, rfl⟩ := nwmStep_take hs
    rw [hdst, hsyn] at hmem hused
    exact ⟨hmem, hused, hwindow⟩
  | audio =>
    obtain ⟨hdst, rfl⟩ := nwmStep_audio hs
    rw [hdst] at hmem hused
    exact ⟨hmem, hused, hwindow⟩
  | queue =>
    obtain ⟨p, hdst, hroom, rfl⟩ := nwmStep_queue hs
    rw [hdst, Option.toList_some, List.singleton_append] at hmem hused
    simp only [countP_cons_toNat] at hmem hused
    refine ⟨?_, ?_, ?_⟩
    · simp only [ends, held, queue, pcs_eq] at hmem ⊢
      simp only [List.countP_append, countP_cons_toNat, List.countP_nil, Option.toList_none]
      omega
    · simp only [termBufs, ends, held, queue, pcs_eq] at hused ⊢
      simp only [List.countP_append, countP_cons_toNat, List.countP_nil, Option.toList_none]
      omega
    · rw [List.length_append]
      exact hroom
  | send i =>
    obtain ⟨xs, p, ys, hsegs, rfl⟩ := nwmStep_send hs
    rw [hsegs] at hmem hused hwindow
    simp only [List.countP_append, countP_cons_toNat] at hmem hused
    refine ⟨?_, ?_, ?_⟩
    · simp only [ends, held, queue, pcs_eq] at hmem ⊢
      simp only [List.countP_append, countP_cons_toNat]
      omega
    · simp only [termBufs, ends, held, queue, pcs_eq] at hused ⊢
      simp only [List.countP_append, countP_cons_toNat]
      omega
    · rw [List.length_append] at hwindow ⊢
      exact hwindow
  | ack i =>
    obtain ⟨xs, seg, ys, hsegs, rfl⟩ := nwmStep_ack hs
    rw [hsegs] at hmem hused hwindow
    simp only [List.countP_append, countP_cons_toNat] at hmem hused
    refine ⟨?_, ?_, ?_⟩
    · simp only [ends, held, queue, pcs_eq] at hmem ⊢
      simp only [List.countP_append]
      omega
    · simp only [termBufs, ends, held, queue, pcs_eq] at hused ⊢
      simp only [List.countP_append]
      omega
    · rw [List.length_append, List.length_cons] at hwindow
      rw [List.length_append]
      omega
  | release =>
    obtain ⟨hpos, rfl⟩ := nwmStep_release hs
    refine ⟨?_, hused, hwindow⟩
    simp only [ends, held, queue, pcs_eq] at hmem ⊢
    omega

end SendPool

end RemotePlay.Work
