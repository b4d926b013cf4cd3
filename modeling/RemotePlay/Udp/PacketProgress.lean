import RemotePlay.Udp.PacketSend

/-! # The packetiser sends every frame

When every thread of its frame has ended, the sending thread's attempts succeed, and by its own
steps it sends the rest of the frame (`Solo.releases`).  With that the packets of a run are
accounted for (`packets_delivered`). -/

namespace RemotePlay.Udp

open RemotePlay.Encode RemotePlay.Work Lib.Pieces Lib.Threads

open Function (update)

namespace NwmState

variable {L : Link} {frames : ℕ → Frame L} {st st' : NwmState} {w t : ℕ}

section

variable (L frames st)

/-- What was read of a thread is what there is. -/
def UpToDate : NwmPc → Prop
  | .readPos _ _ flag => flag = TERM_FLAG
  | .attempt w t flag pos => flag = TERM_FLAG ∧ pos = (st.info w t).pos
  | .nextPos _ flag => flag = TERM_FLAG
  | _ => True

/-- Every thread of the sending thread's frame has ended. -/
structure Solo : Prop where
  inv : Inv L frames st
  released_lt : st.released < st.readied
  ended : ∀ t < L.n, Ended st st.released t
  upToDate : UpToDate st st.pc

/-- How many steps at most until the packet is sent. -/
def stepsLeft : NwmPc → ℕ
  | .finish _ => 3 * L.n + 7
  | .top => 3 * L.n + 6
  | .acquire _ _ => 3 * L.n + 5
  | .readFlag _ _ => 3 * L.n + 4
  | .readPos _ _ _ => 3 * L.n + 3
  | .attempt _ _ _ _ => 3 * L.n + 2
  | .nextFlag a => 3 * (L.n - a.end_index) + 1
  | .nextPos a _ => 3 * (L.n - a.end_index)
  | .copy a _ _ => 3 * (L.n - a.end_index) - 1
  | .send _ => 1

/-- How many steps at most until the frame is released. -/
def left : ℕ :=
  ((frames st.released).bytes.length / L.packet_data_size + 1 - (st.sent st.released).length) *
    (3 * L.n + 8) + stepsLeft L st.pc

end

namespace Solo

theorem quiet (hs : Solo L frames st) (h : nwm L st = some st') (hrel : st'.released = st.released)
    (hready : st'.readied = st.readied) (henc : st'.enc = st.enc) (hsent : st'.sent = st.sent)
    (hup : UpToDate st' st'.pc) (hlt : stepsLeft L st'.pc < stepsLeft L st.pc) :
    Solo L frames st' ∧ left L frames st' < left L frames st := by
  refine ⟨⟨inv_nwm hs.inv h, by rw [hrel, hready]; exact hs.released_lt, fun t ht => ?_, hup⟩, ?_⟩
  · rw [Ended, henc, hrel]
    exact hs.ended t ht
  · rw [left, left, hrel, hsent]
    exact Nat.add_lt_add_left hlt _

theorem flag_eq (hs : Solo L frames st) (ht : t < L.n) :
    (st.info (slot st) t).flag = TERM_FLAG := by
  have hth := hs.inv.threads _ le_rfl (hs.released_lt.trans_le hs.inv.readied_le) t ht
  exact hth.flag.trans (if_pos (hs.ended t ht))

theorem stepsLeft_attemptNext {a : Attempt} {m : ℕ} (h1 : 1 < m)
    (h2 : a.end_done = true → a.end_index ≠ 0 → 3 * (L.n - a.end_index) + 1 < m) :
    stepsLeft L (attemptNext a) < m := by
  rw [attemptNext]
  split_ifs with h
  · exact h2 h.1 h.2
  · exact h1

theorem upToDate_attemptNext (a : Attempt) : UpToDate st (attemptNext a) := by
  rw [attemptNext]
  split_ifs <;> trivial

theorem nextWrapped_pos {e : ℕ} (h : L.nextWrapped e ≠ 0) : L.nextWrapped e = e + 1 := by
  rw [Link.nextWrapped] at h ⊢
  split_ifs at h ⊢ with he
  · exact absurd rfl h
  · rfl

theorem next (hs : Solo L frames st) (hsend : ∀ a, st.pc ≠ .send a)
    (hfin : ∀ a, st.pc ≠ .finish a) :
    ∃ st', nwm L st = some st' ∧ st'.released = st.released ∧ Solo L frames st' ∧
      left L frames st' < left L frames st := by
  have hn := L.n_pos
  have hi := hs.inv
  have hpc := hi.pc
  have hup := hs.upToDate
  have hterm : 0 < TERM_FLAG := by decide
  rcases hp : st.pc with _ | ⟨w, t⟩ | ⟨w, t⟩ | ⟨w, t, flag⟩ | ⟨w, t, flag, pos⟩ | a | ⟨a, flag⟩ |
    ⟨a, size, done⟩ | a | a <;> rw [hp] at hpc hup
  · have h : nwm L st = some { st with pc := .acquire st.work_index st.thread_index } := by
      simp only [nwm, hp]
    refine ⟨_, h, rfl, hs.quiet h rfl rfl rfl rfl trivial ?_⟩
    rw [hp]
    exact Nat.lt_succ_self _
  · obtain ⟨rfl, rfl⟩ := hpc
    rcases hsyn : st.need_syn (slot st) with _ | _
    · have h : nwm L st = some { st with pc := .readFlag (slot st) st.thread_index } := by
        simp only [nwm, hp, hsyn, Bool.false_eq_true, if_false]
      refine ⟨_, h, rfl, hs.quiet h rfl rfl rfl rfl trivial ?_⟩
      rw [hp]
      exact Nat.lt_succ_self _
    · have hready := (hi.waiting hsyn).2
      rw [if_pos hs.released_lt] at hready
      have h : nwm L st = some { st with
          pc := .readFlag (slot st) st.thread_index
          nwm_ready := update st.nwm_ready (slot st) (st.nwm_ready (slot st) - 1)
          need_syn := update st.need_syn (slot st) false } := by
        simp only [nwm, hp, hsyn, if_true, hready, Nat.one_pos]
      refine ⟨_, h, rfl, hs.quiet h rfl rfl rfl rfl trivial ?_⟩
      rw [hp]
      exact Nat.lt_succ_self _
  · have h : nwm L st = some { st with pc := .readPos w t (st.info w t).flag } := by
      simp only [nwm, hp]
    refine ⟨_, h, rfl, hs.quiet h rfl rfl rfl rfl ?_ ?_⟩
    · obtain ⟨rfl, rfl, -⟩ := hpc
      exact hs.flag_eq hi.thread_lt
    · rw [hp]
      exact Nat.lt_succ_self _
  · have hflag : flag = TERM_FLAG := hup
    have h : nwm L st = some { st with pc := .attempt w t flag (st.info w t).pos } := by
      have hfilled : filled (st.info w t) (st.info w t).pos flag := Or.inr (hflag ▸ hterm)
      simp only [nwm, hp, if_pos hfilled]
    refine ⟨_, h, rfl, hs.quiet h rfl rfl rfl rfl ⟨hflag, rfl⟩ ?_⟩
    rw [hp]
    exact Nat.lt_succ_self _
  · obtain ⟨hflag, hpos⟩ : flag = TERM_FLAG ∧ pos = (st.info w t).pos := hup
    obtain ⟨hc, -, hsend', -⟩ := hpc
    generalize hsize : min (pos - (st.info w t).send_pos) L.packet_data_size = size
    have hnot : ¬(size < L.packet_data_size ∧
        ¬decide ((st.info w t).send_pos + size = pos ∧ 0 < flag) = true) := by
      rintro ⟨h1, h2⟩
      refine h2 (decide_eq_true ⟨?_, hflag ▸ hterm⟩)
      omega
    have h : nwm L st = some { st with
        pc := attemptNext ⟨w, t, flag, decide ((st.info w t).send_pos + size = pos ∧ 0 < flag),
          size,
          if decide ((st.info w t).send_pos + size = pos ∧ 0 < flag) = true then L.nextWrapped t
          else t, size, decide ((st.info w t).send_pos + size = pos ∧ 0 < flag)⟩ } := by
      simp only [nwm, hp, hsize, if_neg hnot]
    refine ⟨_, h, rfl, hs.quiet h rfl rfl rfl rfl (upToDate_attemptNext _) ?_⟩
    rw [hp]
    refine stepsLeft_attemptNext (by show 1 < 3 * L.n + 2; omega) fun _ _ => ?_
    show _ < 3 * L.n + 2
    omega
  · have h : nwm L st = some { st with pc := .nextPos a (st.info a.w a.end_index).flag } := by
      simp only [nwm, hp]
    refine ⟨_, h, rfl, hs.quiet h rfl rfl rfl rfl ?_ ?_⟩
    · obtain ⟨hc, hj⟩ := hpc
      show (st.info a.w a.end_index).flag = TERM_FLAG
      rw [hc.1]
      exact hs.flag_eq hj.index_le
    · rw [hp]
      exact Nat.lt_succ_self _
  · have hflag : flag = TERM_FLAG := hup
    obtain ⟨hc, hj, -⟩ := hpc
    have hsend' : (st.info a.w a.end_index).send_pos ≤ (st.info a.w a.end_index).pos := by
      rw [hc.1]
      exact (hi.thread hc hj.index_le).send_le
    have hfilled : filled (st.info a.w a.end_index) (st.info a.w a.end_index).pos flag :=
      Or.inr (hflag ▸ hterm)
    generalize hsize : min ((st.info a.w a.end_index).pos - (st.info a.w a.end_index).send_pos)
      (L.packet_data_size - a.total_size) = size
    have hnot : ¬(size < L.packet_data_size - a.total_size ∧
        ¬decide ((st.info a.w a.end_index).send_pos + size = (st.info a.w a.end_index).pos ∧
          0 < flag) = true) := by
      rintro ⟨h1, h2⟩
      refine h2 (decide_eq_true ⟨?_, hflag ▸ hterm⟩)
      omega
    have h : nwm L st = some { st with
        pc := .copy a size (decide ((st.info a.w a.end_index).send_pos + size =
          (st.info a.w a.end_index).pos ∧ 0 < flag)) } := by
      simp only [nwm, hp, if_pos hfilled, hsize, if_neg hnot]
    refine ⟨_, h, rfl, hs.quiet h rfl rfl rfl rfl trivial ?_⟩
    rw [hp]
    have hlt := hj.index_le
    show 3 * (L.n - a.end_index) - 1 < 3 * (L.n - a.end_index)
    omega
  · obtain ⟨hc, hj, -⟩ := hpc
    have hlt := hj.index_le
    obtain ⟨st', h⟩ : ∃ st', nwm L st = some st' := by
      simp only [nwm, hp, Option.some.injEq, exists_eq']
    have hst' := h
    simp only [nwm, hp, Option.some.injEq] at hst'
    subst hst'
    refine ⟨_, h, rfl, hs.quiet h rfl rfl rfl rfl (upToDate_attemptNext _) ?_⟩
    rw [hp]
    refine stepsLeft_attemptNext (by show 1 < 3 * (L.n - a.end_index) - 1; omega) fun hd h0 => ?_
    show 3 * (L.n - (if done = true then L.nextWrapped a.end_index else a.end_index)) + 1 <
      3 * (L.n - a.end_index) - 1
    dsimp only at hd h0
    rw [if_pos hd] at h0 ⊢
    rw [nextWrapped_pos h0]
    omega
  · exact absurd hp (hsend a)
  · exact absurd hp (hfin a)

theorem next_send (hs : Solo L frames st) {a : Attempt} (hp : st.pc = .send a) :
    ∃ st', nwm L st = some st' ∧ st'.released = st.released ∧ Solo L frames st' ∧
      left L frames st' < left L frames st := by
  have hi := hs.inv
  have hpc := hi.pc
  rw [hp] at hpc
  obtain ⟨hc, hr, -⟩ := hpc
  have hlt := hi.running_lt hc
  have hfrom : ∀ a, st.pc ≠ .finish a := by
    rw [hp]
    nofun
  obtain ⟨-, hlen⟩ : Partial (frames st.released) (st.sent st.released) (reached L frames st) := by
    have hsent := (currentSent_iff hfrom).mp hi.sent
    rwa [if_pos hlt] at hsent
  obtain ⟨st', h⟩ : ∃ st', nwm L st = some st' := by
    simp only [nwm, hp, Option.some.injEq, exists_eq']
  have hinv := inv_nwm hi h
  have hst' := h
  simp only [nwm, hp, Option.some.injEq] at hst'
  subst hst'
  refine ⟨_, h, rfl, ⟨hinv, hs.released_lt, hs.ended, trivial⟩, ?_⟩
  -- a packet is left at least, as what has been sent is within the frame
  have hle : (st.sent st.released).length ≤
      (frames st.released).bytes.length / L.packet_data_size := by
    rw [Nat.le_div_iff_mul_le L.packet_data_size_pos, hlen]
    refine (reached_le hi hc).trans ?_
    exact (offset_mono _ (Nat.succ_le_of_lt hi.thread_lt)).trans le_rfl
  rw [left, left, hp]
  dsimp only
  rw [Function.update_self, List.length_append, List.length_singleton]
  obtain ⟨d, hd⟩ := Nat.exists_eq_add_of_le hle
  rw [hd,
    show (st.sent st.released).length + d + 1 - ((st.sent st.released).length + 1) = d by omega,
    show (st.sent st.released).length + d + 1 - (st.sent st.released).length = d + 1 by omega,
    Nat.add_mul d 1]
  show d * (3 * L.n + 8) + (3 * L.n + 7) < d * (3 * L.n + 8) + 1 * (3 * L.n + 8) + 1
  omega

theorem next_finish (hs : Solo L frames st) {a : Attempt} (hp : st.pc = .finish a) :
    ∃ st', nwm L st = some st' ∧ (st'.released = st.released + 1 ∨
      st'.released = st.released ∧ Solo L frames st' ∧ left L frames st' < left L frames st) := by
  have hpc := hs.inv.pc
  rw [hp] at hpc
  obtain ⟨-, hl | hf⟩ := hpc
  · obtain ⟨st', h⟩ : ∃ st', nwm L st = some st' := by
      simp only [nwm, hp, hl.thread_done, hl.end_index, and_self, if_true, Option.some.injEq,
        exists_eq']
    have hst' := h
    simp only [nwm, hp, hl.end_done, hl.thread_done, hl.end_index, if_true, and_self,
      Option.some.injEq] at hst'
    subst hst'
    exact ⟨_, h, Or.inl rfl⟩
  · have hnot : ¬(a.thread_done = true ∧ a.end_index = 0) := by
      rintro ⟨hd, h0⟩
      have := hf.thread_done.mp hd
      omega
    obtain ⟨st', h⟩ : ∃ st', nwm L st = some st' := by
      simp only [nwm, hp, if_neg hnot, Option.some.injEq, exists_eq']
    have hst' := h
    simp only [nwm, hp, hf.end_done, Bool.false_eq_true, if_false, if_neg hnot,
      Option.some.injEq] at hst'
    have hrel : st'.released = st.released ∧ st'.readied = st.readied ∧ st'.enc = st.enc ∧
        st'.sent = st.sent ∧ ∃ w t, st'.pc = .acquire w t := by
      subst hst'
      split_ifs <;> exact ⟨rfl, rfl, rfl, rfl, _, _, rfl⟩
    obtain ⟨hrel, hready, henc, hsent, w, t, hp'⟩ := hrel
    have hup : UpToDate st' st'.pc := by
      rw [hp']
      trivial
    refine ⟨st', h, Or.inr ⟨hrel, hs.quiet h hrel hready henc hsent hup ?_⟩⟩
    rw [hp, hp']
    show 3 * L.n + 5 < 3 * L.n + 7
    omega

/-- **By its own steps the sending thread sends the rest of the frame.** -/
theorem releases (hs : Solo L frames st) :
    ∃ st', Relation.ReflTransGen (fun s s' => nwm L s = some s') st st' ∧
      st'.released = st.released + 1 := by
  refine exists_reached (p := fun s => s.released = st.released ∧ Solo L frames s) (left L frames)
    (fun s ⟨hrel, hs'⟩ => ?_) ⟨rfl, hs⟩
  by_cases hfin : ∃ a, s.pc = .finish a
  · obtain ⟨a, hp⟩ := hfin
    obtain ⟨s', h, hr | ⟨hr, hs'', hlt⟩⟩ := hs'.next_finish hp
    · exact ⟨s', h, Or.inl (by rw [hr, hrel])⟩
    · exact ⟨s', h, Or.inr ⟨⟨hr.trans hrel, hs''⟩, hlt⟩⟩
  · have hnext : ∃ s', nwm L s = some s' ∧ s'.released = s.released ∧ Solo L frames s' ∧
        left L frames s' < left L frames s := by
      by_cases hsend : ∃ a, s.pc = .send a
      · obtain ⟨a, hp⟩ := hsend
        exact hs'.next_send hp
      · exact hs'.next (not_exists.mp hsend) (not_exists.mp hfin)
    obtain ⟨s', h, hr, hs'', hlt⟩ := hnext
    exact ⟨s', h, Or.inr ⟨⟨hr.trans hrel, hs''⟩, hlt⟩⟩

end Solo

/-- The sending thread releases a frame at the end of its last packet only. -/
theorem thread_index_of_released (hi : Inv L frames st) (h : nwm L st = some st')
    (hrel : st'.released = st.released + 1) : st'.thread_index = 0 := by
  have hne : st'.released ≠ st.released := by omega
  rcases hp : st.pc with _ | ⟨w, t⟩ | ⟨w, t⟩ | ⟨w, t, flag⟩ | ⟨w, t, flag, pos⟩ | a | ⟨a, flag⟩ |
    ⟨a, size, done⟩ | a | a
  on_goal 10 =>
    have hpc := hi.pc
    rw [hp] at hpc
    obtain ⟨-, hl | hf⟩ := hpc
    · simp only [nwm, hp, hl.end_done, hl.thread_done, hl.end_index, if_true, and_self,
        Option.some.injEq] at h
      rw [← h]
    · have hnot : ¬(a.thread_done = true ∧ a.end_index = 0) := by
        rintro ⟨hd, h0⟩
        have := hf.thread_done.mp hd
        omega
      simp only [nwm, hp, if_neg hnot, Option.some.injEq] at h
      refine absurd ?_ hne
      rw [← h]
      split_ifs <;> rfl
  all_goals
    refine absurd ?_ hne
    simp only [nwm, hp] at h
    first
    | (cases h; rfl)
    | (split_ifs at h <;> cases h <;> rfl)

/-- **The packetiser.**  In every state reached, the packets of every frame released carry its
bytes; those of the frame the sending thread is in carry its first bytes, or all of them; the frames
after it have none.  The sending thread is at the first thread's buffer when it waits for a frame,
and when it has released one; a buffer is set up again only after the last packet of the frame
before last; and when the threads of a frame have ended, the sending thread's own steps from the
next attempt on send the rest of it. -/
theorem packets_delivered
    (h : Lib.Threads.Reachable (fun s => s = NwmState.start L) (Step L frames) st) :
    (∀ k < st.released, Delivered (frames k) (st.sent k)) ∧
    (Delivered (frames st.released) (st.sent st.released) ∨
      ∃ x, ((st.sent st.released).map Packet.payload).flatten =
          (frames st.released).bytes.take x ∧ ∀ p ∈ st.sent st.released, ¬p.Term) ∧
    (∀ k, st.released < k → st.sent k = []) ∧
    (st.need_syn st.work_index = true → st.thread_index = 0) ∧
    (∀ st', nwm L st = some st' → st'.released = st.released + 1 →
      st'.thread_index = 0 ∧ Delivered (frames st.released) (st'.sent st.released)) ∧
    (∀ st', acquire L frames st = some st' → ∀ k, k + 2 ≤ st.acquired →
      Delivered (frames k) (st.sent k)) ∧
    (st.released < st.readied → (∀ t < L.n, (st.enc st.released t).stage = .ended) →
      st.pc = .top → ∃ st', Relation.ReflTransGen (fun s s' => nwm L s = some s') st st' ∧
        st'.released = st.released + 1) := by
  have hi := reachable_inv h
  refine ⟨fun k hk => (hi.sent_before k hk).delivered, ?_, hi.sent_after, fun hs => ?_,
    fun st' hn hrel => ?_, fun st' hacq k hk => ?_, fun hlt hended hp => ?_⟩
  · have hsent := hi.sent
    generalize st.pc = pc at hsent
    by_cases hfin : ∃ a, pc = .finish a ∧ a.end_done = true
    · obtain ⟨a, rfl, hd⟩ := hfin
      rw [CurrentSent, if_pos hd] at hsent
      exact Or.inl hsent.delivered
    · refine Or.inr ?_
      rcases pc with _ | _ | _ | _ | _ | _ | _ | _ | _ | a
      on_goal 10 => rw [CurrentSent, if_neg fun hd => hfin ⟨a, rfl, hd⟩] at hsent
      all_goals exact ⟨_, hsent.delivered⟩
  · rw [hi.work_index] at hs
    exact (hi.waiting hs).1
  · have hi' := inv_nwm hi hn
    exact ⟨thread_index_of_released hi hn hrel,
      (hi'.sent_before _ (hrel ▸ Nat.lt_succ_self _)).delivered⟩
  · simp only [acquire, Option.ite_none_right_eq_some] at hacq
    have hlt := hi.acquired_lt hacq.1.2
    exact (hi.sent_before k (by omega)).delivered
  · refine Solo.releases ⟨hi, hlt, hended, ?_⟩
    rw [hp]
    trivial

/-- Two threads. -/
def plainLink : Link where
  lossless := false
  core_count := .two
  top_screen_width := .left
  nwm_hdr _ := List.replicate NWM_HDR_SIZE (UInt8.ofNat 0)
  length_nwm_hdr _ := List.length_replicate

/-- A frame with one byte of thread 0 and two of thread 1. -/
def bytesFrame (k : ℕ) : Frame plainLink where
  frame_id := UInt8.ofNat k
  is_top := true
  downsample := 0
  both_eyes := false
  chroma_ss := 0
  color_bias := 0
  rest_int := 0
  stream t := if t = 0 then [UInt8.ofNat k] else [UInt8.ofNat (k + 10), UInt8.ofNat (k + 20)]
  fits w t _ := by
    have hroom : RP_CB_HDR_SIZE + 2 + (packetDataSize false false).val ≤ bufSize false .two := by
      decide
    have hlen : (if t = 0 then [UInt8.ofNat k]
        else [UInt8.ofNat (k + 10), UInt8.ofNat (k + 20)] : List UInt8).length ≤ 2 := by
      split_ifs
      · exact Nat.le_succ 1
      · exact le_rfl
    show bufStart false .two w t + RP_CB_HDR_SIZE + 0 + _ ≤
      bufStart false .two w t + bufSize false .two - (packetDataSize false false).val
    omega

/-- The sending thread gives up for want of thread 1's bytes, and tries again when these are
there. -/
def frameActs (k : ℕ) : List Act :=
  [.acquire, .ready, .begin, .write k 0, .term k 0, .flag k 0] ++ List.replicate 7 .nwm ++
    [.write k 1, .write k 1, .term k 1, .flag k 1] ++ List.replicate 10 .nwm

/-- Three frames are sent, the third one from the first one's buffers. -/
theorem packets_delivered_bytes : ∃ st : NwmState, st.released = 3 ∧
    ((st.sent 2).map fun p => p.payload) = [[2, 12, 22]] ∧
    ∀ k < 3, Delivered (bytesFrame k) (st.sent k) := by
  have hrun : (((List.range 3).flatMap frameActs).foldlM
      (fun s act => step plainLink bytesFrame s act) (.start plainLink)).map (fun st =>
        (st.released, (st.sent 2).map fun p => p.payload)) = some (3, [[2, 12, 22]]) := by
    decide +kernel
  obtain ⟨st, hst, heq⟩ := Option.map_eq_some_iff.mp hrun
  obtain ⟨hrel, hsent⟩ := Prod.mk.inj heq
  have hstart : Reachable (fun s => s = NwmState.start plainLink) (Step plainLink bytesFrame)
      (.start plainLink) := .start rfl
  have hd := packets_delivered (hstart.foldlM (fun _ act _ hact => ⟨act, hact⟩) hst)
  exact ⟨st, hrel, hsent, fun k hk => hd.1 k (hrel ▸ hk)⟩

end NwmState

end RemotePlay.Udp
