import RemotePlay.Arq.Acknowledged

/-! # Packet ids

Ids are given out in turn and wrap around after `2 ^ PID_NBITS` buffers, while a packet keeps its id
until it has been acknowledged.  So two packets have the same id exactly after a buffer has been
queued while a packet that was queued just as many buffers before is still there (`distinct_iff`);
the window does not exclude this, since it only bounds how many packets there are
(`pids_collide`). -/

namespace RemotePlay.Arq

open Lib.Threads (Reachable Always EachStep always_iff_eachStep)

variable {kcp kcp' : Kcp} {nacks : List Nack} {seg A : Seg} {s s' : Sender} {k : ℕ}

/-- Originals that are live have different ids. -/
def Sender.DistinctPids (s : Sender) : Prop :=
  ∀ x ∈ s.kcp.live, ∀ y ∈ s.kcp.live, x.recovery_data = false → y.recovery_data = false →
    x.pid = y.pid → x.id = y.id

/-- If the event is a buffer that is accepted, no live original has the id that is next. -/
def Sender.NextPidFree (s : Sender) (e : Event) : Prop :=
  ∀ buffer len, e = .queue buffer len → len &&& (1 <<< 29 - 1) = ARQ_DATA_SIZE →
    s.kcp.n_snd < s.kcp.n_snd_max → ∀ x ∈ s.kcp.live, x.recovery_data = false → x.pid ≠ s.kcp.pid

theorem Inv.queue_accepts (hi : Inv kcp []) (buffer len : ℕ) :
    (kcp.queue buffer len).2 = 0 ↔
      len &&& (1 <<< 29 - 1) = ARQ_DATA_SIZE ∧ kcp.n_snd < kcp.n_snd_max := by
  unfold Kcp.queue
  dsimp only
  by_cases hlen : len &&& (1 <<< 29 - 1) = ARQ_DATA_SIZE
  · rw [if_neg (not_not.mpr hlen)]
    by_cases hroom : kcp.n_snd_max ≤ kcp.n_snd
    · rw [if_pos hroom]
      exact ⟨by rintro ⟨⟩, fun h => absurd h.2 (not_lt.mpr hroom)⟩
    · rw [if_neg hroom, if_neg (hi.seg_used_lt (Nat.zero_le 1)).ne]
      refine ⟨fun _ => ⟨hlen, not_le.mp hroom⟩, fun _ => ?_⟩
      split_ifs
      · rfl
      · rfl
  · rw [if_pos hlen]
    exact ⟨by rintro ⟨⟩, fun h => absurd h.1 hlen⟩

theorem Queued.mem_live (h : Queued kcp kcp' seg) {x : Seg} :
    x ∈ kcp'.live ↔ x = seg ∨ x ∈ kcp.live := by
  have hq := h.perm.mem_iff (a := x)
  obtain ⟨l, r, heq⟩ := h.eq
  have hwak : kcp'.snd_wak = kcp.snd_wak := by rw [heq]
  have hcur : kcp'.snd_cur = kcp.snd_cur := by rw [heq]
  simp only [Kcp.live, hwak, hcur, List.mem_append, hq, List.mem_cons, or_assoc]

/-- Originals that are still live keep their ids. -/
theorem Sender.DistinctPids.of_sub (hs : s.DistinctPids)
    (hsub : ∀ x ∈ s'.kcp.live, x.recovery_data = false → x.holding ∈ s.kcp.live.map Seg.holding) :
    s'.DistinctPids := by
  intro x hx y hy hxr hyr hpid
  obtain ⟨x₀, hx₀, hxh⟩ := List.mem_map.mp (hsub x hx hxr)
  obtain ⟨y₀, hy₀, hyh⟩ := List.mem_map.mp (hsub y hy hyr)
  have hxid : x₀.id = x.id := congrArg Holding.id hxh
  have hyid : y₀.id = y.id := congrArg Holding.id hyh
  have hxpid : x₀.pid = x.pid := congrArg Holding.pid hxh
  have hypid : y₀.pid = y.pid := congrArg Holding.pid hyh
  have hxrec : x₀.recovery_data = x.recovery_data := congrArg Holding.recovery_data hxh
  have hyrec : y₀.recovery_data = y.recovery_data := congrArg Holding.recovery_data hyh
  rw [← hxid, ← hyid]
  exact hs x₀ hx₀ y₀ hy₀ (hxrec.trans hxr) (hyrec.trans hyr) (hxpid.trans (hpid.trans hypid.symm))

/-- **A step keeps ids different exactly if the next id is free.** -/
theorem Sender.distinctPids_step (h : s.Ok) (hs : s.DistinctPids) {e : Event}
    (he : s.step e = some s') : s'.DistinctPids ↔ s.NextPidFree e := by
  rcases h.step_cases he with ⟨buffer, len, seg, rfl, hret, hq⟩ |
    ⟨data, tick, f, nacks, fid, gid, rfl, hacc, ha⟩ | ⟨hnone, -, hk⟩
  · have hseg : seg ∈ s'.kcp.live := hq.mem_live.mpr (.inl rfl)
    refine ⟨fun hs' => ?_, fun hfree => ?_⟩
    · rintro _ _ ⟨⟩ - - x hx hxr hpid
      have hid := hs' x (hq.mem_live.mpr (.inr hx)) seg hseg hxr hq.plain.1 (hpid.trans hq.pid.symm)
      have hlt := h.inv.acct.id_lt (List.mem_map_of_mem hx)
      exact absurd (hid.trans hq.id) hlt.ne
    · have hpc : s.pc = .idle := by
        unfold Sender.step at he
        dsimp only at he
        split_ifs at he with hpc
        exact hpc
      have hacc : (s.kcp.queue buffer len).2 = 0 := by rw [hret]
      obtain ⟨hlen, hroom⟩ := ((h.inv_idle hpc).queue_accepts buffer len).mp hacc
      have hfree' : ∀ x ∈ s.kcp.live, x.recovery_data = false → x.pid ≠ seg.pid := by
        rw [hq.pid]
        exact hfree buffer len rfl hlen hroom
      intro x hx y hy hxr hyr hpid
      rcases hq.mem_live.mp hx with rfl | hx
      · rcases hq.mem_live.mp hy with rfl | hy
        · rfl
        · exact absurd hpid.symm (hfree' y hy hyr)
      · rcases hq.mem_live.mp hy with rfl | hy
        · exact absurd hpid (hfree' x hx hxr)
        · exact hs x hx y hy hxr hyr hpid
  · exact ⟨fun _ => by rintro _ _ ⟨⟩, fun _ => hs.of_sub fun x hx _ => ha.sub x hx⟩
  · refine ⟨fun _ buffer len heq hlen hroom => ?_, fun _ => hs.of_sub hk.sub⟩
    subst heq
    have hpc : s.pc = .idle := by
      unfold Sender.step at he
      dsimp only at he
      split_ifs at he with hpc
      exact hpc
    exact absurd (((h.inv_idle hpc).queue_accepts buffer len).mpr ⟨hlen, hroom⟩)
      (hnone buffer len rfl)

/-- **The ids of outstanding data are different in exactly the runs** in which the next id is free
whenever a buffer is accepted. -/
theorem Sender.distinct_iff (hstart : s.Start) (es : List Event) :
    Always Sender.step Sender.DistinctPids es s ↔ EachStep Sender.step Sender.NextPidFree es s := by
  have hnil : s.DistinctPids := by
    have hi := Sender.ok_start hstart
    obtain ⟨cid, qos, sndwnd, curwnd, rfl⟩ := hstart
    have hlive : ((Kcp.create cid qos).wndsize sndwnd curwnd).1.live = [] := by
      unfold Kcp.wndsize
      split_ifs
      · rfl
      · rfl
      · rfl
    intro x hx
    rw [hlive] at hx
    cases hx
  exact always_iff_eachStep (fun s e s' h he => Sender.ok_step h ⟨e, he⟩)
    (fun s e s' h hs he => Sender.distinctPids_step h hs he) es (Sender.ok_start hstart) hnil

theorem Sender.distinct_iff_queue :
    Always Sender.step Sender.DistinctPids [.queue 7 ARQ_DATA_SIZE] (Sender.created 0 800 453 46) ↔
      EachStep Sender.step Sender.NextPidFree [.queue 7 ARQ_DATA_SIZE]
        (Sender.created 0 800 453 46) :=
  Sender.distinct_iff (Sender.start_created 0 800 453 46) _

/-! ### A packet that stays while the ids wrap around -/

/-- A segment waits in `snd_lst` while `k` buffers have been queued, and the others are gone. -/
structure Waiting (A : Seg) (k : ℕ) (s : Sender) : Prop where
  reachable : Reachable Sender.Start Sender.Step s
  idle : s.pc = .idle
  established : s.kcp.session_established = true
  cid : s.kcp.cid = 0
  mem : A ∈ s.kcp.snd_lst
  pid : s.kcp.pid = k % 2 ^ PID_NBITS
  n_snd : s.kcp.n_snd ≤ 1
  n_snd_max : s.kcp.n_snd_max = 453

/-- An answer that lists only the ids from `n` on. -/
def answerFrom (n : ℕ) : List UInt8 :=
  [0, 0, UInt8.ofNat (n <<< 4 % 256), UInt8.ofNat (n <<< 4 / 256)]

theorem words_answerFrom {n : ℕ} (hn : n < 2 ^ PID_NBITS) :
    words [UInt8.ofNat (n <<< 4 % 256), UInt8.ofNat (n <<< 4 / 256)] = [n <<< 4] := by
  simp only [PID_NBITS] at hn
  simp only [words, UInt8.toNat_ofNat', Nat.shiftLeft_eq]
  congr 1
  omega

theorem accepts_answerFrom (kcp : Kcp) {n : ℕ} (hn : n < 2 ^ PID_NBITS) (hcid : kcp.cid = 0)
    (hest : kcp.session_established = true) :
    kcp.accepts (answerFrom n) = some ([⟨n, 1 <<< (PID_NBITS - 2) - 1⟩], 0, 0) := by
  have hstart : nackStart (n <<< 4) = n := by
    rw [nackStart, Nat.one_shiftLeft, Nat.and_two_pow_sub_one_eq_mod]
    simp only [PID_NBITS, COUNT_NBITS, Nat.shiftRight_eq_div_pow, Nat.shiftLeft_eq] at hn ⊢
    omega
  unfold Kcp.accepts answerFrom
  dsimp only
  rw [words_answerFrom hn, if_pos ⟨hcid, rfl, List.cons_ne_nil _ _, hest, show 1 ≤ _ by decide⟩,
    parseNacks, hstart]
  rfl

/-- The id before the first one listed is taken to be received. -/
theorem checkNack_answerFrom (k : ℕ) :
    checkNack (k % 2 ^ PID_NBITS) [⟨(k + 1) % 2 ^ PID_NBITS, 1 <<< (PID_NBITS - 2) - 1⟩] =
      false := by
  have hdiff : pidDiff (k % 2 ^ PID_NBITS) ((k + 1) % 2 ^ PID_NBITS) = 2 ^ PID_NBITS - 1 := by
    rw [pidDiff_eq (Nat.mod_lt _ (by decide)) (Nat.mod_lt _ (by decide)), after]
    simp only [PID_NBITS]
    omega
  unfold checkNack
  rw [hdiff, if_pos (by decide)]

theorem Answered.n_snd_lt (ha : Answered kcp kcp' nacks) {i : ℕ} (hi : i < RSND_COUNT)
    (hmem : seg ∈ kcp.rsnd_lsts i) (hcheck : checkNack seg.pid nacks = false)
    (hnot : seg ∉ kcp.freed) (hrec : seg.recovery_data = false) : kcp'.n_snd < kcp.n_snd := by
  have hfreed := ha.dropped i hi seg hmem hcheck
  have horig := ha.originals
  obtain ⟨gone, hgone, -⟩ := ha.freed
  rw [hgone] at hfreed
  have hseg : seg ∈ gone := (List.mem_append.mp hfreed).resolve_left hnot
  have hpos : 0 < gone.countP fun x => !x.recovery_data :=
    List.countP_pos_iff.mpr ⟨seg, hseg, by rw [hrec]; rfl⟩
  unfold Kcp.originals at horig
  rw [hgone, List.countP_append] at horig
  omega

theorem Inv.queue_audio (hi : Inv kcp []) (hroom : kcp.n_snd < kcp.n_snd_max) : ∃ seg,
    kcp.queue 0 (ARQ_DATA_SIZE + 2 ^ 29) =
      ({ kcp with
        pid := (kcp.pid + 1) % 2 ^ PID_NBITS, n_snd := kcp.n_snd + 1, seg_used := kcp.seg_used + 1
        next_id := kcp.next_id + 1
        rsnd_lsts := Function.update kcp.rsnd_lsts 1 (seg :: kcp.rsnd_lsts 1) }, 0) ∧
      seg.pid = kcp.pid ∧ seg.recovery_data = false ∧ seg ∉ kcp.freed := by
  unfold Kcp.queue
  dsimp only
  rw [if_neg (not_not.mpr (by decide)), if_neg (not_le.mpr hroom),
    if_neg (hi.seg_used_lt (Nat.zero_le 1)).ne, if_pos (by decide), Nat.one_shiftLeft,
    Nat.and_two_pow_sub_one_eq_mod]
  refine ⟨_, rfl, rfl, rfl, fun hmem => ?_⟩
  have hids := hi.acct.ids.subset (List.mem_append_right _ (List.mem_append_right _
    (List.mem_map_of_mem (f := Seg.id) hmem)))
  exact lt_irrefl _ (List.mem_range.mp hids)

/-- **Another buffer comes and goes**: an audio buffer is queued and freed by an answer. -/
theorem Waiting.next (h : Waiting A k s) : ∃ s', Waiting A (k + 1) s' := by
  have hi := (Sender.ok_reachable h.reachable).inv_idle h.idle
  have hroom : s.kcp.n_snd < s.kcp.n_snd_max := by
    rw [h.n_snd_max]
    exact h.n_snd.trans_lt (by decide)
  obtain ⟨seg, hqueue, hpid, hrec, hnot⟩ := hi.queue_audio hroom
  have hstep : s.step (.queue 0 (ARQ_DATA_SIZE + 2 ^ 29)) =
      some { s with kcp := (s.kcp.queue 0 (ARQ_DATA_SIZE + 2 ^ 29)).1 } := if_pos h.idle
  rw [hqueue] at hstep
  dsimp only at hstep
  set kcp₁ : Kcp :=
    { s.kcp with
      pid := (s.kcp.pid + 1) % 2 ^ PID_NBITS, n_snd := s.kcp.n_snd + 1,
      seg_used := s.kcp.seg_used + 1
      next_id := s.kcp.next_id + 1
      rsnd_lsts := Function.update s.kcp.rsnd_lsts 1 (seg :: s.kcp.rsnd_lsts 1) } with hkcp₁
  have hreach₁ : Reachable Sender.Start Sender.Step { s with kcp := kcp₁ } :=
    h.reachable.step ⟨_, hstep⟩
  have hi₁ : Inv kcp₁ [] := (Sender.ok_reachable hreach₁).inv_idle h.idle
  have hmem : seg ∈ kcp₁.rsnd_lsts 1 := by
    rw [hkcp₁]
    dsimp only
    rw [Function.update_self]
    exact List.mem_cons_self
  have hacc := accepts_answerFrom kcp₁ (Nat.mod_lt (k + 1) (by decide)) h.cid h.established
  obtain ⟨kcp₂, ret, hin, -, hcases⟩ := hi₁.input (answerFrom ((k + 1) % 2 ^ PID_NBITS)) 0 .one
  rcases hcases with ⟨-, hnone⟩ | ⟨-, nacks, fid, gid, hacc', ha⟩
  · cases hnone.symm.trans hacc
  obtain ⟨rfl, -⟩ := Prod.mk.inj (Option.some.inj (hacc.symm.trans hacc'))
  have hstep₂ : ({ s with kcp := kcp₁ } : Sender).step
      (.input (answerFrom ((k + 1) % 2 ^ PID_NBITS)) 0 .one) = some { s with kcp := kcp₂ } := by
    unfold Sender.step
    dsimp only
    rw [hin]
    rfl
  have hlt := ha.n_snd_lt (by decide) hmem (by rw [hpid, h.pid]; exact checkNack_answerFrom k) hnot
    hrec
  have hn₁ : kcp₁.n_snd = s.kcp.n_snd + 1 := rfl
  have hpid₁ : kcp₁.pid = (k + 1) % 2 ^ PID_NBITS := by
    rw [hkcp₁]
    dsimp only
    rw [h.pid, Nat.mod_add_mod]
  have hn := h.n_snd
  exact ⟨_, hreach₁.step ⟨_, hstep₂⟩, h.idle, ha.frame.session_established.trans h.established,
    ha.frame.cid.trans h.cid, ha.frame.snd_lst.symm ▸ h.mem, ha.frame.pid.trans hpid₁, by
      show kcp₂.n_snd ≤ 1
      omega, ha.frame.n_snd_max.trans h.n_snd_max⟩

theorem Waiting.later (h : Waiting A k s) (n : ℕ) : ∃ s', Waiting A (k + n) s' := by
  induction n with
  | zero => exact ⟨s, h⟩
  | succ n ih =>
    obtain ⟨s', h'⟩ := ih
    exact h'.next

/-- **The first packet's id is given out again while it waits in `snd_lst`.** -/
theorem Sender.pids_collide : ∃ s, Reachable Sender.Start Sender.Step s ∧ ¬s.DistinctPids := by
  have hrun : ∃ s A,
      (Sender.created 0 800 453 46).run [.input [12, 0] 0 .one, .queue 7 ARQ_DATA_SIZE] = some s ∧
      s.pc = .idle ∧ s.kcp.session_established = true ∧ s.kcp.cid = 0 ∧ s.kcp.snd_lst = [A] ∧
      A.pid = 0 ∧ A.recovery_data = false ∧ s.kcp.pid = 1 ∧ s.kcp.n_snd = 1 ∧
      s.kcp.n_snd_max = 453 :=
    ⟨_, _, rfl, rfl, rfl, rfl, rfl, rfl, rfl, rfl, rfl, rfl⟩
  obtain ⟨s, A, hs, hpc, hest, hcid, hlst, hpid, hrec, hkpid, hn, hmax⟩ := hrun
  have hw : Waiting A 1 s :=
    ⟨reachable_created hs, hpc, hest, hcid,
      hlst ▸ List.mem_cons_self, hkpid, hn.le, hmax⟩
  obtain ⟨s', h'⟩ := hw.later (2 ^ PID_NBITS - 1)
  have hi := (Sender.ok_reachable h'.reachable).inv_idle h'.idle
  have hpid' : s'.kcp.pid = 0 := h'.pid
  have hroom : s'.kcp.n_snd < s'.kcp.n_snd_max := by
    rw [h'.n_snd_max]
    exact h'.n_snd.trans_lt (by decide)
  rcases hi.queue_spec 7 ARQ_DATA_SIZE with ⟨ret, heq, hret⟩ | ⟨kcp', seg, heq, hq⟩
  · have h0 := (hi.queue_accepts 7 ARQ_DATA_SIZE).mpr ⟨by decide, hroom⟩
    rw [heq] at h0
    obtain rfl : ret = 0 := h0
    rcases hret with hret | hret
    · cases hret
    · cases hret
  · have hstep : s'.step (.queue 7 ARQ_DATA_SIZE) = some { s' with kcp := kcp' } := by
      unfold Sender.step
      dsimp only
      rw [if_pos h'.idle, heq]
    refine ⟨_, h'.reachable.step ⟨_, hstep⟩, fun hd => ?_⟩
    have hA : A ∈ s'.kcp.live := List.mem_append_left _ (List.mem_append_right _
      (List.mem_append_right _ (List.mem_append_right _ h'.mem)))
    have hid := hd A (hq.mem_live.mpr (.inr hA)) seg (hq.mem_live.mpr (.inl rfl)) hrec hq.plain.1
      (hpid.trans (hq.pid.trans hpid').symm)
    have hlt := hi.acct.id_lt (List.mem_map_of_mem hA)
    exact absurd (hid.trans hq.id) hlt.ne

end RemotePlay.Arq
