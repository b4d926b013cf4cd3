import RemotePlay.Arq.Groups
import RemotePlay.Arq.Account

/-! # What an answer changes

`ikcp_input` takes whole groups out of `snd_wak` and frees or requeues each of their segments
(`wakScan_spec`), frees segments that are queued to be resent (`handleNack_spec`) and leaves
`snd_cur` as it is, since a group's recovery segment never counts as resent (`curScan_eq`). -/

namespace RemotePlay.Arq

open Function (update)

/-- A segment that is not in a group. -/
def Seg.Plain (seg : Seg) : Prop := seg.recovery_data = false ∧ seg.gid_end = false

/-- **What an answer leaves alone.** -/
structure Frame (kcp kcp' : Kcp) : Prop where
  cid : kcp'.cid = kcp.cid
  pid : kcp'.pid = kcp.pid
  fid : kcp'.fid = kcp.fid
  n_snd_max : kcp'.n_snd_max = kcp.n_snd_max
  n_cur_max : kcp'.n_cur_max = kcp.n_cur_max
  snd_lst : kcp'.snd_lst = kcp.snd_lst
  snd_cur : kcp'.snd_cur = kcp.snd_cur
  session_established : kcp'.session_established = kcp.session_established
  rp_output_retry : kcp'.rp_output_retry = kcp.rp_output_retry
  fec_send_intervals : kcp'.fec_send_intervals = kcp.fec_send_intervals
  rp_max_qos : kcp'.rp_max_qos = kcp.rp_max_qos
  next_id : kcp'.next_id = kcp.next_id
  next_grp : kcp'.next_grp = kcp.next_grp

/-- What taking groups out of `snd_wak` leaves alone as well. -/
structure WakFrame (kcp kcp' : Kcp) : Prop extends Frame kcp kcp' where
  rp_current_qos : kcp'.rp_current_qos = kcp.rp_current_qos
  rates : kcp'.rates = kcp.rates
  last_ack_count : kcp'.congc.last_ack_count = kcp.congc.last_ack_count
  last_nack_count : kcp'.congc.last_nack_count = kcp.congc.last_nack_count
  avg_ack_count : kcp'.congc.avg_ack_count = kcp.congc.avg_ack_count
  avg_nack_count : kcp'.congc.avg_nack_count = kcp.congc.avg_nack_count

variable {kcp kcp₁ kcp₂ kcp' : Kcp} {nacks : List Nack} {seg : Seg} {held : List Holding}
  {out : List Seg} {g k : ℕ} {fty : FecType}

theorem Frame.refl (kcp : Kcp) : Frame kcp kcp :=
  ⟨rfl, rfl, rfl, rfl, rfl, rfl, rfl, rfl, rfl, rfl, rfl, rfl, rfl⟩

theorem Frame.trans (h : Frame kcp kcp₁) (h' : Frame kcp₁ kcp₂) : Frame kcp kcp₂ where
  cid := h'.cid.trans h.cid
  pid := h'.pid.trans h.pid
  fid := h'.fid.trans h.fid
  n_snd_max := h'.n_snd_max.trans h.n_snd_max
  n_cur_max := h'.n_cur_max.trans h.n_cur_max
  snd_lst := h'.snd_lst.trans h.snd_lst
  snd_cur := h'.snd_cur.trans h.snd_cur
  session_established := h'.session_established.trans h.session_established
  rp_output_retry := h'.rp_output_retry.trans h.rp_output_retry
  fec_send_intervals := h'.fec_send_intervals.trans h.fec_send_intervals
  rp_max_qos := h'.rp_max_qos.trans h.rp_max_qos
  next_id := h'.next_id.trans h.next_id
  next_grp := h'.next_grp.trans h.next_grp

theorem WakFrame.refl (kcp : Kcp) : WakFrame kcp kcp := ⟨.refl kcp, rfl, rfl, rfl, rfl, rfl, rfl⟩

theorem WakFrame.trans (h : WakFrame kcp kcp₁) (h' : WakFrame kcp₁ kcp₂) : WakFrame kcp kcp₂ where
  toFrame := h.toFrame.trans h'.toFrame
  rp_current_qos := h'.rp_current_qos.trans h.rp_current_qos
  rates := h'.rates.trans h.rates
  last_ack_count := h'.last_ack_count.trans h.last_ack_count
  last_nack_count := h'.last_nack_count.trans h.last_nack_count
  avg_ack_count := h'.avg_ack_count.trans h.avg_ack_count
  avg_nack_count := h'.avg_nack_count.trans h.avg_nack_count

theorem Kcp.segFree_eq (kcp : Kcp) (seg : Seg) :
    ∃ cur_bufs freed_bufs, kcp.segFree seg =
      { kcp with seg_used := kcp.seg_used - 1, freed := kcp.freed ++ [seg]
                 cur_bufs := cur_bufs, freed_bufs := freed_bufs } := by
  unfold Kcp.segFree
  split_ifs
  · exact ⟨_, _, rfl⟩
  · exact ⟨_, _, rfl⟩
  · exact ⟨_, _, rfl⟩

theorem Kcp.ackFree_eq (kcp : Kcp) (seg : Seg) :
    ∃ cur_bufs freed_bufs, kcp.ackFree seg =
      { kcp with n_snd := kcp.n_snd - 1, seg_used := kcp.seg_used - 1, freed := kcp.freed ++ [seg]
                 cur_bufs := cur_bufs, freed_bufs := freed_bufs } :=
  Kcp.segFree_eq { kcp with n_snd := kcp.n_snd - 1 } seg

/-! ### Requeueing -/

theorem Seg.resend_wrn_pos (seg : Seg) : 0 < seg.resend.wrn := by
  unfold Seg.resend
  dsimp only
  split_ifs with h
  · exact Nat.succ_pos _
  · exact Nat.lt_of_lt_of_le (by decide) (not_lt.mp h)

/-- The queue a segment is added to. -/
def Seg.queueIndex (seg : Seg) : ℕ := min seg.wrn RSND_COUNT - 1

theorem Seg.queueIndex_lt (seg : Seg) : seg.queueIndex < RSND_COUNT := by
  simp only [Seg.queueIndex, RSND_COUNT]
  omega

theorem Kcp.requeue_resend (kcp : Kcp) (seg : Seg) : kcp.requeue seg.resend =
    { kcp with
      rsnd_lsts := update kcp.rsnd_lsts seg.resend.queueIndex
        (kcp.rsnd_lsts seg.resend.queueIndex ++ [seg.resend]) } := by
  unfold Kcp.requeue
  rw [if_pos seg.resend_wrn_pos]
  rfl

theorem Kcp.queued_update_perm (kcp : Kcp) {i : ℕ} (hi : i < RSND_COUNT) (l : List Seg) :
    (kcp.queued ++ l).Perm
      (kcp.rsnd_lsts i ++ { kcp with rsnd_lsts := update kcp.rsnd_lsts i l }.queued) := by
  have h : i = 0 ∨ i = 1 ∨ i = 2 := by
    simp only [RSND_COUNT] at hi
    omega
  rw [List.perm_iff_count]
  intro a
  rcases h with rfl | rfl | rfl
  · simp only [Kcp.queued, List.count_append, Function.update_self,
      Function.update_of_ne (show 1 ≠ 0 by decide), Function.update_of_ne (show 2 ≠ 0 by decide)]
    omega
  · simp only [Kcp.queued, List.count_append, Function.update_self,
      Function.update_of_ne (show 0 ≠ 1 by decide), Function.update_of_ne (show 2 ≠ 1 by decide)]
    omega
  · simp only [Kcp.queued, List.count_append, Function.update_self,
      Function.update_of_ne (show 0 ≠ 2 by decide), Function.update_of_ne (show 1 ≠ 2 by decide)]
    omega

theorem Kcp.requeue_queued_perm (kcp : Kcp) (seg : Seg) :
    (kcp.requeue seg.resend).queued.Perm (seg.resend :: kcp.queued) := by
  rw [kcp.requeue_resend]
  have h := kcp.queued_update_perm seg.resend.queueIndex_lt
    (kcp.rsnd_lsts seg.resend.queueIndex ++ [seg.resend])
  have h' := h.symm.trans List.perm_append_comm
  rw [List.append_assoc] at h'
  exact (List.perm_append_left_iff _).mp h'

/-! ### Groups taken out of `snd_wak` -/

/-- The segments in the lists. -/
def Kcp.live (kcp : Kcp) : List Seg := kcp.queued ++ (kcp.snd_wak ++ kcp.snd_cur)

/-- How many originals there have been, those freed included. -/
def Kcp.originals (kcp : Kcp) : ℕ := kcp.n_snd + kcp.freed.countP fun s => !s.recovery_data

/-- **While groups are taken out of `snd_wak`**, from a state on; `out` are the segments still in
`snd_wak` and `snd_cur`. -/
structure Waking (start : Kcp) (held : List Holding) (kcp : Kcp) (out : List Seg) : Prop where
  frame : WakFrame start kcp
  acct : Acct kcp ((kcp.queued ++ out).map Seg.holding) held
  plain : ∀ s ∈ kcp.queued, s.Plain
  rsnd : ∀ i, ∃ new, kcp.rsnd_lsts i = start.rsnd_lsts i ++ new ∧ ∀ s ∈ new, s.sent = true
  freed : ∃ gone, kcp.freed = start.freed ++ gone ∧ ∀ s ∈ gone, s.sent = true
  originals : kcp.originals = start.originals
  sub : ∀ s ∈ kcp.queued ++ out, s.holding ∈ start.live.map Seg.holding

theorem Waking.congr {start : Kcp} (h : Waking start held kcp out) {congc : Congc}
    (hc : WakFrame kcp { kcp with congc := congc }) :
    Waking start held { kcp with congc := congc } out where
  frame := h.frame.trans hc
  acct := h.acct.congr rfl rfl rfl rfl rfl rfl
  plain := h.plain
  rsnd := h.rsnd
  freed := h.freed
  originals := h.originals
  sub := h.sub

theorem Waking.perm {start : Kcp} (h : Waking start held kcp out) {out' : List Seg}
    (hp : out'.Perm out) : Waking start held kcp out' :=
  { h with
    acct := h.acct.perm ((hp.append_left _).map _)
    sub := fun s hs => h.sub s ((hp.append_left _).subset hs) }

theorem Waking.setWak {start : Kcp} (h : Waking start held kcp out) (snd_wak : List Seg) :
    Waking start held { kcp with snd_wak := snd_wak } out where
  frame := h.frame.trans
    ⟨⟨rfl, rfl, rfl, rfl, rfl, rfl, rfl, rfl, rfl, rfl, rfl, rfl, rfl⟩, rfl, rfl, rfl,
    rfl, rfl, rfl⟩
  acct := h.acct.congr rfl rfl rfl rfl rfl rfl
  plain := h.plain
  rsnd := h.rsnd
  freed := h.freed
  originals := h.originals
  sub := h.sub

/-- **One segment of a group.** -/
theorem Waking.wakSeg {start : Kcp} (h : Waking start held kcp (seg :: out))
    (hsent : seg.sent = true)
    (a n : ℕ) : Waking start held (Kcp.wakSeg nacks (kcp, a, n) seg).1 out := by
  have hfront : Acct kcp (seg.holding :: (kcp.queued ++ out).map Seg.holding) held :=
    h.acct.perm (by
      rw [← List.map_cons]
      exact (List.perm_middle.symm).map _)
  obtain ⟨gone, hgone, hgone'⟩ := h.freed
  have hfreed : ∃ gone, kcp.freed ++ [seg] = start.freed ++ gone ∧ ∀ s ∈ gone, s.sent = true := by
    refine ⟨gone ++ [seg], by rw [hgone, List.append_assoc], fun s hs => ?_⟩
    rcases List.mem_append.mp hs with hs | hs
    · exact hgone' s hs
    · rwa [List.mem_singleton.mp hs]
  have hsub : ∀ s ∈ kcp.queued ++ out, s.holding ∈ start.live.map Seg.holding := fun s hs =>
    h.sub s (((List.sublist_cons_self seg out).append_left _).subset hs)
  unfold Kcp.wakSeg
  dsimp only
  split_ifs with hr hn
  · have hacct := hfront.segFree hr
    have hrecovery : kcp.n_snd + (kcp.freed ++ [seg]).countP (fun s => !s.recovery_data) =
        start.originals := by
      rw [List.countP_append, List.countP_singleton, hr]
      exact h.originals
    obtain ⟨cb, fb, heq⟩ := kcp.segFree_eq seg
    rw [heq] at hacct ⊢
    exact ⟨h.frame.trans ⟨⟨rfl, rfl, rfl, rfl, rfl, rfl, rfl, rfl, rfl, rfl, rfl, rfl, rfl⟩,
      rfl, rfl, rfl, rfl, rfl, rfl⟩, hacct, h.plain, h.rsnd, hfreed, hrecovery, hsub⟩
  · have hr := Bool.eq_false_iff.mpr hr
    have hacct := hfront.ackFree hr
    have horiginal : kcp.n_snd - 1 + (kcp.freed ++ [seg]).countP (fun s => !s.recovery_data) =
        start.originals := by
      have hn := hfront.n_snd
      rw [List.countP_cons_of_pos (by rw [Seg.holding, hr]; rfl)] at hn
      rw [← h.originals, Kcp.originals, List.countP_append, List.countP_singleton, hr]
      simp only [Bool.not_false, if_true]
      omega
    obtain ⟨cb, fb, heq⟩ := kcp.ackFree_eq seg
    rw [heq] at hacct ⊢
    exact ⟨h.frame.trans ⟨⟨rfl, rfl, rfl, rfl, rfl, rfl, rfl, rfl, rfl, rfl, rfl, rfl, rfl⟩,
      rfl, rfl, rfl, rfl, rfl, rfl⟩, hacct, h.plain, h.rsnd, hfreed, horiginal, hsub⟩
  · have hperm := kcp.requeue_queued_perm seg
    have heq := kcp.requeue_resend seg
    refine ⟨h.frame.trans ?_, ?_, fun s hs => ?_, fun i => ?_, ?_, ?_, fun s hs => ?_⟩
    · rw [heq]
      exact ⟨⟨rfl, rfl, rfl, rfl, rfl, rfl, rfl, rfl, rfl, rfl, rfl, rfl, rfl⟩, rfl, rfl, rfl,
        rfl, rfl, rfl⟩
    · have hacct : Acct (kcp.requeue seg.resend)
          (seg.holding :: (kcp.queued ++ out).map Seg.holding)
          held := by
        rw [heq]
        exact hfront.congr rfl rfl rfl rfl rfl rfl
      refine hacct.perm ?_
      rw [← Seg.holding_resend, ← List.map_cons, ← List.cons_append]
      exact (hperm.append_right _).map _
    · rcases List.mem_cons.mp (hperm.subset hs) with rfl | hs
      · exact ⟨Bool.eq_false_iff.mpr hr, rfl⟩
      · exact h.plain s hs
    · obtain ⟨new, hnew, hnew'⟩ := h.rsnd i
      rw [heq]
      rcases eq_or_ne i seg.resend.queueIndex with rfl | hne
      · refine ⟨new ++ [seg.resend], ?_, fun s hs => ?_⟩
        · dsimp only
          rw [Function.update_self, hnew, List.append_assoc]
        · rcases List.mem_append.mp hs with hs | hs
          · exact hnew' s hs
          · rw [List.mem_singleton.mp hs]
            exact hsent
      · refine ⟨new, ?_, hnew'⟩
        dsimp only
        rw [Function.update_of_ne hne, hnew]
    · rw [heq]
      exact h.freed
    · rw [heq]
      exact h.originals
    · rcases List.mem_cons.mp ((hperm.append_right out).subset hs) with rfl | hs
      · exact h.sub seg (List.mem_append_right _ List.mem_cons_self)
      · exact hsub s hs

theorem Waking.foldl_wakSeg {start : Kcp} {gone : List Seg} {r : Kcp × ℕ × ℕ}
    (h : Waking start held r.1 (gone ++ out)) (hsent : ∀ s ∈ gone, s.sent = true) :
    Waking start held (gone.foldl (Kcp.wakSeg nacks) r).1 out := by
  induction gone generalizing r with
  | nil => exact h
  | cons seg gone ih =>
    obtain ⟨kcp, a, n⟩ := r
    exact ih (Waking.wakSeg h (hsent seg List.mem_cons_self) a n)
      fun s hs => hsent s (List.mem_cons_of_mem _ hs)

theorem wakSeg_congc (r : Kcp × ℕ × ℕ) (seg : Seg) :
    (Kcp.wakSeg nacks r seg).1.congc = r.1.congc := by
  obtain ⟨kcp, a, n⟩ := r
  unfold Kcp.wakSeg
  dsimp only
  split_ifs
  · obtain ⟨cb, fb, heq⟩ := kcp.segFree_eq seg
    rw [heq]
  · obtain ⟨cb, fb, heq⟩ := kcp.ackFree_eq seg
    rw [heq]
  · rw [kcp.requeue_resend]

theorem foldl_wakSeg_congc (gone : List Seg) (r : Kcp × ℕ × ℕ) :
    (gone.foldl (Kcp.wakSeg nacks) r).1.congc = r.1.congc := by
  induction gone generalizing r with
  | nil => rfl
  | cons seg gone ih => exact (ih _).trans (wakSeg_congc r seg)

theorem wakSeg_counts (r : Kcp × ℕ × ℕ) (seg : Seg) :
    (Kcp.wakSeg nacks r seg).2.1 + (Kcp.wakSeg nacks r seg).2.2 =
      r.2.1 + r.2.2 + if seg.recovery_data = true then 0 else 1 := by
  obtain ⟨kcp, a, n⟩ := r
  unfold Kcp.wakSeg
  dsimp only
  split_ifs <;> dsimp only <;> omega

theorem foldl_wakSeg_counts (gone : List Seg) (r : Kcp × ℕ × ℕ) :
    (gone.foldl (Kcp.wakSeg nacks) r).2.1 + (gone.foldl (Kcp.wakSeg nacks) r).2.2 =
      r.2.1 + r.2.2 + gone.countP fun s => !s.recovery_data := by
  induction gone generalizing r with
  | nil => rfl
  | cons seg gone ih =>
    rw [List.foldl_cons, ih, wakSeg_counts, List.countP_cons, Nat.add_assoc]
    rcases seg.recovery_data with _ | _ <;> simp only [Bool.not_false, Bool.not_true, if_true,
      Bool.false_eq_true, if_false] <;> omega

/-- The segments of a group. -/
def segsOf (g : ℕ) (l : List Seg) : List Seg := l.filter fun s => s.grp = g

/-- The segments of other groups. -/
def segsNot (g : ℕ) (l : List Seg) : List Seg := l.filter fun s => s.grp ≠ g

theorem segsOf_tag (l : List Seg) : (segsOf g l).map Seg.tag = ofGroup g (l.map Seg.tag) := by
  rw [segsOf, ofGroup, List.filter_map]
  rfl

theorem segsNot_tag (l : List Seg) : (segsNot g l).map Seg.tag = others g (l.map Seg.tag) := by
  rw [segsNot, others, List.filter_map]
  rfl

theorem segsOf_append_segsNot_perm (g : ℕ) (l : List Seg) : (segsOf g l ++ segsNot g l).Perm l := by
  have h : segsNot g l = l.filter fun s => !decide (s.grp = g) :=
    List.filter_congr fun s _ => decide_not
  rw [segsNot] at h
  rw [segsOf, segsNot, h]
  exact List.filter_append_perm _ _

theorem segsOf_cons_self {l : List Seg} (h : seg.grp = g) :
    segsOf g (seg :: l) = seg :: segsOf g l :=
  List.filter_cons_of_pos (decide_eq_true h)

theorem segsOf_cons_of_ne {l : List Seg} (h : seg.grp ≠ g) : segsOf g (seg :: l) = segsOf g l :=
  List.filter_cons_of_neg (by rwa [decide_eq_true_iff])

theorem segsNot_cons_self {l : List Seg} (h : seg.grp = g) : segsNot g (seg :: l) = segsNot g l :=
  List.filter_cons_of_neg (by rw [decide_eq_true_iff, not_not]; exact h)

theorem segsNot_cons_of_ne {l : List Seg} (h : seg.grp ≠ g) :
    segsNot g (seg :: l) = seg :: segsNot g l :=
  List.filter_cons_of_pos (decide_eq_true h)

/-- **The segments of a group are found, and no others taken for them**, when no segment of another
group looks like one of it before they are all found. -/
theorem wakBack_eq {pre : List Seg} {r : Kcp × ℕ × ℕ}
    (hgrp : (segsOf g pre).map Seg.tag = ((List.range (k + 1)).map (memberTag g fty)).reverse)
    (hapart : ∀ x y, [y, x].Sublist pre → x.grp = g → y.fid = g % 2 ^ FID_NBITS → y.grp = g) :
    Kcp.wakBack nacks (g % 2 ^ FID_NBITS) fty (k + 1) r pre =
      ((segsOf g pre).foldl (Kcp.wakSeg nacks) r, segsNot g pre, 0) := by
  induction pre generalizing k r with
  | nil =>
    rw [List.range_succ, List.map_append, List.reverse_append] at hgrp
    cases hgrp
  | cons seg pre ih =>
    have hapart' : ∀ x y, [y, x].Sublist pre → x.grp = g → y.fid = g % 2 ^ FID_NBITS → y.grp = g :=
      fun x y hxy => hapart x y (hxy.cons seg)
    rw [Kcp.wakBack]
    by_cases hseg : seg.grp = g
    · rw [segsOf_cons_self hseg, segsNot_cons_self hseg]
      rw [segsOf_cons_self hseg, List.range_succ, List.map_append, List.reverse_append] at hgrp
      obtain ⟨htag, hgrp⟩ := List.cons.inj hgrp
      have hfid : seg.fid = g % 2 ^ FID_NBITS := congrArg Tag.fid htag
      have hgid : seg.gid = k := congrArg Tag.gid htag
      have hfty : seg.fty = fty := congrArg Tag.fty htag
      rw [if_pos hfid, if_neg (by
        rw [hgid, hfty, Nat.add_sub_cancel]
        exact not_or.mpr ⟨not_not.mpr rfl, not_not.mpr rfl⟩), hgid]
      rcases k with _ | k
      · have hnil : segsOf g pre = [] := List.map_eq_nil_iff.mp hgrp
        have hall : segsNot g pre = pre := List.filter_eq_self.mpr fun s hs =>
          decide_eq_true (List.filter_eq_nil_iff.mp hnil s hs ∘ decide_eq_true)
        rw [if_pos rfl, hnil, hall]
        rfl
      · rw [if_neg (Nat.succ_ne_zero k), Nat.add_sub_cancel, ih hgrp hapart']
        rfl
    · have hne : segsOf g pre ≠ [] := by
        rintro hnil
        rw [segsOf_cons_of_ne hseg, hnil, List.range_succ, List.map_append,
          List.reverse_append] at hgrp
        cases hgrp
      obtain ⟨x, hx⟩ := List.exists_mem_of_ne_nil _ hne
      obtain ⟨hxpre, hxg⟩ := List.mem_filter.mp hx
      have hfid : seg.fid ≠ g % 2 ^ FID_NBITS := fun hfid =>
        hseg (hapart x seg ((List.singleton_sublist.mpr hxpre).cons_cons seg)
          (of_decide_eq_true hxg) hfid)
      rw [segsOf_cons_of_ne hseg] at hgrp ⊢
      rw [segsNot_cons_of_ne hseg, if_neg hfid, ih hgrp hapart']

/-! ### One group -/

theorem shiftLeft_mul_total_lt (hused : fty.Used) {n : ℕ} (hn : n ≤ fty.counts.original_count) :
    n <<< 16 * fty.total < 2 ^ 32 := by
  rcases hused with rfl | rfl
  · simp only [FecType.counts, FecType.total, Nat.shiftLeft_eq] at hn ⊢
    omega
  · simp only [FecType.counts, FecType.total, Nat.shiftLeft_eq] at hn ⊢
    omega

theorem fixCount_le (hused : fty.Used) {n : ℕ} (hn : n ≤ fty.counts.original_count) :
    fty.counts.original_count * Kcp.fixCount fty n ≤ n * fty.total * 2 ^ 16 := by
  rw [Kcp.fixCount, Nat.mod_eq_of_lt (shiftLeft_mul_total_lt hused hn)]
  refine (Nat.mul_div_le _ _).trans_eq ?_
  rw [Nat.shiftLeft_eq]
  ring

theorem fixCount_add_le (hused : fty.Used) {a n : ℕ}
    (han : a + n = fty.counts.original_count) :
    Kcp.fixCount fty a + Kcp.fixCount fty n ≤ fty.total * 2 ^ 16 := by
  have ha := fixCount_le hused (Nat.le.intro han)
  have hn := fixCount_le hused (Nat.le.intro ((Nat.add_comm n a).trans han))
  rcases hused with rfl | rfl
  · simp only [FecType.counts, FecType.total] at *
    omega
  · simp only [FecType.counts, FecType.total] at *
    omega

theorem countP_groupTags (hused : fty.Used) :
    (groupTags g fty).countP (fun t => !t.recovery_data) = fty.counts.original_count := by
  rcases hused with rfl | rfl <;> rfl

/-- The packets counted by the last call and those that it may still count. -/
structure CountBound (kcp : Kcp) (n : ℕ) : Prop where
  le : kcp.congc.curr_ack_count + kcp.congc.curr_nack_count + n * 2 ^ 16 ≤ Congc.COUNT_MAX
  wrapped : kcp.congc.wrapped = false

theorem CountBound.mono {m n : ℕ} (h : CountBound kcp n) (hmn : m ≤ n) : CountBound kcp m :=
  ⟨(Nat.add_le_add_left (Nat.mul_le_mul_right _ hmn) _).trans h.le, h.wrapped⟩

/-- **A group's packets are counted**, and no sum wraps around. -/
theorem CountBound.addCounts (hused : fty.Used) {r : Kcp × ℕ × ℕ} {m : ℕ}
    (h : CountBound r.1 (m + fty.total)) (hr : r.2.1 + r.2.2 = fty.counts.original_count) :
    CountBound (Kcp.addCounts fty r) m := by
  obtain ⟨kcp, a, n⟩ := r
  have hfix : Kcp.fixCount fty a + Kcp.fixCount fty n ≤ fty.total * 2 ^ 16 :=
    fixCount_add_le hused hr
  have hle := h.le
  have hwrap := h.wrapped
  simp only [Congc.COUNT_MAX, Nat.reduceShiftLeft, Nat.add_mul] at hle
  have ha := shiftLeft_mul_total_lt hused (Nat.le.intro hr)
  have hn := shiftLeft_mul_total_lt hused (Nat.le.intro ((Nat.add_comm n a).trans hr))
  have h1 : (kcp.congc.curr_ack_count + Kcp.fixCount fty a) % 2 ^ 32 =
      kcp.congc.curr_ack_count + Kcp.fixCount fty a := Nat.mod_eq_of_lt (by omega)
  have h2 : (kcp.congc.curr_nack_count + Kcp.fixCount fty n) % 2 ^ 32 =
      kcp.congc.curr_nack_count + Kcp.fixCount fty n := Nat.mod_eq_of_lt (by omega)
  unfold Kcp.addCounts
  dsimp only
  refine ⟨?_, ?_⟩
  · dsimp only
    rw [h1, h2]
    simp only [Congc.COUNT_MAX, Nat.reduceShiftLeft]
    omega
  · dsimp only at hwrap ⊢
    rw [hwrap, decide_eq_false (not_le.mpr ha), decide_eq_false (not_le.mpr hn),
      Congc.wraps_eq_false (by omega), Congc.wraps_eq_false (by omega)]
    rfl

/-- **A segment that ends its group**, and the segments before it, the nearest one first. -/
structure EndsGroup (seg : Seg) (pre : List Seg) : Prop where
  used : seg.fty.Used
  gid : seg.gid = seg.fty.total - 1
  fid : seg.fid = seg.grp % 2 ^ FID_NBITS
  tag : seg.tag = memberTag seg.grp seg.fty (seg.fty.total - 1)
  before : (segsOf seg.grp pre).map Seg.tag =
    ((List.range (seg.fty.total - 1)).map (memberTag seg.grp seg.fty)).reverse
  apart : ∀ x y, [y, x].Sublist pre → x.grp = seg.grp → y.fid = seg.grp % 2 ^ FID_NBITS →
    y.grp = seg.grp

theorem Groups.endsGroup {pre : List Seg} {next : ℕ}
    (hg : Groups next ((pre.reverse ++ seg :: out).map Seg.tag)) (hend : seg.gid_end = true) :
    EndsGroup seg pre ∧ Groups next (((segsNot seg.grp pre).reverse ++ out).map Seg.tag) := by
  rw [List.map_append, List.map_cons] at hg
  have hlast := hg.lastOf hend
  refine ⟨⟨hlast.used, congrArg Tag.gid hlast.tag, congrArg Tag.fid hlast.tag, hlast.tag, ?_, ?_⟩,
    ?_⟩
  · have hb : ofGroup seg.grp (pre.reverse.map Seg.tag) =
        (List.range (seg.fty.total - 1)).map (memberTag seg.grp seg.fty) := hlast.before
    rw [segsOf_tag, ← hb, List.map_reverse, ofGroup, ofGroup, List.filter_reverse,
      List.reverse_reverse]
  · intro x y hsub hx hy
    have hsub' : [x, y, seg].Sublist (pre.reverse ++ seg :: out) :=
      (List.reverse_sublist.mpr hsub).append ((List.nil_sublist out).cons_cons seg)
    have htags := hsub'.map Seg.tag
    rw [List.map_append, List.map_cons] at htags
    have hxfid : x.fid = x.grp % 2 ^ FID_NBITS := hg.fid x.tag (htags.subset List.mem_cons_self)
    rw [hx, ← hy] at hxfid
    exact (hg.apart _ _ _ htags hx hxfid.symm).trans hx
  · have h := hg.without seg.grp
    have hafter : others seg.grp (out.map Seg.tag) = out.map Seg.tag :=
      others_eq_self (ofGroup_eq_nil.mp hlast.after)
    rw [others_append, others_cons_self (g := seg.grp) rfl, hafter, others, List.map_reverse,
      List.filter_reverse] at h
    rw [List.map_append, List.map_reverse, segsNot_tag]
    exact h

namespace EndsGroup

variable {pre : List Seg}

theorem total_pos (h : EndsGroup seg pre) : seg.fty.total = seg.fty.total - 1 + 1 := by
  rcases h.used with h | h <;> rw [h] <;> rfl

theorem length_segsOf (h : EndsGroup seg pre) :
    (segsOf seg.grp pre).length + 1 = seg.fty.total := by
  have hlen := congrArg List.length h.before
  rw [List.length_map, List.length_reverse, List.length_map, List.length_range] at hlen
  rw [hlen]
  exact h.total_pos.symm

theorem tags_perm (h : EndsGroup seg pre) :
    ((seg :: segsOf seg.grp pre).map Seg.tag).Perm (groupTags seg.grp seg.fty) := by
  rw [List.map_cons, h.before, h.tag, groupTags]
  conv_rhs => rw [h.total_pos, List.range_succ, List.map_append]
  exact ((List.reverse_perm _).cons _).trans (List.perm_append_singleton _ _).symm

theorem counts (h : EndsGroup seg pre) (nacks : List Nack) (kcp : Kcp) :
    ((seg :: segsOf seg.grp pre).foldl (Kcp.wakSeg nacks) (kcp, 0, 0)).2.1 +
      ((seg :: segsOf seg.grp pre).foldl (Kcp.wakSeg nacks) (kcp, 0, 0)).2.2 =
        seg.fty.counts.original_count := by
  rw [foldl_wakSeg_counts, ← countP_groupTags h.used (g := seg.grp), ← h.tags_perm.countP_eq,
    List.countP_map]
  exact Nat.zero_add _

/-- **The group's segments are handled one after another**, the last one first. -/
theorem handleSendWakNack_eq (h : EndsGroup seg pre) (kcp : Kcp) :
    kcp.handleSendWakNack nacks seg pre =
      (Kcp.addCounts seg.fty ((seg :: segsOf seg.grp pre).foldl (Kcp.wakSeg nacks)
        (kcp.setCurrSendTime seg.send_time, 0, 0)), segsNot seg.grp pre, 0) := by
  unfold Kcp.handleSendWakNack
  rw [if_neg (not_not.mpr h.gid)]
  dsimp only
  by_cases h0 : seg.gid = 0
  · have hnil : segsOf seg.grp pre = [] := by
      rw [← List.map_eq_nil_iff (f := Seg.tag), h.before, ← h.gid, h0]
      rfl
    have hall : segsNot seg.grp pre = pre := List.filter_eq_self.mpr fun s hs =>
      decide_eq_true (List.filter_eq_nil_iff.mp hnil s hs ∘ decide_eq_true)
    rw [if_pos h0, hall, hnil]
    rfl
  · have hk : seg.fty.total - 1 = seg.fty.total - 2 + 1 := by
      have := h.gid
      omega
    rw [if_neg h0, h.fid, hk, wakBack_eq (hk ▸ h.before) h.apart]
    rfl

end EndsGroup

/-- **A group is taken out of `snd_wak`**, without an error. -/
theorem handleSendWakNack_spec {start : Kcp} {pre : List Seg} {next m : ℕ}
    (hw : Waking start held kcp (pre.reverse ++ seg :: out))
    (hg : Groups next ((pre.reverse ++ seg :: out).map Seg.tag)) (hend : seg.gid_end = true)
    (hsent : ∀ s ∈ seg :: pre, s.sent = true) (hcount : CountBound kcp (pre.length + (m + 1))) :
    ∃ kcp' pre', kcp.handleSendWakNack nacks seg pre = (kcp', pre', 0) ∧
      Waking start held kcp' (pre'.reverse ++ out) ∧
      Groups next ((pre'.reverse ++ out).map Seg.tag) ∧ pre'.Sublist pre ∧
      CountBound kcp' (pre'.length + m) := by
  obtain ⟨hends, hg'⟩ := hg.endsGroup hend
  have hperm : ((seg :: segsOf seg.grp pre) ++ ((segsNot seg.grp pre).reverse ++ out)).Perm
      (pre.reverse ++ seg :: out) := by
    rw [← List.append_assoc, List.cons_append]
    refine List.Perm.trans ((List.Perm.append_right out ?_).cons seg) List.perm_middle.symm
    exact ((List.reverse_perm _).append_left _).trans
      ((segsOf_append_segsNot_perm seg.grp pre).trans (List.reverse_perm pre).symm)
  have hw' : Waking start held (kcp.setCurrSendTime seg.send_time)
      ((seg :: segsOf seg.grp pre) ++ ((segsNot seg.grp pre).reverse ++ out)) :=
    (hw.perm hperm).congr ⟨⟨rfl, rfl, rfl, rfl, rfl, rfl, rfl, rfl, rfl, rfl, rfl, rfl, rfl⟩,
      rfl, rfl, rfl, rfl, rfl, rfl⟩
  have hsent' : ∀ s ∈ seg :: segsOf seg.grp pre, s.sent = true := fun s hs =>
    hsent s ((List.filter_sublist.cons_cons seg).subset hs)
  have hnum := hends.counts nacks (kcp.setCurrSendTime seg.send_time)
  refine ⟨_, _, hends.handleSendWakNack_eq kcp, ?_, hg', List.filter_sublist, ?_⟩
  · refine Waking.congr (Waking.foldl_wakSeg hw' hsent') ?_
    exact ⟨⟨rfl, rfl, rfl, rfl, rfl, rfl, rfl, rfl, rfl, rfl, rfl, rfl, rfl⟩, rfl, rfl, rfl,
      rfl, rfl, rfl⟩
  · have htotal := hends.length_segsOf
    have hlen := (segsOf_append_segsNot_perm seg.grp pre).length_eq
    rw [List.length_append] at hlen
    have hsplit : pre.length + (m + 1) = (segsNot seg.grp pre).length + m + seg.fty.total := by
      omega
    rw [hsplit] at hcount
    refine CountBound.addCounts hends.used ⟨?_, ?_⟩ hnum
    · rw [foldl_wakSeg_congc]
      exact hcount.le
    · rw [foldl_wakSeg_congc]
      exact hcount.wrapped

/-! ### All groups -/

/-- **Groups are taken out of `snd_wak`**: what is left are groups, and there is no error. -/
theorem wakScan_spec (nacks : List Nack) (fid gid : ℕ) {start : Kcp} {pre rest cur : List Seg}
    {next : ℕ} (hw : Waking start held kcp (pre.reverse ++ (rest ++ cur)))
    (hg : Groups next ((pre.reverse ++ (rest ++ cur)).map Seg.tag))
    (hsent : ∀ s ∈ pre ++ rest, s.sent = true)
    (hcount : CountBound kcp (pre.length + rest.length)) :
    ∃ kcp', Kcp.wakScan nacks fid gid kcp pre rest = (kcp', 0) ∧
      Waking start held kcp' (kcp'.snd_wak ++ cur) ∧
      Groups next ((kcp'.snd_wak ++ cur).map Seg.tag) ∧
      kcp'.snd_wak.Sublist (pre.reverse ++ rest) ∧ CountBound kcp' 0 := by
  induction rest generalizing kcp pre with
  | nil =>
    refine ⟨_, rfl, hw.setWak _, hg, ?_, ?_⟩
    · dsimp only
      rw [List.append_nil]
    · exact ⟨(hcount.mono (Nat.zero_le _)).le, hcount.wrapped⟩
  | cons seg rest ih =>
    rw [Kcp.wakScan]
    by_cases hend : Kcp.notAfter fid seg.fid = true ∧ seg.gid_end = true
    · rw [if_pos hend]
      have hw₀ : Waking start held kcp (pre.reverse ++ seg :: (rest ++ cur)) := hw
      obtain ⟨kcp₁, pre₁, heq, hw₁, hg₁, hsub, hcount₁⟩ := handleSendWakNack_spec
        hw₀ hg hend.2 (fun s hs => hsent s (by
          rw [List.mem_append]
          exact (List.mem_cons.mp hs).elim (fun h => .inr (h ▸ List.mem_cons_self)) .inl)) hcount
      have hsub' : (pre₁.reverse ++ rest).Sublist (pre.reverse ++ seg :: rest) :=
        (List.reverse_sublist.mpr hsub).append (List.sublist_cons_self seg rest)
      rw [heq]
      dsimp only
      rw [if_neg (lt_irrefl 0)]
      split_ifs with hbreak
      · rw [← List.append_assoc] at hw₁ hg₁
        refine ⟨_, rfl, hw₁.setWak _, hg₁, hsub', ?_⟩
        exact ⟨(hcount₁.mono (Nat.zero_le _)).le, hcount₁.wrapped⟩
      · have hsent₁ : ∀ s ∈ pre₁ ++ rest, s.sent = true := fun s hs => hsent s
          ((hsub.append (List.sublist_cons_self seg rest)).subset hs)
        obtain ⟨kcp', heq', hw', hg', hsub₂, hcount'⟩ := ih hw₁ hg₁ hsent₁ hcount₁
        exact ⟨kcp', heq', hw', hg', hsub₂.trans hsub', hcount'⟩
    · rw [if_neg hend]
      split_ifs with hbreak
      · rw [← List.append_assoc] at hw hg
        refine ⟨_, rfl, hw.setWak _, hg, List.Sublist.refl _, ?_⟩
        exact ⟨(hcount.mono (Nat.zero_le _)).le, hcount.wrapped⟩
      · have hrev : (seg :: pre).reverse ++ (rest ++ cur) =
            pre.reverse ++ (seg :: rest ++ cur) := by
          rw [List.reverse_cons, List.append_assoc]
          rfl
        have hrev' : (seg :: pre).reverse ++ rest = pre.reverse ++ seg :: rest := by
          rw [List.reverse_cons, List.append_assoc]
          rfl
        have hsent₁ : ∀ s ∈ seg :: pre ++ rest, s.sent = true := fun s hs => hsent s
          (List.perm_middle.symm.subset hs)
        have hcount₁ : CountBound kcp ((seg :: pre).length + rest.length) := by
          rw [List.length_cons, Nat.add_right_comm, Nat.add_assoc]
          exact hcount
        obtain ⟨kcp', heq', hw', hg', hsub, hcount'⟩ := ih (hrev ▸ hw) (hrev ▸ hg) hsent₁ hcount₁
        exact ⟨kcp', heq', hw', hg', hrev' ▸ hsub, hcount'⟩

/-! ### Queued segments -/

theorem foldl_ackFree_eq (gone : List Seg) (kcp : Kcp) :
    ∃ seg_used cur_bufs freed_bufs, gone.foldl Kcp.ackFree kcp =
      { kcp with
        n_snd := kcp.n_snd - gone.length, seg_used := seg_used, freed := kcp.freed ++ gone
        cur_bufs := cur_bufs, freed_bufs := freed_bufs } := by
  induction gone generalizing kcp with
  | nil => exact ⟨_, _, _, by rw [List.append_nil]; rfl⟩
  | cons seg gone ih =>
    obtain ⟨cb, fb, heq⟩ := kcp.ackFree_eq seg
    obtain ⟨b, c, d, heq'⟩ := ih (kcp.ackFree seg)
    refine ⟨b, c, d, heq'.trans ?_⟩
    rw [heq, List.append_cons kcp.freed seg gone, List.length_cons, Nat.add_comm gone.length 1,
      ← Nat.sub_sub]

/-- **Segments of one queue that are not reported missing are freed.** -/
theorem handleNack_spec {i : ℕ} (hi : i < RSND_COUNT) (hplain : ∀ s ∈ kcp.queued, s.Plain)
    (hacct : Acct kcp ((kcp.queued ++ out).map Seg.holding) held) :
    ∃ n_snd seg_used cur_bufs freed_bufs, kcp.handleNack nacks i =
      { kcp with
        n_snd := n_snd, seg_used := seg_used, cur_bufs := cur_bufs, freed_bufs := freed_bufs
        freed := kcp.freed ++ (kcp.rsnd_lsts i).filter fun s => checkNack s.pid nacks = false
        rsnd_lsts := update kcp.rsnd_lsts i
          ((kcp.rsnd_lsts i).filter fun s => checkNack s.pid nacks = true) } ∧
      Acct (kcp.handleNack nacks i)
        (((kcp.handleNack nacks i).queued ++ out).map Seg.holding) held ∧
      (kcp.handleNack nacks i).originals = kcp.originals ∧
      ∀ s ∈ (kcp.handleNack nacks i).queued, s ∈ kcp.queued := by
  set gone := (kcp.rsnd_lsts i).filter fun s => checkNack s.pid nacks = false with hgonedef
  set kept := (kcp.rsnd_lsts i).filter fun s => checkNack s.pid nacks = true with hkept
  set kcp₁ : Kcp := { kcp with rsnd_lsts := update kcp.rsnd_lsts i kept } with hkcp₁
  obtain ⟨b, c, d, heq⟩ := foldl_ackFree_eq gone kcp₁
  have hdef : kcp.handleNack nacks i = gone.foldl Kcp.ackFree kcp₁ := rfl
  have hparts : (gone ++ kept).Perm (kcp.rsnd_lsts i) := by
    have h := List.filter_append_perm (fun s : Seg => checkNack s.pid nacks = true)
      (kcp.rsnd_lsts i)
    have hneg : (kcp.rsnd_lsts i).filter (fun s => !decide (checkNack s.pid nacks = true)) = gone :=
      List.filter_congr fun s _ => by
        rcases checkNack s.pid nacks with _ | _ <;> rfl
    rw [hneg] at h
    exact List.perm_append_comm.trans h
  have hperm : kcp.queued.Perm (gone ++ kcp₁.queued) := by
    have h := kcp.queued_update_perm hi kept
    have h' := h.trans (hparts.symm.append_right _)
    rw [List.append_assoc] at h'
    refine (List.perm_append_right_iff kept).mp (h'.trans ?_)
    rw [List.append_assoc]
    exact List.perm_append_comm.append_left gone
  have hq : (kcp.handleNack nacks i).queued = kcp₁.queued := by rw [hdef, heq]; rfl
  have hgone : ∀ s ∈ gone, s.recovery_data = false := fun s hs =>
    (hplain s (hperm.mem_iff.mpr (List.mem_append_left _ hs))).1
  refine ⟨_, b, c, d, hdef.trans heq, ?_, ?_, fun s hs => ?_⟩
  · rw [hq, hdef]
    refine Acct.foldl_ackFree ?_ hgone
    · rw [← List.map_append, ← List.append_assoc]
      exact (hacct.perm ((hperm.symm.append_right _).map _)).congr rfl rfl rfl rfl rfl rfl
  · have hcount : gone.countP (fun s => !s.recovery_data) = gone.length :=
      List.countP_eq_length.mpr fun s hs => by rw [hgone s hs]; rfl
    have hle : gone.length ≤ kcp.n_snd := by
      rw [hacct.n_snd, List.countP_map, List.countP_append, hperm.countP_eq, List.countP_append]
      refine le_trans ?_ (Nat.le_add_right _ _)
      refine le_trans ?_ (Nat.le_add_right _ _)
      exact hcount.ge
    rw [hdef, heq, Kcp.originals, Kcp.originals, List.countP_append, hcount]
    show kcp.n_snd - gone.length + (kcp.freed.countP _ + gone.length) =
        kcp.n_snd + kcp.freed.countP _
    omega
  · rw [hq] at hs
    exact hperm.mem_iff.mpr (List.mem_append_right _ hs)

/-! ### Queued groups -/

/-- **The search for a group's other segments ends without the group.**  The segments of a group
after its first `k`, and no others, look like they are of it, and its recovery segment does not wait
to be resent. -/
theorem curCollect_eq {rest : List Seg} (hused : fty.Used)
    (hgrp : (segsOf g rest).map Seg.tag = ((List.range fty.total).drop k).map (memberTag g fty))
    (hk : 0 < k) (hfid : ∀ s ∈ rest, s.fid = g % 2 ^ FID_NBITS → s.grp = g)
    (hwrn : ∀ s ∈ rest, s.recovery_data = true → s.wrn = 0) :
    Kcp.curCollect nacks fty (g % 2 ^ FID_NBITS) k rest = .error 1 ∨
      Kcp.curCollect nacks fty (g % 2 ^ FID_NBITS) k rest = .error 2 := by
  induction rest generalizing k with
  | nil => exact .inr rfl
  | cons seg rest ih =>
    have hfid' := fun s hs => hfid s (List.mem_cons_of_mem seg hs)
    have hwrn' := fun s hs => hwrn s (List.mem_cons_of_mem seg hs)
    rw [Kcp.curCollect]
    by_cases hseg : seg.grp = g
    · rw [segsOf_cons_self hseg] at hgrp
      have hlt : k < fty.total := by
        by_contra hge
        rw [List.drop_eq_nil_of_le (by rw [List.length_range]; exact not_lt.mp hge)] at hgrp
        cases hgrp
      rw [List.drop_eq_getElem_cons (by rw [List.length_range]; exact hlt), List.getElem_range,
        List.map_cons, List.map_cons] at hgrp
      obtain ⟨htag, hgrp⟩ := List.cons.inj hgrp
      have htagfid : seg.fid = g % 2 ^ FID_NBITS := congrArg Tag.fid htag
      have hfty : seg.fty = fty := congrArg Tag.fty htag
      have hgid : seg.gid = k := congrArg Tag.gid htag
      have hrec : seg.recovery_data = decide (fty.counts.original_count ≤ k) :=
        congrArg Tag.recovery_data htag
      have hgend : seg.gid_end = decide (k + 1 = fty.total) := congrArg Tag.gid_end htag
      rw [if_pos htagfid, if_neg (not_not.mpr hfty)]
      split_ifs with hwait hgid' hgend'
      · exact .inl rfl
      · exact absurd hgid hgid'
      · -- the last segment of a group is the recovery segment, unless it is the only one
        refine absurd (.inl (hwrn seg List.mem_cons_self ?_)) hwait
        rw [hgend, decide_eq_true_iff] at hgend'
        rw [hrec, decide_eq_true_iff]
        rcases hused with rfl | rfl <;>
          simp only [FecType.total, FecType.counts] at hgend' hlt ⊢ <;>
          omega
      · rcases ih hgrp (Nat.succ_pos k) hfid' hwrn' with h | h
        · rw [h]
          exact .inl rfl
        · rw [h]
          exact .inr rfl
    · rw [segsOf_cons_of_ne hseg] at hgrp
      rw [if_neg fun h => hseg (hfid seg List.mem_cons_self h)]
      rcases ih hgrp hk hfid' hwrn' with h | h
      · rw [h]
        exact .inl rfl
      · rw [h]
        exact .inr rfl

/-- **The loop over `snd_cur` changes nothing** if no group is found. -/
theorem curScan_eq {pre rest : List Seg} {first : Bool} (n : ℕ)
    (h : ∀ A s B, pre ++ rest = A ++ s :: B → s.gid = 0 →
      Kcp.curCollect nacks s.fty s.fid 1 B = .error 1 ∨
        Kcp.curCollect nacks s.fty s.fid 1 B = .error 2) :
    Kcp.curScan nacks n kcp first pre rest = ({ kcp with snd_cur := pre ++ rest }, 0) := by
  induction n generalizing pre rest first with
  | zero => rw [Kcp.curScan]
  | succ n ih =>
    rcases rest with _ | ⟨seg, rest⟩
    · rw [Kcp.curScan, List.append_nil]
    · have hskip : Kcp.curScan nacks n kcp false (pre ++ [seg]) rest =
          ({ kcp with snd_cur := pre ++ seg :: rest }, 0) := by
        have happ : pre ++ seg :: rest = pre ++ [seg] ++ rest := List.append_cons _ _ _
        rw [happ]
        exact ih (happ ▸ h)
      rw [Kcp.curScan]
      by_cases hif : seg.wrn ≠ 0 ∧ seg.gid = 0 ∧ checkNack seg.pid nacks = false
      · rw [if_pos hif, Kcp.handleSendCurNack]
        rcases h pre seg rest rfl hif.2.1 with he | he
        · rw [he]
          exact hskip
        · rw [he]
          exact hskip
      · rw [if_neg hif]
        exact hskip

end RemotePlay.Arq
