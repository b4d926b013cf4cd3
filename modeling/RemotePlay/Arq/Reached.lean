import RemotePlay.Arq.Sender

/-! # What holds of every state of the sender

Every live segment is in one list and every packet on its way in a complete group, so no answer
finds the lists inconsistent; the pools never run out, and no buffer is freed twice or lost; the
packets of a group keep their order and their distance; the rates that are set stay within their
bounds. -/

namespace RemotePlay.Arq

open Lib.Threads (Reachable)

variable {kcp kcp' : Kcp} {held : List Holding} {nacks : List Nack} {seg : Seg} {s s' : Sender}

/-! ### Runs of events -/

namespace Sender

/-- A session that has just been created. -/
def created (cid qos : ℕ) (sndwnd curwnd : ℤ) : Sender where
  kcp := ((Kcp.create cid qos).wndsize sndwnd curwnd).1
  pc := .idle
  transmitted := []

/-- Events one after another. -/
def run (es : List Event) (s : Sender) : Option Sender := es.foldlM Sender.step s

theorem start_created (cid qos : ℕ) (sndwnd curwnd : ℤ) : Start (created cid qos sndwnd curwnd) :=
  ⟨cid, qos, sndwnd, curwnd, rfl⟩

theorem reachable_run {es : List Event} {s st : Sender} (h : Reachable Start Step s)
    (hrun : s.run es = some st) : Reachable Start Step st :=
  h.foldlM (fun _ e _ he => ⟨e, he⟩) hrun

end Sender

/-- Factors that change nothing. -/
def Factors.one : Factors := ⟨1, 1, zero_le_one, zero_le_one, le_rfl⟩

/-- Factors that halve the rate when it is lowered. -/
def Factors.half : Factors := ⟨1, 1 / 2, zero_le_one, by norm_num, by norm_num⟩

/-- A buffer is queued, a session established, and the buffer's packet handed to `rp_udp_output`. -/
def sending : List Event := [.queue 7 ARQ_DATA_SIZE, .input [12, 0] 0 .one, .ready, .send]

/-- Two audio buffers and fifteen others are queued and sent one after another.  While the last one
is on its way, an answer reports both audio buffers missing, and the rate is lowered. -/
def reported : List Event :=
  .input [12, 0] 0 .one :: List.replicate 2 (.queue 7 (ARQ_DATA_SIZE + 2 ^ 29)) ++
    List.replicate 15 (.queue 8 ARQ_DATA_SIZE) ++
    (List.range 16).flatMap (fun tick => [.ready, .send, .output tick]) ++
    [.ready, .send, .input [0xf0, 0x00, 1, 0, 0, 1] 20 .half, .output 21]

/-- The audio buffers are put into a group with a recovery packet.  The first packet is sent, and
while the second one is on its way an answer comes in. -/
def regrouped : List Event :=
  reported ++ [.ready, .send, .output 22, .send, .input [0x00, 0x01, 0x10, 1] 23 .one]

/-- The packet of `snd_cur` that is being sent. -/
def SendPc.packet : SendPc → Option Seg
  | .idle | .init _ => none
  | .cur seg => some seg

theorem exists_reported : ∃ s kcp', (Sender.created 0 800 453 46).run reported = some s ∧
    s.kcp.queueSendCur = (kcp', 0) ∧
    ofGroup 17 (kcp'.snd_cur.map Seg.tag) = groupTags 17 .t2_3 := by
  have h : ((Sender.created 0 800 453 46).run reported).map (fun s => (s.kcp.queueSendCur.2,
      ofGroup 17 (s.kcp.queueSendCur.1.snd_cur.map Seg.tag))) = some (0, groupTags 17 .t2_3) := by
    decide +kernel
  obtain ⟨s, hs, heq⟩ := Option.map_eq_some_iff.mp h
  obtain ⟨hret, htags⟩ := Prod.mk.inj heq
  exact ⟨s, s.kcp.queueSendCur.1, hs, Prod.ext rfl hret, htags⟩

theorem exists_regrouped : ∃ s seg, (Sender.created 0 800 453 46).run regrouped = some s ∧
    s.pc = .cur seg ∧ s.kcp.rp_output_retry = false ∧ s.kcp.rates = [400] ∧
    s.kcp.snd_wak.map Seg.tag = [memberTag 17 .t2_3 0] ∧
    s.kcp.snd_cur.map Seg.tag = [memberTag 17 .t2_3 1, memberTag 17 .t2_3 2] := by
  have h : ((Sender.created 0 800 453 46).run regrouped).map (fun s => (s.kcp.rp_output_retry,
      s.kcp.rates, s.kcp.snd_wak.map Seg.tag, s.kcp.snd_cur.map Seg.tag,
      s.pc.packet.map Seg.tag)) =
        some (false, [400], [memberTag 17 .t2_3 0], [memberTag 17 .t2_3 1, memberTag 17 .t2_3 2],
          some (memberTag 17 .t2_3 1)) := by
    decide +kernel
  obtain ⟨s, hs, heq⟩ := Option.map_eq_some_iff.mp h
  simp only [Prod.mk.injEq] at heq
  obtain ⟨hretry, hrates, hwak, hcur, hpacket⟩ := heq
  rcases hpc : s.pc with _ | seg | seg
  · rw [hpc] at hpacket
    cases hpacket
  · rw [hpc] at hpacket
    cases hpacket
  · exact ⟨s, seg, hs, hpc, hretry, hrates, hwak, hcur⟩

theorem reachable_created {es : List Event} (h : (Sender.created 0 800 453 46).run es = some s) :
    Reachable Sender.Start Sender.Step s :=
  Sender.reachable_run (.start (Sender.start_created 0 800 453 46)) h

/-! ### Lists and groups -/

/-- A datagram is answered without an error, or with an error of its format that changes nothing. -/
theorem Inv.input_cases (hi : Inv kcp held) (data : List UInt8) (tick : ℕ) (f : Factors) :
    ∃ kcp' ret, kcp.input data tick f = some (kcp', ret) ∧
      (ret = 0 ∨ kcp' = kcp ∧ (ret = -1 ∨ ret = -2 ∨ ret = -4 ∨ ret = -5)) := by
  obtain ⟨kcp', ret, heq, -, hcases⟩ := hi.input data tick f
  refine ⟨kcp', ret, heq, ?_⟩
  rcases hcases with ⟨hign, -⟩ | ⟨hret, -⟩
  · rcases hign.ret_eq with hret | hret
    · exact .inl hret
    · rcases hign.eq with heq' | ⟨hret, -⟩
      · exact .inr ⟨heq', hret⟩
      · exact .inl hret
  · exact .inl hret

/-- **Every segment there has been is live in one list, held by the first packet, or freed, once;
the originals are counted and no more than the window has; the packets on their way are an
interleaving of complete groups; and any datagram is answered without an error, or with an error of
its format that changes nothing.** -/
theorem Sender.structure_kept (h : Reachable Sender.Start Sender.Step s) :
    (s.kcp.live.map Seg.id ++ (s.pc.holds.map Holding.id ++ s.kcp.freed.map Seg.id)).Perm
        (List.range s.kcp.next_id) ∧
      s.kcp.n_snd = s.kcp.live.countP (fun x => !x.recovery_data) ∧ s.kcp.n_snd ≤ s.kcp.n_snd_max ∧
      Groups s.kcp.next_grp ((s.kcp.snd_wak ++ s.kcp.snd_cur).map Seg.tag) ∧
      ∀ data tick f, ∃ kcp' ret, s.kcp.input data tick f = some (kcp', ret) ∧
        (ret = 0 ∨ kcp' = s.kcp ∧ (ret = -1 ∨ ret = -2 ∨ ret = -4 ∨ ret = -5)) := by
  have hi := (Sender.ok_reachable h).inv
  refine ⟨?_, hi.n_snd_eq, hi.n_snd_le, hi.groups, hi.input_cases⟩
  have hids := hi.acct.ids
  rwa [List.map_map] at hids

theorem Sender.structure_kept_regrouped : ∃ s seg,
    (Sender.created 0 800 453 46).run regrouped = some s ∧ s.pc = .cur seg ∧
    s.kcp.snd_cur.map Seg.tag = [memberTag 17 .t2_3 1, memberTag 17 .t2_3 2] ∧
    (s.kcp.live.map Seg.id ++ s.kcp.freed.map Seg.id).Perm (List.range s.kcp.next_id) ∧
    s.kcp.n_snd = s.kcp.live.countP (fun x => !x.recovery_data) ∧
    Groups s.kcp.next_grp ((s.kcp.snd_wak ++ s.kcp.snd_cur).map Seg.tag) ∧
    ∀ data tick f, ∃ kcp' ret, s.kcp.input data tick f = some (kcp', ret) ∧
      (ret = 0 ∨ kcp' = s.kcp ∧ (ret = -1 ∨ ret = -2 ∨ ret = -4 ∨ ret = -5)) := by
  obtain ⟨s, seg, hs, hpc, -, -, -, hcur⟩ := exists_regrouped
  obtain ⟨hids, hn, -, hgroups, hinput⟩ := Sender.structure_kept (reachable_created hs)
  rw [hpc] at hids
  exact ⟨s, seg, hs, hpc, hcur, hids, hn, hgroups, hinput⟩

/-! ### Pools and buffers -/

theorem Inv.owns_eq (hi : Inv kcp held) :
    (kcp.live.map Seg.holding).filter Holding.owns =
      (kcp.snd_cur.filter fun x => x.recovery_data).map Seg.holding := by
  have hq : (kcp.queued.map Seg.holding).filter Holding.owns = [] := by
    refine List.filter_eq_nil_iff.mpr fun x hx => ?_
    obtain ⟨y, hy, rfl⟩ := List.mem_map.mp hx
    rw [Holding.original_owns _ (hi.plain y hy).1]
    exact Bool.false_ne_true
  have hw : (kcp.snd_wak.map Seg.holding).filter Holding.owns = [] := by
    refine List.filter_eq_nil_iff.mpr fun x hx => ?_
    obtain ⟨y, hy, rfl⟩ := List.mem_map.mp hx
    rw [Holding.owns, Bool.and_eq_true]
    rintro ⟨hr, hweak⟩
    rw [show y.holding.weak_data = true from hi.spent y hy hr] at hweak
    cases hweak
  rw [Kcp.live, List.map_append, List.map_append, List.filter_append, List.filter_append, hq, hw,
    List.nil_append, List.nil_append, List.filter_map]
  refine congrArg _ (List.filter_congr fun y hy => ?_)
  rw [Function.comp_apply, Holding.owns, show y.holding.weak_data = false from hi.unspent y hy]
  exact Bool.and_true _

theorem Inv.spent_eq (hi : Inv kcp held) :
    (kcp.live.map Seg.holding).filter Holding.spent =
      (kcp.snd_wak.filter fun x => x.recovery_data).map Seg.holding := by
  have hq : (kcp.queued.map Seg.holding).filter Holding.spent = [] := by
    refine List.filter_eq_nil_iff.mpr fun x hx => ?_
    obtain ⟨y, hy, rfl⟩ := List.mem_map.mp hx
    rw [Holding.original_spent _ (hi.plain y hy).1]
    exact Bool.false_ne_true
  have hc : (kcp.snd_cur.map Seg.holding).filter Holding.spent = [] := by
    refine List.filter_eq_nil_iff.mpr fun x hx => ?_
    obtain ⟨y, hy, rfl⟩ := List.mem_map.mp hx
    rw [Holding.spent, show y.holding.weak_data = false from hi.unspent y hy, Bool.and_false]
    exact Bool.false_ne_true
  rw [Kcp.live, List.map_append, List.map_append, List.filter_append, List.filter_append, hq, hc,
    List.nil_append, List.append_nil, List.filter_map]
  refine congrArg _ (List.filter_congr fun y hy => ?_)
  rw [Function.comp_apply, Holding.spent, show y.holding.recovery_data = y.recovery_data from rfl]
  rcases hr : y.recovery_data with _ | _
  · rfl
  · exact hi.spent y hy hr

theorem Inv.two_mul_recovery_live_le (hi : Inv kcp held) :
    2 * kcp.live.countP (fun x => x.recovery_data) ≤ kcp.live.countP fun x => !x.recovery_data := by
  have h := hi.two_mul_recovery_le
  have hq : kcp.queued.countP (fun x => x.recovery_data) = 0 :=
    List.countP_eq_zero.mpr fun x hx => by
      rw [(hi.plain x hx).1]
      exact Bool.false_ne_true
  have hlive : ∀ p, kcp.live.countP p =
      kcp.queued.countP p + (kcp.snd_wak ++ kcp.snd_cur).countP p := fun p => List.countP_append
  rw [hlive, hlive, hq]
  omega

theorem Inv.map_data_buf (hi : Inv kcp held) :
    ((kcp.snd_cur.filter fun x => x.recovery_data).map Seg.data_buf) =
      (kcp.snd_cur.filter fun x => x.recovery_data).map Seg.id := by
  refine List.map_congr_left fun x hx => ?_
  obtain ⟨hcur, hrec⟩ := List.mem_filter.mp hx
  have hok := hi.ok_of_mem (List.mem_append_right _ (List.mem_append_right _ hcur))
  simp only [Holding.Ok, Seg.holding, hrec, if_true] at hok
  exact hok.2

/-- **The pools never run out and each buffer is freed once.**  At most a third of the live segments
are recovery segments; the blocks in use are those of the recovery segments not sent yet, and of the
first packet while it is sent; no allocation fails; and the buffers freed are those of the segments
freed and the blocks of the recovery segments sent. -/
theorem Sender.resources_kept (h : Reachable Sender.Start Sender.Step s) :
    2 * s.kcp.live.countP (fun x => x.recovery_data) ≤
        s.kcp.live.countP (fun x => !x.recovery_data) ∧
      (s.kcp.cur_bufs.Nodup ∧ s.kcp.cur_bufs.Perm
        ((s.kcp.snd_cur.filter fun x => x.recovery_data).map Seg.data_buf ++
          s.pc.holds.map Holding.data_buf)) ∧
      (s.pc = .idle → (∀ buffer len, (s.kcp.queue buffer len).2 ≠ -3) ∧ 0 ≤ s.kcp.queueSendCur.2 ∧
        s.kcp.seg_used ≠ ARQ_SEG_MEM_COUNT ∧
        (s.kcp.session_established = false → s.kcp.cur_bufs.length ≠ SEND_CUR_BUFS_COUNT)) ∧
      s.kcp.freed_bufs.Nodup ∧ s.kcp.freed_bufs.Perm
        ((s.kcp.snd_wak.filter fun x => x.recovery_data).map Seg.id ++ s.kcp.freed.map Seg.id) := by
  have hok := Sender.ok_reachable h
  have hi := hok.inv
  have hids := hi.acct.ids.nodup_iff.mpr List.nodup_range
  have hcur := hi.acct.cur_bufs
  have hfreed := hi.acct.freed_bufs
  rw [hi.owns_eq, List.map_map] at hcur
  rw [hi.spent_eq, List.map_map] at hfreed
  have hbufs : s.pc.holds.map Holding.data_buf = s.pc.holds.map Holding.id := by
    rcases hpc : s.pc with _ | seg | seg
    · rfl
    · exact congrArg (fun b => [b]) (hok.init seg hpc).2.2.2.2
    · rfl
  rw [List.map_map] at hids
  refine ⟨hi.two_mul_recovery_live_le, ⟨?_, ?_⟩,
    fun hpc => ⟨fun buffer len => ?_, ?_, ?_, fun hest => ?_⟩, ?_, hfreed⟩
  · refine hcur.nodup_iff.mpr (hids.sublist ?_)
    refine List.Sublist.append (List.Sublist.map _ ?_) (List.sublist_append_left _ _)
    exact List.filter_sublist.trans
      ((List.sublist_append_right _ _).trans (List.sublist_append_right _ _))
  · rw [hi.map_data_buf, hbufs]
    exact hcur
  · have hidle := hok.inv_idle hpc
    rcases hidle.queue_spec buffer len with ⟨ret, heq, rfl | rfl⟩ | ⟨kcp', seg, heq, -⟩
    · rw [heq]
      exact show (-2 : ℤ) ≠ -3 by decide
    · rw [heq]
      exact show (-4 : ℤ) ≠ -3 by decide
    · rw [heq]
      exact show (0 : ℤ) ≠ -3 by decide
  · rcases hi.queueSendCur s.pc.length_holds_le with ⟨-, heq⟩ | ⟨kcp', _, _, _, heq, -⟩
    · rw [heq]
      exact Int.one_nonneg
    · rw [heq]
  · exact (hi.seg_used_lt s.pc.length_holds_le).ne
  · have hnil := (hi.not_established hest).2
    rw [hcur.length_eq, hnil, hpc]
    decide
  · refine hfreed.nodup_iff.mpr (hids.sublist ?_)
    refine List.Sublist.append (List.Sublist.map _ ?_) (List.sublist_append_right _ _)
    exact List.filter_sublist.trans
      ((List.sublist_append_left _ _).trans (List.sublist_append_right _ _))

theorem Sender.resources_kept_regrouped : ∃ s seg,
    (Sender.created 0 800 453 46).run regrouped = some s ∧ s.pc = .cur seg ∧
    s.kcp.snd_cur.map Seg.tag = [memberTag 17 .t2_3 1, memberTag 17 .t2_3 2] ∧
    2 * s.kcp.live.countP (fun x => x.recovery_data) ≤
      s.kcp.live.countP (fun x => !x.recovery_data) ∧
    s.kcp.cur_bufs.Perm ((s.kcp.snd_cur.filter fun x => x.recovery_data).map Seg.data_buf) ∧
    s.kcp.freed_bufs.Nodup := by
  obtain ⟨s, seg, hs, hpc, -, -, -, hcur⟩ := exists_regrouped
  obtain ⟨htwo, ⟨-, hbufs⟩, -, hfreed, -⟩ := Sender.resources_kept (reachable_created hs)
  rw [hpc, show (SendPc.cur seg).holds = [] from rfl, List.map_nil, List.append_nil] at hbufs
  exact ⟨s, seg, hs, hpc, hcur, htwo, hbufs, hfreed⟩

/-! ### The order of a group's packets -/

theorem ofGroup_placed (g : ℕ) (cur : List Seg) :
    ((placed cur).filter fun x => x.1.grp = g).map (fun x => x.1.tag) =
      ofGroup g (cur.map Seg.tag) := by
  rw [← placed_map Seg.tag (fun _ _ => rfl), ofGroup, List.filter_map]
  rfl

/-- **A new group's packets are spread out in their order.**  Putting a group together takes the
first segments of the queues, in the order of their priority, and leaves a packet in the first slot;
the group's packets get slots at least the interval of its type apart, and the other packets keep
theirs. And the packets of any group are on their way in their order, in every state. -/
theorem Sender.groups_in_order (h : Reachable Sender.Start Sender.Step s) :
    (∀ kcp', s.kcp.queueSendCur = (kcp', 0) → ∃ fty taken new, fty.Used ∧
        taken.length = fty.counts.original_count ∧ s.kcp.queued = taken ++ kcp'.queued ∧
        (∀ i, kcp'.rsnd_lsts i <:+ s.kcp.rsnd_lsts i) ∧ kcp'.snd_lst <:+ s.kcp.snd_lst ∧
        kcp'.sendCurGetDelay = 0 ∧
        ∃ group others, group = ((placed kcp'.snd_cur).filter fun x => x.1.grp = s.kcp.next_grp) ∧
          others = ((placed kcp'.snd_cur).filter fun x => x.1.grp ≠ s.kcp.next_grp) ∧
          group.map (fun x => x.1.tag) = groupTags s.kcp.next_grp fty ∧
          group.map (fun x => x.1.id) = taken.map Seg.id ++ new ∧
          (group.map fun x => x.2).Pairwise
            (fun a b => a < b ∧ a + s.kcp.fec_send_intervals fty ≤ b) ∧
          others = placed s.kcp.snd_cur) ∧
      ∀ g, ofGroup g ((s.kcp.snd_wak ++ s.kcp.snd_cur).map Seg.tag) = [] ∨
      ∃ fty : FecType, fty.Used ∧
        ofGroup g ((s.kcp.snd_wak ++ s.kcp.snd_cur).map Seg.tag) = groupTags g fty := by
  have hi := (Sender.ok_reachable h).inv
  refine ⟨fun kcp' hret => ?_, hi.groups.complete⟩
  rcases hi.queueSendCur s.pc.length_holds_le with ⟨-, heq⟩ | ⟨kcp₁, fty, taken, new, heq, hnew⟩
  · cases (Prod.mk.inj (hret.symm.trans heq)).2
  obtain ⟨rfl, -⟩ := Prod.mk.inj (hret.symm.trans heq)
  have hlen := hnew.length_ids
  have hne := hnew.ids_ne_nil
  obtain ⟨acc, hb⟩ := hnew.building
  have hforming := hb.forming.forming
  rw [hlen] at hforming
  refine ⟨fty, taken, new, hnew.used, hnew.length_taken, hnew.queued, hnew.rsnd, hnew.snd, ?_, _, _,
    rfl, rfl, (ofGroup_placed _ _).trans hforming, hb.slots.members, ?_, hb.slots.others⟩
  · obtain ⟨x, hx, hx0⟩ := hb.slots.zero hne
    unfold Kcp.sendCurGetDelay
    rcases hcur : kcp'.snd_cur with _ | ⟨seg, rest⟩
    · rw [hcur] at hx
      cases hx
    · rw [hcur] at hx
      dsimp only
      rw [wsn_eq_zero_of_placed hx hx0]
      rfl
  · have hlt : (placed kcp'.snd_cur).Pairwise fun x y => x.2 < y.2 := pairwise_placedFrom 0 _
    have hlt' := (hlt.sublist (List.filter_sublist (p := fun x => x.1.grp = s.kcp.next_grp)))
    exact (List.pairwise_map.mpr hlt').and hb.slots.spaced

theorem Sender.groups_in_order_reported : ∃ s kcp' fty,
    (Sender.created 0 800 453 46).run reported = some s ∧ s.kcp.queueSendCur = (kcp', 0) ∧
    ofGroup 17 (kcp'.snd_cur.map Seg.tag) = groupTags 17 .t2_3 ∧
    (((placed kcp'.snd_cur).filter fun x => x.1.grp = s.kcp.next_grp).map fun x => x.2).Pairwise
      (fun a b => a < b ∧ a + s.kcp.fec_send_intervals fty ≤ b) ∧
    ∀ g, ofGroup g ((s.kcp.snd_wak ++ s.kcp.snd_cur).map Seg.tag) = [] ∨ ∃ fty : FecType, fty.Used ∧
      ofGroup g ((s.kcp.snd_wak ++ s.kcp.snd_cur).map Seg.tag) = groupTags g fty := by
  obtain ⟨s, kcp', hs, hqueue, htags⟩ := exists_reported
  obtain ⟨hnew, hgroups⟩ := Sender.groups_in_order (reachable_created hs)
  obtain ⟨fty, _, _, -, -, -, -, -, -, _, _, rfl, -, -, -, hspaced, -⟩ := hnew kcp' hqueue
  exact ⟨s, kcp', fty, hs, hqueue, htags, hspaced, hgroups⟩

/-! ### Rates -/

theorem Congc.dec_le {c c' : Congc} {qos_max qos q : ℕ} {f : Factors} (hq : Congc.Rate qos_max qos)
    (h : c.dec qos_max qos f = some (c', some q)) : q ≤ qos := by
  unfold Congc.dec checkedDiv at h
  split_ifs at h with h0
  · cases h
  · simp only [Option.bind_eq_bind, Option.bind_some, Option.some.injEq, Prod.mk.injEq] at h
    rw [← h.2]
    exact max_le ((min_le_left _ _).trans (toU32_mul_le qos f.qos_dec_f_le)) hq.1

theorem Congc.le_inc {c c' : Congc} {qos_max qos q : ℕ} {f : Factors}
    (h : c.inc qos_max qos f = some (c', some q)) : qos ≤ q := by
  unfold Congc.inc checkedDiv at h
  split_ifs at h with h0
  · cases h
  · simp only [Option.bind_eq_bind, Option.bind_some, Option.some.injEq, Prod.mk.injEq] at h
    obtain ⟨-, hset⟩ := h
    split_ifs at hset with hlt
    obtain rfl := Option.some.inj hset
    exact hlt.le

/-- **The rates set stay between a quarter of the greatest one and the greatest one.**  No answer
divides by zero, lowering does not raise the rate nor raising lower it, and no count has wrapped
around. -/
theorem Sender.rates_bounded (h : Reachable Sender.Start Sender.Step s) :
    (∀ q ∈ s.kcp.rates, s.kcp.rp_max_qos / 4 ≤ q ∧ q ≤ s.kcp.rp_max_qos) ∧
      (s.kcp.rp_max_qos / 4 ≤ s.kcp.rp_current_qos ∧ s.kcp.rp_current_qos ≤ s.kcp.rp_max_qos) ∧
      s.kcp.congc.wrapped = false ∧ (∀ data tick f, s.kcp.input data tick f ≠ none) ∧
      ∀ (c c' : Congc) f q,
        (c.dec s.kcp.rp_max_qos s.kcp.rp_current_qos f = some (c', some q) →
          q ≤ s.kcp.rp_current_qos) ∧
        (c.inc s.kcp.rp_max_qos s.kcp.rp_current_qos f = some (c', some q) →
          s.kcp.rp_current_qos ≤ q) := by
  have hi := (Sender.ok_reachable h).inv
  refine ⟨hi.rates, hi.rate, hi.congc.wrapped, fun data tick f => ?_, fun c c' f q =>
    ⟨Congc.dec_le hi.rate, Congc.le_inc⟩⟩
  obtain ⟨kcp', ret, heq, -⟩ := hi.input data tick f
  rw [heq]
  exact Option.some_ne_none _

theorem Sender.rates_bounded_regrouped : ∃ s, (Sender.created 0 800 453 46).run regrouped = some s ∧
    s.kcp.rates = [400] ∧ s.kcp.rp_max_qos / 4 ≤ 400 ∧ 400 ≤ s.kcp.rp_max_qos ∧
    s.kcp.congc.wrapped = false ∧ ∀ data tick f, s.kcp.input data tick f ≠ none := by
  obtain ⟨s, seg, hs, -, -, hrates, -⟩ := exists_regrouped
  obtain ⟨hrate, -, hwrapped, hinput, -⟩ := Sender.rates_bounded (reachable_created hs)
  obtain ⟨hmin, hmax⟩ := hrate 400 (hrates ▸ List.mem_singleton_self 400)
  exact ⟨s, hs, hrates, hmin, hmax, hwrapped, hinput⟩

/-! ### While a packet is output -/

section

variable (kcp : Kcp) (gone : List Seg)

theorem Kcp.curFree_retry (seg : Seg) :
    (kcp.curFree seg).rp_output_retry = kcp.rp_output_retry := by
  unfold Kcp.curFree
  split_ifs
  · obtain ⟨b, f, heq⟩ := kcp.segFree_eq seg
    rw [heq]
  · obtain ⟨b, f, heq⟩ := kcp.ackFree_eq seg
    rw [heq]

theorem Kcp.foldl_curFree_retry :
    (gone.foldl Kcp.curFree kcp).rp_output_retry = kcp.rp_output_retry := by
  induction gone generalizing kcp with
  | nil => rfl
  | cons seg gone ih => rw [List.foldl_cons, ih, kcp.curFree_retry]

end

theorem Kcp.handleSendCurNack_retry (nacks : List Nack) (kcp : Kcp) (seg : Seg) (rest : List Seg) :
    (kcp.handleSendCurNack nacks seg rest).1.rp_output_retry = kcp.rp_output_retry := by
  unfold Kcp.handleSendCurNack
  rcases Kcp.curCollect nacks seg.fty seg.fid 1 rest with ret | ⟨count, n⟩
  · rfl
  · dsimp only
    split_ifs
    · rfl
    · exact kcp.foldl_curFree_retry _

theorem Kcp.curScan_cons (nacks : List Nack) (n : ℕ) (kcp : Kcp) (first : Bool) (pre : List Seg)
    (seg : Seg) (rest : List Seg) : ∃ kcp₁ : Kcp, kcp₁.rp_output_retry = kcp.rp_output_retry ∧
      ((∃ rest' ret, Kcp.curScan nacks (n + 1) kcp first pre (seg :: rest) =
          ({ kcp₁ with snd_cur := pre ++ rest', rp_output_retry := true }, ret)) ∨
        (∃ rest', Kcp.curScan nacks (n + 1) kcp first pre (seg :: rest) =
          Kcp.curScan nacks n { kcp₁ with rp_output_retry := first || kcp₁.rp_output_retry }
            false pre rest') ∨
        Kcp.curScan nacks (n + 1) kcp first pre (seg :: rest) =
          Kcp.curScan nacks n kcp₁ false (pre ++ [seg]) rest) := by
  rw [Kcp.curScan]
  by_cases hseg : seg.wrn ≠ 0 ∧ seg.gid = 0 ∧ checkNack seg.pid nacks = false
  · rw [if_pos hseg]
    have hretry := kcp.handleSendCurNack_retry nacks seg rest
    rcases hh : kcp.handleSendCurNack nacks seg rest with ⟨kcp₁, rest', ret⟩
    rw [hh] at hretry
    refine ⟨kcp₁, hretry, ?_⟩
    dsimp only
    by_cases hneg : ret < 0
    · rw [if_pos hneg]
      exact .inl ⟨rest', _, rfl⟩
    · rw [if_neg hneg]
      by_cases hzero : ret = 0
      · rw [if_pos hzero]
        refine .inr (.inl ⟨rest', ?_⟩)
        rcases first with _ | _
        · rfl
        · rfl
      · rw [if_neg hzero]
        exact .inr (.inr rfl)
  · rw [if_neg hseg]
    exact ⟨kcp, rfl, .inr (.inr rfl)⟩

/-- The scan of `snd_cur` sets the flag if it fails, and never clears it. -/
theorem Kcp.curScan_retry (n : ℕ) (kcp : Kcp) (first : Bool) (pre rest : List Seg) :
    (kcp.rp_output_retry = true ∨ (Kcp.curScan nacks n kcp first pre rest).2 < 0) →
      (Kcp.curScan nacks n kcp first pre rest).1.rp_output_retry = true := by
  induction n generalizing kcp first pre rest with
  | zero => exact fun h => h.resolve_right (lt_irrefl 0)
  | succ n ih =>
    rcases rest with _ | ⟨seg, rest⟩
    · exact fun h => h.resolve_right (lt_irrefl 0)
    · obtain ⟨kcp₁, hretry, ⟨rest', ret, heq⟩ | ⟨rest', heq⟩ | heq⟩ :=
        Kcp.curScan_cons nacks n kcp first pre seg rest
      · rw [heq]
        exact fun _ => rfl
      · rw [heq]
        refine fun h => ih _ _ _ _ (h.imp_left fun h => ?_)
        rw [hretry, h, Bool.or_true]
      · rw [heq]
        exact fun h => ih _ _ _ _ (h.imp_left hretry.trans)

theorem Kcp.curScan_head (n : ℕ) (kcp : Kcp) (first : Bool) (head : Seg) (pre rest : List Seg) :
    (Kcp.curScan nacks n kcp first (head :: pre) rest).1.snd_cur.head? = some head := by
  induction n generalizing kcp first pre rest with
  | zero => rfl
  | succ n ih =>
    rcases rest with _ | ⟨seg, rest⟩
    · rfl
    · obtain ⟨kcp₁, -, ⟨rest', ret, heq⟩ | ⟨rest', heq⟩ | heq⟩ :=
        Kcp.curScan_cons nacks n kcp first (head :: pre) seg rest
      · rw [heq]
        rfl
      · rw [heq]
        exact ih _ _ _ _
      · rw [heq]
        exact ih _ _ _ _

/-- If the scan of `snd_cur` takes its head out, it sets the flag. -/
theorem Kcp.curScan_head_or_retry (n : ℕ) (kcp : Kcp) (seg : Seg) (rest : List Seg) :
    (Kcp.curScan nacks (n + 1) kcp true [] (seg :: rest)).1.snd_cur.head? = some seg ∨
      (Kcp.curScan nacks (n + 1) kcp true [] (seg :: rest)).1.rp_output_retry = true := by
  obtain ⟨kcp₁, -, ⟨rest', ret, heq⟩ | ⟨rest', heq⟩ | heq⟩ :=
    Kcp.curScan_cons nacks n kcp true [] seg rest
  · rw [heq]
    exact .inr rfl
  · rw [heq]
    exact .inr (Kcp.curScan_retry _ _ _ _ _ (.inl rfl))
  · rw [heq]
    exact .inl (Kcp.curScan_head _ _ _ _ _ _)

/-- **The packet that has been sent is the one that was handed to `rp_udp_output`.**  Whatever
answers came in meanwhile, it is still the head of `snd_cur`; without the flag it goes from there to
the end of `snd_wak`, and with the flag nothing is touched and the head is tried.  The scan of
`snd_cur` sets the flag if it fails or takes the head out, in whatever state.  An error of an
answer's format changes nothing. -/
theorem Sender.output_head (h : Reachable Sender.Start Sender.Step s) (hpc : s.pc = .cur seg)
    (tick : ℕ) :
    (∃ rest, s.kcp.snd_cur = seg :: rest ∧
        (s.kcp.rp_output_retry = false → ∃ x, x.tag = seg.tag ∧ x.id = seg.id ∧ x.pid = seg.pid ∧
          x.data_buf = seg.data_buf ∧ (s.output tick).kcp.snd_cur = rest ∧
          (s.output tick).kcp.snd_wak = s.kcp.snd_wak ++ [x] ∧
          (s.output tick).transmitted = s.transmitted ++ [seg])) ∧
      (s.kcp.rp_output_retry = true → s.output tick =
        { s with kcp := { s.kcp with rp_output_retry := false }, pc := .cur seg }) ∧
      (∀ (kcp : Kcp) nacks,
        ((Kcp.curScan nacks (kcp.snd_cur.length + 1) kcp true [] kcp.snd_cur).2 < 0 ∨
          (Kcp.curScan nacks (kcp.snd_cur.length + 1) kcp true [] kcp.snd_cur).1.snd_cur.head? ≠
            kcp.snd_cur.head?) →
        (Kcp.curScan nacks (kcp.snd_cur.length + 1) kcp true [] kcp.snd_cur).1.rp_output_retry =
          true) ∧
      ∀ data tick f, ∃ kcp' ret, s.kcp.input data tick f = some (kcp', ret) ∧
        (ret = 0 ∨ kcp' = s.kcp ∧ (ret = -1 ∨ ret = -2 ∨ ret = -4 ∨ ret = -5)) := by
  have hok := Sender.ok_reachable h
  have hi := hok.inv
  rw [hpc] at hi
  obtain ⟨hest, rest, hcur⟩ := hok.cur seg hpc
  refine ⟨⟨rest, hcur, fun hretry => ?_⟩, fun hretry => ?_, fun kcp nacks hscan => ?_,
    hi.input_cases⟩
  · obtain ⟨x, hx, -⟩ := hi.sendCur hcur hest tick
    have hout : s.output tick =
        { kcp := s.kcp.sendCur seg tick, pc := .idle, transmitted := s.transmitted ++ [seg] } := by
      unfold Sender.output
      rw [hpc]
      dsimp only
      rw [if_neg (by rw [hretry]; exact Bool.false_ne_true)]
    rw [hout]
    refine ⟨x, hx.tag, hx.id, hx.pid, hx.data_buf, ?_, ?_, rfl⟩
    all_goals
      obtain ⟨b, f, heq⟩ := hx.eq
      rw [heq]
  · unfold Sender.output Sender.attempt
    rw [hpc]
    dsimp only
    rw [if_pos hretry, hcur]
  · rcases hscan with hneg | hhead
    · exact Kcp.curScan_retry _ _ _ _ _ (.inr hneg)
    · rcases hlist : kcp.snd_cur with _ | ⟨head, rest⟩
      · rw [hlist] at hhead
        exact absurd rfl hhead
      · rw [hlist] at hhead
        exact (Kcp.curScan_head_or_retry _ kcp head rest).resolve_left hhead

theorem Sender.output_head_regrouped : ∃ s seg x,
    (Sender.created 0 800 453 46).run regrouped = some s ∧ s.pc = .cur seg ∧
    s.kcp.snd_wak.map Seg.tag = [memberTag 17 .t2_3 0] ∧
    s.kcp.snd_cur.map Seg.tag = [memberTag 17 .t2_3 1, memberTag 17 .t2_3 2] ∧
    s.kcp.snd_cur.head? = some seg ∧ x.tag = seg.tag ∧ x.data_buf = seg.data_buf ∧
    (s.output 24).kcp.snd_wak = s.kcp.snd_wak ++ [x] ∧
    (s.output 24).transmitted = s.transmitted ++ [seg] ∧
    ∃ kcp' ret, s.kcp.input [1, 0] 24 .one = some (kcp', ret) ∧
      (ret = 0 ∨ kcp' = s.kcp ∧ (ret = -1 ∨ ret = -2 ∨ ret = -4 ∨ ret = -5)) := by
  obtain ⟨s, seg, hs, hpc, hretry, -, hwak, hcur⟩ := exists_regrouped
  obtain ⟨⟨rest, hhead, hsent⟩, -, -, hinput⟩ :=
    Sender.output_head (reachable_created hs) hpc 24
  obtain ⟨x, htag, -, -, hbuf, -, hwak', htrans⟩ := hsent hretry
  exact ⟨s, seg, x, hs, hpc, hwak, hcur, congrArg List.head? hhead, htag, hbuf, hwak', htrans,
    hinput [1, 0] 24 .one⟩

/-- A datagram with the reset bit set is an error, and the flag is not set. -/
theorem Sender.error_without_retry : ∃ s seg kcp', Reachable Sender.Start Sender.Step s ∧
    s.pc = .cur seg ∧ s.kcp.input [1, 0] 5 .one = some (kcp', -2) ∧
      kcp'.rp_output_retry = false := by
  have hrun : ∃ s seg kcp', (Sender.created 0 800 453 46).run sending = some s ∧ s.pc = .cur seg ∧
      s.kcp.input [1, 0] 5 .one = some (kcp', -2) ∧ kcp'.rp_output_retry = false :=
    ⟨_, _, _, rfl, rfl, rfl, rfl⟩
  obtain ⟨s, seg, kcp', hs, hrest⟩ := hrun
  exact ⟨s, seg, kcp', reachable_created hs, hrest⟩

end RemotePlay.Arq
