import RemotePlay.Arq.QueueCur

/-! # Runs of the sender

Every step of the sender keeps the invariant of its control block: `ikcp_queue` adds an original,
`ikcp_queue_send_cur` a complete group, and sending a packet moves the head of `snd_cur` to the end
of `snd_wak`.  While `rp_udp_output` waits, the packet handed to it stays the head of `snd_cur`, or
is the session's first packet (`Sender.Ok`). -/

namespace RemotePlay.Arq

open Function (update)
open Lib.Threads (Reachable)

variable {kcp kcp' start : Kcp} {held : List Holding} {fty : FecType} {taken rest : List Seg}
  {new : List ℕ} {seg : Seg} {s s' : Sender}

/-! ### Starting -/

theorem inv_create (cid qos : ℕ) : Inv (Kcp.create cid qos) [] where
  acct := ⟨.rfl, rfl, rfl, .rfl, .rfl, by rintro _ ⟨⟩⟩
  groups := ⟨by rintro _ ⟨⟩, by rintro _ ⟨⟩, fun _ => .inl rfl, fun _ _ _ h => by
    cases h⟩
  fid := rfl
  plain := by rintro _ ⟨⟩
  sent := by rintro _ ⟨⟩
  spent := by rintro _ ⟨⟩
  unspent := by rintro _ ⟨⟩
  recovery_wrn := by rintro _ ⟨⟩
  recent := ⟨by rintro _ ⟨⟩, by rintro _ _ ⟨⟩⟩
  n_snd_le := Nat.zero_le _
  n_snd_max_le := le_rfl
  interval_le _ := Nat.zero_le _
  not_established _ := ⟨rfl, rfl⟩
  congc := ⟨show 0 + 0 < _ by decide, Nat.zero_le _, rfl⟩
  rate := ⟨Nat.div_le_self _ _, le_rfl⟩
  rates := by rintro _ ⟨⟩

theorem sendInterval_le {n : ℕ} (hn : n ≤ ARQ_CUR_BUFS_COUNT) (fty : FecType) :
    Kcp.sendInterval n fty ≤ ARQ_CUR_BUFS_COUNT := by
  have h46 : ARQ_CUR_BUFS_COUNT = 46 := by decide
  rw [h46] at hn ⊢
  unfold Kcp.sendInterval
  have h3 : 3 ≤ max fty.total 3 := le_max_right _ _
  refine Nat.div_le_of_le_mul ?_
  have hdiv : max fty.total 3 / 2 ≤ max fty.total 3 := Nat.div_le_self _ _
  generalize max fty.total 3 = m at *
  nlinarith

/-- **The windows may be set to anything.** -/
theorem inv_wndsize (cid qos : ℕ) (sndwnd curwnd : ℤ) :
    Inv ((Kcp.create cid qos).wndsize sndwnd curwnd).1 [] := by
  have hi := inv_create cid qos
  unfold Kcp.wndsize
  by_cases hsnd : sndwnd ≤ 0
  · rw [if_pos hsnd]
    exact hi
  · rw [if_neg hsnd]
    have hmax : Inv { Kcp.create cid qos with n_snd_max := min sndwnd.toNat ARQ_BUFS_COUNT } [] :=
      { hi with
        acct := hi.acct.congr rfl rfl rfl rfl rfl rfl
        n_snd_le := Nat.zero_le _
        n_snd_max_le := min_le_right _ _ }
    by_cases hcur : curwnd ≤ 0
    · simp only [if_pos hcur]
      exact hmax
    · simp only [if_neg hcur]
      exact
        { hmax with
          acct := hmax.acct.congr rfl rfl rfl rfl rfl rfl
          interval_le := sendInterval_le (min_le_right _ _) }

/-! ### Queueing -/

theorem Kcp.push_queued_perm (kcp : Kcp) {i : ℕ} (hi : i < RSND_COUNT) (seg : Seg) :
    { kcp with rsnd_lsts := update kcp.rsnd_lsts i (seg :: kcp.rsnd_lsts i) }.queued.Perm
      (seg :: kcp.queued) := by
  have h := kcp.queued_update_perm hi (seg :: kcp.rsnd_lsts i)
  refine (List.perm_append_left_iff (kcp.rsnd_lsts i)).mp (h.symm.trans ?_)
  refine List.perm_append_comm.trans ?_
  rw [List.perm_iff_count]
  intro a
  simp only [List.count_append, List.count_cons]
  omega

/-- **A buffer has been queued**, as a new original. -/
structure Queued (kcp kcp' : Kcp) (seg : Seg) : Prop where
  room : kcp.n_snd < kcp.n_snd_max
  id : seg.id = kcp.next_id
  pid : seg.pid = kcp.pid
  plain : seg.Plain
  sent : seg.sent = false
  perm : kcp'.queued.Perm (seg :: kcp.queued)
  eq : ∃ snd_lst rsnd_lsts, kcp' =
    { kcp with
      pid := (kcp.pid + 1) % 2 ^ PID_NBITS, n_snd := kcp.n_snd + 1, seg_used := kcp.seg_used + 1
      next_id := kcp.next_id + 1, snd_lst := snd_lst, rsnd_lsts := rsnd_lsts }
  acct : Acct kcp' (kcp'.live.map Seg.holding) []

theorem Inv.queue_spec (hi : Inv kcp []) (buffer len : ℕ) :
    (∃ ret, kcp.queue buffer len = (kcp, ret) ∧ (ret = -2 ∨ ret = -4)) ∨
      ∃ kcp' seg, kcp.queue buffer len = (kcp', 0) ∧ Queued kcp kcp' seg := by
  unfold Kcp.queue
  dsimp only
  by_cases hlen : len &&& (1 <<< 29 - 1) ≠ ARQ_DATA_SIZE
  · rw [if_pos hlen]
    exact .inl ⟨_, rfl, .inl rfl⟩
  by_cases hroom : kcp.n_snd_max ≤ kcp.n_snd
  · rw [if_neg hlen, if_pos hroom]
    exact .inl ⟨_, rfl, .inr rfl⟩
  rw [if_neg hlen, if_neg hroom, if_neg (hi.seg_used_lt (Nat.zero_le 1)).ne]
  refine .inr ?_
  set seg : Seg :=
    { data_buf := buffer, pid := kcp.pid, fid := 0, wsn := 0
      wrn := if len.testBit 29 = true then RSND_COUNT - 1 else 0
      fty := .t1_1, gid := 0, recovery_data := false, weak_data := false, is_kcp_seg_data := false
      is_term_seg_data := len.testBit 31, is_audio_seg_data := len.testBit 29
      term_notify := len.testBit 30, gid_end := false
      send_time := 0, id := kcp.next_id, grp := 0, sent := false } with hseg
  have hpid : kcp.pid + 1 &&& (1 <<< PID_NBITS - 1) = (kcp.pid + 1) % 2 ^ PID_NBITS := by
    rw [Nat.one_shiftLeft, Nat.and_two_pow_sub_one_eq_mod]
  rw [hpid]
  have hacct : ∀ {kcp' : Kcp}, kcp'.queued.Perm (seg :: kcp.queued) → (∃ snd_lst rsnd_lsts, kcp' =
      { kcp with
        pid := (kcp.pid + 1) % 2 ^ PID_NBITS, n_snd := kcp.n_snd + 1, seg_used := kcp.seg_used + 1
        next_id := kcp.next_id + 1, snd_lst := snd_lst, rsnd_lsts := rsnd_lsts }) →
      Acct kcp' (kcp'.live.map Seg.holding) [] := by
    rintro kcp' hperm ⟨l, r, heq⟩
    have halloc := hi.acct.alloc (x := seg.holding) rfl rfl ⟨rfl, rfl⟩
    have hlive : kcp'.live.Perm (seg :: kcp.live) := by
      have h := hperm.append_right (kcp.snd_wak ++ kcp.snd_cur)
      rw [heq] at h ⊢
      exact h
    refine (halloc.perm (hlive.map _)).congr ?_ ?_ ?_ ?_ ?_ ?_
    all_goals rw [heq]
  by_cases haudio : len.testBit 29 = true
  · rw [if_pos haudio]
    have hperm := kcp.push_queued_perm seg.queueIndex_lt seg
    exact ⟨_, seg, rfl, not_le.mp hroom, rfl, rfl, ⟨rfl, rfl⟩, rfl, hperm, ⟨_, _, rfl⟩,
      hacct hperm ⟨_, _, rfl⟩⟩
  · rw [if_neg haudio]
    have hperm : { kcp with snd_lst := kcp.snd_lst ++ [seg] }.queued.Perm (seg :: kcp.queued) := by
      rw [List.perm_iff_count]
      intro a
      simp only [Kcp.queued, List.count_append, List.count_cons, List.count_nil]
      omega
    exact ⟨_, seg, rfl, not_le.mp hroom, rfl, rfl, ⟨rfl, rfl⟩, rfl, hperm, ⟨_, _, rfl⟩,
      hacct hperm ⟨_, _, rfl⟩⟩

theorem Queued.inv (hi : Inv kcp []) (h : Queued kcp kcp' seg) : Inv kcp' [] := by
  obtain ⟨l, r, heq⟩ := h.eq
  have hroom := h.room
  have hplain : ∀ x ∈ kcp'.queued, x.Plain := by
    intro x hx
    rcases List.mem_cons.mp (h.perm.subset hx) with rfl | hx
    · exact h.plain
    · exact hi.plain x hx
  have hacct := h.acct
  subst heq
  exact { hi with acct := hacct, plain := hplain, n_snd_le := hroom }

/-! ### A new group -/

theorem placed_ne_zero (hdelay : kcp.sendCurGetDelay ≠ 0) : ∀ x ∈ placed kcp.snd_cur, x.2 ≠ 0 := by
  unfold Kcp.sendCurGetDelay at hdelay
  intro x hx hx0
  rcases hcur : kcp.snd_cur with _ | ⟨seg, rest⟩
  · rw [hcur] at hx
    cases hx
  · rw [hcur] at hx hdelay
    refine hdelay ?_
    show (seg.wsn : ℤ) = 0
    rw [wsn_eq_zero_of_placed hx hx0]
    rfl

namespace NewGroup

variable (h : NewGroup start held fty taken new kcp)

include h

theorem length_ids : (taken.map Seg.id ++ new).length = fty.total := by
  rw [List.length_append, List.length_map, h.length_taken, h.length_new]
  rfl

theorem total_pos : 0 < fty.total ∧ fty.total ≤ 3 := by
  rcases h.used with rfl | rfl
  · exact ⟨by decide, by decide⟩
  · exact ⟨by decide, by decide⟩

theorem ids_ne_nil : taken.map Seg.id ++ new ≠ [] := by
  have hlen := h.length_ids
  have hpos := h.total_pos
  intro hnil
  rw [hnil] at hlen
  exact absurd hpos.1 (hlen ▸ lt_irrefl _)

/-- **Groups stay recent**, since there are few segments and few slots between those of a group. -/
theorem recent (hi : Inv start held) (hdelay : start.sendCurGetDelay ≠ 0) :
    Recent (start.next_grp + 1) kcp.snd_cur := by
  obtain ⟨acc, hb⟩ := h.building
  have hslots := hb.slots
  have hlen := h.length_ids
  have htot := h.total_pos
  have hI := hi.interval_le fty
  have h46 : ARQ_CUR_BUFS_COUNT = 46 := by decide
  have hcur := hi.length_snd_cur_le
  have hacc := hslots.acc_le
  rw [h46] at hI
  rw [hlen] at hacc
  have h1 : fty.total * start.fec_send_intervals fty ≤ 3 * 46 := Nat.mul_le_mul htot.2 hI
  have h2 : fty.total * (start.snd_cur.length + fty.total) ≤ 3 * 683 :=
    Nat.mul_le_mul htot.2 (by omega)
  refine ⟨fun x hx => ?_, fun hne => ?_⟩
  · by_cases hg : x.1.grp = start.next_grp
    · have hle := hslots.le x hx hg
      rw [hlen] at hle
      simp only [FID_NBITS]
      omega
    · have hold : x ∈ placed start.snd_cur := by
        rw [← hslots.others]
        exact List.mem_filter.mpr ⟨hx, decide_eq_true hg⟩
      have := hi.recent.succ_lt (placed_ne_zero hdelay) x hold
      omega
  · obtain ⟨x, hx, hx0⟩ := hslots.zero h.ids_ne_nil
    exact absurd hx0 (hne x hx)

/-- **A new group keeps the invariant.** -/
theorem inv (hi : Inv start held) (hest : start.session_established = true)
    (hdelay : start.sendCurGetDelay ≠ 0) : Inv kcp held := by
  have hrecent := h.recent hi hdelay
  have hlen := h.length_ids
  have hused := h.used
  obtain ⟨acc, hb⟩ := h.building
  have hforming := hb.forming
  rw [hlen] at hforming
  have hgroups := hforming.groups hused
  rw [← List.map_append] at hgroups
  have hacct := hb.acct
  have hunspent := hb.unspent
  have hwrn := hb.recovery_wrn
  have hplain := hb.plain
  obtain ⟨l, r, c, u, b, n, heq⟩ := hb.eq
  have hfid : start.fid + 1 &&& (1 <<< FID_NBITS - 1) = (start.next_grp + 1) % 2 ^ FID_NBITS := by
    rw [Nat.one_shiftLeft, Nat.and_two_pow_sub_one_eq_mod, hi.fid, Nat.mod_add_mod]
  subst heq
  exact
    { hi with
      acct := hacct
      groups := hgroups
      fid := hfid
      plain := hplain
      unspent := hunspent
      recovery_wrn := hwrn
      recent := hrecent
      not_established := fun h => absurd (hest.symm.trans h) (by decide) }

end NewGroup

/-! ### Sending the head of `snd_cur` -/

/-- **A packet has been sent**: the head of `snd_cur` is now the last in `snd_wak`. -/
structure Sent (kcp kcp' : Kcp) (seg : Seg) (rest : List Seg) (x : Seg) : Prop where
  tag : x.tag = seg.tag
  id : x.id = seg.id
  pid : x.pid = seg.pid
  data_buf : x.data_buf = seg.data_buf
  is_kcp : x.is_kcp_seg_data = seg.is_kcp_seg_data
  sent : x.sent = true
  spent : x.weak_data = x.recovery_data
  eq : ∃ cur_bufs freed_bufs, kcp' =
    { kcp with
      snd_cur := rest, snd_wak := kcp.snd_wak ++ [x], cur_bufs := cur_bufs
      freed_bufs := freed_bufs }

theorem Inv.nodup (hi : Inv kcp held) : (kcp.live.map Seg.id).Nodup := by
  have h := hi.acct.nodup
  rwa [List.map_map] at h

theorem Inv.filter_snd_cur (hi : Inv kcp held) (hcur : kcp.snd_cur = seg :: rest) :
    (kcp.snd_cur.filter fun x => x.id ≠ seg.id) = rest := by
  have h := hi.nodup
  rw [Kcp.live, hcur, List.map_append, List.map_append] at h
  have hhead : seg.id ∉ rest.map Seg.id :=
    (List.nodup_cons.mp h.of_append_right.of_append_right).1
  rw [hcur, List.filter_cons_of_neg (by rw [decide_eq_true_iff, not_not])]
  refine List.filter_eq_self.mpr fun x hx => decide_eq_true fun heq => hhead ?_
  exact heq ▸ List.mem_map_of_mem hx

theorem Recent.tail {next : ℕ} (h : Recent next (seg :: rest)) : Recent next rest where
  lt x hx := by
    have hmem : (x.1, x.2 + (seg.wsn + 1)) ∈ placed (seg :: rest) := mem_placed_tail hx
    have hlt := h.lt _ hmem
    dsimp only at hlt
    omega
  succ_lt _ x hx := by
    have hmem : (x.1, x.2 + (seg.wsn + 1)) ∈ placed (seg :: rest) := mem_placed_tail hx
    have hlt := h.lt _ hmem
    dsimp only at hlt
    omega

theorem Inv.ok_of_mem (hi : Inv kcp held) {x : Seg} (hx : x ∈ kcp.live) : x.holding.Ok :=
  hi.acct.ok _ (List.mem_map_of_mem hx)

/-- **Sending the head.** -/
theorem Inv.sendCur (hi : Inv kcp held) (hcur : kcp.snd_cur = seg :: rest)
    (hest : kcp.session_established = true) (tick : ℕ) :
    ∃ sent, Sent kcp (kcp.sendCur seg tick) seg rest sent ∧ Inv (kcp.sendCur seg tick) held := by
  have hmem : seg ∈ kcp.snd_cur := hcur ▸ List.mem_cons_self
  have hweak := hi.unspent seg hmem
  have hok := hi.ok_of_mem (List.mem_append_right _ (List.mem_append_right _ hmem))
  have hfind : kcp.snd_cur.find? (fun x => x.id = seg.id) = some seg := by
    rw [hcur]
    exact List.find?_cons_of_pos (decide_eq_true rfl)
  have hlive : (seg :: (kcp.queued ++ (kcp.snd_wak ++ rest))).Perm kcp.live := by
    rw [Kcp.live, hcur, List.perm_iff_count]
    intro a
    simp only [List.count_append, List.count_cons]
    omega
  have hacct := hi.acct.perm (hlive.map Seg.holding)
  have hgroups := hi.groups
  rw [hcur] at hgroups
  have hsent : ∀ {sent : Seg} {kcp' : Kcp}, Sent kcp kcp' seg rest sent →
      Acct kcp' ((sent :: (kcp.queued ++ (kcp.snd_wak ++ rest))).map Seg.holding) held →
      Inv kcp' held := by
    rintro sent kcp' h hacct'
    have htags : ((kcp.snd_wak ++ [sent]) ++ rest).map Seg.tag =
        (kcp.snd_wak ++ seg :: rest).map Seg.tag := by
      rw [List.append_assoc, List.map_append, List.map_append, List.map_append]
      exact congrArg (fun t => kcp.snd_wak.map Seg.tag ++ t :: rest.map Seg.tag) h.tag
    have hperm : (kcp.queued ++ ((kcp.snd_wak ++ [sent]) ++ rest)).Perm
        (sent :: (kcp.queued ++ (kcp.snd_wak ++ rest))) := by
      rw [List.perm_iff_count]
      intro a
      simp only [List.count_append, List.count_cons, List.count_nil]
      omega
    have hwak : ∀ x ∈ kcp.snd_wak ++ [sent], x ∈ kcp.snd_wak ∨ x = sent := fun x hx =>
      (List.mem_append.mp hx).imp id List.mem_singleton.mp
    have htail : ∀ x ∈ rest, x ∈ kcp.snd_cur := fun x hx => hcur ▸ List.mem_cons_of_mem _ hx
    obtain ⟨b, f, heq⟩ := h.eq
    subst heq
    exact
      { hi with
        acct := hacct'.perm (hperm.map _)
        groups := htags ▸ hgroups
        sent := fun x hx => (hwak x hx).elim (hi.sent x) (by rintro rfl; exact h.sent)
        spent := fun x hx hr => (hwak x hx).elim (fun hx => hi.spent x hx hr)
          (by rintro rfl; exact h.spent.trans hr)
        unspent := fun x hx => hi.unspent x (htail x hx)
        recovery_wrn := fun x hx => hi.recovery_wrn x (htail x hx)
        recent := (hcur ▸ hi.recent : Recent kcp.next_grp (seg :: rest)).tail
        not_established := fun h => absurd (hest.symm.trans h) (by decide) }
  rcases hrec : seg.recovery_data with _ | _
  · have hdef : kcp.sendCur seg tick =
        { kcp with
          snd_cur := rest
          snd_wak := kcp.snd_wak ++
            [{ seg with send_time := tick % 2 ^ 32, term_notify := false, sent := true }] } := by
      unfold Kcp.sendCur
      simp only [hfind, Option.getD_some, hi.filter_snd_cur hcur, hrec, Bool.false_and,
        Bool.false_eq_true, if_false, Bool.or_false]
    have hs : Sent kcp (kcp.sendCur seg tick) seg rest
        { seg with send_time := tick % 2 ^ 32, term_notify := false, sent := true } :=
      ⟨rfl, rfl, rfl, rfl, rfl, rfl, hweak.trans hrec.symm, _, _, hdef⟩
    refine ⟨_, hs, hsent hs ?_⟩
    rw [hdef]
    exact hacct.congr rfl rfl rfl rfl rfl rfl
  · simp only [Holding.Ok, Seg.holding, hrec, if_true] at hok
    have hdef : kcp.sendCur seg tick =
        { kcp.curBufFree seg with
          snd_cur := rest
          snd_wak := kcp.snd_wak ++
            [{ seg with
              send_time := tick % 2 ^ 32, weak_data := true, term_notify := false, sent := true }] }
                := by
      unfold Kcp.sendCur
      simp only [hfind, Option.getD_some, hi.filter_snd_cur hcur, hrec, hweak, hok.1,
        Bool.not_false, Bool.and_true, if_true, Bool.false_or]
      rfl
    have hs : Sent kcp (kcp.sendCur seg tick) seg rest
        { seg with
          send_time := tick % 2 ^ 32, weak_data := true, term_notify := false, sent := true } :=
      ⟨rfl, rfl, rfl, rfl, rfl, rfl, hrec.symm, _, _, hdef⟩
    refine ⟨_, hs, hsent hs ?_⟩
    rw [hdef]
    have hacct' : Acct kcp (seg.holding :: (kcp.queued ++ (kcp.snd_wak ++ rest)).map Seg.holding)
        held := hacct
    have hspend :=
      hacct'.spend hrec hweak (x := { seg.holding with weak_data := true }) rfl hrec rfl (by
        simp only [Holding.Ok, Seg.holding, hrec, if_true]
        exact hok)
    exact hspend.congr rfl rfl rfl rfl rfl rfl

/-! ### Every step -/

/-- What is held besides the segments in the lists. -/
def SendPc.holds : SendPc → List Holding
  | .init seg => [seg.holding]
  | _ => []

theorem SendPc.length_holds_le (pc : SendPc) : pc.holds.length ≤ 1 := by
  rcases pc with _ | _ | _
  · exact Nat.zero_le 1
  · exact le_rfl
  · exact Nat.zero_le 1

/-- **The invariant of the sender.** -/
structure Sender.Ok (s : Sender) : Prop where
  inv : Inv s.kcp s.pc.holds
  init : ∀ seg, s.pc = .init seg → s.kcp.snd_wak = [] ∧ s.kcp.snd_cur = [] ∧
    seg.is_kcp_seg_data = true ∧ seg.weak_data = false ∧ seg.data_buf = seg.id
  cur : ∀ seg, s.pc = .cur seg → s.kcp.session_established = true ∧
    ∃ rest, s.kcp.snd_cur = seg :: rest

theorem Inv.setRetry (hi : Inv kcp held) (retry : Bool) :
    Inv { kcp with rp_output_retry := retry } held :=
  { hi with acct := hi.acct.congr rfl rfl rfl rfl rfl rfl }

theorem Inv.setNew (hi : Inv kcp held) (new : Bool) :
    Inv { kcp with session_new_data_received := new } held :=
  { hi with acct := hi.acct.congr rfl rfl rfl rfl rfl rfl }

/-- **What `ikcp_send_ready_and_get_delay` does.** -/
theorem Inv.ready (hi : Inv kcp held) (hh : held.length ≤ 1) :
    (∃ new, kcp.sendReadyAndGetDelay.1 = { kcp with session_new_data_received := new }) ∨
      ∃ kcp' fty taken new, kcp.queueSendCur = (kcp', 0) ∧ NewGroup kcp held fty taken new kcp' ∧
        Inv kcp' held ∧
        kcp.sendReadyAndGetDelay.1 = { kcp' with session_new_data_received := false } := by
  unfold Kcp.sendReadyAndGetDelay
  by_cases hn : kcp.n_snd = 0
  · rw [if_pos hn]
    exact .inl ⟨kcp.session_new_data_received, rfl⟩
  by_cases hest : kcp.session_established = false
  · rw [if_neg hn, if_pos hest]
    exact .inl ⟨kcp.session_new_data_received, rfl⟩
  rw [if_neg hn, if_neg hest]
  by_cases hdelay : kcp.sendCurGetDelay ≠ 0
  · rw [if_pos hdelay]
    rcases hi.queueSendCur hh with ⟨-, heq⟩ | ⟨kcp', fty, taken, new, heq, hnew⟩
    · rw [heq]
      exact .inl ⟨false, rfl⟩
    · rw [heq]
      exact .inr ⟨kcp', fty, taken, new, rfl, hnew,
        hnew.inv hi (Bool.eq_true_of_not_eq_false hest) hdelay, rfl⟩
  · rw [if_neg hdelay]
    exact .inl ⟨false, rfl⟩

namespace Sender

theorem ok_start (h : s.Start) : s.Ok := by
  obtain ⟨cid, qos, sndwnd, curwnd, rfl⟩ := h
  exact ⟨inv_wndsize cid qos sndwnd curwnd, by rintro _ ⟨⟩, by rintro _ ⟨⟩⟩

theorem Ok.of_idle (hi : Inv kcp []) (hpc : s.pc = .idle) : Ok { s with kcp := kcp } where
  inv := by
    rw [hpc]
    exact hi
  init seg h := by
    cases hpc.symm.trans h
  cur seg h := by
    cases hpc.symm.trans h

theorem Ok.inv_idle (h : s.Ok) (hpc : s.pc = .idle) : Inv s.kcp [] := by
  have hi := h.inv
  rwa [hpc] at hi

theorem ok_attempt (hi : Inv s.kcp []) (hest : s.kcp.session_established = true) :
    s.attempt.Ok := by
  unfold Sender.attempt
  rcases hcur : s.kcp.snd_cur with _ | ⟨seg, rest⟩
  · exact ⟨hi, by rintro _ ⟨⟩, by rintro _ ⟨⟩⟩
  · refine ⟨hi.setRetry false, by rintro _ ⟨⟩, ?_⟩
    rintro _ ⟨⟩
    exact ⟨hest, rest, hcur⟩

theorem Ok.sendNext (h : s.Ok) (hpc : s.pc = .idle) : s.sendNext.Ok := by
  have hi := h.inv_idle hpc
  unfold Sender.sendNext
  by_cases hest : s.kcp.session_established = true
  · rw [if_pos hest]
    exact ok_attempt hi hest
  by_cases hseg : s.kcp.seg_used = ARQ_SEG_MEM_COUNT
  · rw [if_neg hest, if_pos hseg]
    exact h
  by_cases hbuf : s.kcp.cur_bufs.length = SEND_CUR_BUFS_COUNT
  · rw [if_neg hest, if_neg hseg, if_pos hbuf]
    exact h
  rw [if_neg hest, if_neg hseg, if_neg hbuf]
  obtain ⟨hwak, hcur⟩ := hi.not_established (Bool.eq_false_iff.mpr hest)
  set seg : Seg := { s.kcp.poolSeg with gid := 1 <<< GID_NBITS - 1, fid := s.kcp.cid } with hsegdef
  have hacct := hi.acct.hold (x := seg.holding) rfl
  refine ⟨?_, ?_, by rintro _ ⟨⟩⟩
  · exact { hi with acct := hacct.congr rfl rfl rfl rfl rfl rfl }
  · rintro _ ⟨⟩
    exact ⟨hwak, hcur, rfl, rfl, rfl⟩

theorem Ok.output (h : s.Ok) (tick : ℕ) : (s.output tick).Ok := by
  have hi := h.inv
  unfold Sender.output
  rcases hpc : s.pc with _ | seg | seg
  · exact h
  · obtain ⟨hwak, hcur, hkcp, hweak, hbuf⟩ := h.init seg hpc
    rw [hpc] at hi
    dsimp only
    by_cases hretry : s.kcp.rp_output_retry = true
    · rw [if_pos hretry]
      refine ⟨hi.setRetry false, ?_, by rintro _ ⟨⟩⟩
      rintro _ ⟨⟩
      exact h.init seg hpc
    · rw [if_neg hretry]
      have hacct := hi.acct.release hkcp hweak hbuf
      obtain ⟨b, f, heq⟩ := s.kcp.segFree_eq seg
      rw [heq] at hacct ⊢
      exact ⟨{ hi with acct := hacct }, by rintro _ ⟨⟩, by rintro _ ⟨⟩⟩
  · obtain ⟨hest, rest, hcur⟩ := h.cur seg hpc
    rw [hpc] at hi
    dsimp only
    by_cases hretry : s.kcp.rp_output_retry = true
    · rw [if_pos hretry]
      exact ok_attempt hi hest
    · rw [if_neg hretry]
      obtain ⟨sent, -, hi'⟩ := hi.sendCur hcur hest tick
      exact ⟨hi', by rintro _ ⟨⟩, by rintro _ ⟨⟩⟩

theorem Ok.input (h : s.Ok) {data : List UInt8} {tick : ℕ} {f : Factors} {kcp' : Kcp} {ret : ℤ}
    (hin : s.kcp.input data tick f = some (kcp', ret)) : Ok { s with kcp := kcp' } := by
  obtain ⟨kcp₁, ret₁, heq, hi, hcases⟩ := h.inv.input data tick f
  obtain ⟨rfl, rfl⟩ := Prod.mk.inj (Option.some.inj (hin.symm.trans heq))
  rcases hcases with ⟨hign, -⟩ | ⟨-, nacks, fid, gid, -, ha⟩
  · rcases hign.eq with rfl | ⟨-, hest, tick, rfl⟩
    · exact h
    · refine ⟨hi, fun seg hpc => h.init seg hpc, fun seg hpc => ?_⟩
      exact absurd ((h.cur seg hpc).1.symm.trans hest) (by decide)
  · refine ⟨hi, fun seg hpc => ?_, fun seg hpc => ?_⟩
    · obtain ⟨hwak, hcur, hrest⟩ := h.init seg hpc
      have hsub := ha.sublist
      rw [hwak] at hsub
      exact ⟨List.sublist_nil.mp hsub, ha.frame.snd_cur.trans hcur, hrest⟩
    · obtain ⟨hest, rest, hcur⟩ := h.cur seg hpc
      exact ⟨ha.frame.session_established.trans hest, rest, ha.frame.snd_cur.trans hcur⟩

/-- **Every step keeps the invariant.** -/
theorem ok_step (h : s.Ok) (hstep : s.Step s') : s'.Ok := by
  obtain ⟨e, he⟩ := hstep
  unfold Sender.step at he
  rcases e with ⟨buffer, len⟩ | _ | _ | tick | ⟨data, tick, f⟩
  · dsimp only at he
    split_ifs at he with hpc
    obtain rfl := Option.some.inj he
    refine .of_idle ?_ hpc
    rcases (h.inv_idle hpc).queue_spec buffer len with ⟨ret, heq, -⟩ | ⟨kcp', seg, heq, hq⟩
    · rw [heq]
      exact h.inv_idle hpc
    · rw [heq]
      exact hq.inv (h.inv_idle hpc)
  · dsimp only at he
    split_ifs at he with hpc
    obtain rfl := Option.some.inj he
    refine .of_idle ?_ hpc
    rcases (h.inv_idle hpc).ready (Nat.zero_le 1) with ⟨new, heq⟩ | ⟨kcp', _, _, _, -, -, hi, heq⟩
    · rw [heq]
      exact (h.inv_idle hpc).setNew new
    · rw [heq]
      exact hi.setNew false
  · dsimp only at he
    split_ifs at he with hpc
    obtain rfl := Option.some.inj he
    exact h.sendNext hpc
  · dsimp only at he
    split_ifs at he with hpc
    obtain rfl := Option.some.inj he
    exact h.output tick
  · obtain ⟨⟨kcp', ret⟩, hin, rfl⟩ := Option.map_eq_some_iff.mp he
    exact h.input hin

/-- **The invariant holds in every state reached.** -/
theorem ok_reachable (h : Reachable Start Step s) : s.Ok :=
  h.invariant (p := Sender.Ok) (fun _ h => ok_start h) fun _ _ h hs => ok_step h hs

/-! ### What a step does to originals -/

/-- The originals that are live were live before, and only the first packet's segment is freed. -/
structure Kept (kcp kcp' : Kcp) : Prop where
  sub : ∀ x ∈ kcp'.live, x.recovery_data = false → x.holding ∈ kcp.live.map Seg.holding
  freed : ∃ gone, kcp'.freed = kcp.freed ++ gone ∧ ∀ x ∈ gone, x.is_kcp_seg_data = true

theorem Kept.of_eq (hlive : kcp'.live = kcp.live) (hfreed : kcp'.freed = kcp.freed) :
    Kept kcp kcp' where
  sub x hx _ := List.mem_map_of_mem (hlive ▸ hx)
  freed := ⟨[], hfreed.trans (List.append_nil _).symm, by rintro _ ⟨⟩⟩

theorem kept_newGroup (h : NewGroup start held fty taken new kcp) : Kept start kcp where
  sub x hx hr := by
    obtain ⟨acc, hb⟩ := h.building
    exact hb.sub _ (List.mem_map_of_mem hx) hr
  freed := by
    obtain ⟨acc, hb⟩ := h.building
    obtain ⟨l, r, c, u, b, n, heq⟩ := hb.eq
    exact ⟨[], by rw [heq, List.append_nil]; rfl, by rintro _ ⟨⟩⟩

theorem kept_sent {x : Seg} (h : Sent kcp kcp' seg rest x) (hcur : kcp.snd_cur = seg :: rest)
    (hweak : seg.weak_data = false) : Kept kcp kcp' := by
  obtain ⟨b, f, heq⟩ := h.eq
  subst heq
  refine ⟨fun y hy hr => ?_, [], (List.append_nil _).symm, by rintro _ ⟨⟩⟩
  rcases List.mem_append.mp hy with hy | hy
  · exact List.mem_map_of_mem (List.mem_append_left _ hy)
  rcases List.mem_append.mp hy with hy | hy
  · rcases List.mem_append.mp hy with hy | hy
    · exact List.mem_map_of_mem (List.mem_append_right _ (List.mem_append_left _ hy))
    · obtain rfl := List.mem_singleton.mp hy
      have hrec : y.recovery_data = seg.recovery_data := congrArg Tag.recovery_data h.tag
      have hy : y.holding = seg.holding := by
        simp only [Seg.holding, h.id, h.pid, h.data_buf, hrec, h.is_kcp, hweak, h.spent.trans hr]
      rw [hy]
      exact List.mem_map_of_mem (List.mem_append_right _ (List.mem_append_right _
        (hcur ▸ List.mem_cons_self)))
  · exact List.mem_map_of_mem (List.mem_append_right _ (List.mem_append_right _
      (hcur ▸ List.mem_cons_of_mem _ hy)))

/-- **What a step does**: a buffer is queued, an answer is accepted, or the originals are kept. -/
theorem Ok.step_cases (h : s.Ok) {e : Event} (he : s.step e = some s') :
    (∃ buffer len seg, e = .queue buffer len ∧ s.kcp.queue buffer len = (s'.kcp, 0) ∧
        Queued s.kcp s'.kcp seg) ∨
      (∃ data tick f nacks fid gid, e = .input data tick f ∧
        s.kcp.accepts data = some (nacks, fid, gid) ∧ Answered s.kcp s'.kcp nacks) ∨
      (∀ buffer len, e = .queue buffer len → (s.kcp.queue buffer len).2 ≠ 0) ∧
        (∀ data tick f, e = .input data tick f → s.kcp.accepts data = none) ∧
        Kept s.kcp s'.kcp := by
  unfold Sender.step at he
  rcases e with ⟨buffer, len⟩ | _ | _ | tick | ⟨data, tick, f⟩
  · dsimp only at he
    split_ifs at he with hpc
    obtain rfl := Option.some.inj he
    rcases (h.inv_idle hpc).queue_spec buffer len with ⟨ret, heq, hret⟩ | ⟨kcp', seg, heq, hq⟩
    · refine .inr (.inr ⟨?_, by rintro _ _ _ ⟨⟩, ?_⟩)
      · rintro _ _ ⟨⟩
        rw [heq]
        rintro rfl
        rcases hret with hret | hret
        · cases hret
        · cases hret
      · rw [heq]
        exact .of_eq rfl rfl
    · rw [heq]
      exact .inl ⟨buffer, len, seg, rfl, heq, hq⟩
  · dsimp only at he
    split_ifs at he with hpc
    obtain rfl := Option.some.inj he
    refine .inr (.inr ⟨by rintro _ _ ⟨⟩, by rintro _ _ _ ⟨⟩, ?_⟩)
    rcases (h.inv_idle hpc).ready (Nat.zero_le 1) with ⟨new, heq⟩ | ⟨kcp', _, _, _, -, hnew, -, heq⟩
    · rw [heq]
      exact .of_eq rfl rfl
    · rw [heq]
      exact { kept_newGroup hnew with }
  · dsimp only at he
    split_ifs at he with hpc
    obtain rfl := Option.some.inj he
    refine .inr (.inr ⟨by rintro _ _ ⟨⟩, by rintro _ _ _ ⟨⟩, ?_⟩)
    unfold Sender.sendNext Sender.attempt
    split_ifs
    · split
      · exact .of_eq rfl rfl
      · exact .of_eq rfl rfl
    · exact .of_eq rfl rfl
    · exact .of_eq rfl rfl
    · exact .of_eq rfl rfl
  · dsimp only at he
    split_ifs at he with hpc
    obtain rfl := Option.some.inj he
    refine .inr (.inr ⟨by rintro _ _ ⟨⟩, by rintro _ _ _ ⟨⟩, ?_⟩)
    have hi := h.inv
    unfold Sender.output
    rcases hpc' : s.pc with _ | seg | seg
    · exact .of_eq rfl rfl
    · dsimp only
      split_ifs
      · exact .of_eq rfl rfl
      · obtain ⟨b, f, heq⟩ := s.kcp.segFree_eq seg
        rw [heq]
        refine ⟨fun x hx _ => List.mem_map_of_mem hx, [seg], rfl, fun x hx => ?_⟩
        rw [List.mem_singleton.mp hx]
        exact (h.init seg hpc').2.2.1
    · dsimp only
      split_ifs
      · unfold Sender.attempt
        split
        · exact .of_eq rfl rfl
        · exact .of_eq rfl rfl
      · obtain ⟨hest, rest, hcur⟩ := h.cur seg hpc'
        obtain ⟨x, hx, -⟩ := hi.sendCur hcur hest tick
        exact kept_sent hx hcur (hi.unspent seg (hcur ▸ List.mem_cons_self))
  · obtain ⟨⟨kcp', ret⟩, hin, rfl⟩ := Option.map_eq_some_iff.mp he
    obtain ⟨kcp₁, ret₁, heq, hi, hcases⟩ := h.inv.input data tick f
    obtain ⟨rfl, rfl⟩ := Prod.mk.inj (Option.some.inj (hin.symm.trans heq))
    rcases hcases with ⟨hign, hnone⟩ | ⟨-, nacks, fid, gid, hacc, ha⟩
    · refine .inr (.inr ⟨by rintro _ _ ⟨⟩, ?_, ?_⟩)
      · rintro _ _ _ ⟨⟩
        exact hnone
      · rcases hign.eq with rfl | ⟨-, -, tick, rfl⟩
        · exact .of_eq rfl rfl
        · exact .of_eq rfl rfl
    · exact .inr (.inl ⟨data, tick, f, nacks, fid, gid, rfl, hacc, ha⟩)

end Sender

end RemotePlay.Arq
