import RemotePlay.Arq.Slots

/-! # Putting a group together

`ikcp_queue_send_cur` takes the first segments of the queues and inserts them, and what it allocates
for recovery data, into `snd_cur` (`Inv.queueSendCur`).  It finds room in both pools, since the
groups there are have two originals for each recovery packet, and the new originals are not in any
of them yet. -/

namespace RemotePlay.Arq

open Function (update)

variable {kcp kcp' start : Kcp} {held : List Holding} {fty : FecType} {acc : ℕ} {ids : List ℕ}
  {pending : List Seg} {seg : Seg}

/-! ### Taking segments from the queues -/

/-- Segments have been taken from the fronts of the queues. -/
structure Popped (kcp kcp' : Kcp) : Prop where
  rsnd : ∀ i, kcp'.rsnd_lsts i <:+ kcp.rsnd_lsts i
  snd : kcp'.snd_lst <:+ kcp.snd_lst
  eq : ∃ snd_lst rsnd_lsts, kcp' = { kcp with snd_lst := snd_lst, rsnd_lsts := rsnd_lsts }

theorem Popped.trans {kcp'' : Kcp} (h : Popped kcp kcp') (h' : Popped kcp' kcp'') :
    Popped kcp kcp'' := by
  obtain ⟨l, r, heq⟩ := h.eq
  obtain ⟨l', r', heq'⟩ := h'.eq
  exact ⟨fun i => (h'.rsnd i).trans (h.rsnd i), h'.snd.trans h.snd, l', r', by rw [heq', heq]⟩

theorem popped_rsnd {i : ℕ} {l : List Seg} (h : kcp.rsnd_lsts i = seg :: l) :
    Popped kcp { kcp with rsnd_lsts := update kcp.rsnd_lsts i l } where
  rsnd j := by
    dsimp only
    rcases eq_or_ne j i with rfl | hne
    · rw [Function.update_self, h]
      exact List.suffix_cons seg l
    · rw [Function.update_of_ne hne]
  snd := List.suffix_rfl
  eq := ⟨_, _, rfl⟩

theorem popSeg_spec (kcp : Kcp) : kcp.popSeg = none ∧ kcp.queued = [] ∨
    ∃ queue seg kcp', kcp.popSeg = some (queue, seg, kcp') ∧ kcp.queued = seg :: kcp'.queued ∧
      Popped kcp kcp' := by
  unfold Kcp.popSeg Kcp.queued
  rcases h2 : kcp.rsnd_lsts 2 with _ | ⟨seg, l⟩
  · rcases h1 : kcp.rsnd_lsts 1 with _ | ⟨seg, l⟩
    · rcases h0 : kcp.rsnd_lsts 0 with _ | ⟨seg, l⟩
      · rcases hs : kcp.snd_lst with _ | ⟨seg, l⟩
        · exact .inl ⟨rfl, rfl⟩
        · refine .inr ⟨_, _, _, rfl, ?_, fun i => List.suffix_rfl, ?_, _, _, rfl⟩
          · dsimp only
            rw [h2, h1, h0]
            rfl
          · dsimp only
            rw [hs]
            exact List.suffix_cons seg l
      · refine .inr ⟨_, _, _, rfl, ?_, popped_rsnd h0⟩
        dsimp only
        rw [Function.update_of_ne (by decide), Function.update_of_ne (by decide),
          Function.update_self, h2, h1]
        rfl
    · refine .inr ⟨_, _, _, rfl, ?_, popped_rsnd h1⟩
      dsimp only
      rw [Function.update_of_ne (by decide), Function.update_self,
        Function.update_of_ne (by decide), h2]
      rfl
  · refine .inr ⟨_, _, _, rfl, ?_, popped_rsnd h2⟩
    dsimp only
    rw [Function.update_self, Function.update_of_ne (by decide), Function.update_of_ne (by decide)]
    rfl

/-! ### Inserting a group -/

/-- **While a group is inserted**: its segments `ids` are in `snd_cur`, and `pending` are those
taken from the queues that are not. -/
structure Building (start : Kcp) (held : List Holding) (fty : FecType) (acc : ℕ) (ids : List ℕ)
    (pending : List Seg) (kcp : Kcp) : Prop where
  forming : Forming start.next_grp fty ids.length (kcp.snd_wak.map Seg.tag)
    (kcp.snd_cur.map Seg.tag)
  slots : Slots start.next_grp (start.fec_send_intervals fty) acc ids start.snd_cur kcp.snd_cur
  acct : Acct kcp ((pending ++ kcp.live).map Seg.holding) held
  unspent : ∀ s ∈ kcp.snd_cur, s.weak_data = false
  recovery_wrn : ∀ s ∈ kcp.snd_cur, s.recovery_data = true → s.wrn = 0
  plain : ∀ s ∈ kcp.queued, s.Plain
  sub : ∀ h ∈ (pending ++ kcp.live).map Seg.holding, h.recovery_data = false →
    h ∈ start.live.map Seg.holding
  eq : ∃ snd_lst rsnd_lsts snd_cur seg_used cur_bufs next_id, kcp =
    { start.newGroup with
      snd_lst := snd_lst, rsnd_lsts := rsnd_lsts, snd_cur := snd_cur, seg_used := seg_used
      cur_bufs := cur_bufs, next_id := next_id }

theorem insertCur_eq (kcp : Kcp) (seg : Seg) : kcp.insertCur seg =
    ({ kcp with snd_cur := (insertStandalone seg kcp.snd_cur).2 },
      (insertStandalone seg kcp.snd_cur).1) := rfl

/-- **The next segment is inserted.** -/
theorem Building.insert {s : Seg} (h : Building start held fty acc ids (s :: pending) kcp)
    (htag : seg.tag = memberTag start.next_grp fty ids.length) (hhold : seg.holding = s.holding)
    (hwsn : seg.wsn = ids.length * start.fec_send_intervals fty + acc)
    (hweak : seg.weak_data = false) (hwrn : seg.recovery_data = true → seg.wrn = 0) :
    Building start held fty (acc + (kcp.insertCur seg).2) (ids ++ [seg.id]) pending
      (kcp.insertCur seg).1 := by
  rw [insertCur_eq]
  dsimp only
  have hgrp : seg.grp = start.next_grp := congrArg Tag.grp htag
  obtain ⟨hslots, before, after, hsplit, hsplit', hafter⟩ := h.slots.insert hgrp hwsn
  -- what a segment is besides its slot
  have hmap : ∀ {β : Type} (f : Seg → β), (∀ s w, f (s.setWsn w) = f s) →
      kcp.snd_cur.map f = before.map (fun x => f x.1) ++ after.map (fun x => f x.1) ∧
        (insertStandalone seg kcp.snd_cur).2.map f =
          before.map (fun x => f x.1) ++ f seg :: after.map fun x => f x.1 := by
    intro β f hf
    rw [← placed_map f hf, ← placed_map f hf (insertStandalone seg kcp.snd_cur).2, hsplit, hsplit',
      List.map_append, List.map_append, List.map_cons, hf]
    exact ⟨rfl, rfl⟩
  have hmem : ∀ x ∈ (insertStandalone seg kcp.snd_cur).2, ∃ y, (y = seg ∨ y ∈ kcp.snd_cur) ∧
      x.setWsn 0 = y.setWsn 0 := by
    intro x hx
    obtain ⟨hb, hb'⟩ := hmap (fun s => s.setWsn 0) fun _ _ => rfl
    have hx' : x.setWsn 0 ∈ (insertStandalone seg kcp.snd_cur).2.map fun s => s.setWsn 0 :=
      List.mem_map_of_mem hx
    rw [hb'] at hx'
    rcases List.mem_cons.mp (List.perm_middle.subset hx') with heq | hx'
    · exact ⟨seg, .inl rfl, heq⟩
    · rw [← hb] at hx'
      obtain ⟨y, hy, heq⟩ := List.mem_map.mp hx'
      exact ⟨y, .inr hy, heq.symm⟩
  -- the same segments are in the lists, with what they hold
  have hperm : ((pending ++ (kcp.queued ++ (kcp.snd_wak ++
      (insertStandalone seg kcp.snd_cur).2))).map Seg.holding).Perm
      ((s :: pending ++ kcp.live).map Seg.holding) := by
    obtain ⟨hh, hh'⟩ := hmap Seg.holding fun _ _ => rfl
    rw [Kcp.live, List.map_append, List.map_append, List.map_append, List.map_append,
      List.map_append, List.map_append, hh, List.map_cons, ← hhold, hh', List.perm_iff_count]
    intro a
    simp only [List.count_append, List.count_cons]
    omega
  refine ⟨?_, hslots, ?_, fun x hx => ?_, fun x hx hr => ?_, h.plain,
    fun x hx hr => h.sub x (hperm.subset hx) hr, ?_⟩
  · obtain ⟨htags, htags'⟩ := hmap Seg.tag fun _ _ => rfl
    have hform := h.forming
    rw [htags] at hform
    rw [List.length_append, List.length_singleton]
    dsimp only
    rw [htags', htag]
    refine hform.insert fun t ht => ?_
    obtain ⟨x, hx, rfl⟩ := List.mem_map.mp ht
    exact hafter x hx
  · have hacct : Acct { kcp with snd_cur := (insertStandalone seg kcp.snd_cur).2 }
        ((s :: pending ++ kcp.live).map Seg.holding) held :=
      h.acct.congr rfl rfl rfl rfl rfl rfl
    exact hacct.perm hperm
  · obtain ⟨y, hy, heq⟩ := hmem x hx
    have hxy : (x.setWsn 0).weak_data = (y.setWsn 0).weak_data := congrArg _ heq
    change x.weak_data = y.weak_data at hxy
    rcases hy with rfl | hy
    · rw [hxy, hweak]
    · rw [hxy, h.unspent y hy]
  · obtain ⟨y, hy, heq⟩ := hmem x hx
    have hrec : (x.setWsn 0).recovery_data = (y.setWsn 0).recovery_data := congrArg _ heq
    have hwrn' : (x.setWsn 0).wrn = (y.setWsn 0).wrn := congrArg _ heq
    change x.recovery_data = y.recovery_data at hrec
    change x.wrn = y.wrn at hwrn'
    rw [hrec] at hr
    rcases hy with rfl | hy
    · rw [hwrn', hwrn hr]
    · rw [hwrn', h.recovery_wrn y hy hr]
  · obtain ⟨l, r, c, u, b, n, heq⟩ := h.eq
    rw [heq]
    exact ⟨_, _, _, _, _, _, rfl⟩

/-! ### Slots asked for -/

theorem Building.asked_lt (h : Building start held fty acc ids pending kcp)
    (hi : Inv start held) (hids : ids.length < 4) :
    (ids.length * kcp.fec_send_intervals fty + acc) % 2 ^ 16 =
      ids.length * start.fec_send_intervals fty + acc := by
  obtain ⟨l, r, c, u, b, n, heq⟩ := h.eq
  have hI : kcp.fec_send_intervals fty = start.fec_send_intervals fty := by
    rw [heq]
    rfl
  rw [hI]
  have hle := hi.interval_le fty
  have hacc := h.slots.acc_le
  have hlen := hi.length_snd_cur_le
  have h46 : ARQ_CUR_BUFS_COUNT = 46 := by decide
  have h1 : ids.length * start.fec_send_intervals fty ≤ 3 * 46 :=
    Nat.mul_le_mul (Nat.le_of_lt_succ hids) (h46 ▸ hle)
  have h2 : ids.length * (start.snd_cur.length + ids.length) ≤ 3 * 683 :=
    Nat.mul_le_mul (Nat.le_of_lt_succ hids) (by omega)
  exact Nat.mod_eq_of_lt (by omega)

/-- **The originals of a group are inserted.** -/
theorem Building.queueOriginals {segs : List Seg}
    (h : Building start held fty acc ids (segs ++ pending) kcp) (hi : Inv start held)
    (hplain : ∀ s ∈ segs, s.Plain)
    (hlen : ids.length + segs.length ≤ fty.counts.original_count) (htotal : fty.total < 4)
    (hrec : 0 < fty.counts.recovery_count) :
    ∃ acc' kcp', Kcp.queueOriginals fty start.fid start.next_grp ids.length acc kcp segs =
        (ids.length + segs.length, acc', kcp') ∧
      Building start held fty acc' (ids ++ segs.map Seg.id) pending kcp' ∧
      kcp'.rsnd_lsts = kcp.rsnd_lsts ∧ kcp'.snd_lst = kcp.snd_lst ∧ kcp'.seg_used = kcp.seg_used ∧
      kcp'.cur_bufs = kcp.cur_bufs ∧ kcp'.next_id = kcp.next_id := by
  induction segs generalizing kcp acc ids with
  | nil => exact ⟨acc, kcp, rfl, by simpa using h, rfl, rfl, rfl, rfl, rfl⟩
  | cons seg segs ih =>
    rw [List.length_cons] at hlen
    have htot : fty.total = fty.counts.original_count + fty.counts.recovery_count := rfl
    obtain ⟨hrecovery, hend⟩ := hplain seg List.mem_cons_self
    have htag : (kcp.member fty start.fid start.next_grp ids.length acc seg).tag =
        memberTag start.next_grp fty ids.length := by
      have h1 : ids.length + 1 ≠ fty.total := by omega
      have h2 : ¬fty.counts.original_count ≤ ids.length := by omega
      simp only [Kcp.member, Seg.tag, memberTag, hi.fid, hrecovery, hend, decide_eq_false h1,
        decide_eq_false h2]
    have hok := h.acct.ok seg.holding (List.mem_map_of_mem List.mem_cons_self)
    simp only [Holding.Ok, Seg.holding, hrecovery, Bool.false_eq_true, if_false] at hok
    set seg' := kcp.member fty start.fid start.next_grp ids.length acc seg with hseg'
    have hins : Building start held fty (acc + (kcp.insertCur seg').2) (ids ++ [seg.id])
        (segs ++ pending) (kcp.insertCur seg').1 :=
      h.insert htag rfl (h.asked_lt hi (by omega)) hok.2
        fun hr => absurd (hrecovery.symm.trans hr) Bool.false_ne_true
    have hids : (ids ++ [seg.id]).length = ids.length + 1 := by
      rw [List.length_append, List.length_singleton]
    obtain ⟨acc', kcp', heq, hb, hrest⟩ := ih hins
      (fun s hs => hplain s (List.mem_cons_of_mem _ hs)) (by rw [hids]; omega)
    refine ⟨acc', kcp', ?_, ?_, hrest⟩
    · rw [hids] at heq
      rw [Kcp.queueOriginals, List.length_cons, ← Nat.add_assoc, Nat.add_right_comm]
      exact heq
    · rwa [List.append_assoc] at hb

/-! ### Room in the pools -/

theorem Inv.seg_used_lt (hi : Inv kcp held) (hh : held.length ≤ 1) :
    kcp.seg_used < ARQ_SEG_MEM_COUNT := by
  have hs := hi.acct.seg_used
  have hlen := hi.length_le
  rw [List.length_map, Kcp.live, List.length_append] at hs
  have hmax : ARQ_SEG_MEM_COUNT = 1359 := by decide
  omega

theorem Inv.length_cur_bufs_le (hi : Inv kcp held) :
    kcp.cur_bufs.length ≤
      (kcp.snd_wak ++ kcp.snd_cur).countP (fun s => s.recovery_data) + held.length := by
  have hq : ∀ s ∈ kcp.queued, s.holding.owns = false := fun s hs =>
    Holding.original_owns _ (hi.plain s hs).1
  rw [hi.acct.cur_bufs.length_eq, List.length_append, List.length_map, List.length_map,
    ← List.countP_eq_length_filter, List.countP_map, Kcp.live, List.countP_append]
  have h0 : kcp.queued.countP (Holding.owns ∘ Seg.holding) = 0 :=
    List.countP_eq_zero.mpr fun s hs => by
      rw [Function.comp_apply, hq s hs]
      exact Bool.false_ne_true
  rw [h0, Nat.zero_add]
  refine Nat.add_le_add_right (List.countP_mono_left fun s _ h => ?_) _
  rw [Function.comp_apply, Holding.owns, Bool.and_eq_true] at h
  exact h.1

/-- When two originals are not in a group there is a block for recovery data. -/
theorem Inv.cur_bufs_lt (hi : Inv kcp held) (hh : held.length ≤ 1) (hq : 2 ≤ kcp.queued.length) :
    kcp.cur_bufs.length < SEND_CUR_BUFS_COUNT := by
  have h1 := hi.length_cur_bufs_le
  have h2 := hi.two_mul_recovery_le
  have h3 := hi.countP_original_live
  have h4 := hi.n_snd_bound
  have hmax : SEND_CUR_BUFS_COUNT = 227 := by decide
  omega

/-! ### The whole group -/

/-- **The recovery segment of a group is inserted.** -/
theorem Building.queueRecovery (h : Building start held fty acc ids [] kcp) (hi : Inv start held)
    (hrec : fty.counts.recovery_count = 1) (hids : ids.length = fty.counts.original_count)
    (htotal : fty.total < 4) (hseg : kcp.seg_used ≠ ARQ_SEG_MEM_COUNT)
    (hbuf : kcp.cur_bufs.length ≠ SEND_CUR_BUFS_COUNT) :
    ∃ acc' kcp', Kcp.queueRecovery fty start.fid start.next_grp 1 ids.length acc kcp = (kcp', 0) ∧
      Building start held fty acc' (ids ++ [kcp.next_id]) [] kcp' ∧
      kcp'.rsnd_lsts = kcp.rsnd_lsts ∧ kcp'.snd_lst = kcp.snd_lst := by
  have htot : fty.total = fty.counts.original_count + fty.counts.recovery_count := rfl
  set seg : Seg :=
    { kcp.poolSeg with pid := 2 ^ 16 - 1, recovery_data := true, gid_end := true } with hsegdef
  have hok : seg.holding.Ok := ⟨rfl, rfl⟩
  have hacct : Acct kcp.segAlloc.curBufAlloc ((seg :: kcp.live).map Seg.holding) held :=
    h.acct.allocRecovery (x := seg.holding) rfl rfl rfl hok
  have hb : Building start held fty acc ids [seg] kcp.segAlloc.curBufAlloc := by
    refine ⟨h.forming, h.slots, hacct, h.unspent, h.recovery_wrn, h.plain, fun x hx hr => ?_, ?_⟩
    · rcases List.mem_cons.mp hx with rfl | hx
      · cases hr
      · exact h.sub x hx hr
    obtain ⟨l, r, c, u, b, n, heq⟩ := h.eq
    rw [heq]
    exact ⟨_, _, _, _, _, _, rfl⟩
  set seg' := kcp.segAlloc.curBufAlloc.member fty start.fid start.next_grp ids.length acc seg with
    hseg'
  have htag : seg'.tag = memberTag start.next_grp fty ids.length := by
    have h1 : ids.length + 1 = fty.total := by omega
    have h2 : fty.counts.original_count ≤ ids.length := hids.ge
    simp only [hseg', hsegdef, Kcp.member, Seg.tag, memberTag, hi.fid, decide_eq_true h1,
      decide_eq_true h2]
  have hins : Building start held fty (acc + (kcp.segAlloc.curBufAlloc.insertCur seg').2)
      (ids ++ [kcp.next_id]) [] (kcp.segAlloc.curBufAlloc.insertCur seg').1 :=
    hb.insert htag rfl (hb.asked_lt hi (by omega)) rfl fun _ => rfl
  refine ⟨_, _, ?_, hins, rfl, rfl⟩
  rw [Kcp.queueRecovery, if_neg hseg, if_neg hbuf]
  rfl

theorem Inv.building (hi : Inv start held) {kcp : Kcp} {taken : List Seg} (hp : Popped start kcp)
    (hq : start.queued = taken ++ kcp.queued) (fty : FecType) :
    Building start held fty 0 [] taken kcp.newGroup := by
  obtain ⟨l, r, heq⟩ := hp.eq
  have hwak : kcp.snd_wak = start.snd_wak := by rw [heq]
  have hcur : kcp.snd_cur = start.snd_cur := by rw [heq]
  have hlive : taken ++ kcp.newGroup.live = start.live := by
    show taken ++ (kcp.queued ++ (kcp.snd_wak ++ kcp.snd_cur)) = _
    rw [← List.append_assoc, ← hq, hwak, hcur]
    rfl
  have hgroups := hi.groups
  rw [List.map_append] at hgroups
  refine ⟨?_, ?_, ?_, fun s hs => hi.unspent s (hcur ▸ hs),
    fun s hs => hi.recovery_wrn s (hcur ▸ hs),
    fun s hs => hi.plain s (hq ▸ List.mem_append_right _ hs), fun x hx _ => hlive ▸ hx,
    l, r, _, _, _, _, by rw [heq]; rfl⟩
  · show Forming _ _ _ (kcp.snd_wak.map Seg.tag) (kcp.snd_cur.map Seg.tag)
    rw [hwak, hcur]
    refine hgroups.forming (fun t ht => ?_) fty
    obtain ⟨s, hs, rfl⟩ := List.mem_map.mp ht
    exact hi.lt_grp hs
  · show Slots _ _ _ _ _ kcp.snd_cur
    rw [hcur]
    exact .start fun s hs => (hi.grp_lt hs).ne
  · rw [hlive, heq]
    exact hi.acct.congr rfl rfl rfl rfl rfl rfl

/-- **A new group**: its originals were the first segments in the queues, and its segments have been
inserted. -/
structure NewGroup (start : Kcp) (held : List Holding) (fty : FecType) (taken : List Seg)
    (new : List ℕ) (kcp : Kcp) : Prop where
  used : fty.Used
  queued : start.queued = taken ++ kcp.queued
  rsnd : ∀ i, kcp.rsnd_lsts i <:+ start.rsnd_lsts i
  snd : kcp.snd_lst <:+ start.snd_lst
  length_taken : taken.length = fty.counts.original_count
  length_new : new.length = fty.counts.recovery_count
  building : ∃ acc, Building start held fty acc (taken.map Seg.id ++ new) [] kcp

theorem Inv.queueSingle (hi : Inv start held) (hp : Popped start kcp)
    (hq : start.queued = seg :: kcp.queued) :
    ∃ kcp', kcp.queueSingle .t1_1 seg = (kcp', 0) ∧ NewGroup start held .t1_1 [seg] [] kcp' := by
  have hb : Building start held .t1_1 0 [] [seg] kcp.newGroup := hi.building hp hq .t1_1
  obtain ⟨l, r, heq⟩ := hp.eq
  have hfid : kcp.fid = start.fid := by rw [heq]
  have hgrp : kcp.next_grp = start.next_grp := by rw [heq]
  obtain ⟨hrecovery, hend⟩ := hi.plain seg (hq ▸ List.mem_cons_self)
  have hok := hi.acct.ok seg.holding
    (List.mem_map_of_mem (List.mem_append_left _ (hq ▸ List.mem_cons_self)))
  simp only [Holding.Ok, Seg.holding, hrecovery, Bool.false_eq_true, if_false] at hok
  set seg' := kcp.newGroup.member .t1_1 start.fid start.next_grp 0 0
    { seg with gid_end := true } with hseg'
  have htag : seg'.tag = memberTag start.next_grp .t1_1 0 := by
    simp only [hseg', Kcp.member, Seg.tag, memberTag, hi.fid, hrecovery]
    rfl
  have hins : Building start held .t1_1 (0 + (kcp.newGroup.insertCur seg').2) ([] ++ [seg.id]) []
      (kcp.newGroup.insertCur seg').1 :=
    hb.insert htag rfl (hb.asked_lt hi (by decide)) hok.2
      fun hr => absurd (hrecovery.symm.trans hr) Bool.false_ne_true
  refine ⟨(kcp.newGroup.insertCur seg').1, ?_, .inl rfl, hq, hp.rsnd, hp.snd, rfl, rfl, _, hins⟩
  unfold Kcp.queueSingle
  rw [hfid, hgrp]
  rfl

theorem Inv.queueGroup (hi : Inv start held) (hh : held.length ≤ 1) {segs : List Seg}
    (hp : Popped start kcp) (hq : start.queued = segs ++ kcp.queued) (hlen : segs.length = 2) :
    ∃ kcp', kcp.queueGroup .t2_3 segs = (kcp', 0) ∧
      NewGroup start held .t2_3 segs [start.next_id] kcp' := by
  have hb : Building start held .t2_3 0 [] (segs ++ []) kcp.newGroup :=
    (List.append_nil segs).symm ▸ hi.building hp hq .t2_3
  obtain ⟨l, r, heq⟩ := hp.eq
  have hfid : kcp.fid = start.fid := by rw [heq]
  have hgrp : kcp.next_grp = start.next_grp := by rw [heq]
  obtain ⟨acc, kcp₁, heq₁, hb₁, hr₁, hs₁, hused, hbufs, hid⟩ :=
    hb.queueOriginals hi (fun s hs => hi.plain s (hq ▸ List.mem_append_left _ hs))
    (by rw [hlen]; exact le_rfl) (by decide) (by decide)
  have hseg : kcp₁.seg_used = start.seg_used := by rw [hused, heq]; rfl
  have hbuf : kcp₁.cur_bufs = start.cur_bufs := by rw [hbufs, heq]; rfl
  have hnext : kcp₁.next_id = start.next_id := by rw [hid, heq]; rfl
  have hqlen : 2 ≤ start.queued.length := by
    rw [hq, List.length_append, hlen]
    exact Nat.le_add_right _ _
  have hlen₁ : (([] : List ℕ) ++ segs.map Seg.id).length = FecType.t2_3.counts.original_count := by
    rw [List.nil_append, List.length_map, hlen]
    rfl
  obtain ⟨acc', kcp', heq₂, hb₂, hr₂, hs₂⟩ := hb₁.queueRecovery hi rfl hlen₁ (by decide)
    (hseg ▸ (hi.seg_used_lt hh).ne) (hbuf ▸ (hi.cur_bufs_lt hh hqlen).ne)
  have hr : kcp'.rsnd_lsts = kcp.rsnd_lsts := hr₂.trans hr₁
  have hs : kcp'.snd_lst = kcp.snd_lst := hs₂.trans hs₁
  have hq' : kcp'.queued = kcp.queued := by rw [Kcp.queued, Kcp.queued, hr, hs]
  refine ⟨kcp', ?_, .inr rfl, hq' ▸ hq, fun i => hr ▸ hp.rsnd i, hs ▸ hp.snd, hlen, rfl, acc',
    hnext ▸ hb₂⟩
  unfold Kcp.queueGroup
  dsimp only
  rw [hlen₁] at heq₂
  rw [List.length_nil, Nat.zero_add, hlen] at heq₁
  rw [hfid, hgrp, heq₁]
  exact heq₂

/-- **Putting a group together succeeds** unless nothing is queued. -/
theorem Inv.queueSendCur (hi : Inv kcp held) (hh : held.length ≤ 1) :
    kcp.queued = [] ∧ kcp.queueSendCur = (kcp, 1) ∨
      ∃ kcp' fty taken new, kcp.queueSendCur = (kcp', 0) ∧
      NewGroup kcp held fty taken new kcp' := by
  unfold Kcp.queueSendCur
  rcases popSeg_spec kcp with ⟨hpop, hnil⟩ | ⟨queue, seg, kcp₁, hpop, hq₁, hp₁⟩
  · rw [hpop]
    exact .inl ⟨hnil, rfl⟩
  · refine .inr ?_
    rw [hpop]
    dsimp only
    obtain ⟨kcp', hsingle, hnew⟩ := hi.queueSingle hp₁ hq₁
    have hfty : fecTypeFromQueue queue = .t1_1 ∨ fecTypeFromQueue queue = .t2_3 := by
      rcases queue with _ | _ | _ | _
      · exact .inr rfl
      · exact .inl rfl
      · exact .inl rfl
      · exact .inl rfl
    rcases hfty with hfty | hfty
    · rw [hfty, if_pos (by decide)]
      exact ⟨kcp', _, _, _, hsingle, hnew⟩
    · rw [hfty, if_neg (by decide)]
      rcases popSeg_spec kcp₁ with ⟨hpop₂, -⟩ | ⟨queue₂, seg₂, kcp₂, hpop₂, hq₂, hp₂⟩
      · have hsegs : Kcp.popSegs (FecType.t2_3.counts.original_count - 1) kcp₁ = none := by
          show Kcp.popSegs (0 + 1) kcp₁ = none
          rw [Kcp.popSegs, hpop₂]
          rfl
        rw [hsegs]
        exact ⟨kcp', _, _, _, hsingle, hnew⟩
      · have hsegs : Kcp.popSegs (FecType.t2_3.counts.original_count - 1) kcp₁ =
            some ([seg₂], kcp₂) := by
          show Kcp.popSegs (0 + 1) kcp₁ = _
          rw [Kcp.popSegs, hpop₂]
          rfl
        rw [hsegs]
        have hq : kcp.queued = [seg, seg₂] ++ kcp₂.queued := by
          rw [hq₁, hq₂]
          rfl
        obtain ⟨kcp', hgroup, hnew⟩ := hi.queueGroup hh (hp₁.trans hp₂) hq rfl
        exact ⟨kcp', _, _, _, hgroup, hnew⟩

end RemotePlay.Arq
