import RemotePlay.Arq.Input

/-! # Answers keep the invariant

`Inv` is what holds of the sender between any two steps: its accounts are right, the packets on
their way are an interleaving of complete groups, and the groups in `snd_cur` are recent enough for
twelve bits to tell them apart.  An answer keeps it, whatever the datagram is (`Inv.input`). -/

namespace RemotePlay.Arq

open Function (update)

variable {kcp kcp' : Kcp} {held : List Holding} {nacks : List Nack}

/-- **The groups in a list of segments to be sent are recent**: the segments that are to be sent
before one of them, and the groups put together after its group, are few.  If no segment is to be
sent next, another group may be put in. -/
structure Recent (next : ℕ) (cur : List Seg) : Prop where
  lt : ∀ x ∈ placed cur, next + x.2 < x.1.grp + 2 ^ FID_NBITS
  succ_lt : (∀ x ∈ placed cur, x.2 ≠ 0) → ∀ x ∈ placed cur, next + x.2 + 1 < x.1.grp + 2 ^ FID_NBITS

/-- **The invariant of the sender.** -/
structure Inv (kcp : Kcp) (held : List Holding) : Prop where
  acct : Acct kcp (kcp.live.map Seg.holding) held
  groups : Groups kcp.next_grp ((kcp.snd_wak ++ kcp.snd_cur).map Seg.tag)
  fid : kcp.fid = kcp.next_grp % 2 ^ FID_NBITS
  plain : ∀ s ∈ kcp.queued, s.Plain
  sent : ∀ s ∈ kcp.snd_wak, s.sent = true
  spent : ∀ s ∈ kcp.snd_wak, s.recovery_data = true → s.weak_data = true
  unspent : ∀ s ∈ kcp.snd_cur, s.weak_data = false
  recovery_wrn : ∀ s ∈ kcp.snd_cur, s.recovery_data = true → s.wrn = 0
  recent : Recent kcp.next_grp kcp.snd_cur
  n_snd_le : kcp.n_snd ≤ kcp.n_snd_max
  n_snd_max_le : kcp.n_snd_max ≤ ARQ_BUFS_COUNT
  interval_le : ∀ fty, kcp.fec_send_intervals fty ≤ ARQ_CUR_BUFS_COUNT
  not_established : kcp.session_established = false → kcp.snd_wak = [] ∧ kcp.snd_cur = []
  congc : kcp.congc.Small
  rate : Congc.Rate kcp.rp_max_qos kcp.rp_current_qos
  rates : ∀ q ∈ kcp.rates, Congc.Rate kcp.rp_max_qos q

namespace Inv

/-! ### How many segments there are -/

theorem live_eq (kcp : Kcp) : kcp.live = kcp.queued ++ (kcp.snd_wak ++ kcp.snd_cur) := rfl

theorem n_snd_eq (hi : Inv kcp held) :
    kcp.n_snd = kcp.live.countP fun s => !s.recovery_data := by
  rw [hi.acct.n_snd, List.countP_map]
  rfl

theorem countP_original_live (hi : Inv kcp held) : kcp.n_snd =
    kcp.queued.length + (kcp.snd_wak ++ kcp.snd_cur).countP fun s => !s.recovery_data := by
  rw [hi.n_snd_eq, live_eq, List.countP_append]
  congr 1
  exact List.countP_eq_length.mpr fun s hs => by rw [(hi.plain s hs).1]; rfl

theorem two_mul_recovery_le (hi : Inv kcp held) :
    2 * (kcp.snd_wak ++ kcp.snd_cur).countP (fun s => s.recovery_data) ≤
      (kcp.snd_wak ++ kcp.snd_cur).countP fun s => !s.recovery_data := by
  have h := hi.groups.recovery_le
  rw [List.countP_map, List.countP_map] at h
  exact h

theorem length_eq (l : List Seg) :
    l.length = l.countP (fun s => s.recovery_data) + l.countP fun s => !s.recovery_data := by
  rw [List.length_eq_countP_add_countP fun s : Seg => s.recovery_data]
  congr 2
  funext s
  rcases s.recovery_data with _ | _ <;> rfl

theorem n_snd_bound (hi : Inv kcp held) : kcp.n_snd ≤ 453 :=
  hi.n_snd_le.trans hi.n_snd_max_le

/-- There are at most as many segments in groups as a full window has originals, and half as many
again. -/
theorem length_le (hi : Inv kcp held) :
    kcp.queued.length + (kcp.snd_wak ++ kcp.snd_cur).length ≤ 679 := by
  have h1 := hi.countP_original_live
  have h2 := hi.two_mul_recovery_le
  have h3 := hi.n_snd_bound
  rw [length_eq (kcp.snd_wak ++ kcp.snd_cur)]
  omega

theorem length_snd_wak_le (hi : Inv kcp held) : kcp.snd_wak.length ≤ 680 := by
  have h := hi.length_le
  rw [List.length_append] at h
  omega

theorem length_snd_cur_le (hi : Inv kcp held) : kcp.snd_cur.length ≤ 680 := by
  have h := hi.length_le
  rw [List.length_append] at h
  omega

/-! ### Groups in `snd_cur` -/

theorem exists_placed {cur : List Seg} {s : Seg} (hs : s ∈ cur) :
    ∃ slot, (s.setWsn 0, slot) ∈ placed cur := by
  obtain ⟨k, hk⟩ := List.mem_iff_getElem?.mp hs
  refine ⟨slotAt cur k, List.mem_iff_getElem?.mpr ⟨k, ?_⟩⟩
  rw [placed_getElem?, hk]
  rfl

theorem tag_fid (hi : Inv kcp held) {s : Seg} (hs : s ∈ kcp.snd_cur) :
    s.fid = s.grp % 2 ^ FID_NBITS :=
  hi.groups.fid s.tag (List.mem_map_of_mem (List.mem_append_right _ hs))

theorem grp_lt (hi : Inv kcp held) {s : Seg} (hs : s ∈ kcp.snd_cur) : s.grp < kcp.next_grp :=
  hi.groups.lt s.tag (List.mem_map_of_mem (List.mem_append_right _ hs))

theorem lt_grp (hi : Inv kcp held) {s : Seg} (hs : s ∈ kcp.snd_cur) :
    kcp.next_grp < s.grp + 2 ^ FID_NBITS := by
  obtain ⟨slot, hslot⟩ := exists_placed hs
  exact (Nat.le_add_right _ _).trans_lt (hi.recent.lt _ hslot)

/-- **Twelve bits tell the groups in `snd_cur` apart.** -/
theorem grp_eq (hi : Inv kcp held) {s t : Seg} (hs : s ∈ kcp.snd_cur) (ht : t ∈ kcp.snd_cur)
    (h : s.fid = t.fid) : s.grp = t.grp := by
  rw [hi.tag_fid hs, hi.tag_fid ht] at h
  have h1 := hi.grp_lt hs
  have h2 := hi.grp_lt ht
  have h3 := hi.lt_grp hs
  have h4 := hi.lt_grp ht
  simp only [FID_NBITS] at h h3 h4
  omega

/-- **No group is found in `snd_cur`**, whatever is reported missing. -/
theorem curCollect_eq (hi : Inv kcp held) {A B : List Seg} {s : Seg}
    (hcur : kcp.snd_cur = A ++ s :: B) (hgid : s.gid = 0) :
    Kcp.curCollect nacks s.fty s.fid 1 B = .error 1 ∨
      Kcp.curCollect nacks s.fty s.fid 1 B = .error 2 := by
  have hs : s ∈ kcp.snd_cur := hcur ▸ List.mem_append_right _ List.mem_cons_self
  have hB : ∀ t ∈ B, t ∈ kcp.snd_cur := fun t ht =>
    hcur ▸ List.mem_append_right _ (List.mem_cons_of_mem _ ht)
  have hg := hi.groups
  rw [hcur, ← List.append_assoc, List.map_append, List.map_cons] at hg
  obtain ⟨hused, hafter⟩ := hg.after_first (t := s.tag) hgid
  have hfid := hi.tag_fid hs
  rw [hfid]
  refine RemotePlay.Arq.curCollect_eq hused ?_ Nat.one_pos (fun t ht h => ?_)
    fun t ht => hi.recovery_wrn t (hB t ht)
  · rw [segsOf_tag]
    exact hafter
  · exact hi.grp_eq (hB t ht) hs (h.trans hfid.symm)

end Inv

/-! ### An answer -/

/-- What an accepted datagram says: its ranges, and the `fid` and `gid` in its header. -/
def Kcp.accepts (kcp : Kcp) : List UInt8 → Option (List Nack × ℕ × ℕ)
  | a :: b :: data =>
    let hdr := a.toNat + b.toNat <<< 8
    let fid := hdr >>> (GID_NBITS + CID_NBITS + 1) &&& (1 <<< FID_NBITS - 1)
    let gid := hdr >>> (CID_NBITS + 1) &&& (1 <<< GID_NBITS - 1)
    let cid := hdr >>> 1 &&& (1 <<< CID_NBITS - 1)
    let reset := hdr &&& (1 <<< 1 - 1)
    if kcp.cid = cid ∧ reset = 0 ∧ data ≠ [] ∧ kcp.session_established = true ∧
        (words data).length ≤ ARQ_PREFERRED_COUNT_MAX then
      some (parseNacks (words data), fid, gid)
    else none
  | _ => none

/-- An answer that is not accepted only establishes a session, if anything. -/
structure Ignored (kcp kcp' : Kcp) (ret : ℤ) : Prop where
  ret_eq : ret = 0 ∨ ret = -1 ∨ ret = -2 ∨ ret = -4 ∨ ret = -5
  eq : kcp' = kcp ∨ ret = 0 ∧ kcp.session_established = false ∧ ∃ tick,
    kcp' = { kcp with
      session_established := true, congc := { kcp.congc with last_send_time := tick } }

theorem Kcp.input_eq (kcp : Kcp) (data : List UInt8) (tick : ℕ) (f : Factors) :
    (∃ nacks fid gid, kcp.accepts data = some (nacks, fid, gid) ∧
      kcp.input data tick f = kcp.answer nacks fid gid f) ∨
    kcp.accepts data = none ∧
      ∃ kcp' ret, kcp.input data tick f = some (kcp', ret) ∧ Ignored kcp kcp' ret := by
  rcases data with _ | ⟨a, _ | ⟨b, data⟩⟩
  · exact .inr ⟨rfl, _, _, rfl, .inr (.inl rfl), .inl rfl⟩
  · exact .inr ⟨rfl, _, _, rfl, .inr (.inl rfl), .inl rfl⟩
  · unfold Kcp.accepts Kcp.input
    dsimp only
    by_cases hcid : kcp.cid = (a.toNat + b.toNat <<< 8) >>> 1 &&& (1 <<< CID_NBITS - 1)
    · rw [if_neg (not_not.mpr hcid)]
      by_cases hreset : (a.toNat + b.toNat <<< 8) &&& (1 <<< 1 - 1) = 0
      · rw [if_neg (not_not.mpr hreset)]
        by_cases hnil : data = []
        · rw [if_pos hnil, if_neg fun h => h.2.2.1 hnil]
          refine .inr ⟨rfl, ?_⟩
          split_ifs with h1 h2
          · exact ⟨_, _, rfl, .inl rfl, .inl rfl⟩
          · exact ⟨_, _, rfl, .inl rfl, .inr ⟨rfl, Bool.eq_false_iff.mpr h2, _, rfl⟩⟩
          · exact ⟨_, _, rfl, .inr (.inr (.inr (.inr rfl))), .inl rfl⟩
        · rw [if_neg hnil]
          by_cases hest : kcp.session_established = false
          · rw [if_pos hest, if_neg fun h => absurd (hest.symm.trans h.2.2.2.1) Bool.false_ne_true]
            exact .inr ⟨rfl, _, _, rfl, .inl rfl, .inl rfl⟩
          · rw [if_neg hest]
            by_cases hlen : ARQ_PREFERRED_COUNT_MAX < (words data).length
            · rw [if_pos hlen, if_neg fun h => not_le.mpr hlen h.2.2.2.2]
              exact .inr ⟨rfl, _, _, rfl, .inr (.inr (.inr (.inl rfl))), .inl rfl⟩
            · rw [if_neg hlen, if_pos ⟨hcid, hreset, hnil, Bool.eq_true_of_not_eq_false hest,
                not_lt.mp hlen⟩]
              exact .inl ⟨_, _, _, rfl, rfl⟩
      · rw [if_pos hreset, if_neg fun h => hreset h.2.1]
        exact .inr ⟨rfl, _, _, rfl, .inr (.inr (.inl rfl)), .inl rfl⟩
    · rw [if_pos hcid, if_neg fun h => hcid h.1]
      exact .inr ⟨rfl, _, _, rfl, .inl rfl, .inl rfl⟩

/-- **What an accepted answer does.** -/
structure Answered (kcp kcp' : Kcp) (nacks : List Nack) : Prop where
  frame : Frame kcp kcp'
  freed : ∃ gone, kcp'.freed = kcp.freed ++ gone ∧ ∀ s ∈ gone, s.sent = false →
    ∃ i < RSND_COUNT, s ∈ kcp.rsnd_lsts i ∧ checkNack s.pid nacks = false
  dropped : ∀ i < RSND_COUNT, ∀ s ∈ kcp.rsnd_lsts i, checkNack s.pid nacks = false → s ∈ kcp'.freed
  sub : ∀ s ∈ kcp'.live, s.holding ∈ kcp.live.map Seg.holding
  sublist : kcp'.snd_wak.Sublist kcp.snd_wak
  originals : kcp'.originals = kcp.originals

/-- **Queued segments are dropped**, from one list after another. -/
structure Dropping (start : Kcp) (held : List Holding) (out : List Seg) (nacks : List Nack) (n : ℕ)
    (kcp : Kcp) : Prop where
  acct : Acct kcp ((kcp.queued ++ out).map Seg.holding) held
  plain : ∀ s ∈ kcp.queued, s.Plain
  sub : ∀ s ∈ kcp.queued, s ∈ start.queued
  rsnd : ∀ i, n ≤ i → kcp.rsnd_lsts i = start.rsnd_lsts i
  freed : ∃ gone, kcp.freed = start.freed ++ gone ∧ ∀ s ∈ gone,
    ∃ i < RSND_COUNT, s ∈ start.rsnd_lsts i ∧ checkNack s.pid nacks = false
  dropped : ∀ i < n, ∀ s ∈ start.rsnd_lsts i, checkNack s.pid nacks = false → s ∈ kcp.freed
  originals : kcp.originals = start.originals
  eq : ∃ n_snd seg_used cur_bufs freed_bufs freed rsnd_lsts, kcp =
    { start with
      n_snd := n_snd, seg_used := seg_used, cur_bufs := cur_bufs, freed_bufs := freed_bufs
      freed := freed, rsnd_lsts := rsnd_lsts }

theorem Dropping.start {out : List Seg}
    (hacct : Acct kcp ((kcp.queued ++ out).map Seg.holding) held)
    (hplain : ∀ s ∈ kcp.queued, s.Plain) : Dropping kcp held out nacks 0 kcp where
  acct := hacct
  plain := hplain
  sub _ hs := hs
  rsnd _ _ := rfl
  freed := ⟨[], (List.append_nil _).symm, by rintro _ ⟨⟩⟩
  dropped _ hi := absurd hi (Nat.not_lt_zero _)
  originals := rfl
  eq := ⟨_, _, _, _, _, _, rfl⟩

theorem Dropping.next {start : Kcp} {out : List Seg} {n : ℕ}
    (h : Dropping start held out nacks n kcp)
    (hn : n < RSND_COUNT) : Dropping start held out nacks (n + 1) (kcp.handleNack nacks n) := by
  obtain ⟨a, b, c, d, heq, hacct, horig, hsub⟩ := handleNack_spec hn h.plain h.acct
  obtain ⟨gone, hgone, hgone'⟩ := h.freed
  have hrsnd := h.rsnd n le_rfl
  refine ⟨hacct, fun s hs => h.plain s (hsub s hs), fun s hs => h.sub s (hsub s hs), fun i hi => ?_,
    ⟨gone ++ (kcp.rsnd_lsts n).filter fun s => checkNack s.pid nacks = false, ?_, fun s hs => ?_⟩,
    fun i hi s hs hs' => ?_, ?_, ?_⟩
  · rw [heq]
    dsimp only
    rw [Function.update_of_ne (Nat.lt_of_succ_le hi).ne', h.rsnd i (Nat.le_of_succ_le hi)]
  · rw [heq]
    dsimp only
    rw [hgone, List.append_assoc]
  · rcases List.mem_append.mp hs with hs | hs
    · exact hgone' s hs
    · obtain ⟨hmem, hcheck⟩ := List.mem_filter.mp hs
      exact ⟨n, hn, hrsnd ▸ hmem, of_decide_eq_true hcheck⟩
  · rw [heq]
    dsimp only
    rcases Nat.lt_succ_iff_lt_or_eq.mp hi with hi | rfl
    · exact List.mem_append_left _ (h.dropped i hi s hs hs')
    · exact List.mem_append_right _ (List.mem_filter.mpr ⟨hrsnd ▸ hs, decide_eq_true hs'⟩)
  · exact horig.trans h.originals
  · obtain ⟨a', b', c', d', e', r', h'⟩ := h.eq
    rw [heq, h']
    exact ⟨_, _, _, _, _, _, rfl⟩

theorem Inv.waking (hi : Inv kcp held) :
    Waking kcp held kcp.clearCurr (kcp.snd_wak ++ kcp.snd_cur) where
  frame := ⟨⟨rfl, rfl, rfl, rfl, rfl, rfl, rfl, rfl, rfl, rfl, rfl, rfl, rfl⟩, rfl, rfl, rfl,
    rfl, rfl, rfl⟩
  acct := hi.acct.congr rfl rfl rfl rfl rfl rfl
  plain := hi.plain
  rsnd i := ⟨[], (List.append_nil _).symm, by rintro _ ⟨⟩⟩
  freed := ⟨[], (List.append_nil _).symm, by rintro _ ⟨⟩⟩
  originals := rfl
  sub s hs := List.mem_map_of_mem hs

theorem Inv.of_frame (hi : Inv kcp held) (hf : Frame kcp kcp')
    (hacct : Acct kcp' (kcp'.live.map Seg.holding) held)
    (hgroups : Groups kcp.next_grp ((kcp'.snd_wak ++ kcp.snd_cur).map Seg.tag))
    (hplain : ∀ s ∈ kcp'.queued, s.Plain) (hsub : kcp'.snd_wak.Sublist kcp.snd_wak)
    (hn : kcp'.n_snd ≤ kcp.n_snd) (hcongc : kcp'.congc.Small)
    (hrate : Congc.Rate kcp.rp_max_qos kcp'.rp_current_qos)
    (hrates : ∀ q ∈ kcp'.rates, Congc.Rate kcp.rp_max_qos q) : Inv kcp' held where
  acct := hacct
  groups := by
    rw [hf.next_grp, hf.snd_cur]
    exact hgroups
  fid := by
    rw [hf.fid, hf.next_grp]
    exact hi.fid
  plain := hplain
  sent s hs := hi.sent s (hsub.subset hs)
  spent s hs := hi.spent s (hsub.subset hs)
  unspent s hs := hi.unspent s (hf.snd_cur ▸ hs)
  recovery_wrn s hs := hi.recovery_wrn s (hf.snd_cur ▸ hs)
  recent := by
    rw [hf.next_grp, hf.snd_cur]
    exact hi.recent
  n_snd_le := by
    rw [hf.n_snd_max]
    exact hn.trans hi.n_snd_le
  n_snd_max_le := by
    rw [hf.n_snd_max]
    exact hi.n_snd_max_le
  interval_le fty := by
    rw [hf.fec_send_intervals]
    exact hi.interval_le fty
  not_established h := by
    rw [hf.session_established] at h
    obtain ⟨hwak, hcur⟩ := hi.not_established h
    rw [hwak] at hsub
    exact ⟨List.sublist_nil.mp hsub, hf.snd_cur.trans hcur⟩
  congc := hcongc
  rate := by
    rw [hf.rp_max_qos]
    exact hrate
  rates q hq := by
    rw [hf.rp_max_qos]
    exact hrates q hq

/-- **An accepted answer keeps the invariant**, returns zero and does not divide by zero. -/
theorem Inv.answer (hi : Inv kcp held) (nacks : List Nack) (fid gid : ℕ) (f : Factors) :
    ∃ kcp', kcp.answer nacks fid gid f = some (kcp', 0) ∧ Inv kcp' held ∧
      Answered kcp kcp' nacks := by
  have hcount₀ : CountBound kcp.clearCurr (([] : List Seg).length + kcp.snd_wak.length) := by
    have h := hi.length_snd_wak_le
    refine ⟨?_, hi.congc.wrapped⟩
    simp only [Kcp.clearCurr, List.length_nil, Congc.COUNT_MAX, Nat.reduceShiftLeft]
    omega
  obtain ⟨kcp₁, hscan, hw, hg, hsub, hcount⟩ := wakScan_spec nacks fid gid hi.waking
    hi.groups hi.sent hcount₀
  have hframe := hw.frame
  have hsmall : kcp₁.congc.Small := by
    refine ⟨?_, ?_, hcount.wrapped⟩
    · rw [hframe.last_ack_count, hframe.last_nack_count]
      exact hi.congc.last
    · rw [hframe.avg_ack_count, hframe.avg_nack_count]
      exact hi.congc.avg
  have hrate : Congc.Rate kcp₁.rp_max_qos kcp₁.rp_current_qos := by
    rw [hframe.rp_max_qos, hframe.rp_current_qos]
    exact hi.rate
  obtain ⟨congc, set, hcongc, hsmall', hset⟩ := Congc.input_spec hsmall
    (by simpa only [Nat.zero_mul, Nat.add_zero] using hcount.le) hrate f
  have hd₀ : Dropping (kcp₁.setCongc congc set) held (kcp₁.snd_wak ++ kcp.snd_cur) nacks 0
      (kcp₁.setCongc congc set) :=
    .start (hw.acct.congr rfl rfl rfl rfl rfl rfl) hw.plain
  have hd := ((hd₀.next (by decide)).next (by decide)).next (by decide)
  set kcp₃ := (((kcp₁.setCongc congc set).handleNack nacks 0).handleNack nacks 1).handleNack nacks 2
    with hkcp₃
  obtain ⟨n_snd, seg_used, cur_bufs, freed_bufs, freed, rsnd_lsts, heq⟩ := hd.eq
  have hframe₃ : Frame kcp kcp₃ := by
    rw [heq]
    exact hframe.toFrame.trans ⟨rfl, rfl, rfl, rfl, rfl, rfl, rfl, rfl, rfl, rfl, rfl, rfl, rfl⟩
  have hwak : kcp₃.snd_wak = kcp₁.snd_wak := by rw [heq]; rfl
  have hlive : kcp₃.live = kcp₃.queued ++ (kcp₁.snd_wak ++ kcp.snd_cur) := by
    rw [Kcp.live, hframe₃.snd_cur, hwak]
  have hans : kcp.answer nacks fid gid f =
      some ({ kcp₃ with session_new_data_received := true }, 0) := by
    have hcur : Kcp.curScan nacks (kcp₃.snd_cur.length + 1) kcp₃ true [] kcp₃.snd_cur = (kcp₃, 0) :=
      curScan_eq _ fun A s B h => hi.curCollect_eq (hframe₃.snd_cur.symm.trans h)
    unfold Kcp.answer
    rw [hscan]
    simp only [Option.bind_eq_bind, hcongc, Option.bind_some]
    rw [if_neg (lt_irrefl 0), ← hkcp₃, hcur]
    rfl
  have horig : kcp₃.originals = kcp.originals := hd.originals.trans hw.originals
  refine ⟨_, hans, hi.of_frame { hframe₃ with } ?_ ?_ hd.plain ?_ ?_ ?_ ?_ ?_, { hframe₃ with }, ?_,
    ?_, ?_, ?_, horig⟩
  · exact (hlive ▸ hd.acct :).congr rfl rfl rfl rfl rfl rfl
  · rw [hwak]
    exact hg
  · rw [hwak]
    exact hsub
  · obtain ⟨gone₁, hgone₁, -⟩ := hw.freed
    obtain ⟨gone₂, hgone₂, -⟩ := hd.freed
    have hgone : kcp₃.freed = kcp.freed ++ gone₁ ++ gone₂ := by
      rw [← hgone₁]
      exact hgone₂
    unfold Kcp.originals at horig
    rw [hgone, List.countP_append, List.countP_append] at horig
    show kcp₃.n_snd ≤ _
    omega
  · rw [heq]
    exact hsmall'
  · rw [heq, ← hframe.rp_max_qos]
    rcases set with _ | q
    · exact hrate
    · exact hset q rfl
  · intro q hq
    rw [heq] at hq
    rcases List.mem_append.mp hq with hq | hq
    · rw [hframe.rates] at hq
      exact hi.rates q hq
    · rw [← hframe.rp_max_qos]
      exact hset q (Option.mem_toList.mp hq)
  · obtain ⟨gone₁, hgone₁, hsent₁⟩ := hw.freed
    obtain ⟨gone₂, hgone₂, hcheck⟩ := hd.freed
    refine ⟨gone₁ ++ gone₂, ?_, fun s hs hunsent => ?_⟩
    · rw [← List.append_assoc, ← hgone₁]
      exact hgone₂
    · rcases List.mem_append.mp hs with hs | hs
      · exact absurd ((hsent₁ s hs).symm.trans hunsent) (by decide)
      · obtain ⟨i, hi3, hmem, hnack⟩ := hcheck s hs
        obtain ⟨new, hnew, hsent⟩ := hw.rsnd i
        have hmem' : s ∈ kcp.rsnd_lsts i ++ new := hnew ▸ hmem
        rcases List.mem_append.mp hmem' with hmem | hmem
        · exact ⟨i, hi3, hmem, hnack⟩
        · exact absurd ((hsent s hmem).symm.trans hunsent) (by decide)
  · intro i hi3 s hs hnack
    obtain ⟨new, hnew, -⟩ := hw.rsnd i
    exact hd.dropped i hi3 s (hnew ▸ List.mem_append_left new hs) hnack
  · intro s hs
    rcases List.mem_append.mp (hlive ▸ hs : s ∈ kcp₃.queued ++ (kcp₁.snd_wak ++ kcp.snd_cur)) with
      hs | hs
    · exact hw.sub s (List.mem_append_left _ (hd.sub s hs))
    · exact hw.sub s (List.mem_append_right _ hs)
  · rw [hwak]
    exact hsub

/-- **Every datagram keeps the invariant**, and `ikcp_input` does not divide by zero. -/
theorem Inv.input (hi : Inv kcp held) (data : List UInt8) (tick : ℕ) (f : Factors) :
    ∃ kcp' ret, kcp.input data tick f = some (kcp', ret) ∧ Inv kcp' held ∧
      (Ignored kcp kcp' ret ∧ kcp.accepts data = none ∨
        ret = 0 ∧ ∃ nacks fid gid, kcp.accepts data = some (nacks, fid, gid) ∧
          Answered kcp kcp' nacks) := by
  rcases kcp.input_eq data tick f with ⟨nacks, fid, gid, hacc, heq⟩ | ⟨hacc, kcp', ret, heq, hign⟩
  · obtain ⟨kcp', hans, hi', ha⟩ := hi.answer nacks fid gid f
    exact ⟨kcp', 0, heq.trans hans, hi', .inr ⟨rfl, nacks, fid, gid, hacc, ha⟩⟩
  · refine ⟨kcp', ret, heq, ?_, .inl ⟨hign, hacc⟩⟩
    rcases hign.eq with rfl | ⟨-, hest, tick, rfl⟩
    · exact hi
    · exact
        { hi with
          acct := hi.acct.congr rfl rfl rfl rfl rfl rfl
          not_established := by rintro ⟨⟩
          congc := ⟨hi.congc.last, hi.congc.avg, hi.congc.wrapped⟩ }

end RemotePlay.Arq
