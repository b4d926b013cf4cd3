import RemotePlay.Arq.Reached

/-! # What an answer frees

An answer lists what is missing, and anything else counts as received.  A segment that waits in a
queue for resends is freed if it is not listed, also one that was put there without having been
sent: so data is lost exactly by answers that do not list such a segment (`freed_sent_iff`).  In
`snd_cur` nothing is ever freed, although `ikcp_input` looks there for groups of resends that have
been received (`early_dropped_iff`). -/

namespace RemotePlay.Arq

open Lib.Threads (Reachable Always EachStep always_iff_eachStep)

variable {kcp kcp' : Kcp} {nacks : List Nack} {s s' : Sender}

/-! ### Data freed without having been sent -/

/-- Each buffer freed that `ikcp_queue` was given had been sent. -/
def Sender.FreedSent (s : Sender) : Prop :=
  ∀ x ∈ s.kcp.freed, x.recovery_data = false → x.is_kcp_seg_data = false → x.sent = true

/-- If the event is an answer that is accepted, it lists each segment waiting to be resent that has
not been sent. -/
def Sender.ListsUnsent (s : Sender) (e : Event) : Prop :=
  ∀ data tick f nacks fid gid, e = .input data tick f →
    s.kcp.accepts data = some (nacks, fid, gid) →
    ∀ i < RSND_COUNT, ∀ x ∈ s.kcp.rsnd_lsts i, x.sent = false → checkNack x.pid nacks = true

theorem Kcp.mem_queued_of_rsnd {i : ℕ} (hi : i < RSND_COUNT) {x : Seg} (hx : x ∈ kcp.rsnd_lsts i) :
    x ∈ kcp.queued := by
  have h : i = 0 ∨ i = 1 ∨ i = 2 := by
    simp only [RSND_COUNT] at hi
    omega
  unfold Kcp.queued
  rcases h with rfl | rfl | rfl
  · exact List.mem_append_right _ (List.mem_append_right _ (List.mem_append_left _ hx))
  · exact List.mem_append_right _ (List.mem_append_left _ hx)
  · exact List.mem_append_left _ hx

/-- **A step frees only what has been sent, exactly if it lists what has not.** -/
theorem Sender.freedSent_step (h : s.Ok) (hs : s.FreedSent) {e : Event} (he : s.step e = some s') :
    s'.FreedSent ↔ s.ListsUnsent e := by
  rcases h.step_cases he with ⟨buffer, len, seg, rfl, -, hq⟩ |
    ⟨data, tick, f, nacks, fid, gid, rfl, hacc, ha⟩ | ⟨-, hnone, hk⟩
  · refine ⟨fun _ => by rintro _ _ _ _ _ _ ⟨⟩, fun _ => ?_⟩
    obtain ⟨l, r, heq⟩ := hq.eq
    unfold Sender.FreedSent
    rw [heq]
    exact hs
  · refine ⟨fun hs' => ?_, fun hlists => ?_⟩
    · rintro _ _ _ nacks' fid' gid' ⟨⟩ hacc' i hi x hx hunsent
      obtain ⟨rfl, -⟩ := Prod.mk.inj (Option.some.inj (hacc.symm.trans hacc'))
      by_contra hcheck
      have hq := Kcp.mem_queued_of_rsnd hi hx
      have hrec := (h.inv.plain x hq).1
      have hok := h.inv.ok_of_mem (List.mem_append_left _ hq)
      simp only [Holding.Ok, Seg.holding, hrec, Bool.false_eq_true, if_false] at hok
      have hsent := hs' x (ha.dropped i hi x hx (Bool.eq_false_iff.mpr hcheck)) hrec hok.1
      exact absurd (hsent.symm.trans hunsent) (by decide)
    · obtain ⟨gone, hgone, hcheck⟩ := ha.freed
      intro x hx hrec hkcp
      rw [hgone] at hx
      rcases List.mem_append.mp hx with hx | hx
      · exact hs x hx hrec hkcp
      · by_contra hunsent
        have hunsent := Bool.eq_false_iff.mpr hunsent
        obtain ⟨i, hi, hmem, hnack⟩ := hcheck x hx hunsent
        have := hlists data tick f nacks fid gid rfl hacc i hi x hmem hunsent
        exact absurd (this.symm.trans hnack) (by decide)
  · refine ⟨fun _ data tick f nacks fid gid heq hacc => ?_, fun _ => ?_⟩
    · cases (hnone data tick f heq).symm.trans hacc
    · obtain ⟨gone, hgone, hkcp'⟩ := hk.freed
      intro x hx hrec hkcp
      rw [hgone] at hx
      rcases List.mem_append.mp hx with hx | hx
      · exact hs x hx hrec hkcp
      · exact absurd ((hkcp' x hx).symm.trans hkcp) (by decide)

/-- **No data is dropped before it has been sent in exactly the runs** in which each answer accepted
lists all segments waiting to be resent that have not been sent. -/
theorem Sender.freed_sent_iff (hstart : s.Start) (es : List Event) :
    Always Sender.step Sender.FreedSent es s ↔ EachStep Sender.step Sender.ListsUnsent es s := by
  have hnil : s.FreedSent := by
    obtain ⟨cid, qos, sndwnd, curwnd, rfl⟩ := hstart
    have hfreed : ((Kcp.create cid qos).wndsize sndwnd curwnd).1.freed = [] := by
      unfold Kcp.wndsize
      split_ifs
      · rfl
      · rfl
      · rfl
    intro x hx
    rw [hfreed] at hx
    cases hx
  exact always_iff_eachStep (fun s e s' h he => Sender.ok_step h ⟨e, he⟩)
    (fun s e s' h hs he => Sender.freedSent_step h hs he) es (Sender.ok_start hstart) hnil

theorem Sender.freed_sent_iff_queue :
    Always Sender.step Sender.FreedSent [.queue 7 ARQ_DATA_SIZE] (Sender.created 0 800 453 46) ↔
      EachStep Sender.step Sender.ListsUnsent [.queue 7 ARQ_DATA_SIZE]
        (Sender.created 0 800 453 46) :=
  Sender.freed_sent_iff (Sender.start_created 0 800 453 46) _

/-- An audio buffer is queued in an established session, and an answer comes in that lists only the
next id: the buffer is freed. -/
theorem Sender.freed_unsent : ∃ s, Reachable Sender.Start Sender.Step s ∧ ¬s.FreedSent := by
  have hrun : ∃ s, (Sender.created 0 800 453 46).run
      [.input [12, 0] 0 .one, .queue 7 (ARQ_DATA_SIZE + 2 ^ 29), .input [0, 0, 16, 0] 0 .one] =
        some s ∧
      ∃ x ∈ s.kcp.freed, x.recovery_data = false ∧ x.is_kcp_seg_data = false ∧ x.sent = false :=
    ⟨_, rfl, by decide +kernel⟩
  obtain ⟨s, hs, x, hx, hrec, hkcp, hsent⟩ := hrun
  refine ⟨s, reachable_created hs, fun h => ?_⟩
  exact absurd ((h x hx hrec hkcp).symm.trans hsent) (by decide)

/-! ### Groups received before they are sent again -/

/-- A group that is wholly in `snd_cur`, whose originals are resends and not reported missing. -/
structure EarlyAcked (kcp : Kcp) (nacks : List Nack) (g : ℕ) : Prop where
  mem : ∃ x ∈ kcp.snd_cur, x.grp = g
  whole : ∀ x ∈ kcp.snd_wak, x.grp ≠ g
  received : ∀ x ∈ kcp.snd_cur, x.grp = g → x.recovery_data = false →
    x.wrn ≠ 0 ∧ checkNack x.pid nacks = false

/-- Such groups are dropped: their segments are freed once, `n_snd` counts the originals that are
left, and the other segments keep their slots. -/
structure EarlyDropped (kcp kcp' : Kcp) (nacks : List Nack) : Prop where
  freed : ∀ x ∈ kcp.snd_cur, EarlyAcked kcp nacks x.grp → (kcp'.freed.map Seg.id).count x.id = 1
  n_snd : kcp'.n_snd = kcp'.live.countP fun x => !x.recovery_data
  slots : ∀ x, x ∈ placed kcp'.snd_cur ↔ x ∈ placed kcp.snd_cur ∧ ¬EarlyAcked kcp nacks x.1.grp

/-- **Groups received early are dropped exactly by the answers for which there are none.** -/
theorem Sender.early_dropped_iff (h : Reachable Sender.Start Sender.Step s) {data : List UInt8}
    {fid gid tick : ℕ} {f : Factors} (hacc : s.kcp.accepts data = some (nacks, fid, gid))
    (hin : s.kcp.input data tick f = some (kcp', 0)) :
    EarlyDropped s.kcp kcp' nacks ↔ ∀ g, ¬EarlyAcked s.kcp nacks g := by
  obtain ⟨kcp₁, ret, heq, hi, hcases⟩ := (Sender.ok_reachable h).inv.input data tick f
  obtain ⟨rfl, -⟩ := Prod.mk.inj (Option.some.inj (hin.symm.trans heq))
  have ha : Answered s.kcp kcp' nacks := by
    rcases hcases with ⟨-, hnone⟩ | ⟨-, nacks', fid', gid', hacc', ha⟩
    · cases hnone.symm.trans hacc
    · obtain ⟨rfl, -⟩ := Prod.mk.inj (Option.some.inj (hacc.symm.trans hacc'))
      exact ha
  have hcur := ha.frame.snd_cur
  refine ⟨fun hd g hg => ?_,
    fun hnone => ⟨fun x _ hg => absurd hg (hnone _), hi.n_snd_eq, fun x => ?_⟩⟩
  · obtain ⟨x, hx, rfl⟩ := hg.mem
    obtain ⟨slot, hslot⟩ := Inv.exists_placed hx
    exact ((hd.slots _).mp (hcur.symm ▸ hslot)).2 hg
  · rw [hcur]
    exact ⟨fun hx => ⟨hx, hnone _⟩, fun hx => hx.1⟩

/-- A packet is sent, reported missing, and put into a group again. -/
def resent : List Event := sending ++ [.output 5, .input [4, 0, 0, 0] 5 .one, .ready]

theorem Sender.early_dropped_iff_resent :
    ∃ s kcp', (Sender.created 0 800 453 46).run resent = some s ∧
    s.kcp.input [0, 0, 16, 0] 6 .one = some (kcp', 0) ∧
    (EarlyDropped s.kcp kcp' [⟨1, 1023⟩] ↔ ∀ g, ¬EarlyAcked s.kcp [⟨1, 1023⟩] g) := by
  have hrun : ∃ s kcp', (Sender.created 0 800 453 46).run resent = some s ∧
      s.kcp.accepts [0, 0, 16, 0] = some ([⟨1, 1023⟩], 0, 0) ∧
      s.kcp.input [0, 0, 16, 0] 6 .one = some (kcp', 0) := ⟨_, _, rfl, by decide +kernel, rfl⟩
  obtain ⟨s, kcp', hs, hacc, hin⟩ := hrun
  exact ⟨s, kcp', hs, hin, Sender.early_dropped_iff
    (reachable_created hs) hacc hin⟩

/-- Its id is not in the next answer's ranges, and it is still in `snd_cur` afterwards. -/
theorem Sender.early_kept : ∃ s kcp', Reachable Sender.Start Sender.Step s ∧
    s.kcp.accepts [0, 0, 16, 0] = some ([⟨1, 1023⟩], 0, 0) ∧
    s.kcp.input [0, 0, 16, 0] 6 .one = some (kcp', 0) ∧ EarlyAcked s.kcp [⟨1, 1023⟩] 1 ∧
    ∃ x ∈ kcp'.snd_cur, x.grp = 1 := by
  have hrun : ∃ s kcp', (Sender.created 0 800 453 46).run resent = some s ∧
      s.kcp.accepts [0, 0, 16, 0] = some ([⟨1, 1023⟩], 0, 0) ∧
      (∃ x ∈ s.kcp.snd_cur, x.grp = 1) ∧ (∀ x ∈ s.kcp.snd_wak, x.grp ≠ 1) ∧
      (∀ x ∈ s.kcp.snd_cur, x.grp = 1 → x.recovery_data = false →
        x.wrn ≠ 0 ∧ checkNack x.pid [⟨1, 1023⟩] = false) ∧
      s.kcp.input [0, 0, 16, 0] 6 .one = some (kcp', 0) ∧ ∃ x ∈ kcp'.snd_cur, x.grp = 1 :=
    ⟨_, _, rfl, by decide +kernel, by decide +kernel, by decide +kernel, by decide +kernel, rfl,
      by decide +kernel⟩
  obtain ⟨s, kcp', hs, hacc, hmem, hwhole, hrecv, hin, hleft⟩ := hrun
  exact ⟨s, kcp', reachable_created hs, hacc, hin,
    ⟨hmem, hwhole, hrecv⟩, hleft⟩

end RemotePlay.Arq
