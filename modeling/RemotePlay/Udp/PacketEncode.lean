import RemotePlay.Udp.PacketInv

/-! # The encoder threads and the packetiser

Each step of an encoder thread (`write`, `flush`, `term`, `flag`) is an `EncMove`, and the steps
that start a frame (`acquire`, `ready`, `begin`) find its slot free. -/

namespace RemotePlay.Udp

open RemotePlay.Encode RemotePlay.Work Lib.Pieces

open Function (update)

namespace NwmState

variable {L : Link} {frames : ℕ → Frame L} {st st' : NwmState} {k t : ℕ}

theorem update_update_self {α : Type*} (f : ℕ → ℕ → α) (k t : ℕ) (e : α) :
    update f k (update (f k) t e) k t = e := by
  rw [Function.update_self, Function.update_self]

theorem update_update_ne {α : Type*} (f : ℕ → ℕ → α) {k t k' t' : ℕ} (h : ¬(k' = k ∧ t' = t))
    (e : α) : update f k (update (f k) t e) k' t' = f k' t' := by
  rcases eq_or_ne k' k with rfl | hk
  · rw [Function.update_self, Function.update_of_ne fun ht => h ⟨rfl, ht⟩]
  · rw [Function.update_of_ne hk]

theorem Inv.thread_of (hi : Inv L frames st) (hk : k < st.begun) (ht : t < L.n)
    (he : ¬Ended st k t) : ThreadInv L frames st k t := by
  have h1 := hi.begun_le
  have h2 := hi.readied_le
  refine hi.threads k ?_ (by omega) t ht
  by_contra hlt
  exact he (hi.ended_before k (not_le.mp hlt) t ht)

theorem not_ended_of_encoding (h : (st.enc k t).stage = .encoding) : ¬Ended st k t := by
  intro he
  rw [Ended, h] at he
  cases he

theorem inv_write (hi : Inv L frames st) (h : write L frames st k t = some st') :
    Inv L frames st' := by
  simp only [write, Option.ite_none_right_eq_some, Option.map_eq_some_iff] at h
  obtain ⟨⟨⟨hk, ht, hs⟩, hfree⟩, b, hb, rfl⟩ := h
  have hth := hi.thread_of hk ht (not_ended_of_encoding hs)
  obtain ⟨hdst, hpos⟩ := hth.encoding hs
  obtain ⟨hlt, -⟩ := List.getElem?_eq_some_iff.mp hb
  refine hi.encoder (k := k) (t := t)
    ⟨hk, ht, not_ended_of_encoding hs, fun _ _ h => update_update_ne _ h _, fun _ _ _ => rfl, rfl,
      le_rfl, fun x => ?_, fun _ => ?_⟩
  · rcases eq_or_ne x (st.enc k t).dst with rfl | hx
    · refine Or.inr ⟨(frames k).inBuffer ht (by omega) ?_, by omega⟩
      have := L.packet_data_size_pos
      omega
    · refine Or.inl ?_
      rcases lt_or_gt_of_ne hx with hx | hx
      · exact write_of_lt hx
      · exact write_of_ge hx
  · have hfl := hth.free_le
    constructor <;> simp only [setEnc, update_update_self]
    · omega
    · omega
    · refine fun _ => ⟨by omega, by omega⟩
    · exact fun hne => absurd hs hne
    · exact hth.flag
    · exact hth.buf_le
    · exact hth.send_le
    · intro j hj hjw
      rcases eq_or_ne j (st.enc k t).written with rfl | hne
      · have hat := @write_at _ st.mem (st.enc k t).dst 0 [b] Nat.one_pos
        rw [← hdst, hb]
        exact hat
      · rw [write_of_lt (by omega)]
        exact hth.mem j hj (by omega)

theorem inv_flush (hi : Inv L frames st) (h : flush L st k t = some st') : Inv L frames st' := by
  simp only [flush, Option.ite_none_right_eq_some, Option.some.injEq] at h
  obtain ⟨⟨⟨hk, ht, hs⟩, hfree⟩, rfl⟩ := h
  have hth := hi.thread_of hk ht (not_ended_of_encoding hs)
  obtain ⟨hdst, hpos⟩ := hth.encoding hs
  have hwr := hth.written_le
  have hfits := (frames k).fits (k % WORK_COUNT) t ht
  have hsend : rpSendBuffer (L.ninfo (k % WORK_COUNT) t) (st.info (k % WORK_COUNT) t).pos
      L.packet_data_size false = ((st.info (k % WORK_COUNT) t).pos + L.packet_data_size,
        (st.info (k % WORK_COUNT) t).pos + L.packet_data_size, false) :=
    rpSendBuffer_ok (Or.inr (by omega))
  rw [hsend]
  refine hi.encoder (k := k) (t := t)
    ⟨hk, ht, not_ended_of_encoding hs, fun _ _ h => update_update_ne _ h _,
      fun _ _ h => update_update_ne _ h _, ?_, ?_, fun x => Or.inl rfl, fun _ => ?_⟩
  · rw [update_update_self]
  · rw [update_update_self]
    exact Nat.le_add_right _ _
  · constructor <;> simp only [setEnc, update_update_self]
    · exact hwr
    · exact le_rfl
    · exact fun _ => ⟨by omega, by omega⟩
    · exact fun hne => absurd hs hne
    · exact hth.flag
    · exact hth.buf_le
    · exact hth.send_le.trans (Nat.le_add_right _ _)
    · exact hth.mem

theorem inv_term (hi : Inv L frames st) (h : term L frames st k t = some st') :
    Inv L frames st' := by
  simp only [term, Option.ite_none_right_eq_some, Option.some.injEq] at h
  obtain ⟨⟨⟨hk, ht, hs⟩, hall⟩, rfl⟩ := h
  have hth := hi.thread_of hk ht (not_ended_of_encoding hs)
  obtain ⟨hdst, hpos⟩ := hth.encoding hs
  rw [rpSendBuffer_ok (Or.inl rfl)]
  refine hi.encoder (k := k) (t := t)
    ⟨hk, ht, not_ended_of_encoding hs, fun _ _ h => update_update_ne _ h _,
      fun _ _ h => update_update_ne _ h _, ?_, ?_, fun x => Or.inl rfl, fun _ => ?_⟩
  · rw [update_update_self]
  · rw [update_update_self]
    exact Nat.le_add_right _ _
  · constructor <;> simp only [setEnc, update_update_self]
    · exact hth.written_le
    · exact le_rfl
    · intro hne
      cases hne
    · exact fun _ => ⟨by omega, hall⟩
    · rw [hth.flag, hs]
      rfl
    · exact hth.buf_le
    · exact hth.send_le.trans (Nat.le_add_right _ _)
    · exact hth.mem

theorem inv_flag (hi : Inv L frames st) (h : flag L st k t = some st') : Inv L frames st' := by
  simp only [flag, Option.ite_none_right_eq_some, Option.some.injEq] at h
  obtain ⟨⟨hk, ht, hs⟩, rfl⟩ := h
  have hne : ¬Ended st k t := by
    intro he
    rw [Ended, hs] at he
    cases he
  have hth := hi.thread_of hk ht hne
  obtain ⟨hpos, hall⟩ := hth.counted (by rw [hs]; decide)
  refine hi.encoder (k := k) (t := t)
    ⟨hk, ht, hne, fun _ _ h => update_update_ne _ h _, fun _ _ h => update_update_ne _ h _, ?_, ?_,
      fun x => Or.inl rfl, fun _ => ?_⟩
  · rw [update_update_self]
  · rw [update_update_self]
  · constructor <;> simp only [setEnc, update_update_self]
    · exact hth.written_le
    · exact hth.free_le
    · intro hne
      cases hne
    · exact fun _ => ⟨hpos, hall⟩
    · rfl
    · exact hth.buf_le
    · exact hth.send_le
    · exact hth.mem

/-! ### Starting a frame -/

theorem slot_succ_ne (k : ℕ) : (k + 1) % WORK_COUNT ≠ k % WORK_COUNT := by
  rw [show WORK_COUNT = 2 from rfl]
  omega

theorem Inv.acquired_lt (hi : Inv L frames st) (h : 0 < st.nwm_done (st.acquired % WORK_COUNT)) :
    st.acquired < st.released + 2 := by
  by_contra hge
  have hle := hi.acquired_le_released
  have h0 := hi.nwm_done_zero st.released le_rfl (by omega)
  rw [show WORK_COUNT = 2 from rfl] at h h0
  rw [show st.acquired % 2 = st.released % 2 by omega] at h
  omega

theorem inv_ready (hi : Inv L frames st) (h : ready st = some st') : Inv L frames st' := by
  simp only [ready, Option.ite_none_right_eq_some, Option.some.injEq] at h
  obtain ⟨hlt, rfl⟩ := h
  have h1 := hi.begun_le
  have h2 := hi.acquired_le
  have h3 := hi.acquired_le_released
  have h4 := hi.released_le
  have hsame : Same st { st with
      readied := st.readied + 1
      nwm_ready := update st.nwm_ready (st.readied % WORK_COUNT)
        (st.nwm_ready (st.readied % WORK_COUNT) + 1) } :=
    ⟨rfl, fun _ => rfl, rfl, rfl, rfl⟩
  have hcases : st.readied = st.released ∨ st.readied = st.released + 1 := by omega
  refine
    { hi with
      begun_le := h1.trans (Nat.le_succ _)
      readied_le := hlt
      released_le := h4.trans (Nat.le_succ _)
      next_syn := ⟨hi.next_syn.1, ?_⟩
      waiting := fun hs => ⟨(hi.waiting hs).1, ?_⟩
      running := fun hs => ⟨(hi.running hs).1.trans (Nat.lt_succ_self _), ?_⟩
      threads := fun k h1 h2 t ht =>
        (hi.threads k h1 h2 t ht).congr rfl rfl fun _ _ _ => rfl
      sent := hi.sent_same hsame Iff.rfl rfl rfl
      pc := hi.pc_same hsame rfl rfl }
  · show update st.nwm_ready _ _ ((st.released + 1) % WORK_COUNT) =
      if st.released + 1 < st.readied + 1 then 1 else 0
    have hn := hi.next_syn.2
    rcases hcases with hr | hr
    · rw [hr, Function.update_of_ne (slot_succ_ne _), hn, if_neg (by omega), if_neg (by omega)]
    · rw [hr, Function.update_self, hn, if_neg (by omega), if_pos (by omega)]
  · show update st.nwm_ready _ _ (slot st) = if st.released < st.readied + 1 then 1 else 0
    have hn := (hi.waiting hs).2
    rcases hcases with hr | hr
    · rw [hr, slot, Function.update_self, ← slot, hn, if_neg (by omega), if_pos (by omega)]
    · rw [hr, slot, Function.update_of_ne (slot_succ_ne _).symm, ← slot, hn, if_pos (by omega),
        if_pos (by omega)]
  · show update st.nwm_ready _ _ (slot st) = 0
    obtain ⟨hlt', hn⟩ := hi.running hs
    have hr : st.readied = st.released + 1 := by omega
    rw [hr, slot, Function.update_of_ne (slot_succ_ne _).symm]
    exact hn

theorem inv_begin (hi : Inv L frames st) (h : begin L frames st = some st') :
    Inv L frames st' := by
  simp only [begin, Option.ite_none_right_eq_some, Option.some.injEq] at h
  obtain ⟨hlt, rfl⟩ := h
  have h1 := hi.readied_le
  have h2 := hi.acquired_le
  have h3 := hi.acquired_le_released
  have hsame : Same st { st with
      begun := st.begun + 1
      lossless_hdr :=
        update st.lossless_hdr (st.begun % WORK_COUNT) (frames st.begun).losslessHdr } :=
    ⟨rfl, fun _ => rfl, rfl, rfl, rfl⟩
  exact
    { hi with
      begun_le := hlt
      acquired_le := h2.trans (Nat.le_succ _)
      fresh := fun k t hk => hi.fresh k t ((Nat.le_succ _).trans hk)
      threads := fun k h1 h2 t ht =>
        (hi.threads k h1 h2 t ht).congr rfl rfl fun _ _ _ => rfl
      lossless_hdr := fun k hk hkb => by
        show update st.lossless_hdr _ _ (k % WORK_COUNT) = _
        have hkr : st.released ≤ k := hk
        have hkb' : k < st.begun + 1 := hkb
        rcases eq_or_ne k st.begun with rfl | hne
        · rw [Function.update_self]
        · have hslot : k % WORK_COUNT ≠ st.begun % WORK_COUNT := by
            rw [show WORK_COUNT = 2 from rfl]
            omega
          rw [Function.update_of_ne hslot]
          exact hi.lossless_hdr k hkr (by omega)
      sent := hi.sent_same hsame Iff.rfl rfl rfl
      pc := hi.pc_same hsame rfl rfl }

theorem Inv.pc_waiting (hi : Inv L frames st) (hs : st.need_syn (slot st) = true) :
    st.pc = .top ∨ ∃ w t, st.pc = .acquire w t := by
  have hno : ∀ w t, ¬Current st w t := fun w t hc => by
    rw [hc.2.2] at hs
    cases hs
  have hpc := hi.pc
  rcases hp : st.pc with _ | ⟨w, t⟩ | ⟨w, t⟩ | ⟨w, t, flag⟩ | ⟨w, t, flag, pos⟩ | a | ⟨a, flag⟩ |
    ⟨a, size, done⟩ | a | a <;> rw [hp] at hpc
  · exact Or.inl rfl
  · exact Or.inr ⟨w, t, rfl⟩
  · exact absurd hpc (hno _ _)
  all_goals exact absurd hpc.1 (hno _ _)

theorem Inv.not_acquired (hi : Inv L frames st) (h : st.acquired = st.released) :
    st.need_syn (slot st) = true ∧ st.sent st.released = [] := by
  have h2 := hi.readied_le
  have hs : st.need_syn (slot st) = true := by
    rcases hs : st.need_syn (slot st) with _ | _
    · have := (hi.running hs).1
      omega
    · rfl
  refine ⟨hs, ?_⟩
  have hsent : Partial (frames st.released) (st.sent st.released) 0 := by
    have hsent := hi.sent
    have hn : ¬st.released < st.acquired := by omega
    rcases hi.pc_waiting hs with hp | ⟨w, t, hp⟩ <;>
      simpa only [hp, CurrentSent, if_neg hn] using hsent
  have hlen := hsent.2
  rcases Nat.mul_eq_zero.mp hlen with h0 | h0
  · exact List.eq_nil_of_length_eq_zero h0
  · exact absurd h0 L.packet_data_size_pos.ne'

theorem inv_acquire (hi : Inv L frames st) (h : acquire L frames st = some st') :
    Inv L frames st' := by
  simp only [acquire, Option.ite_none_right_eq_some, Option.some.injEq] at h
  obtain ⟨⟨hidle, hdone⟩, rfl⟩ := h
  have h1 := hi.begun_le
  have h2 := hi.readied_le
  have h4 := hi.released_le
  have hlt := hi.acquired_lt hdone
  have hcases : st.acquired = st.released ∨ st.acquired = st.released + 1 := by omega
  have hdone1 := hi.nwm_done_le (st.acquired % WORK_COUNT)
  -- the frame before it is in the other slot
  have hother : ∀ k, st.released ≤ k → k < st.acquired →
      k % WORK_COUNT ≠ st.acquired % WORK_COUNT :=
    fun k hk hka => by
      rw [show WORK_COUNT = 2 from rfl]
      omega
  have hsent : st.sent st.acquired = [] := by
    rcases hcases with hr | hr
    · rw [hr]
      exact (hi.not_acquired hr).2
    · exact hi.sent_after _ (by omega)
  have hinfo_ne : ∀ k, st.released ≤ k → k < st.acquired → ∀ f : ℕ → DataInfo,
      update st.info (st.acquired % WORK_COUNT) f (k % WORK_COUNT) = st.info (k % WORK_COUNT) :=
    fun k hk hka f => Function.update_of_ne (hother k hk hka) _ _
  have hsplit : ∀ k, k < st.acquired + 1 → k = st.acquired ∨ k < st.acquired := fun k hk => by omega
  refine
    { hi with
      readied_le := h2.trans (Nat.le_succ _)
      acquired_le := by show st.acquired + 1 ≤ st.begun + 1; omega
      acquired_le_released := hlt
      nwm_done_le := fun w => ?_
      nwm_done_zero := fun k hk hka => ?_
      threads := fun k hk hka t ht => ?_
      passed := fun _ t ht => ?_
      ahead := fun k t hk hka ht hT => ?_
      data_hdr := fun k hk hka => ?_
      sent := ?_
      pc := ?_ }
  · show update st.nwm_done _ _ w ≤ 1
    rcases eq_or_ne w (st.acquired % WORK_COUNT) with rfl | hw
    · rw [Function.update_self]
      omega
    · rw [Function.update_of_ne hw]
      exact hi.nwm_done_le w
  · show update st.nwm_done _ _ (k % WORK_COUNT) = 0
    rcases hsplit k hka with rfl | hlt'
    · rw [Function.update_self]
      omega
    · rw [Function.update_of_ne (hother k hk hlt')]
      exact hi.nwm_done_zero k hk hlt'
  · rcases hsplit k hka with rfl | hlt'
    · have henc := hi.fresh st.acquired t (by omega)
      constructor <;> simp only [henc, freshEncoder, Function.update_self]
      · exact Nat.zero_le _
      · exact le_rfl
      · exact fun _ => ⟨rfl, by omega⟩
      · exact fun hne => absurd rfl hne
      · rfl
      · exact le_rfl
      · exact le_rfl
      · exact fun j _ hj => absurd hj (Nat.not_lt_zero j)
    · exact (hi.threads k hk hlt' t ht).congr rfl (congrFun (hinfo_ne k hk hlt' _) t)
        fun _ _ _ => rfl
  · rcases hcases with hr | hr
    · have ht0 : st.thread_index = 0 := (hi.waiting (hi.not_acquired hr).1).1
      have ht' : t < st.thread_index := ht
      omega
    · exact hi.passed (by omega) t ht
  · show (update st.info _ _ (k % WORK_COUNT) t).send_pos = _
    rcases hsplit k hka with rfl | hlt'
    · rw [Function.update_self]
    · rw [hinfo_ne k hk hlt']
      exact hi.ahead k t hk hlt' ht hT
  · show update st.data_hdr _ _ (k % WORK_COUNT) = _
    rcases hsplit k hka with rfl | hlt'
    · rw [Function.update_self, hsent]
      rfl
    · rw [Function.update_of_ne (hother k hk hlt')]
      exact hi.data_hdr k hk hlt'
  · rcases hcases with hr | hr
    · obtain ⟨hs, hnil⟩ := hi.not_acquired hr
      have ht0 := (hi.waiting hs).1
      have hzero : Partial (frames st.released) (st.sent st.released) 0 := by
        rw [hnil]
        exact ⟨fun i hlen => absurd hlen (Nat.not_lt_zero i), Nat.zero_mul _⟩
      rcases hi.pc_waiting hs with hp | ⟨w, t, hp⟩ <;>
        simp only [hp, CurrentSent, reached, slot, ht0, ← hr, Function.update_self, offset_zero,
          Nat.sub_self, Nat.add_zero, ite_self] at hzero ⊢ <;> exact hzero
    · refine hi.sent_same ?_ ?_ rfl rfl
      · exact ⟨rfl, fun t => congrFun (hinfo_ne st.released le_rfl (by omega) _) t, rfl, rfl, rfl⟩
      · show st.released < st.acquired + 1 ↔ _
        omega
  · rcases hcases with hr | hr
    · have hpc := hi.pc
      rcases hi.pc_waiting (hi.not_acquired hr).1 with hp | ⟨w, t, hp⟩ <;> rw [hp] at hpc ⊢
      · trivial
      · exact hpc
    · refine hi.pc_same ?_ rfl rfl
      exact ⟨rfl, fun t => congrFun (hinfo_ne st.released le_rfl (by omega) _) t, rfl, rfl, rfl⟩

end NwmState

end RemotePlay.Udp
