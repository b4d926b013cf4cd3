import RemotePlay.Udp.PacketEncode

/-! # The sending thread and the packetiser

The sending thread's steps keep the invariant (`inv_nwm`): an attempt that gives up changes nothing
but the memory after a thread's last byte, and one that succeeds sends the next bytes of the
frame. -/

namespace RemotePlay.Udp

open RemotePlay.Encode RemotePlay.Work Lib.Pieces

open Function (update)

namespace NwmState

variable {L : Link} {frames : ℕ → Frame L} {st st' : NwmState} {w t : ℕ} {pc : NwmPc}

/-! ### Finding out -/

theorem currentSent_iff {p : NwmPc} (hp : ∀ a, p ≠ .finish a) :
    CurrentSent L frames st p ↔ Partial (frames st.released) (st.sent st.released)
      (if st.released < st.acquired then reached L frames st else 0) := by
  rcases p with _ | _ | _ | _ | _ | _ | _ | _ | _ | a
  on_goal 10 => exact absurd rfl (hp a)
  all_goals exact Iff.rfl

theorem Inv.goto (hi : Inv L frames st) (hs : CurrentSent L frames st pc)
    (hp : PcInv L frames st pc) : Inv L frames { st with pc := pc } :=
  have hsame : Same st { st with pc := pc } := ⟨rfl, fun _ => rfl, rfl, rfl, rfl⟩
  { hi with
    threads := fun k h1 h2 t ht => (hi.threads k h1 h2 t ht).congr rfl rfl fun _ _ _ => rfl
    sent := hsame.currentSent Iff.rfl rfl hs
    pc := hsame.pcInv rfl hp }

theorem Inv.goto_of (hi : Inv L frames st) (hfrom : ∀ a, st.pc ≠ .finish a)
    (hto : ∀ a, pc ≠ .finish a) (hp : PcInv L frames st pc) : Inv L frames { st with pc := pc } :=
  hi.goto ((currentSent_iff hto).mpr ((currentSent_iff hfrom).mp hi.sent)) hp

theorem Inv.running_lt (hi : Inv L frames st) (hc : Current st w t) : st.released < st.acquired :=
  (hi.running hc.2.2).1.trans_le hi.readied_le

theorem Inv.thread (hi : Inv L frames st) (hc : Current st w t) {u : ℕ} (hu : u < L.n) :
    ThreadInv L frames st st.released u :=
  hi.threads _ le_rfl (hi.running_lt hc) u hu

theorem ThreadInv.ended_of_flag {k : ℕ} (h : ThreadInv L frames st k t)
    (hf : 0 < (st.info (k % WORK_COUNT) t).flag) :
    (st.info (k % WORK_COUNT) t).flag = TERM_FLAG ∧ Ended st k t := by
  have hflag := h.flag
  by_cases he : (st.enc k t).stage = .ended
  · rw [if_pos he] at hflag
    exact ⟨hflag, he⟩
  · rw [if_neg he] at hflag
    omega

theorem ThreadInv.ended_pos {k : ℕ} (h : ThreadInv L frames st k t) (he : Ended st k t) :
    (st.info (k % WORK_COUNT) t).pos =
      (L.ninfo (k % WORK_COUNT) t).buf + ((frames k).stream t).length :=
  (h.counted (by rw [he]; decide)).1

theorem ThreadInv.byte (h : ThreadInv L frames st st.released t) (ht : t < L.n) {i : ℕ}
    (hi : (st.info (slot st) t).send_pos + i < (st.info (slot st) t).pos) :
    some (st.mem ((st.info (slot st) t).send_pos + i)) = (frames st.released).bytes[
      offset (frames st.released).stream t +
        ((st.info (slot st) t).send_pos - (L.ninfo (slot st) t).buf) + i]? := by
  have hbuf := h.buf_le
  have hpos := h.pos_le
  have hwr := h.written_le
  obtain ⟨j, hj⟩ := Nat.exists_eq_add_of_le hbuf
  have hmem := h.mem (j + i) (by omega) (by unfold slot at hi; omega)
  rw [slot, hj, Nat.add_sub_cancel_left, Nat.add_assoc, Nat.add_assoc, hmem]
  exact (getElem?_joined _ ht (by unfold slot at hi; omega)).symm

theorem reached_le (hi : Inv L frames st) (hc : Current st w t) :
    reached L frames st ≤ offset (frames st.released).stream (st.thread_index + 1) := by
  have hth := hi.thread hc hi.thread_lt
  have h1 := hth.send_le
  have h2 := hth.pos_le
  have h3 := hth.written_le
  rw [offset_succ, reached, slot]
  omega

theorem gathered_own (hi : Inv L frames st) (hc : Current st w t) {size : ℕ}
    (h : (st.info (slot st) st.thread_index).send_pos + size ≤
      (st.info (slot st) st.thread_index).pos) : Gathered L frames st size := fun j hj =>
  (hi.thread hc hi.thread_lt).byte hi.thread_lt (by omega)

/-! ### An attempt goes on -/

theorem pcInv_done (hi : Inv L frames st) {a : Attempt} (hc : Current st a.w a.t) {e : ℕ}
    (hflag : a.flag = TERM_FLAG) (hdone : a.thread_done = true) (hend : a.end_done = true)
    (he : e < L.n) (hTe : st.thread_index ≤ e) (hindex : a.end_index = L.nextWrapped e)
    (hended : ∀ t, st.thread_index ≤ t → t ≤ e → Ended st st.released t)
    (hle : a.total_size ≤ L.packet_data_size)
    (hreached : reached L frames st + a.total_size = offset (frames st.released).stream (e + 1))
    (hg : Gathered L frames st a.total_size) : PcInv L frames st (attemptNext a) := by
  have hn := L.n_pos
  rw [attemptNext]
  rcases eq_or_ne e (L.n - 1) with heq | hne
  · have h0 : a.end_index = 0 := by rw [hindex, Link.nextWrapped, if_pos heq]
    rw [if_neg fun h => h.2 h0]
    refine ⟨hc, Or.inl ⟨hflag, hdone, hend, h0, fun t ht => ?_, hle, ?_⟩, hg⟩
    · rcases Nat.lt_or_ge t st.thread_index with hlt | hge
      · exact hi.passed (hi.running_lt hc) t hlt
      · exact hended t hge (by omega)
    · rw [hreached, show e + 1 = L.n by omega]
      rfl
  · have h1 : a.end_index = e + 1 := by rw [hindex, Link.nextWrapped, if_neg hne]
    rw [if_pos ⟨hend, by omega⟩]
    refine ⟨hc, hflag, hdone, hend, by omega, by omega, fun t h2 h3 => ?_, hle, ?_, hg⟩
    · exact hended t h2 (by omega)
    · rw [hreached, h1]

theorem pcInv_full {a : Attempt} (hc : Current st a.w a.t) (hf : Full L frames st a)
    (hg : Gathered L frames st a.total_size) : PcInv L frames st (attemptNext a) := by
  rw [attemptNext, if_neg fun h => by rw [hf.end_done] at h; exact absurd h.1 (by decide)]
  exact ⟨hc, Or.inr hf, hg⟩

theorem attemptNext_ne (a b : Attempt) : attemptNext a ≠ .finish b := by
  rw [attemptNext]
  split_ifs <;> nofun

/-! ### The steps -/

theorem inv_top (hi : Inv L frames st) (hp : st.pc = .top) (h : nwm L st = some st') :
    Inv L frames st' := by
  simp only [nwm, hp, Option.some.injEq] at h
  subst h
  exact hi.goto_of (by rw [hp]; nofun) nofun ⟨hi.work_index, rfl⟩

theorem inv_acquire_nwm (hi : Inv L frames st) (hp : st.pc = .acquire w t)
    (h : nwm L st = some st') : Inv L frames st' := by
  obtain ⟨rfl, rfl⟩ : w = slot st ∧ t = st.thread_index := by
    have hpc := hi.pc
    rwa [hp] at hpc
  simp only [nwm, hp] at h
  rcases hs : st.need_syn (slot st) with _ | _
  · rw [hs, if_neg (by decide), Option.some.injEq] at h
    subst h
    exact hi.goto_of (by rw [hp]; nofun) nofun ⟨rfl, rfl, hs⟩
  · rw [hs, if_pos rfl, Option.ite_none_right_eq_some, Option.some.injEq] at h
    obtain ⟨hready, rfl⟩ := h
    obtain ⟨-, hn⟩ := hi.waiting hs
    have hlt : st.released < st.readied := by
      by_contra hge
      rw [if_neg hge] at hn
      omega
    rw [if_pos hlt] at hn
    have hsent := hi.sent
    rw [hp, currentSent_iff (p := .acquire _ _) nofun] at hsent
    have hsame : Same st { st with
        pc := .readFlag (slot st) st.thread_index
        nwm_ready := update st.nwm_ready (slot st) (st.nwm_ready (slot st) - 1)
        need_syn := update st.need_syn (slot st) false } := ⟨rfl, fun _ => rfl, rfl, rfl, rfl⟩
    exact
      { hi with
        next_syn := by
          show update st.need_syn _ _ _ = true ∧ update st.nwm_ready _ _ _ = _
          rw [slot, Function.update_of_ne (slot_succ_ne _), Function.update_of_ne (slot_succ_ne _)]
          exact hi.next_syn
        waiting := fun h => by
          have h' : update st.need_syn (slot st) false (slot st) = true := h
          rw [Function.update_self] at h'
          cases h'
        running := fun _ => by
          refine ⟨hlt, ?_⟩
          show update st.nwm_ready _ _ (slot st) = 0
          rw [Function.update_self, hn]
        threads := fun k h1 h2 t ht => (hi.threads k h1 h2 t ht).congr rfl rfl fun _ _ _ => rfl
        sent := hsame.currentSent Iff.rfl rfl
          ((currentSent_iff (p := .readFlag _ _) nofun).mpr hsent)
        pc := ⟨rfl, rfl, Function.update_self _ _ _⟩ }

theorem inv_readFlag (hi : Inv L frames st) (hp : st.pc = .readFlag w t)
    (h : nwm L st = some st') : Inv L frames st' := by
  have hc : Current st w t := by
    have hpc := hi.pc
    rwa [hp] at hpc
  simp only [nwm, hp, Option.some.injEq] at h
  subst h
  refine hi.goto_of (by rw [hp]; nofun) nofun ⟨hc, fun hf => ?_⟩
  obtain ⟨rfl, rfl, -⟩ := id hc
  exact (hi.thread hc hi.thread_lt).ended_of_flag hf

theorem inv_readPos (hi : Inv L frames st) {flag : ℕ} (hp : st.pc = .readPos w t flag)
    (h : nwm L st = some st') : Inv L frames st' := by
  obtain ⟨hc, hflag⟩ : Current st w t ∧ (0 < flag → flag = TERM_FLAG ∧ Ended st st.released t) := by
    have hpc := hi.pc
    rwa [hp] at hpc
  simp only [nwm, hp] at h
  split_ifs at h <;> obtain rfl := Option.some.inj h
  · refine hi.goto_of (by rw [hp]; nofun) nofun
      ⟨hc, fun hf => ⟨(hflag hf).1, (hflag hf).2, rfl⟩, ?_, le_rfl⟩
    obtain ⟨rfl, rfl, -⟩ := id hc
    exact (hi.thread hc hi.thread_lt).send_le
  · exact hi.goto_of (by rw [hp]; nofun) nofun trivial

theorem inv_attempt (hi : Inv L frames st) {flag pos : ℕ} (hp : st.pc = .attempt w t flag pos)
    (h : nwm L st = some st') : Inv L frames st' := by
  have hpc := hi.pc
  rw [hp] at hpc
  obtain ⟨hc, hflag, hsend, hpos⟩ := hpc
  simp only [nwm, hp] at h
  split at h <;> obtain rfl := Option.some.inj h
  · exact hi.goto_of (by rw [hp]; nofun) nofun trivial
  rename_i hshort
  refine hi.goto_of (by rw [hp]; nofun) (fun _ => attemptNext_ne _ _) ?_
  obtain ⟨rfl, rfl, -⟩ := id hc
  have hth := hi.thread hc hi.thread_lt
  have hbuf := hth.buf_le
  generalize hsize : min (pos - (st.info (slot st) st.thread_index).send_pos) L.packet_data_size =
    size at hshort ⊢
  have hg : Gathered L frames st size := gathered_own hi hc (by omega)
  by_cases hdone : (st.info (slot st) st.thread_index).send_pos + size = pos ∧ 0 < flag
  · -- the thread is done: what it has is all there is
    obtain ⟨hterm, hended, hall⟩ := hflag hdone.2
    have hend := hth.ended_pos hended
    simp only [hdone, and_self, decide_true, if_true]
    refine pcInv_done hi hc hterm rfl rfl hi.thread_lt le_rfl rfl
      (fun t h1 h2 => le_antisymm h2 h1 ▸ hended) (by simp only; omega) ?_ hg
    rw [offset_succ, reached]
    unfold slot at *
    simp only
    omega
  · have hfull : size = L.packet_data_size := by
      simp only [hdone, decide_false, Bool.false_eq_true, not_false_eq_true, and_true] at hshort
      omega
    simp only [hdone, decide_false, Bool.false_eq_true, if_false]
    refine pcInv_full ⟨rfl, rfl, hc.2.2⟩ ⟨rfl, hfull, le_rfl, hi.thread_lt, ?_, fun t h1 h2 => ?_,
      rfl, ?_⟩ hg
    · exact iff_of_false Bool.false_ne_true (lt_irrefl _)
    · exact absurd h2 (not_lt.mpr h1)
    · simp only
      omega

theorem inv_nextFlag (hi : Inv L frames st) {a : Attempt} (hp : st.pc = .nextFlag a)
    (h : nwm L st = some st') : Inv L frames st' := by
  obtain ⟨hc, hj⟩ : Current st a.w a.t ∧ Joining L frames st a := by
    have hpc := hi.pc
    rwa [hp] at hpc
  simp only [nwm, hp, Option.some.injEq] at h
  subst h
  refine hi.goto_of (by rw [hp]; nofun) nofun ⟨hc, hj, fun hf => ?_⟩
  rw [hc.1] at hf
  exact ((hi.thread hc hj.index_le).ended_of_flag hf).2

theorem inv_nextPos (hi : Inv L frames st) {a : Attempt} {flag : ℕ} (hp : st.pc = .nextPos a flag)
    (h : nwm L st = some st') : Inv L frames st' := by
  obtain ⟨hc, hj, hflag⟩ : Current st a.w a.t ∧ Joining L frames st a ∧
      (0 < flag → Ended st st.released a.end_index) := by
    have hpc := hi.pc
    rwa [hp] at hpc
  have hle := hj.total_le
  have hsend := (hi.thread hc hj.index_le).send_le
  simp only [nwm, hp] at h
  split_ifs at h with hfilled hshort <;> obtain rfl := Option.some.inj h
  · exact hi.goto_of (by rw [hp]; nofun) nofun trivial
  · rw [hc.1] at hshort ⊢
    generalize hsize : min ((st.info (slot st) a.end_index).pos -
      (st.info (slot st) a.end_index).send_pos) (L.packet_data_size - a.total_size) =
        size at hshort ⊢
    unfold slot at hshort hsize
    refine hi.goto_of (by rw [hp]; nofun) nofun
      ⟨hc, hj, by omega, by unfold slot; omega, fun hd => ?_, fun hd => ?_⟩
    · obtain ⟨h1, h2⟩ := of_decide_eq_true hd
      exact ⟨hflag h2, h1⟩
    · have hd' := of_decide_eq_false hd
      rw [decide_eq_false (by exact hd')] at hshort
      simp only [Bool.false_eq_true, not_false_eq_true, and_true] at hshort
      omega
  · exact hi.goto_of (by rw [hp]; nofun) nofun trivial

/-! ### Writing to memory -/

/-- **The sending thread writes only outside the bytes still to be sent**: below the next packet, or
after the last byte of its thread. -/
theorem Inv.setMem (hi : Inv L frames st) (hfrom : ∀ a, st.pc ≠ .finish a)
    (mem : ℕ → UInt8) (hm : ∀ x, mem x = st.mem x ∨ InBuffer L (slot st) st.thread_index x ∧
      (x < (st.info (slot st) st.thread_index).send_pos ∨
        (L.ninfo (slot st) st.thread_index).buf +
          ((frames st.released).stream st.thread_index).length ≤ x)) :
    Inv L frames { st with mem := mem, pc := .top } :=
  { hi with
    threads := fun k hk hka u hu => by
      have hth := hi.threads k hk hka u hu
      refine hth.congr rfl rfl fun j hj hjw => ?_
      refine (hm _).resolve_right ?_
      rintro ⟨hin, hx⟩
      have hwr := hth.written_le
      have hin' : InBuffer L (k % WORK_COUNT) u ((L.ninfo (k % WORK_COUNT) u).buf + j) :=
        (frames k).inBuffer hu (by omega) (by omega)
      obtain ⟨hw, rfl⟩ := hin'.disjoint hin (Nat.mod_lt _ (by decide)) hu
        (Nat.mod_lt _ (by decide)) hi.thread_lt
      obtain rfl := hi.slot_inj hk hka hw
      unfold slot at hx
      omega
    sent := (currentSent_iff (p := .top) nofun).mpr ((currentSent_iff hfrom).mp hi.sent)
    pc := trivial }

theorem inv_copy (hi : Inv L frames st) {a : Attempt} {size : ℕ} {done : Bool}
    (hp : st.pc = .copy a size done) (h : nwm L st = some st') : Inv L frames st' := by
  have hpc := hi.pc
  rw [hp] at hpc
  obtain ⟨hc, hj, hroom, hpos, hdone, hmore⟩ := hpc
  simp only [nwm, hp, Option.some.injEq] at h
  rw [hc.1, hc.2.1] at h
  have hth := hi.thread hc hi.thread_lt
  have hthe := hi.thread hc hj.index_le
  have hbuf : (L.ninfo (slot st) st.thread_index).buf ≤
      (st.info (slot st) st.thread_index).send_pos := hth.buf_le
  have hlast : (st.info (slot st) st.thread_index).send_pos ≤
      (L.ninfo (slot st) st.thread_index).buf +
        ((frames st.released).stream st.thread_index).length :=
    hth.send_le.trans (hth.pos_le.trans (Nat.add_le_add_left hth.written_le _))
  have hahead : (st.info (slot st) a.end_index).send_pos = (L.ninfo (slot st) a.end_index).buf :=
    hi.ahead _ _ le_rfl (hi.running_lt hc) hj.index_le fun _ => hj.index_lt
  -- the bytes so far go beyond the thread's own
  have hreached := hj.reached
  have hbeyond : offset (frames st.released).stream st.thread_index +
      ((frames st.released).stream st.thread_index).length ≤
        offset (frames st.released).stream a.end_index := offset_add_le _ hj.index_lt
  rw [reached] at hreached
  generalize hbs : read st.mem (st.info (slot st) a.end_index).send_pos size = bs at h
  have hlen : bs.length = size := by rw [← hbs, length_read]
  have hfrom : ∀ a, st.pc ≠ .finish a := by
    intro b hb
    rw [hp] at hb
    cases hb
  have hi' := hi.setMem hfrom
    (Lib.Pieces.write st.mem
      ((st.info (slot st) st.thread_index).send_pos + a.total_size) bs) fun x => by
      by_cases hx : x < (st.info (slot st) st.thread_index).send_pos + a.total_size
      · exact Or.inl (write_of_lt hx)
      by_cases hx' : (st.info (slot st) st.thread_index).send_pos + a.total_size + bs.length ≤ x
      · exact Or.inl (write_of_ge hx')
      · exact Or.inr ⟨(frames st.released).inBuffer hi.thread_lt (by omega) (by omega),
          Or.inr (by omega)⟩
  have hg : Gathered L frames { st with
      mem := Lib.Pieces.write st.mem
        ((st.info (slot st) st.thread_index).send_pos + a.total_size) bs
      pc := .top } (a.total_size + size) := by
    intro j hj'
    show some (Lib.Pieces.write st.mem _ _ ((st.info (slot st) st.thread_index).send_pos + j)) = _
    rcases Nat.lt_or_ge j a.total_size with hlt | hge
    · rw [write_of_lt (by omega)]
      exact hj.gathered j hlt
    · obtain ⟨i, rfl⟩ := Nat.exists_eq_add_of_le hge
      have hbyte := hthe.byte hj.index_le (i := i) (by omega)
      rw [← Nat.add_assoc, write_at (by omega), ← hbs, Lib.Pieces.read, List.getElem?_map,
        List.getElem?_range (by omega), Option.map_some, hbyte, hahead, Nat.sub_self, Nat.add_zero,
        ← hj.reached, Nat.add_assoc]
      rfl
  subst h
  refine hi'.goto_of ?_ (fun _ => attemptNext_ne _ _) ?_
  · rintro b ⟨⟩
  rcases done with _ | _
  · have hfull := hmore rfl
    refine pcInv_full ⟨rfl, rfl, hc.2.2⟩ ⟨rfl, hfull, hj.index_lt.le, hj.index_le, ?_, hj.ended,
      ?_, hpos⟩ hg
    · exact iff_of_true hj.thread_done hj.index_lt
    · show reached L frames st + (a.total_size + size) =
        offset (frames st.released).stream a.end_index +
          ((st.info (slot st) a.end_index).send_pos - (L.ninfo (slot st) a.end_index).buf) + size
      rw [hahead, Nat.sub_self, Nat.add_zero, ← Nat.add_assoc, hj.reached]
  · obtain ⟨hended, hall⟩ := hdone rfl
    refine pcInv_done hi' ⟨rfl, rfl, hc.2.2⟩ hj.flag hj.thread_done rfl hj.index_le
      hj.index_lt.le rfl (fun t h1 h2 => ?_) hroom ?_ hg
    · rcases h2.lt_or_eq with hlt | rfl
      · exact hj.ended t h1 hlt
      · exact hended
    · have hend := hthe.ended_pos hended
      show reached L frames st + (a.total_size + size) = _
      rw [offset_succ, ← Nat.add_assoc, hj.reached]
      unfold slot at *
      show offset (frames st.released).stream a.end_index + size =
        offset (frames st.released).stream a.end_index +
          ((frames st.released).stream a.end_index).length
      omega

/-! ### Sending -/

theorem Inv.begun_of_ready (hi : Inv L frames st) {a : Attempt} (hc : Current st a.w a.t)
    (hr : Last L frames st a ∨ Full L frames st a) : st.released < st.begun := by
  by_contra hge
  have hfresh := fun t => hi.fresh st.released t (not_lt.mp hge)
  have hne : ∀ t, ¬Ended st st.released t := fun t he => by
    rw [Ended, hfresh t] at he
    cases he
  rcases hr with hl | hf
  · exact hne 0 (hl.ended 0 L.n_pos)
  · rcases hf.index_le.lt_or_eq with hlt | heq
    · exact hne _ (hf.ended _ le_rfl hlt)
    · have hth := hi.thread hc hi.thread_lt
      have hwr : (st.enc st.released st.thread_index).written = 0 := by
        rw [hfresh]
        rfl
      have h1 := hth.pos_le
      have h2 := hth.buf_le
      have h3 := hf.pos_le
      have h4 := hf.reached
      have h5 := hf.total_eq
      have hP := L.packet_data_size_pos
      rw [← heq, reached] at h4
      rw [← heq] at h3
      unfold slot at h3 h4
      omega

/-- A packet is sent. -/
theorem Inv.append (hi : Inv L frames st) (hfrom : ∀ a, st.pc ≠ .finish a) {a : Attempt}
    (hc : Current st a.w a.t) (hr : Last L frames st a ∨ Full L frames st a) {p : Packet}
    (hp : PacketAt (frames st.released) (st.sent st.released).length p a.end_done) :
    Inv L frames { st with
      data_hdr := update st.data_hdr (slot st)
        { st.data_hdr (slot st) with b3 := (st.data_hdr (slot st)).b3 + 1 }
      pc := .finish a
      sent := update st.sent st.released (st.sent st.released ++ [p]) } := by
  have hlt := hi.running_lt hc
  obtain ⟨hall, hlen⟩ :
      Partial (frames st.released) (st.sent st.released) (reached L frames st) := by
    have hs := (currentSent_iff hfrom).mp hi.sent
    rwa [if_pos hlt] at hs
  have hdata := hi.data_hdr st.released le_rfl hlt
  refine
    { hi with
      threads := fun k h1 h2 t ht => (hi.threads k h1 h2 t ht).congr rfl rfl fun _ _ _ => rfl
      data_hdr := fun k hk hka => ?_
      sent_before := fun k hk => ?_
      sent_after := fun k hk => ?_
      sent := ?_
      pc := ⟨hc, hr.imp (fun h => { h with }) fun h => { h with }⟩ }
  · dsimp only at hk hka ⊢
    rcases eq_or_ne k st.released with rfl | hne
    · rw [slot, Function.update_self, Function.update_self, hdata, List.length_append,
        List.length_singleton, UInt8.ofNat_add]
      rfl
    · have hw : k % WORK_COUNT ≠ slot st := fun hw => hne (hi.slot_inj hk hka hw)
      rw [Function.update_of_ne hw, Function.update_of_ne hne]
      exact hi.data_hdr k hk hka
  · show Complete _ (update st.sent _ _ k)
    rw [Function.update_of_ne (Nat.ne_of_lt hk)]
    exact hi.sent_before k hk
  · show update st.sent _ _ k = []
    rw [Function.update_of_ne (Nat.ne_of_gt hk)]
    exact hi.sent_after k hk
  · simp only [CurrentSent, Function.update_self]
    rcases hr with hl | hf
    · rw [hl.end_done, if_pos rfl]
      rw [hl.end_done] at hp
      have h1 := hl.total_le
      have h2 := hl.reached
      refine ⟨_, p, rfl, hall, hp, by omega, ?_⟩
      rw [Nat.add_mul, Nat.one_mul]
      omega
    · rw [hf.end_done, if_neg (by decide)]
      rw [hf.end_done] at hp
      refine ⟨fun i h => ?_, ?_⟩
      · rcases Nat.lt_or_ge i (st.sent st.released).length with hlt' | hge
        · rw [List.getElem_append_left hlt']
          exact hall i hlt'
        · obtain rfl : i = (st.sent st.released).length := by
            rw [List.length_append, List.length_singleton] at h
            omega
          rw [List.getElem_append_right le_rfl]
          simp only [Nat.sub_self, List.getElem_cons_zero]
          exact hp
      · rw [List.length_append, List.length_singleton, Nat.add_mul, Nat.one_mul, hlen, hf.total_eq]
        rfl

theorem length_headers (a : Attempt) (dh : DataHdr) (lh : LosslessDataHdr) :
    (headers L a dh lh).length =
      NWM_HDR_SIZE + DATA_HDR_SIZE + if L.lossless then RP_LOSSLESS_HDR_SIZE else 0 := by
  rw [headers, List.length_append, List.length_append, L.length_nwm_hdr]
  cases L.lossless <;> rfl

theorem headers_le (a : Attempt) (dh : DataHdr) (lh : LosslessDataHdr) (w t : ℕ) :
    (headers L a dh lh).length ≤ (L.ninfo w t).buf ∧ (headers L a dh lh).length ≤
      RP_CB_HDR_SIZE + if L.lossless then RP_LOSSLESS_HDR_SIZE else 0 := by
  have h : NWM_HDR_SIZE + DATA_HDR_SIZE ≤ RP_CB_HDR_SIZE := by decide
  have hbuf : (L.ninfo w t).buf = bufStart L.lossless L.core_count w t + RP_CB_HDR_SIZE +
      if L.lossless then RP_LOSSLESS_HDR_SIZE else 0 := rfl
  rw [length_headers]
  exact ⟨by omega, by omega⟩

theorem payload_eq {total : ℕ} (hg : Gathered L frames st total)
    (h : total = L.packet_data_size ∨ total ≤ L.packet_data_size ∧
      reached L frames st + total = (frames st.released).bytes.length) :
    read st.mem (st.info (slot st) st.thread_index).send_pos total =
      ((frames st.released).bytes.drop (reached L frames st)).take L.packet_data_size := by
  rw [read_eq hg]
  rcases h with rfl | ⟨hle, hall⟩
  · rfl
  · have hlen : ((frames st.released).bytes.drop (reached L frames st)).length = total := by
      rw [List.length_drop]
      omega
    rw [List.take_of_length_le hlen.le, List.take_of_length_le (hlen.le.trans hle)]

theorem inv_send (hi : Inv L frames st) {a : Attempt} (hp : st.pc = .send a)
    (h : nwm L st = some st') : Inv L frames st' := by
  have hpc := hi.pc
  rw [hp] at hpc
  obtain ⟨hc, hr, hg⟩ := hpc
  have hfrom : ∀ a, st.pc ≠ .finish a := by
    rw [hp]
    nofun
  simp only [nwm, hp, Option.some.injEq] at h
  rw [hc.1, hc.2.1] at h
  have hlt := hi.running_lt hc
  have hth := hi.thread hc hi.thread_lt
  have hbuf : (L.ninfo (slot st) st.thread_index).buf ≤
      (st.info (slot st) st.thread_index).send_pos := hth.buf_le
  have hlast : (st.info (slot st) st.thread_index).send_pos ≤
      (L.ninfo (slot st) st.thread_index).buf +
        ((frames st.released).stream st.thread_index).length :=
    hth.send_le.trans (hth.pos_le.trans (Nat.add_le_add_left hth.written_le _))
  have hdata : st.data_hdr (slot st) = { (frames st.released).dataHdr with
      b3 := UInt8.ofNat (st.sent st.released).length } := hi.data_hdr _ le_rfl hlt
  have hloss : st.lossless_hdr (slot st) = (frames st.released).losslessHdr :=
    hi.lossless_hdr _ le_rfl (hi.begun_of_ready hc hr)
  generalize hdh : (if a.end_done = true ∧ a.end_index = 0 then _ else _ : DataHdr) = dh at h
  generalize hlh : LosslessDataHdr.mk _ _ = lh at h
  have hsize := headers_le (L := L) a dh lh (slot st) st.thread_index
  generalize hhdrs : headers L a dh lh = hdrs at h hsize
  have hP := L.packet_data_size_pos
  have hi' := hi.setMem hfrom
    (Lib.Pieces.write st.mem ((st.info (slot st) st.thread_index).send_pos - hdrs.length)
      hdrs) fun x => by
      by_cases hx : x < (st.info (slot st) st.thread_index).send_pos - hdrs.length
      · exact Or.inl (write_of_lt hx)
      by_cases hx' : (st.info (slot st) st.thread_index).send_pos ≤ x
      · exact Or.inl (write_of_ge (by omega))
      · exact Or.inr ⟨(frames st.released).inBuffer hi.thread_lt (by omega) (by omega),
          Or.inl (by omega)⟩
  generalize hmem : Lib.Pieces.write st.mem _ _ = mem at h hi'
  have hg' : Gathered L frames { st with mem := mem, pc := .top } a.total_size := fun j hj => by
    show some (mem ((st.info (slot st) st.thread_index).send_pos + j)) = _
    rw [← hmem, write_of_ge (by omega)]
    exact hg j hj
  obtain ⟨-, hlen⟩ : Partial (frames st.released) (st.sent st.released) (reached L frames st) := by
    have hs := (currentSent_iff hfrom).mp hi.sent
    rwa [if_pos hlt] at hs
  subst h
  refine hi'.append nofun hc (hr.imp (fun h => { h with }) fun h => { h with }) ⟨?_, ?_, ?_⟩
  · dsimp only
    rw [hlen]
    refine payload_eq hg' ?_
    rcases hr with hl | hf
    · exact Or.inr ⟨hl.total_le, hl.reached⟩
    · exact Or.inl hf.total_eq
  · dsimp only
    rw [← hdh, hdata]
    rcases hr with hl | hf
    · rw [if_pos ⟨hl.end_done, hl.end_index⟩, hl.end_done, if_pos rfl, hl.flag]
    · rw [if_neg fun h => by rw [hf.end_done] at h; exact absurd h.1 (by decide), hf.end_done,
        if_neg (by decide), UInt8.or_zero]
  · dsimp only
    refine ⟨st.thread_index, hi.thread_lt, ?_, ?_, ?_⟩
    · rw [hlen, reached]
      exact Nat.le_add_right _ _
    · rw [hlen]
      exact reached_le hi hc
    · rw [← hlh]
      show (if L.lossless = true then some _ else none) = _
      rw [hloss]

theorem inv_finish_full (hi : Inv L frames st) {a : Attempt} (hp : st.pc = .finish a)
    (hc : Current st a.w a.t) (hf : Full L frames st a) (h : nwm L st = some st') :
    Inv L frames st' := by
  have hlt := hi.running_lt hc
  have hindex : (if a.thread_done = true then a.end_index else st.thread_index) = a.end_index := by
    by_cases hd : a.thread_done = true
    · rw [if_pos hd]
    · rw [if_neg hd]
      have := hf.index_le
      have := hf.thread_done
      by_contra hne
      exact hd (hf.thread_done.mpr (by omega))
  have hnot : ¬(a.thread_done = true ∧ a.end_index = 0) := by
    rintro ⟨hd, h0⟩
    have := hf.thread_done.mp hd
    omega
  have hst' : st' = { st with
      info := update st.info (slot st) (update (st.info (slot st)) a.end_index
        { st.info (slot st) a.end_index with
          send_pos := (st.info (slot st) a.end_index).send_pos + a.end_size })
      thread_index := a.end_index
      pc := .acquire (slot st) a.end_index } := by
    simp only [nwm, hp, hf.end_done, Bool.false_eq_true, if_false, if_neg hnot, Option.some.injEq,
      hc.1] at h
    rw [← h]
    by_cases hd : a.thread_done = true
    · simp only [hd, if_true, setInfo]
    · rw [if_neg hd] at hindex
      simp only [hd, if_false, setInfo, hindex, Bool.false_eq_true]
  have hself : update st.info (slot st) (update (st.info (slot st)) a.end_index
      { st.info (slot st) a.end_index with
        send_pos := (st.info (slot st) a.end_index).send_pos + a.end_size }) (slot st) a.end_index =
      { st.info (slot st) a.end_index with
        send_pos := (st.info (slot st) a.end_index).send_pos + a.end_size } :=
    update_update_self _ _ _ _
  have hne : ∀ w t, ¬(w = slot st ∧ t = a.end_index) →
      update st.info (slot st) (update (st.info (slot st)) a.end_index
        { st.info (slot st) a.end_index with
          send_pos := (st.info (slot st) a.end_index).send_pos + a.end_size }) w t = st.info w t :=
    fun w t hwt => update_update_ne _ hwt _
  generalize update st.info (slot st) _ = info at hst' hself hne
  subst hst'
  have hth := hi.thread hc hf.index_lt
  have hsend := hth.send_le
  have hbuf := hth.buf_le
  have hpos := hf.pos_le
  refine
    { hi with
      waiting := fun hs => ?_
      thread_lt := hf.index_lt
      threads := fun k hk hka t ht => ?_
      passed := fun _ t ht => ?_
      ahead := fun k t hk hka ht hT => ?_
      sent := ?_
      pc := ⟨rfl, rfl⟩ }
  · exact absurd (hs.symm.trans hc.2.2) (by decide)
  · by_cases hkt : k % WORK_COUNT = slot st ∧ t = a.end_index
    · obtain ⟨hw, rfl⟩ := hkt
      obtain rfl := hi.slot_inj hk hka hw
      obtain ⟨h1, h2, h3, h4, h5, -, -, h8⟩ := hth
      rw [slot] at hself
      constructor <;> simp only [hself]
      · exact h1
      · exact h2
      · exact h3
      · exact h4
      · exact h5
      · exact hbuf.trans (Nat.le_add_right _ _)
      · exact hpos
      · exact fun j hj hjw => h8 j ((Nat.le_add_right _ _).trans hj) hjw
    · exact (hi.threads k hk hka t ht).congr rfl (hne _ _ hkt) fun _ _ _ => rfl
  · rcases Nat.lt_or_ge t st.thread_index with hlt' | hge
    · exact hi.passed hlt t hlt'
    · exact hf.ended t hge ht
  · dsimp only at hk hka hT ⊢
    have hle := hf.index_le
    rw [hne]
    · exact hi.ahead k t hk hka ht fun hkr => by have := hT hkr; omega
    · rintro ⟨hw, rfl⟩
      exact absurd (hT (hi.slot_inj hk hka hw)) (lt_irrefl _)
  · have hsent := hi.sent
    simp only [hp, CurrentSent, hf.end_done, Bool.false_eq_true, if_false] at hsent
    simp only [CurrentSent, if_pos hlt]
    have hreached := hf.reached
    rw [hreached] at hsent
    have hnew : (info (slot st) a.end_index).send_pos =
        (st.info (slot st) a.end_index).send_pos + a.end_size := by rw [hself]
    refine hsent.imp_right fun h => h.trans ?_
    show _ = offset (frames st.released).stream a.end_index +
      ((info (slot st) a.end_index).send_pos - (L.ninfo (slot st) a.end_index).buf)
    rw [hnew]
    unfold slot at *
    omega

theorem inv_finish_last (hi : Inv L frames st) {a : Attempt} (hp : st.pc = .finish a)
    (hc : Current st a.w a.t) (hl : Last L frames st a) (h : nwm L st = some st') :
    Inv L frames st' := by
  have hlt := hi.running_lt hc
  obtain ⟨hready, hzero⟩ := hi.running hc.2.2
  have h1 := hi.acquired_le_released
  have h2 := hi.readied_le
  have h3 := hi.begun_le
  have hdone0 := hi.nwm_done_zero _ le_rfl hlt
  simp only [nwm, hp, hl.end_done, hl.thread_done, hl.end_index, if_true, and_self,
    Option.some.injEq, hc.1] at h
  subst h
  have hslot : (st.released + 1 + 1) % WORK_COUNT = slot st := by
    rw [slot, show WORK_COUNT = 2 from rfl]
    omega
  have hne : (st.released + 1) % WORK_COUNT ≠ slot st := slot_succ_ne _
  have hother : ∀ k, st.released + 1 ≤ k → k < st.acquired → k = st.released + 1 :=
    fun k hk hka => by
    omega
  refine
    { hi with
      acquired_le_released := h1.trans (Nat.le_succ _)
      released_le := hready
      nwm_done_le := fun w => ?_
      nwm_done_zero := fun k hk hka => ?_
      work_index := ?_
      next_syn := ?_
      waiting := fun _ => ⟨rfl, ?_⟩
      running := fun hs => ?_
      thread_lt := L.n_pos
      ended_before := fun k hk t ht => ?_
      threads := fun k hk hka t ht => ?_
      passed := fun _ t ht => absurd ht (Nat.not_lt_zero t)
      ahead := fun k t hk hka ht _ => ?_
      data_hdr := fun k hk hka => hi.data_hdr k ((Nat.le_succ _).trans hk) hka
      lossless_hdr := fun k hk hka => hi.lossless_hdr k ((Nat.le_succ _).trans hk) hka
      sent_before := fun k hk => ?_
      sent_after := fun k hk => hi.sent_after k ((Nat.lt_succ_self _).trans hk)
      sent := ?_
      pc := trivial }
  · dsimp only
    rcases eq_or_ne w (slot st) with rfl | hw
    · rw [Function.update_self, slot, hdone0]
    · rw [Function.update_of_ne hw]
      exact hi.nwm_done_le w
  · dsimp only at hk hka ⊢
    obtain rfl := hother k hk hka
    rw [Function.update_of_ne hne]
    exact hi.nwm_done_zero _ (Nat.le_succ _) hka
  · show (st.work_index + 1) % WORK_COUNT = (st.released + 1) % WORK_COUNT
    rw [hi.work_index, slot, show WORK_COUNT = 2 from rfl]
    omega
  · dsimp only
    rw [hslot, Function.update_self, hzero, if_neg (by omega)]
    exact ⟨rfl, rfl⟩
  · exact hi.next_syn.2
  · have hs' : update st.need_syn (slot st) true ((st.released + 1) % WORK_COUNT) = false := hs
    rw [Function.update_of_ne hne, hi.next_syn.1] at hs'
    cases hs'
  · rcases Nat.lt_succ_iff_lt_or_eq.mp hk with hk | rfl
    · exact hi.ended_before k hk t ht
    · exact hl.ended t ht
  · exact (hi.threads k ((Nat.le_succ _).trans hk) hka t ht).congr rfl rfl fun _ _ _ => rfl
  · dsimp only at hk hka ⊢
    exact hi.ahead k t ((Nat.le_succ _).trans hk) hka ht fun hkr => by omega
  · dsimp only at hk ⊢
    rcases Nat.lt_succ_iff_lt_or_eq.mp hk with hk | rfl
    · exact hi.sent_before k hk
    · have hsent := hi.sent
      simpa only [hp, CurrentSent, hl.end_done, if_true] using hsent
  · have hnil := hi.sent_after (st.released + 1) (Nat.lt_succ_self _)
    refine (currentSent_iff (p := .top) (by rintro _ ⟨⟩)).mpr ?_
    dsimp only
    rw [hnil]
    refine ⟨fun i hi => absurd hi (Nat.not_lt_zero i), ?_⟩
    split_ifs with hacq
    · have hah := hi.ahead (st.released + 1) 0 (Nat.le_succ _) hacq L.n_pos fun hkr => by omega
      have hr0 :
          reached L frames { st with released := st.released + 1, thread_index := 0 } = 0 := by
        show 0 + ((st.info ((st.released + 1) % WORK_COUNT) 0).send_pos - _) = 0
        rw [hah, Nat.zero_add]
        exact Nat.sub_self _
      exact (Nat.zero_mul _).trans hr0.symm
    · exact Nat.zero_mul _

/-- **The sending thread keeps the invariant.** -/
theorem inv_nwm (hi : Inv L frames st) (h : nwm L st = some st') : Inv L frames st' := by
  cases hp : st.pc with
  | top => exact inv_top hi hp h
  | acquire w t => exact inv_acquire_nwm hi hp h
  | readFlag w t => exact inv_readFlag hi hp h
  | readPos w t flag => exact inv_readPos hi hp h
  | attempt w t flag pos => exact inv_attempt hi hp h
  | nextFlag a => exact inv_nextFlag hi hp h
  | nextPos a flag => exact inv_nextPos hi hp h
  | copy a size done => exact inv_copy hi hp h
  | send a => exact inv_send hi hp h
  | finish a =>
    have hpc := hi.pc
    rw [hp] at hpc
    rcases hpc.2 with hl | hf
    · exact inv_finish_last hi hp hpc.1 hl h
    · exact inv_finish_full hi hp hpc.1 hf h

/-! ### Every run -/

theorem inv_step (hi : Inv L frames st) (h : Step L frames st st') : Inv L frames st' := by
  obtain ⟨act, h⟩ := h
  cases act with
  | acquire => exact inv_acquire hi h
  | ready => exact inv_ready hi h
  | begin => exact inv_begin hi h
  | write k t => exact inv_write hi h
  | flush k t => exact inv_flush hi h
  | term k t => exact inv_term hi h
  | flag k t => exact inv_flag hi h
  | nwm => exact inv_nwm hi h

theorem inv_start : Inv L frames (.start L) where
  begun_le := le_rfl
  readied_le := le_rfl
  acquired_le := Nat.zero_le _
  acquired_le_released := Nat.zero_le _
  released_le := le_rfl
  nwm_done_le _ := le_rfl
  nwm_done_zero _ _ h := absurd h (Nat.not_lt_zero _)
  work_index := rfl
  next_syn := ⟨rfl, rfl⟩
  waiting _ := ⟨rfl, rfl⟩
  running h := nomatch h
  thread_lt := L.n_pos
  ended_before _ h := absurd h (Nat.not_lt_zero _)
  fresh _ _ _ := rfl
  threads _ _ h := absurd h (Nat.not_lt_zero _)
  passed h := absurd h (Nat.not_lt_zero _)
  ahead _ _ _ h := absurd h (Nat.not_lt_zero _)
  data_hdr _ _ h := absurd h (Nat.not_lt_zero _)
  lossless_hdr _ _ h := absurd h (Nat.not_lt_zero _)
  sent_before _ h := absurd h (Nat.not_lt_zero _)
  sent_after _ _ := rfl
  sent := ⟨fun i h => absurd h (Nat.not_lt_zero i), Nat.zero_mul _⟩
  pc := trivial

/-- **The invariant holds in every state reached.** -/
theorem reachable_inv
    (h : Lib.Threads.Reachable (fun s => s = NwmState.start L) (Step L frames) st) :
    Inv L frames st :=
  h.invariant (fun _ hs => hs ▸ inv_start) fun _ _ hi hs => inv_step hi hs

/-! ### Packets -/

theorem term_init (width : TopScreenWidth) (frame_id : UInt8) (is_top : Bool) (downsample : UInt8)
    (lossless both_eyes last : Bool) :
    ((DataHdr.init width frame_id is_top downsample lossless both_eyes).b1 |||
      (if last then UInt8.ofNat TERM_FLAG else 0)) &&& UInt8.ofNat TERM_FLAG ≠ 0 ↔ last = true := by
  simp only [DataHdr.init]
  cases width <;> cases is_top <;> cases both_eyes <;> cases last <;> decide

theorem PacketAt.term_iff {f : Frame L} {i : ℕ} {p : Packet} {last : Bool}
    (h : PacketAt f i p last) : p.Term ↔ last = true := by
  rw [Packet.Term, h.data_hdr]
  exact term_init _ _ _ _ _ _ _

/-- **The packets of a frame carry its bytes**, each but the last is full, and the last alone
carries the term flag. -/
structure Delivered (f : Frame L) (ps : List Packet) : Prop where
  bytes : (ps.map Packet.payload).flatten = f.bytes
  nonempty : ps ≠ []
  full : ∀ i, i + 1 < ps.length → ∀ p, ps[i]? = some p → p.payload.length = L.packet_data_size
  term : ∀ i p, ps[i]? = some p → (p.Term ↔ i + 1 = ps.length)

theorem Complete.delivered {f : Frame L} {ps : List Packet} (h : Complete f ps) :
    Delivered f ps := by
  obtain ⟨qs, p, rfl, hall, hp, hle, hlast⟩ := h
  have hat : ∀ i (hi : i < (qs ++ [p]).length),
      PacketAt f i (qs ++ [p])[i] (decide (i = qs.length)) := by
    intro i hi
    rcases Nat.lt_or_ge i qs.length with hlt | hge
    · rw [List.getElem_append_left hlt, decide_eq_false (Nat.ne_of_lt hlt)]
      exact hall i hlt
    · obtain rfl : i = qs.length := by
        rw [List.length_append, List.length_singleton] at hi
        omega
      rw [List.getElem_append_right le_rfl]
      simp only [Nat.sub_self, List.getElem_cons_zero, decide_true]
      exact hp
  have hlen : (qs ++ [p]).length = qs.length + 1 := by
    rw [List.length_append, List.length_singleton]
  refine ⟨?_, by simp, fun i hi q hq => ?_, fun i q hq => ?_⟩
  · rw [flatten_packets (G := f.bytes) (P := L.packet_data_size) fun i hi => ?_]
    · rw [List.length_map, hlen]
      exact List.take_of_length_le hlast
    · rw [List.getElem_map]
      exact (hat i (by rwa [List.length_map] at hi)).payload
  · obtain ⟨h, rfl⟩ := List.getElem?_eq_some_iff.mp hq
    have hmul := Nat.mul_le_mul_right L.packet_data_size (by omega : i + 1 ≤ qs.length)
    rw [Nat.add_mul, Nat.one_mul] at hmul
    rw [(hat i h).payload, List.length_take, List.length_drop]
    omega
  · obtain ⟨h, rfl⟩ := List.getElem?_eq_some_iff.mp hq
    rw [(hat i h).term_iff, decide_eq_true_eq, hlen]
    omega

theorem Partial.delivered {f : Frame L} {ps : List Packet} {x : ℕ} (h : Partial f ps x) :
    (ps.map Packet.payload).flatten = f.bytes.take x ∧ ∀ p ∈ ps, ¬p.Term := by
  obtain ⟨hall, hlen⟩ := h
  refine ⟨?_, fun p hp hterm => ?_⟩
  · rw [flatten_packets (G := f.bytes) (P := L.packet_data_size) fun i hi => ?_]
    · rw [List.length_map, hlen]
    · rw [List.getElem_map]
      exact (hall i (by rwa [List.length_map] at hi)).payload
  · obtain ⟨i, hi, rfl⟩ := List.mem_iff_getElem.mp hp
    exact absurd ((hall i hi).term_iff.mp hterm) (by decide)

end NwmState

end RemotePlay.Udp
