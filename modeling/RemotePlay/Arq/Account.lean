import RemotePlay.Arq.Send
import Mathlib.Data.List.Perm.Basic
import Mathlib.Data.List.Range
import Mathlib.Tactic.Linarith

/-! # What segments hold

Segments come from one pool; a segment that `ikcp_queue` makes holds the buffer it was given, and
one with recovery data a block of a second pool until it is sent.  `Acct` ties the counters and the
pools to the segments there are, in whatever order, and says which buffers have been freed.  Each
step of the code that allocates, frees or moves a segment keeps it. -/

namespace RemotePlay.Arq

/-- What a segment holds, and its packet id. -/
structure Holding where
  id : ℕ
  pid : ℕ
  data_buf : ℕ
  recovery_data : Bool
  weak_data : Bool
  is_kcp_seg_data : Bool
  deriving DecidableEq

/-- What a segment holds. -/
def Seg.holding (seg : Seg) : Holding :=
  ⟨seg.id, seg.pid, seg.data_buf, seg.recovery_data, seg.weak_data, seg.is_kcp_seg_data⟩

@[simp] theorem Seg.holding_setWsn (seg : Seg) (wsn : ℕ) : (seg.setWsn wsn).holding = seg.holding :=
  rfl

@[simp] theorem Seg.holding_resend (seg : Seg) : seg.resend.holding = seg.holding := rfl

@[simp] theorem Kcp.holding_member (kcp : Kcp) (fty : FecType) (fid grp count wsn : ℕ) (seg : Seg) :
    (kcp.member fty fid grp count wsn seg).holding = seg.holding := rfl

namespace Holding

variable (h : Holding)

/-- A recovery segment's block has the segment's number; any other segment's buffer is not from the
pool, and its own. -/
def Ok : Prop :=
  if h.recovery_data = true then h.is_kcp_seg_data = true ∧ h.data_buf = h.id
  else h.is_kcp_seg_data = false ∧ h.weak_data = false

/-- A recovery segment that still has its block. -/
def owns : Bool := h.recovery_data && !h.weak_data

/-- A recovery segment whose block has been freed. -/
def spent : Bool := h.recovery_data && h.weak_data

theorem original_owns (hr : h.recovery_data = false) : h.owns = false := by
  rw [owns, hr, Bool.false_and]

theorem original_spent (hr : h.recovery_data = false) : h.spent = false := by
  rw [spent, hr, Bool.false_and]

end Holding

/-- **The accounts.**  `live` are the segments in the lists, and `held` is the first packet's
segment while it is being sent. -/
structure Acct (kcp : Kcp) (live held : List Holding) : Prop where
  ids : (live.map (·.id) ++ (held.map (·.id) ++ kcp.freed.map (·.id))).Perm (List.range kcp.next_id)
  n_snd : kcp.n_snd = live.countP fun h => !h.recovery_data
  seg_used : kcp.seg_used = live.length + held.length
  cur_bufs : kcp.cur_bufs.Perm
    ((live.filter Holding.owns).map (·.id) ++ held.map (·.id))
  freed_bufs : kcp.freed_bufs.Perm
    ((live.filter Holding.spent).map (·.id) ++ kcp.freed.map (·.id))
  ok : ∀ h ∈ live, h.Ok

namespace Acct

variable {kcp kcp' : Kcp} {live live' held : List Holding} {seg : Seg}

theorem perm (h : Acct kcp live held) (hp : live'.Perm live) : Acct kcp live' held where
  ids := ((hp.map _).append_right _).trans h.ids
  n_snd := h.n_snd.trans (hp.countP_eq _).symm
  seg_used := by rw [h.seg_used, hp.length_eq]
  cur_bufs := h.cur_bufs.trans (((hp.symm.filter _).map _).append_right _)
  freed_bufs := h.freed_bufs.trans (((hp.symm.filter _).map _).append_right _)
  ok x hx := h.ok x (hp.mem_iff.mp hx)

theorem congr (h : Acct kcp live held) (h1 : kcp'.freed = kcp.freed)
    (h2 : kcp'.next_id = kcp.next_id)
    (h3 : kcp'.n_snd = kcp.n_snd) (h4 : kcp'.seg_used = kcp.seg_used)
    (h5 : kcp'.cur_bufs = kcp.cur_bufs) (h6 : kcp'.freed_bufs = kcp.freed_bufs) :
    Acct kcp' live held where
  ids := by rw [h1, h2]; exact h.ids
  n_snd := by rw [h3]; exact h.n_snd
  seg_used := by rw [h4]; exact h.seg_used
  cur_bufs := by rw [h5]; exact h.cur_bufs
  freed_bufs := by rw [h1, h6]; exact h.freed_bufs
  ok := h.ok

theorem nodup (h : Acct kcp live held) : (live.map (·.id)).Nodup :=
  (h.ids.nodup_iff.mpr List.nodup_range).of_append_left

theorem id_lt (h : Acct kcp live held) {x : Holding} (hx : x ∈ live) : x.id < kcp.next_id :=
  List.mem_range.mp (h.ids.subset (List.mem_append_left _ (List.mem_map_of_mem hx)))

/-! ### Freeing -/

/-- **An original is freed.** -/
theorem ackFree (h : Acct kcp (seg.holding :: live) held) (hr : seg.recovery_data = false) :
    Acct (kcp.ackFree seg) live held := by
  have hok := h.ok _ List.mem_cons_self
  simp only [Holding.Ok, Seg.holding, hr, Bool.false_eq_true, if_false] at hok
  obtain ⟨hkcp, hweak⟩ := hok
  have howns : seg.holding.owns = false := Holding.original_owns _ hr
  have hspent : seg.holding.spent = false := Holding.original_spent _ hr
  unfold Kcp.ackFree Kcp.segFree
  simp only [hweak, hkcp, Bool.false_eq_true, if_false]
  refine ⟨?_, ?_, ?_, ?_, ?_, fun x hx => h.ok x (List.mem_cons_of_mem _ hx)⟩
  · refine List.Perm.trans ?_ h.ids
    simp only [List.map_append, List.map_cons, List.map_nil, ← List.append_assoc]
    exact List.perm_append_singleton _ _
  · have hn := h.n_snd
    rw [List.countP_cons_of_pos (by rw [Seg.holding, hr]; rfl)] at hn
    exact Nat.sub_eq_of_eq_add hn
  · have hs := h.seg_used
    rw [List.length_cons] at hs
    show kcp.seg_used - 1 = _
    omega
  · have hc := h.cur_bufs
    rwa [List.filter_cons_of_neg (by rw [howns]; exact Bool.false_ne_true)] at hc
  · have hf := h.freed_bufs
    rw [List.filter_cons_of_neg (by rw [hspent]; exact Bool.false_ne_true)] at hf
    simp only [List.map_append, List.map_cons, List.map_nil, ← List.append_assoc]
    exact hf.append_right _

/-- **A recovery segment is freed.** -/
theorem segFree (h : Acct kcp (seg.holding :: live) held) (hr : seg.recovery_data = true) :
    Acct (kcp.segFree seg) live held := by
  have hok := h.ok _ List.mem_cons_self
  simp only [Holding.Ok, Seg.holding, hr, if_true] at hok
  obtain ⟨hkcp, hbuf⟩ := hok
  have hids : (live.map (·.id) ++ (held.map (·.id) ++ (kcp.freed ++ [seg]).map (·.id))).Perm
      (List.range kcp.next_id) := by
    refine List.Perm.trans ?_ h.ids
    simp only [List.map_append, List.map_cons, List.map_nil, ← List.append_assoc]
    exact List.perm_append_singleton _ _
  have hn : kcp.n_snd = live.countP fun h => !h.recovery_data := by
    have hn := h.n_snd
    rwa [List.countP_cons_of_neg (by rw [Seg.holding, hr]; exact Bool.false_ne_true)] at hn
  have hs : kcp.seg_used - 1 = live.length + held.length := by
    have hs := h.seg_used
    rw [List.length_cons] at hs
    omega
  have hrest : ∀ x ∈ live, x.Ok := fun x hx => h.ok x (List.mem_cons_of_mem _ hx)
  unfold Kcp.segFree
  by_cases hweak : seg.weak_data = true
  · simp only [hweak, if_true]
    have howns : seg.holding.owns = false := by
      rw [Holding.owns, Seg.holding, hweak, Bool.not_true, Bool.and_false]
    have hspent : seg.holding.spent = true := by rw [Holding.spent, Seg.holding, hweak, hr]; rfl
    refine ⟨hids, hn, hs, ?_, ?_, hrest⟩
    · have hc := h.cur_bufs
      rwa [List.filter_cons_of_neg (by rw [howns]; exact Bool.false_ne_true)] at hc
    · have hf := h.freed_bufs
      rw [List.filter_cons_of_pos hspent] at hf
      refine hf.trans ?_
      simp only [List.map_append, List.map_cons, List.map_nil, ← List.append_assoc]
      exact (List.perm_append_singleton _ _).symm
  · have hweak := Bool.eq_false_iff.mpr hweak
    simp only [hweak, hkcp, Bool.false_eq_true, if_false, if_true]
    have howns : seg.holding.owns = true := by rw [Holding.owns, Seg.holding, hweak, hr]; rfl
    have hspent : seg.holding.spent = false := by
      rw [Holding.spent, Seg.holding, hweak, Bool.and_false]
    refine ⟨hids, hn, hs, ?_, ?_, hrest⟩
    · have hc := h.cur_bufs
      rw [List.filter_cons_of_pos howns] at hc
      show (kcp.cur_bufs.erase seg.data_buf).Perm _
      rw [hbuf]
      have he := hc.erase seg.id
      rwa [List.map_cons, List.cons_append,
        show seg.holding.id = seg.id from rfl, List.erase_cons_head] at he
    · have hf := h.freed_bufs
      rw [List.filter_cons_of_neg (by rw [hspent]; exact Bool.false_ne_true)] at hf
      show (kcp.freed_bufs ++ [seg.id]).Perm _
      simp only [List.map_append, List.map_cons, List.map_nil, ← List.append_assoc]
      exact hf.append_right _

theorem curFree (h : Acct kcp (seg.holding :: live) held) : Acct (kcp.curFree seg) live held := by
  unfold Kcp.curFree
  split_ifs with hr
  · exact h.segFree hr
  · exact h.ackFree (Bool.eq_false_iff.mpr hr)

theorem foldl_ackFree {gone : List Seg} (h : Acct kcp (gone.map Seg.holding ++ live) held)
    (hr : ∀ s ∈ gone, s.recovery_data = false) : Acct (gone.foldl Kcp.ackFree kcp) live held := by
  induction gone generalizing kcp with
  | nil => exact h
  | cons seg gone ih =>
    exact ih (h.ackFree (hr seg List.mem_cons_self)) fun s hs => hr s (List.mem_cons_of_mem _ hs)

/-! ### Allocating -/

/-- **A segment is allocated for a buffer that was given.** -/
theorem alloc (h : Acct kcp live held) {x : Holding} (hid : x.id = kcp.next_id)
    (hr : x.recovery_data = false) (hok : x.Ok) :
    Acct { kcp with
        n_snd := kcp.n_snd + 1, seg_used := kcp.seg_used + 1, next_id := kcp.next_id + 1 }
      (x :: live) held where
  ids := by
    show (x.id :: (live.map (·.id) ++ (held.map (·.id) ++ kcp.freed.map (·.id)))).Perm
      (List.range (kcp.next_id + 1))
    rw [hid, List.range_succ]
    exact (h.ids.cons _).trans (List.perm_append_singleton _ _).symm
  n_snd := by
    rw [List.countP_cons_of_pos (by rw [hr]; rfl)]
    exact congrArg (· + 1) h.n_snd
  seg_used := by
    have hs := h.seg_used
    rw [List.length_cons]
    show kcp.seg_used + 1 = _
    omega
  cur_bufs := by
    rw [List.filter_cons_of_neg (by rw [Holding.original_owns _ hr]; exact Bool.false_ne_true)]
    exact h.cur_bufs
  freed_bufs := by
    rw [List.filter_cons_of_neg (by rw [Holding.original_spent _ hr]; exact Bool.false_ne_true)]
    exact h.freed_bufs
  ok := List.forall_mem_cons.mpr ⟨hok, h.ok⟩

/-- **A recovery segment is allocated, and a block for it.** -/
theorem allocRecovery (h : Acct kcp live held) {x : Holding} (hid : x.id = kcp.next_id)
    (hr : x.recovery_data = true) (hweak : x.weak_data = false) (hok : x.Ok) :
    Acct kcp.segAlloc.curBufAlloc (x :: live) held where
  ids := by
    show (x.id :: (live.map (·.id) ++ (held.map (·.id) ++ kcp.freed.map (·.id)))).Perm
      (List.range (kcp.next_id + 1))
    rw [hid, List.range_succ]
    exact (h.ids.cons _).trans (List.perm_append_singleton _ _).symm
  n_snd := by
    rw [List.countP_cons_of_neg (by rw [hr]; exact Bool.false_ne_true)]
    exact h.n_snd
  seg_used := by
    have hs := h.seg_used
    rw [List.length_cons]
    show kcp.seg_used + 1 = _
    omega
  cur_bufs := by
    rw [List.filter_cons_of_pos (by rw [Holding.owns, hr, hweak]; rfl), List.map_cons, hid]
    show (kcp.cur_bufs ++ [kcp.next_id + 1 - 1]).Perm _
    rw [Nat.add_sub_cancel]
    exact (List.perm_append_singleton _ _).trans (h.cur_bufs.cons _)
  freed_bufs := by
    rw [List.filter_cons_of_neg
      (by rw [Holding.spent, hweak, Bool.and_false]; exact Bool.false_ne_true)]
    exact h.freed_bufs
  ok := List.forall_mem_cons.mpr ⟨hok, h.ok⟩

theorem hold (h : Acct kcp live []) {x : Holding} (hid : x.id = kcp.next_id) :
    Acct kcp.segAlloc.curBufAlloc live [x] where
  ids := by
    show (live.map (·.id) ++ x.id :: kcp.freed.map (·.id)).Perm (List.range (kcp.next_id + 1))
    rw [hid, List.range_succ]
    exact List.perm_middle.trans ((h.ids.cons _).trans (List.perm_append_singleton _ _).symm)
  n_snd := h.n_snd
  seg_used := congrArg (· + 1) h.seg_used
  cur_bufs := by
    show (kcp.cur_bufs ++ [kcp.next_id + 1 - 1]).Perm _
    rw [Nat.add_sub_cancel, List.map_singleton, hid]
    have hc := h.cur_bufs
    rw [List.map_nil, List.append_nil] at hc
    exact hc.append_right _
  freed_bufs := h.freed_bufs
  ok := h.ok

theorem release (h : Acct kcp live [seg.holding]) (hkcp : seg.is_kcp_seg_data = true)
    (hweak : seg.weak_data = false) (hbuf : seg.data_buf = seg.id) :
    Acct (kcp.segFree seg) live [] := by
  unfold Kcp.segFree
  simp only [hweak, hkcp, Bool.false_eq_true, if_false, if_true]
  refine ⟨?_, h.n_snd, Nat.sub_eq_of_eq_add h.seg_used, ?_, ?_, h.ok⟩
  · refine List.Perm.trans ?_ h.ids
    refine List.Perm.append_left _ ?_
    show ((kcp.freed ++ [seg]).map (·.id)).Perm (seg.id :: kcp.freed.map (·.id))
    rw [List.map_append]
    exact List.perm_append_singleton _ _
  · have hc := h.cur_bufs.trans (List.perm_append_singleton _ _)
    show (kcp.cur_bufs.erase seg.data_buf).Perm _
    rw [hbuf, List.map_nil, List.append_nil]
    have he := hc.erase seg.id
    dsimp only [Seg.holding] at he
    rwa [List.erase_cons_head] at he
  · show (kcp.freed_bufs ++ [seg.id]).Perm _
    rw [List.map_append, ← List.append_assoc]
    exact h.freed_bufs.append_right _

/-- **A recovery segment is sent**, and its block freed. -/
theorem spend (h : Acct kcp (seg.holding :: live) held) (hr : seg.recovery_data = true)
    (hweak : seg.weak_data = false) {x : Holding} (hid : x.id = seg.id)
    (hxr : x.recovery_data = true) (hxweak : x.weak_data = true) (hok : x.Ok) :
    Acct (kcp.curBufFree seg) (x :: live) held := by
  have hseg := h.ok _ List.mem_cons_self
  simp only [Holding.Ok, Seg.holding, hr, if_true] at hseg
  obtain ⟨-, hbuf⟩ := hseg
  have howns : seg.holding.owns = true := by rw [Holding.owns, Seg.holding, hr, hweak]; rfl
  have hspent : seg.holding.spent = false := by
    rw [Holding.spent, Seg.holding, hweak, Bool.and_false]
  refine ⟨?_, ?_, h.seg_used, ?_, ?_, ?_⟩
  · rw [List.map_cons, hid]
    exact h.ids
  · have hn := h.n_snd
    rw [List.countP_cons_of_neg (by rw [Seg.holding, hr]; exact Bool.false_ne_true)] at hn
    rw [List.countP_cons_of_neg (by rw [hxr]; exact Bool.false_ne_true)]
    exact hn
  · have hc := h.cur_bufs
    rw [List.filter_cons_of_pos howns] at hc
    rw [List.filter_cons_of_neg (by rw [Holding.owns, hxr, hxweak]; exact Bool.false_ne_true)]
    show (kcp.cur_bufs.erase seg.data_buf).Perm _
    rw [hbuf]
    have he := hc.erase seg.id
    rwa [List.map_cons, List.cons_append,
      show seg.holding.id = seg.id from rfl, List.erase_cons_head] at he
  · have hf := h.freed_bufs
    rw [List.filter_cons_of_neg (by rw [hspent]; exact Bool.false_ne_true)] at hf
    rw [List.filter_cons_of_pos (by rw [Holding.spent, hxr, hxweak]; rfl), List.map_cons, hid]
    exact (List.perm_append_singleton _ _).trans (hf.cons _)
  · exact List.forall_mem_cons.mpr ⟨hok, fun y hy => h.ok y (List.mem_cons_of_mem _ hy)⟩

end Acct

end RemotePlay.Arq
