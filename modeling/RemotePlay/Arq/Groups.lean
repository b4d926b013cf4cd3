import RemotePlay.Arq.Kcp

/-! # Groups of packets

The packets on their way, those waiting in `snd_wak` and then those queued in `snd_cur`, are an
interleaving of groups: a group's packets are all there, in the order of their numbers, and no
packet that lies between two of them has the same twelve bits of a group's number (`Groups`).  A new
group is put in packet by packet (`Forming`), which needs the groups in `snd_cur` to be recent; a
group leaves as a whole. -/

namespace RemotePlay.Arq

/-- What a segment is in its group. -/
structure Tag where
  grp : ℕ
  fid : ℕ
  gid : ℕ
  fty : FecType
  gid_end : Bool
  recovery_data : Bool
  deriving DecidableEq

/-- What a segment is in the group it was last put in. -/
def Seg.tag (seg : Seg) : Tag :=
  ⟨seg.grp, seg.fid, seg.gid, seg.fty, seg.gid_end, seg.recovery_data⟩

@[simp] theorem Seg.tag_setWsn (seg : Seg) (wsn : ℕ) : (seg.setWsn wsn).tag = seg.tag := rfl

/-- A group's `i`-th packet. -/
def memberTag (g : ℕ) (fty : FecType) (i : ℕ) : Tag where
  grp := g
  fid := g % 2 ^ FID_NBITS
  gid := i
  fty := fty
  gid_end := i + 1 = fty.total
  recovery_data := fty.counts.original_count ≤ i

/-- The packets of a group. -/
def groupTags (g : ℕ) (fty : FecType) : List Tag := (List.range fty.total).map (memberTag g fty)

/-- The types that are in use. -/
def FecType.Used (fty : FecType) : Prop := fty = .t1_1 ∨ fty = .t2_3

/-- The packets of group `g`. -/
def ofGroup (g : ℕ) (L : List Tag) : List Tag := L.filter fun t => t.grp = g

/-- The packets of other groups. -/
def others (g : ℕ) (L : List Tag) : List Tag := L.filter fun t => t.grp ≠ g

/-- No packet of another group that looks like it lies between two packets of a group. -/
def Apart (L : List Tag) : Prop :=
  ∀ x y z, [x, y, z].Sublist L → x.grp = z.grp → y.fid = x.fid → y.grp = x.grp

/-- **An interleaving of complete groups**, numbered below `next`. -/
structure Groups (next : ℕ) (L : List Tag) : Prop where
  lt : ∀ t ∈ L, t.grp < next
  fid : ∀ t ∈ L, t.fid = t.grp % 2 ^ FID_NBITS
  complete : ∀ g, ofGroup g L = [] ∨ ∃ fty : FecType, fty.Used ∧ ofGroup g L = groupTags g fty
  apart : Apart L

variable {next g k : ℕ} {fty : FecType} {L A B C W : List Tag} {t : Tag}

/-! ### Lists -/

theorem mem_others : t ∈ others g L ↔ t ∈ L ∧ t.grp ≠ g := by
  rw [others, List.mem_filter, decide_eq_true_iff]

theorem ofGroup_append : ofGroup g (A ++ B) = ofGroup g A ++ ofGroup g B := List.filter_append _ _

theorem ofGroup_cons_self (h : t.grp = g) : ofGroup g (t :: L) = t :: ofGroup g L :=
  List.filter_cons_of_pos (decide_eq_true h)

theorem ofGroup_cons_of_ne (h : t.grp ≠ g) : ofGroup g (t :: L) = ofGroup g L :=
  List.filter_cons_of_neg (by rwa [decide_eq_true_iff])

theorem ofGroup_eq_nil : ofGroup g L = [] ↔ ∀ t ∈ L, t.grp ≠ g := by
  simp only [ofGroup, List.filter_eq_nil_iff, decide_eq_true_iff, ne_eq]

theorem others_append : others g (A ++ B) = others g A ++ others g B := List.filter_append _ _

theorem others_eq_self (h : ∀ t ∈ L, t.grp ≠ g) : others g L = L :=
  List.filter_eq_self.mpr fun t ht => decide_eq_true (h t ht)

theorem others_cons_self (h : t.grp = g) : others g (t :: L) = others g L :=
  List.filter_cons_of_neg (by rw [decide_eq_true_iff, not_not]; exact h)

theorem ofGroup_others_of_ne {g' : ℕ} (h : g' ≠ g) : ofGroup g' (others g L) = ofGroup g' L := by
  rw [ofGroup, others, List.filter_filter]
  refine List.filter_congr fun t _ => ?_
  rw [Bool.and_eq_left_iff_imp, decide_eq_true_iff, decide_eq_true_iff]
  rintro rfl
  exact h

theorem ofGroup_others : ofGroup g (others g L) = [] :=
  ofGroup_eq_nil.mpr fun _ ht => (mem_others.mp ht).2

theorem sublist_insert {α : Type*} {l P Q : List α} {a : α} (h : l.Sublist (P ++ a :: Q)) :
    l.Sublist (P ++ Q) ∨ ∃ l₁ l₂, l = l₁ ++ a :: l₂ ∧ l₁.Sublist P ∧ l₂.Sublist Q := by
  obtain ⟨l₁, l₂, rfl, h₁, h₂⟩ := List.sublist_append_iff.mp h
  rcases List.sublist_cons_iff.mp h₂ with h₂ | ⟨l₃, rfl, h₃⟩
  · exact .inl (h₁.append h₂)
  · exact .inr ⟨l₁, l₃, rfl, h₁, h₃⟩

/-! ### A group's packets -/

theorem length_groupTags : (groupTags g fty).length = fty.total := by
  rw [groupTags, List.length_map, List.length_range]

theorem mem_groupTags (h : t ∈ groupTags g fty) :
    t = memberTag g fty t.gid ∧ t.gid < fty.total := by
  obtain ⟨i, hi, rfl⟩ := List.mem_map.mp h
  exact ⟨rfl, List.mem_range.mp hi⟩

/-- The last packet of a group comes after the others. -/
theorem append_eq_groupTags (hused : fty.Used) (h : A ++ t :: B = groupTags g fty)
    (ht : t.gid_end = true) :
    B = [] ∧ t = memberTag g fty (fty.total - 1) ∧
      A = (List.range (fty.total - 1)).map (memberTag g fty) := by
  have hlen := congrArg List.length h
  rw [List.length_append, List.length_cons, length_groupTags] at hlen
  rcases hused with rfl | rfl
  · rcases A with _ | ⟨a, A⟩
    · obtain ⟨rfl, rfl⟩ := List.cons.inj h
      exact ⟨rfl, rfl, rfl⟩
    · simp only [List.length_cons, FecType.total, FecType.counts] at hlen
      omega
  · simp only [groupTags, FecType.total, FecType.counts, List.range_succ, List.range_zero,
      List.nil_append, List.cons_append, List.map_cons, List.map_nil] at h ⊢
    rcases A with _ | ⟨a, _ | ⟨b, _ | ⟨c, A⟩⟩⟩
    all_goals simp only [List.nil_append, List.cons_append, List.cons.injEq] at h
    · rw [h.1] at ht
      cases ht
    · rw [h.2.1] at ht
      cases ht
    · obtain ⟨rfl, rfl, rfl, rfl⟩ := h
      exact ⟨rfl, rfl, rfl⟩
    · simp only [List.length_cons, FecType.total, FecType.counts] at hlen
      omega

theorem eq_tail_of_append_eq_groupTags (h : A ++ t :: B = groupTags g fty) (ht : t.gid = 0) :
    B = ((List.range fty.total).drop 1).map (memberTag g fty) := by
  have hlen := congrArg List.length h
  rw [List.length_append, List.length_cons, length_groupTags] at hlen
  have hlt : A.length < fty.total := by omega
  have hget : (A ++ t :: B)[A.length]? = (groupTags g fty)[A.length]? := by rw [h]
  rw [List.getElem?_append_right le_rfl, Nat.sub_self, List.getElem?_cons_zero, groupTags,
    List.getElem?_map, List.getElem?_range hlt, Option.map_some, Option.some.injEq] at hget
  rw [hget] at ht
  have hA : A = [] := List.length_eq_zero_iff.mp ht
  subst hA
  have htail := congrArg List.tail h
  rw [List.nil_append, List.tail_cons, groupTags, ← List.drop_one, ← List.map_drop] at htail
  exact htail

/-- Two groups with the same twelve bits whose numbers are near are the same. -/
theorem eq_of_mod_eq {a b : ℕ} (hab : a ≤ b) (hb : b < a + 2 ^ FID_NBITS)
    (h : a % 2 ^ FID_NBITS = b % 2 ^ FID_NBITS) : a = b := by
  simp only [FID_NBITS] at hb h
  omega

/-! ### Taking a group out -/

/-- The group of a packet that is the last of its group. -/
structure LastOf (A : List Tag) (t : Tag) (B : List Tag) : Prop where
  used : t.fty.Used
  tag : t = memberTag t.grp t.fty (t.fty.total - 1)
  before : ofGroup t.grp A = (List.range (t.fty.total - 1)).map (memberTag t.grp t.fty)
  after : ofGroup t.grp B = []

theorem Groups.lastOf (h : Groups next (A ++ t :: B)) (ht : t.gid_end = true) : LastOf A t B := by
  rcases h.complete t.grp with hnil | ⟨fty, hused, hall⟩
  · exact absurd rfl (ofGroup_eq_nil.mp hnil t (List.mem_append_right _ List.mem_cons_self))
  · rw [ofGroup_append, ofGroup_cons_self rfl] at hall
    obtain ⟨hB, htag, hA⟩ := append_eq_groupTags hused hall ht
    have hfty : t.fty = fty := congrArg Tag.fty htag
    subst hfty
    exact ⟨hused, htag, hA, hB⟩

theorem Apart.sublist (h : Apart L) (hsub : A.Sublist L) : Apart A :=
  fun x y z hxyz => h x y z (hxyz.trans hsub)

/-- **The other groups stay.** -/
theorem Groups.without (h : Groups next L) (g : ℕ) : Groups next (others g L) where
  lt t ht := h.lt t (mem_others.mp ht).1
  fid t ht := h.fid t (mem_others.mp ht).1
  complete g' := by
    rcases eq_or_ne g' g with rfl | hne
    · exact .inl ofGroup_others
    · rw [ofGroup_others_of_ne hne]
      exact h.complete g'
  apart := h.apart.sublist List.filter_sublist

theorem Groups.after_first (h : Groups next (A ++ t :: B)) (ht : t.gid = 0) :
    t.fty.Used ∧
      ofGroup t.grp B = ((List.range t.fty.total).drop 1).map (memberTag t.grp t.fty) := by
  rcases h.complete t.grp with hnil | ⟨fty, hused, hall⟩
  · exact absurd rfl (ofGroup_eq_nil.mp hnil t (List.mem_append_right _ List.mem_cons_self))
  · rw [ofGroup_append, ofGroup_cons_self rfl] at hall
    have hmem : t ∈ groupTags t.grp fty := hall ▸ List.mem_append_right _ List.mem_cons_self
    have hfty : t.fty = fty := congrArg Tag.fty (mem_groupTags hmem).1
    subst hfty
    exact ⟨hused, eq_tail_of_append_eq_groupTags hall ht⟩

/-! ### How many packets there are -/

theorem countP_filter_lt_succ (p : Tag → Bool) (n : ℕ) (L : List Tag) :
    (L.filter fun t => t.grp < n + 1).countP p =
      (L.filter fun t => t.grp < n).countP p + (ofGroup n L).countP p := by
  simp only [ofGroup, List.countP_filter]
  induction L with
  | nil => rfl
  | cons t L ih =>
    have ht : (if (p t && decide (t.grp < n + 1)) = true then 1 else 0) =
        (if (p t && decide (t.grp < n)) = true then 1 else 0) +
          if (p t && decide (t.grp = n)) = true then 1 else 0 := by
      rcases p t with _ | _
      · rfl
      · simp only [Bool.true_and, decide_eq_true_iff]
        split_ifs <;> omega
    rw [List.countP_cons, List.countP_cons, List.countP_cons, ih, ht]
    omega

/-- **There are at least two originals for each recovery packet.** -/
theorem Groups.recovery_le (h : Groups next L) :
    2 * L.countP (fun t => t.recovery_data) ≤ L.countP fun t => !t.recovery_data := by
  have hn : ∀ n, 2 * (L.filter fun t => t.grp < n).countP (fun t => t.recovery_data) ≤
      (L.filter fun t => t.grp < n).countP fun t => !t.recovery_data := by
    intro n
    induction n with
    | zero =>
      rw [List.filter_eq_nil_iff.mpr fun t _ => by
        rw [decide_eq_true_iff]
        exact Nat.not_lt_zero _]
      exact le_rfl
    | succ n ih =>
      rw [countP_filter_lt_succ, countP_filter_lt_succ]
      have hgrp : 2 * (ofGroup n L).countP (fun t => t.recovery_data) ≤
          (ofGroup n L).countP fun t => !t.recovery_data := by
        rcases h.complete n with hnil | ⟨fty, rfl | rfl, hall⟩
        · rw [hnil]
          exact le_rfl
        · rw [hall]
          exact Nat.zero_le _
        · rw [hall]
          exact le_rfl
      omega
  have hall : (L.filter fun t => t.grp < next) = L :=
    List.filter_eq_self.mpr fun t ht => decide_eq_true (h.lt t ht)
  have := hn next
  rwa [hall] at this

/-! ### Putting a group in -/

/-- The first `k` packets of the new group `g` have been put into `C`. -/
structure Forming (g : ℕ) (fty : FecType) (k : ℕ) (W C : List Tag) : Prop where
  lt : ∀ t ∈ W, t.grp < g
  le : ∀ t ∈ C, t.grp ≤ g
  recent : ∀ t ∈ C, g < t.grp + 2 ^ FID_NBITS
  fid : ∀ t ∈ W ++ C, t.fid = t.grp % 2 ^ FID_NBITS
  complete : ∀ g' ≠ g, ofGroup g' (W ++ C) = [] ∨
    ∃ fty : FecType, fty.Used ∧ ofGroup g' (W ++ C) = groupTags g' fty
  forming : ofGroup g C = (List.range k).map (memberTag g fty)
  apart : Apart (W ++ C)

theorem Groups.forming (h : Groups g (W ++ C)) (hrecent : ∀ t ∈ C, g < t.grp + 2 ^ FID_NBITS)
    (fty : FecType) : Forming g fty 0 W C where
  lt t ht := h.lt t (List.mem_append_left _ ht)
  le t ht := (h.lt t (List.mem_append_right _ ht)).le
  recent := hrecent
  fid := h.fid
  complete g' _ := h.complete g'
  forming := ofGroup_eq_nil.mpr fun t ht => (h.lt t (List.mem_append_right _ ht)).ne
  apart := h.apart

theorem Forming.grp_eq (h : Forming g fty k W C) (ht : t ∈ C) (hfid : t.fid = g % 2 ^ FID_NBITS) :
    t.grp = g :=
  eq_of_mod_eq (h.le t ht) (h.recent t ht)
    ((h.fid t (List.mem_append_right _ ht)).symm.trans hfid)

theorem Forming.apart_insert (h : Forming g fty k W (A ++ B)) (ht : t.grp = g)
    (hfid : t.fid = g % 2 ^ FID_NBITS) (hafter : ∀ x ∈ B, x.grp ≠ g) :
    Apart (W ++ (A ++ t :: B)) := by
  intro x y z hsub hxz hyx
  rw [← List.append_assoc] at hsub
  rcases sublist_insert hsub with hsub | ⟨l₁, l₂, hl, h₁, h₂⟩
  · rw [List.append_assoc] at hsub
    exact h.apart x y z hsub hxz hyx
  · rcases l₁ with _ | ⟨a, _ | ⟨b, _ | ⟨c, l₁⟩⟩⟩
    all_goals simp only [List.nil_append, List.cons_append, List.cons.injEq] at hl
    · -- the new packet is before the other two, but the last one is of its group
      obtain ⟨rfl, rfl⟩ := hl
      exact absurd (hxz.symm.trans ht)
        (hafter z (h₂.subset (List.mem_cons_of_mem _ List.mem_cons_self)))
    · -- the new packet is between two packets of another group
      obtain ⟨rfl, rfl, rfl⟩ := hl
      have hz : z ∈ A ++ B := List.mem_append_right _ (h₂.subset List.mem_cons_self)
      have hzfid := h.fid z (List.mem_append_right _ hz)
      have hxmem : x ∈ W ++ (A ++ B) := by
        rw [← List.append_assoc]
        exact List.mem_append_left _ (h₁.subset List.mem_cons_self)
      have hxfid := h.fid x hxmem
      have hzg := h.grp_eq hz (by rw [hzfid, ← hxz, ← hxfid, ← hyx, hfid])
      rw [ht, hxz, hzg]
    · -- the new packet is the last of the three
      obtain ⟨rfl, rfl, rfl, -⟩ := hl
      have hxg : x.grp = g := hxz.trans ht
      have hy : y ∈ A ++ B := by
        obtain ⟨l₃, l₄, hl, h₃, h₄⟩ := List.sublist_append_iff.mp h₁
        rcases l₃ with _ | ⟨a, l₃⟩
        · obtain rfl : [x, y] = l₄ := hl
          exact List.mem_append_left _ (h₄.subset (List.mem_cons_of_mem _ List.mem_cons_self))
        · obtain ⟨rfl, -⟩ := List.cons.inj hl
          exact absurd hxg (h.lt x (h₃.subset List.mem_cons_self)).ne
      have hxmem : x ∈ W ++ (A ++ B) := by
        rw [← List.append_assoc]
        exact List.mem_append_left _ (h₁.subset List.mem_cons_self)
      rw [hxg]
      refine h.grp_eq hy ?_
      rw [hyx, h.fid x hxmem, hxg]
    · have hlen := congrArg List.length hl.2.2.2
      rw [List.length_append, List.length_cons, List.length_nil] at hlen
      omega

/-- **The next packet is put behind those of its group.** -/
theorem Forming.insert (h : Forming g fty k W (A ++ B)) (hafter : ∀ x ∈ B, x.grp ≠ g) :
    Forming g fty (k + 1) W (A ++ memberTag g fty k :: B) := by
  have hmem : ∀ x, x ∈ A ++ memberTag g fty k :: B → x = memberTag g fty k ∨ x ∈ A ++ B := by
    intro x hx
    simp only [List.mem_append, List.mem_cons] at hx ⊢
    tauto
  refine ⟨h.lt, fun x hx => ?_, fun x hx => ?_, fun x hx => ?_, fun g' hg' => ?_, ?_,
    h.apart_insert rfl rfl hafter⟩
  · rcases hmem x hx with rfl | hx
    · exact le_rfl
    · exact h.le x hx
  · rcases hmem x hx with rfl | hx
    · exact Nat.lt_add_of_pos_right (by decide)
    · exact h.recent x hx
  · rcases List.mem_append.mp hx with hx | hx
    · exact h.fid x (List.mem_append_left _ hx)
    · rcases hmem x hx with rfl | hx
      · rfl
      · exact h.fid x (List.mem_append_right _ hx)
  · have hold := h.complete g' hg'
    rwa [ofGroup_append, ofGroup_append, ofGroup_cons_of_ne (Ne.symm hg'), ← ofGroup_append,
      ← ofGroup_append]
  · have hB := ofGroup_eq_nil.mpr hafter
    have hA := h.forming
    rw [ofGroup_append, hB, List.append_nil] at hA
    rw [ofGroup_append, ofGroup_cons_self (g := g) rfl, hB, hA, List.range_succ, List.map_append,
      List.map_singleton]

/-- **The group is complete.** -/
theorem Forming.groups (h : Forming g fty fty.total W C) (hused : fty.Used) :
    Groups (g + 1) (W ++ C) where
  lt t ht := by
    rcases List.mem_append.mp ht with ht | ht
    · exact (h.lt t ht).trans (Nat.lt_succ_self g)
    · exact Nat.lt_succ_of_le (h.le t ht)
  fid := h.fid
  complete g' := by
    rcases eq_or_ne g' g with rfl | hne
    · refine .inr ⟨fty, hused, ?_⟩
      rw [ofGroup_append, ofGroup_eq_nil.mpr fun t ht => (h.lt t ht).ne, h.forming]
      rfl
    · exact h.complete g' hne
  apart := h.apart

end RemotePlay.Arq
