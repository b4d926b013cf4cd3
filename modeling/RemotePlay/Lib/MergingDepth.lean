import RemotePlay.Lib.Merging
import Mathlib.Algebra.Order.BigOperators.Group.List
import Mathlib.Data.Nat.Fib.Basic
import Mathlib.Tactic.Ring

/-! # How deep an item can lie

When an item is merged, what it is merged with weighs at least as much as either part of it.  So the
weights along the way up grow like the Fibonacci numbers, and the joint weight of the items bounds
their depths (`Depths.fib_le`).  An item that weighs more than two others together is not among the
deepest (`Depths.lt_deepest`). -/

namespace RemotePlay.Lib.Merging

variable {α : Type*}

/-- The joint weight. -/
def total (rs : List (Item α)) : ℕ := (rs.map Item.weight).sum

theorem Picks.add_le {rs : List (Item α)} {a b r r' : Item α} (hp : Picks rs a b) (hd : Distinct rs)
    (hr : r ∈ rs) (hr' : r' ∈ rs) (hne : r.key ≠ r'.key) :
    a.weight + b.weight ≤ r.weight + r'.weight := by
  have hle := hp.le
  rcases hp.split hd hr with hrt | hro <;> rcases hp.split hd hr' with hrt' | hro'
  · rcases hrt with rfl | rfl <;> rcases hrt' with rfl | rfl
    · exact absurd rfl hne
    · exact le_rfl
    · exact (Nat.add_comm _ _).le
    · exact absurd rfl hne
  · have hw := hp.weight_taken hrt
    have hw' := hp.weight_other hr' hro'
    omega
  · have hw := hp.weight_other hr hro
    have hw' := hp.weight_taken hrt'
    omega
  · have hw := hp.weight_other hr hro
    have hw' := hp.weight_other hr' hro'
    omega

theorem Distinct.nodup {rs : List (Item α)} (h : Distinct rs) : rs.Nodup :=
  List.Nodup.of_map _ h.keys

variable [DecidableEq α]

section Turn

variable {rs : List (Item α)} {a b : Item α}

/-- The items but the two. -/
def apart (a b : Item α) (rs : List (Item α)) : List (Item α) :=
  rs.filter fun r => r.key ≠ a.key ∧ r.key ≠ b.key

theorem mem_apart {r : Item α} : r ∈ apart a b rs ↔ r ∈ rs ∧ r.key ≠ a.key ∧ r.key ≠ b.key := by
  simp [apart]

theorem Picks.perm (hp : Picks rs a b) (hd : Distinct rs) : rs.Perm (a :: b :: apart a b rs) := by
  refine (List.perm_ext_iff_of_nodup hd.nodup ?_).mpr fun r => ?_
  · refine List.nodup_cons.mpr ⟨?_, List.nodup_cons.mpr ⟨?_, hd.nodup.filter _⟩⟩
    · rw [List.mem_cons, mem_apart, not_or]
      exact ⟨fun h => hp.ne (congrArg Item.key h), fun h => h.2.1 rfl⟩
    · rw [mem_apart]
      exact fun h => h.2.2 rfl
  · rw [List.mem_cons, List.mem_cons, mem_apart]
    constructor
    · intro hr
      rcases hp.split hd hr with (rfl | rfl) | ho
      · exact Or.inl rfl
      · exact Or.inr (Or.inl rfl)
      · exact Or.inr (Or.inr ⟨hr, ho⟩)
    · rintro (rfl | rfl | h)
      · exact hp.fst_mem
      · exact hp.snd_mem
      · exact h.1

theorem Picks.perm_merge (hp : Picks rs a b) (hd : Distinct rs) :
    (merge a b rs).Perm (a.join b :: apart a b rs) := by
  refine (List.perm_ext_iff_of_nodup (hd.merge hp).nodup ?_).mpr fun r => ?_
  · refine List.nodup_cons.mpr ⟨?_, hd.nodup.filter _⟩
    rw [mem_apart]
    exact fun h => h.2.1 rfl
  · rw [hp.mem_merge, List.mem_cons, mem_apart]

/-- **Merging keeps the joint weight.** -/
theorem Picks.total_merge (hp : Picks rs a b) (hd : Distinct rs) :
    total (merge a b rs) = total rs := by
  have hmerge := ((hp.perm_merge hd).map Item.weight).sum_nat
  have hrs := ((hp.perm hd).map Item.weight).sum_nat
  rw [List.map_cons, List.sum_cons] at hmerge
  rw [List.map_cons, List.map_cons, List.sum_cons, List.sum_cons] at hrs
  rw [total, total, hmerge, hrs, ← Nat.add_assoc]
  rfl

end Turn

/-- **The joint weight grows with the depth of an item** as the Fibonacci numbers do; `m` bounds the
weights of the others. -/
theorem Depths.fib_le {rs : List (Item α)} {D : α → ℕ} (h : Depths rs D) (hd : Distinct rs)
    {r : Item α} (hr : r ∈ rs) {m : ℕ} (hm : ∀ x ∈ rs, x.key ≠ r.key → m ≤ x.weight) :
    r.weight * Nat.fib (D r.key + 1) + m * Nat.fib (D r.key) ≤ total rs := by
  induction h generalizing r m with
  | single _ =>
    rw [Nat.fib_zero, Nat.mul_zero, Nat.add_zero, Nat.zero_add, Nat.fib_one, Nat.mul_one]
    exact List.le_sum_of_mem (List.mem_map_of_mem hr)
  | @turn rs a b D hp _ ih =>
    rw [← hp.total_merge hd]
    rcases hp.split hd hr with hrt | hro
    · -- the other one of the two weighs at least `m`, and what is left as much as either
      have hjoin := ih (hd.merge hp) hp.join_mem (m := b.weight) fun x hx _ => hp.snd_le_merge hx
      obtain ⟨hle, hrb⟩ : r.weight + m ≤ (a.join b).weight ∧ r.weight ≤ b.weight := by
        show r.weight + m ≤ a.weight + b.weight ∧ _
        rcases hrt with rfl | rfl
        · have := hm b hp.snd_mem hp.ne.symm
          exact ⟨by omega, hp.le⟩
        · have := hm a hp.fst_mem hp.ne
          exact ⟨by omega, le_rfl⟩
      rw [deepen_taken D hrt]
      generalize D (a.join b).key = d at hjoin ⊢
      calc r.weight * Nat.fib (d + 1 + 1) + m * Nat.fib (d + 1)
          = (r.weight + m) * Nat.fib (d + 1) + r.weight * Nat.fib d := by
            rw [Nat.fib_add_two]
            ring
        _ ≤ (a.join b).weight * Nat.fib (d + 1) + b.weight * Nat.fib d :=
            Nat.add_le_add (Nat.mul_le_mul_right _ hle) (Nat.mul_le_mul_right _ hrb)
        _ ≤ _ := hjoin
    · rw [deepen_other D hro]
      exact ih (hd.merge hp) (hp.other_mem hr hro) (hp.bound_merge hro hm)

/-- **The joint weight bounds the depths.** -/
theorem Depths.lt_of_total {rs : List (Item α)} {D : α → ℕ} (h : Depths rs D) (hd : Distinct rs)
    {n : ℕ} (hn : total rs < Nat.fib (n + 2)) {r : Item α} (hr : r ∈ rs) : D r.key < n := by
  by_contra hle
  have hfib := h.fib_le hd hr (m := 1) fun x hx _ => hd.pos x hx
  have hmono := Nat.fib_mono (Nat.add_le_add_right (Nat.not_lt.mp hle) 2)
  have hpos := Nat.le_mul_of_pos_left (Nat.fib (D r.key + 1)) (hd.pos r hr)
  rw [Nat.fib_add_two (n := D r.key)] at hmono
  omega

/-- **An item heavier than two others together is not among the deepest.** -/
theorem Depths.lt_deepest {rs : List (Item α)} {D : α → ℕ} (h : Depths rs D) (hd : Distinct rs)
    {r r' x : Item α} (hr : r ∈ rs) (hr' : r' ∈ rs) (hne : r.key ≠ r'.key) (hx : x ∈ rs)
    (hlt : r.weight + r'.weight < x.weight) : ∃ y ∈ rs, D x.key < D y.key := by
  cases h with
  | single hlen =>
    exfalso
    match rs, hlen with
    | [y], _ => exact hne (by rw [List.mem_singleton.mp hr, List.mem_singleton.mp hr'])
  | @turn _ a b D hp hD =>
    have hle := hp.add_le hd hr hr' hne
    have hxo : x.key ≠ a.key ∧ x.key ≠ b.key := by
      rcases hp.split hd hx with (rfl | rfl) | ho
      · omega
      · omega
      · exact ho
    refine ⟨a, hp.fst_mem, ?_⟩
    rw [deepen_other D hxo, deepen_taken D (Or.inl rfl)]
    exact Nat.lt_succ_of_le ((hD.ordered (hd.merge hp)).heavier _ hp.join_mem x
      (hp.other_mem hx hxo) (by show a.weight + b.weight < x.weight; omega))

end RemotePlay.Lib.Merging
