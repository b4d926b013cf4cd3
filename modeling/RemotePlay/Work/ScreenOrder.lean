import RemotePlay.Work.ScreenSync
import Mathlib.Tactic.Linarith

/-! # The frames of one screen

How `screen_bool` and `screen_sem` order the frames of a screen.  A frame is out of the screen until
its first thread gets through, and again when its last thread has released it.  Either no frame is
in, with the semaphore free; or one is; or two successive ones are, the second not having waited. -/

namespace RemotePlay.Work

open Function (update)

/-- Where a frame is with respect to its screen. -/
inductive Place
  | out
  /-- It has taken the semaphore, and is to clear `screen_bool`. -/
  | entering
  /-- It has waited for the semaphore, and its preparations are not finished. -/
  | synced
  | inside
  /-- It leaves, and the other frame stays. -/
  | clearing
  /-- It leaves, and is to release the semaphore. -/
  | leaving
  deriving DecidableEq

/-- While the first thread makes the preparations. -/
def Pc.initPlace : Pc → Place
  | .inited | .swapBool | .waitScreen _ => .out
  | .storeBool _ => .entering
  | .storeLast _ | .init true | .running true => .synced
  | _ => .inside

/-- While the last thread releases the frame. -/
def Pc.closePlace : Pc → Place
  | .clearBool => .clearing
  | .releaseScreen => .leaving
  | _ => .inside

/-- The place of a frame by its phase. -/
def Phase.place {n : ℕ} : Phase n → Place
  | .fresh | .done => .out
  | .initing _ pc => pc.initPlace
  | .opened => .inside
  | .closing _ pc => pc.closePlace

/-- The frames `mine` of a screen and its variables. -/
inductive ScreenInv (mine : ℕ → Prop) (place : ℕ → Place) (b : Bool) (sem last : ℕ) : Prop
  /-- No frame is in. -/
  | idle (hout : ∀ k, mine k → place k = .out) (hsem : sem = 1) (hb : b = true ∨ last = 0)
  /-- One frame is. -/
  | one (k : ℕ) (hk : mine k) (hout : ∀ j, mine j → j ≠ k → place j = .out) (hsem : sem = 0)
    (hplace : place k = .entering ∨ (place k = .synced ∨ place k = .inside) ∧ b = false ∨
      place k = .leaving ∧ b = true)
  /-- Two are, one after the other. -/
  | two (k : ℕ) (hk : mine k) (hk' : mine (k + 1))
    (hout : ∀ j, mine j → j ≠ k → j ≠ k + 1 → place j = .out) (hsem : sem = 0) (hb : b = true)
    (hplace : place k = .inside ∨ place k = .clearing) (hplace' : place (k + 1) = .inside)

namespace ScreenInv

variable {mine : ℕ → Prop} {place place' : ℕ → Place} {b : Bool} {sem last m : ℕ}

theorem sem_le (h : ScreenInv mine place b sem last) : sem ≤ 1 := by
  rcases h with ⟨-, h, -⟩ | ⟨-, -, -, h, -⟩ | ⟨-, -, -, -, h, -⟩ <;> omega

theorem congr (h : ScreenInv mine place b sem last) (hp : ∀ k, mine k → place' k = place k) :
    ScreenInv mine place' b sem last := by
  rcases h with ⟨hout, hsem, hb⟩ | ⟨k, hk, hout, hsem, hplace⟩ |
    ⟨k, hk, hk', hout, hsem, hb, hplace, hplace'⟩
  · exact idle (fun k hk => (hp k hk).trans (hout k hk)) hsem hb
  · refine one k hk (fun j hj hjk => (hp j hj).trans (hout j hj hjk)) hsem ?_
    rw [hp k hk]
    exact hplace
  · refine two k hk hk' (fun j hj h1 h2 => (hp j hj).trans (hout j hj h1 h2)) hsem hb ?_ ?_
    · rw [hp k hk]
      exact hplace
    · rw [hp _ hk']
      exact hplace'

theorem only (h : ScreenInv mine place b sem last) (hm : mine m)
    (hp : place m ≠ .out ∧ place m ≠ .inside ∧ place m ≠ .clearing) :
    (∀ j, mine j → j ≠ m → place j = .out) ∧ sem = 0 ∧
      (place m = .entering ∨ place m = .synced ∧ b = false ∨ place m = .leaving ∧ b = true) := by
  rcases h with ⟨hout, -, -⟩ | ⟨k, hk, hout, hsem, hplace⟩ |
    ⟨k, hk, hk', hout, hsem, hb, hplace, hplace'⟩
  · exact absurd (hout m hm) hp.1
  · rcases eq_or_ne m k with rfl | hmk
    · refine ⟨hout, hsem, ?_⟩
      rcases hplace with h | ⟨h | h, hb⟩ | h
      · exact Or.inl h
      · exact Or.inr (Or.inl ⟨h, hb⟩)
      · exact absurd h hp.2.1
      · exact Or.inr (Or.inr h)
    · exact absurd (hout m hm hmk) hp.1
  · rcases eq_or_ne m k with rfl | hmk
    · exact (hplace.elim (fun h => hp.2.1 h) fun h => hp.2.2 h).elim
    · rcases eq_or_ne m (k + 1) with rfl | hmk'
      · exact absurd hplace' hp.2.1
      · exact absurd (hout m hm hmk hmk') hp.1

/-- **A frame that waited has its preparations made alone.** -/
theorem alone (h : ScreenInv mine place b sem last) (hm : mine m) (hp : place m = .synced) :
    ∀ j, mine j → j ≠ m → place j = .out :=
  (h.only hm (by rw [hp]; decide)).1

theorem join (h : ScreenInv mine place b sem last) (hm : mine m) (hp : place m = .out)
    (hlast : last ≠ 0)
    (hothers : ∀ k, mine k → place k ≠ .out → k + 1 = m ∧ place k ≠ .entering ∧ place k ≠ .synced)
    (hb : b = false) : ScreenInv mine (update place m .inside) true sem last := by
  have hne : ∀ k, place k ≠ .out → k ≠ m := fun k h hk => h (hk ▸ hp)
  rcases h with ⟨-, -, h | h⟩ | ⟨k, hk, hout, hsem, hplace⟩ | ⟨k, -, -, -, -, h, -⟩
  · rw [hb] at h
    cases h
  · exact absurd h hlast
  · have hin : place k = .inside := by
      have hk' : place k ≠ .out := by rcases hplace with h | ⟨h | h, -⟩ | ⟨h, -⟩ <;> simp [h]
      obtain ⟨-, h1, h2⟩ := hothers k hk hk'
      rcases hplace with h | ⟨h | h, -⟩ | ⟨-, h⟩
      · exact absurd h h1
      · exact absurd h h2
      · exact h
      · rw [hb] at h
        cases h
    have hkm : k ≠ m := hne k (by rw [hin]; decide)
    obtain ⟨rfl, -⟩ := hothers k hk (by rw [hin]; decide)
    refine two k hk hm (fun j hj h1 h2 => ?_) hsem rfl (Or.inl ?_) (Function.update_self _ _ _)
    · rw [Function.update_of_ne h2]
      exact hout j hj h1
    · rw [Function.update_of_ne hkm]
      exact hin
  · rw [hb] at h
    cases h

theorem enter (h : ScreenInv mine place b sem last) (hm : mine m) (hsem : 0 < sem) :
    ScreenInv mine (update place m .entering) b (sem - 1) last := by
  rcases h with ⟨hout, h, -⟩ | ⟨k, -, -, h, -⟩ | ⟨k, -, -, -, h, -⟩
  · refine one m hm (fun j hj hjm => ?_) (by omega) (Or.inl (Function.update_self _ _ _))
    rw [Function.update_of_ne hjm]
    exact hout j hj
  · omega
  · omega

theorem sync (h : ScreenInv mine place b sem last) (hm : mine m) (hp : place m = .entering) :
    ScreenInv mine (update place m .synced) false sem last := by
  obtain ⟨hout, hsem, -⟩ := h.only hm (by rw [hp]; decide)
  refine one m hm (fun j hj hjm => ?_) hsem
    (Or.inr (Or.inl ⟨Or.inl (Function.update_self _ _ _), rfl⟩))
  rw [Function.update_of_ne hjm]
  exact hout j hj hjm

theorem settle (h : ScreenInv mine place b sem last) (hm : mine m) (hp : place m = .synced)
    {x : Place} (hx : x = .synced ∨ x = .inside) (last' : ℕ) :
    ScreenInv mine (update place m x) b sem last' := by
  obtain ⟨hout, hsem, hplace⟩ := h.only hm (by rw [hp]; decide)
  rw [hp] at hplace
  obtain ⟨-, hb⟩ := (hplace.resolve_left (by decide)).resolve_right (by rintro ⟨h, -⟩; cases h)
  refine one m hm (fun j hj hjm => ?_) hsem (Or.inr (Or.inl ⟨?_, hb⟩))
  · rw [Function.update_of_ne hjm]
    exact hout j hj hjm
  · rw [Function.update_self]
    exact hx

/-- The last thread to release a frame finds out whether another frame is in. -/
theorem close (h : ScreenInv mine place b sem last) (hm : mine m) (hp : place m = .inside)
    (hprev : ∀ k, mine k → k < m → place k = .out) :
    ScreenInv mine (update place m (if b then .clearing else .leaving)) true sem last := by
  rcases h with ⟨hout, -, -⟩ | ⟨k, hk, hout, hsem, hplace⟩ |
    ⟨k, hk, hk', hout, hsem, hb, hplace, hplace'⟩
  · rw [hout m hm] at hp
    cases hp
  · rcases eq_or_ne m k with rfl | hmk
    · rw [hp] at hplace
      have hb : b = false := by simpa using hplace
      refine one m hm (fun j hj hjm => ?_) hsem (Or.inr (Or.inr ⟨?_, rfl⟩))
      · rw [Function.update_of_ne hjm]
        exact hout j hj hjm
      · rw [Function.update_self, hb]
        rfl
    · rw [hout m hm hmk] at hp
      cases hp
  · rcases eq_or_ne m k with rfl | hmk
    · refine two m hm hk' (fun j hj h1 h2 => ?_) hsem rfl (Or.inr ?_) ?_
      · rw [Function.update_of_ne h1]
        exact hout j hj h1 h2
      · rw [Function.update_self, hb]
        rfl
      · rw [Function.update_of_ne (by omega)]
        exact hplace'
    · rcases eq_or_ne m (k + 1) with rfl | hmk'
      · have := hprev k hk (Nat.lt_succ_self k)
        rcases hplace with h | h <;> rw [h] at this <;> cases this
      · rw [hout m hm hmk hmk'] at hp
        cases hp

theorem cleared (h : ScreenInv mine place b sem last) (hm : mine m) (hp : place m = .clearing) :
    ScreenInv mine (update place m .out) false sem last := by
  rcases h with ⟨hout, -, -⟩ | ⟨k, hk, hout, hsem, hplace⟩ |
    ⟨k, hk, hk', hout, hsem, hb, hplace, hplace'⟩
  · rw [hout m hm] at hp
    cases hp
  · rcases eq_or_ne m k with rfl | hmk
    · rw [hp] at hplace
      simp at hplace
    · rw [hout m hm hmk] at hp
      cases hp
  · rcases eq_or_ne m k with rfl | hmk
    · refine one (m + 1) hk' (fun j hj hjm => ?_) hsem (Or.inr (Or.inl ⟨Or.inr ?_, rfl⟩))
      · rcases eq_or_ne j m with rfl | hj'
        · exact Function.update_self _ _ _
        · rw [Function.update_of_ne hj']
          exact hout j hj hj' hjm
      · rw [Function.update_of_ne (by omega)]
        exact hplace'
    · rcases eq_or_ne m (k + 1) with rfl | hmk'
      · rw [hplace'] at hp
        cases hp
      · rw [hout m hm hmk hmk'] at hp
        cases hp

theorem left (h : ScreenInv mine place b sem last) (hm : mine m) (hp : place m = .leaving) :
    ScreenInv mine (update place m .out) b (sem + 1) last := by
  obtain ⟨hout, hsem, hplace⟩ := h.only hm (by rw [hp]; decide)
  rw [hp] at hplace
  have hb : b = true := by simpa using hplace
  refine idle (fun j hj => ?_) (by omega) (Or.inl hb)
  rcases eq_or_ne j m with rfl | hjm
  · exact Function.update_self _ _ _
  · rw [Function.update_of_ne hjm]
    exact hout j hj hjm

end ScreenInv

end RemotePlay.Work
