import Mathlib.Data.List.Basic

/-! # Decoding a concatenation

A stream that is the concatenation of the codes of a list of items is decoded by taking the items'
codes off its front one after the other. -/

namespace RemotePlay.Lib

variable {ι σ τ : Type*}

/-- **If each item is decoded off the front of the stream, all of them are.**  The invariant may
speak of the items still to come. -/
theorem foldlM_flatMap (dec : σ × List τ → ι → Option (σ × List τ)) (enc : ι → List τ)
    (Inv : List ι → σ → Prop)
    (step : ∀ i l s rest, Inv (i :: l) s →
      ∃ s', dec (s, enc i ++ rest) i = some (s', rest) ∧ Inv l s')
    (l : List ι) (s : σ) (rest : List τ) (h : Inv l s) :
    ∃ s', l.foldlM dec (s, l.flatMap enc ++ rest) = some (s', rest) ∧ Inv [] s' := by
  induction l generalizing s with
  | nil => exact ⟨s, rfl, h⟩
  | cons i l ih =>
    obtain ⟨s1, h1, hinv⟩ := step i l s (l.flatMap enc ++ rest) h
    obtain ⟨s2, h2, hinv2⟩ := ih s1 hinv
    refine ⟨s2, ?_, hinv2⟩
    rw [List.flatMap_cons, List.append_assoc, List.foldlM_cons, h1]
    exact h2

end RemotePlay.Lib
