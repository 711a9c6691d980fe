import Mathlib.Data.List.Nodup
import Mathlib.Logic.Function.Basic

/-! Lists that share their elements.

An element that carries one list node can be in one list only. A family of lists keeps to this
when no list repeats an element and no two lists have one in common.
-/

set_option autoImplicit false

namespace Foundation

structure Separate {Q T : Type} (lists : Q → List T) : Prop where
  nodup : ∀ q, (lists q).Nodup
  apart : ∀ q q' t, t ∈ lists q → t ∈ lists q' → q = q'

variable {Q T : Type} [DecidableEq Q] {lists : Q → List T}

/-- A list may lose elements, change their order and take in elements that were in no list. -/
theorem Separate.update (separate : Separate lists) (q : Q) {list : List T} (nodup : list.Nodup)
    (origin : ∀ t ∈ list, t ∈ lists q ∨ ∀ q', t ∉ lists q') : Separate (Function.update lists q list) := by
  have place (q' : Q) (t : T) (here : t ∈ Function.update lists q list q') (other : q' ≠ q) : t ∈ lists q' := by
    rwa [Function.update_of_ne other] at here
  have inside (t : T) (here : t ∈ Function.update lists q list q) : t ∈ lists q ∨ ∀ q', t ∉ lists q' := by
    rw [Function.update_self] at here
    exact origin t here
  have meet (q' : Q) (t : T) (here : t ∈ Function.update lists q list q)
      (there : t ∈ Function.update lists q list q') : q' = q := by
    by_contra other
    rcases inside t here with old | new
    · exact other (separate.apart _ _ t (place q' t there other) old)
    · exact new q' (place q' t there other)
  refine ⟨fun q' => ?_, fun q₁ q₂ t first second => ?_⟩
  · by_cases same : q' = q
    · rw [same, Function.update_self]
      exact nodup
    · rw [Function.update_of_ne same]
      exact separate.nodup q'
  · by_cases same : q₁ = q
    · subst same
      exact (meet q₂ t first second).symm
    · by_cases same' : q₂ = q
      · subst same'
        exact meet q₁ t second first
      · exact separate.apart _ _ t (place q₁ t first same) (place q₂ t second same')

end Foundation
