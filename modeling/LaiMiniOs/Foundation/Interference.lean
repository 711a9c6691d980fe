import Mathlib.Logic.Function.Iterate
import Mathlib.Logic.Relation
import LaiMiniOs.Foundation.Steps

/-! Programs among others that keep out of their way.

A program attains a result when it returns with it whatever the others do during its waits, as long
as their steps keep to a rely relation; its own stores then keep to a guarantee. Programs whose
guarantees are among what the others rely on run side by side as each of them runs alone.
-/

set_option autoImplicit false

namespace Foundation

namespace Prog

variable {S A : Type} {rely guar : S → S → Prop} {post : A → S → Prop}

/-- Run to the next wait: what is left of the program, and the state. -/
def advance : Prog S A → S → Prog S A × S
  | done a, s => (done a, s)
  | fail fault, s => (fail fault, s)
  | load rest, s => (rest s).advance s
  | store t rest, _ => rest.advance t
  | wait rest, s => (rest, s)

/-- The program returns, with a result and in a state that meet `post`. -/
def Attains (rely guar : S → S → Prop) (post : A → S → Prop) : Prog S A → S → Prop
  | done a, s => post a s
  | fail _, _ => False
  | load rest, s => Attains rely guar post (rest s) s
  | store t rest, s => guar s t ∧ Attains rely guar post rest t
  | wait rest, s => ∀ t, rely s t → Attains rely guar post rest t

def Rests (rely guar : S → S → Prop) (post : A → S → Prop) (x : Prog S A) (s : S) : Prop :=
  ∀ t, rely s t → Attains rely guar post x t

theorem Rests.mono {x : Prog S A} {s t : S} (rests : Rests rely guar post x s) (trans : ∀ s t u, rely s t → rely t u →
    rely s u)
    (step : rely s t) : Rests rely guar post x t :=
  fun u later => rests u (trans s t u step later)

namespace Attains

theorem mono {post' : A → S → Prop} {x : Prog S A} {s : S} (attains : Attains rely guar post x s)
    (weaker : ∀ a t, post a t → post' a t) :
    Attains rely guar post' x s := by
  induction x generalizing s with
  | done a => exact weaker a s attains
  | fail fault => exact attains
  | load k ih => exact ih s attains
  | store t k ih => exact ⟨attains.1, ih attains.2⟩
  | wait k ih => exact fun t step => ih (attains t step)

theorem get_bind {f : S → Prog S A} {s : S} (rest : Attains rely guar post (f s) s) :
    Attains rely guar post (get >>= f) s := rest

theorem modify_bind {g : S → S} {f : PUnit → Prog S A} {s : S} (step : guar s (g s))
    (rest : Attains rely guar post (f ⟨⟩) (g s)) :
    Attains rely guar post (modify g >>= f) s := ⟨step, rest⟩

theorem require_bind {c : Prop} [Decidable c] {fault : Fault} {f : Unit → Prog S A} {s : S} (holds : c)
    (rest : Attains rely guar post (f ()) s) : Attains rely guar post (require c fault >>= f) s := by
  rw [require, if_pos holds]
  exact rest

/-- Alone, the program returns, by steps of its guarantee. -/
theorem run {x : Prog S A} {s : S} (attains : Attains rely guar post x s) (refl : ∀ s, rely s s) :
    ∃ a t, x s = .ok (a, t) ∧ post a t ∧ Relation.ReflTransGen guar s t := by
  induction x generalizing s with
  | done a => exact ⟨a, s, rfl, attains, .refl⟩
  | fail fault => exact attains.elim
  | load k ih => exact ih s attains
  | store t k ih =>
    obtain ⟨a, u, run, last, steps⟩ := ih attains.2
    exact ⟨a, u, run, last, .head attains.1 steps⟩
  | wait k ih => exact ih (attains s (refl s))

theorem advance {x : Prog S A} {s : S} (attains : Attains rely guar post x s) (stable : ∀ a s t, rely s t → post a s →
    post a t) :
    Relation.ReflTransGen guar s (x.advance s).2 ∧ Rests rely guar post (x.advance s).1 (x.advance s).2 := by
  induction x generalizing s with
  | done a => exact ⟨.refl, fun t step => stable a s t step attains⟩
  | fail fault => exact attains.elim
  | load k ih => exact ih s attains
  | store t k ih => exact ⟨.head attains.1 (ih attains.2).1, (ih attains.2).2⟩
  | wait k ih => exact ⟨.refl, attains⟩

end Attains

/-- A program that returns comes to its end in steps from wait to wait. -/
theorem advances_of_ok {x : Prog S A} {s t : S} {a : A} (returns : x s = .ok (a, t)) :
    ∃ n, (fun q : Prog S A × S => q.1.advance q.2)^[n + 1] (x, s) = (done a, t) := by
  induction x generalizing s with
  | done b =>
    cases returns
    exact ⟨0, rfl⟩
  | fail fault => cases returns
  | load k ih => exact ih s returns
  | store u k ih => exact ih returns
  | wait k ih =>
    obtain ⟨n, ends⟩ := ih returns
    exact ⟨n + 1, ends⟩

end Prog

end Foundation
