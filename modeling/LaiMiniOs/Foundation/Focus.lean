import LaiMiniOs.Foundation.Steps

/-! Programs on a part of the state.

A lens is a part that can be read and replaced. A program on the part runs on the whole state as it
runs on the part, and leaves the rest alone.
-/

set_option autoImplicit false

namespace Foundation

structure Lens (S T : Type) where
  get : S → T
  put : T → S → S
  get_put : ∀ t s, get (put t s) = t
  put_get : ∀ s, put (get s) s = s
  put_put : ∀ t t' s, put t (put t' s) = put t s

namespace Prog

variable {S T A : Type}

def zoom (part : Lens S T) : Prog T A → Prog S A
  | done a => done a
  | fail fault => fail fault
  | load rest => load fun s => (rest (part.get s)).zoom part
  | store t rest => load fun s => store (part.put t s) (rest.zoom part)
  | wait rest => wait (rest.zoom part)

theorem run_zoom (part : Lens S T) (x : Prog T A) (s : S) :
    zoom part x s = (x (part.get s)).map fun r => (r.1, part.put r.2 s) := by
  induction x generalizing s with
  | done a => exact congrArg (fun u => Except.ok (a, u)) (part.put_get s).symm
  | fail fault => rfl
  | load rest ih => exact ih (part.get s) s
  | store t rest ih =>
    -- The rest starts from the part that was just written.
    change zoom part rest (part.put t s) = _
    rw [ih, part.get_put]
    simp only [part.put_put]
    rfl
  | wait rest ih => exact ih s

theorem zoom_of_ok {part : Lens S T} {x : Prog T A} {s : S} {t : T} {a : A} (run : x (part.get s) = .ok (a, t)) :
    zoom part x s = .ok (a, part.put t s) := by
  rw [run_zoom, run]
  rfl

theorem zoom_of_error {part : Lens S T} {x : Prog T A} {s : S} {fault : Fault} (run : x (part.get s) = .error fault) :
    zoom part x s = .error fault := by
  rw [run_zoom, run]
  rfl

theorem zoom_eq_ok {part : Lens S T} {x : Prog T A} {s s' : S} {a : A} :
    zoom part x s = .ok (a, s') ↔ ∃ t, x (part.get s) = .ok (a, t) ∧ s' = part.put t s := by
  constructor
  · intro run
    cases result : x (part.get s) with
    | error fault => simp [zoom_of_error result] at run
    | ok r =>
      obtain ⟨b, t⟩ := r
      rw [zoom_of_ok result] at run
      cases run
      exact ⟨t, rfl, rfl⟩
  · rintro ⟨t, run, rfl⟩
    exact zoom_of_ok run

theorem Keeps.always (x : Prog S A) : Keeps (fun _ _ => True) x := by
  refine ⟨fun s => ?_⟩
  induction x generalizing s with
  | done a => trivial
  | fail fault => trivial
  | load rest ih => exact ih s s
  | store t rest ih => exact ⟨trivial, ih t⟩
  | wait rest ih => exact fun t => ih t

theorem Keeps.zoom {R : T → T → Prop} {R' : S → S → Prop} {part : Lens S T} {x : Prog T A} (keeps : Keeps R x)
    (lift : ∀ s t, R (part.get s) t → R' s (part.put t s)) : Keeps R' (x.zoom part) := by
  refine ⟨fun s => ?_⟩
  have within := keeps.within (part.get s)
  clear keeps
  induction x generalizing s with
  | done a => trivial
  | fail fault => trivial
  | load rest ih => exact ih (part.get s) s within
  | store t rest ih =>
    refine ⟨lift s t within.1, ih _ ?_⟩
    rw [part.get_put]
    exact within.2
  | wait rest ih => exact fun t => ih t (within _)

end Prog

end Foundation
