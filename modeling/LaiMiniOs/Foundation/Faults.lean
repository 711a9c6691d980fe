import LaiMiniOs.Foundation.Program

/-! The faults that a program can stop with. -/

set_option autoImplicit false

namespace Foundation

namespace Prog

variable {S A B : Type} {fault : Fault}

theorem bind_eq_error {x : Prog S A} {f : A → Prog S B} {s : S} :
    (x >>= f) s = .error fault ↔ x s = .error fault ∨ ∃ a t, x s = .ok (a, t) ∧ f a t = .error fault := by
  constructor
  · intro stop
    cases first : x s with
    | error other =>
      rw [bind_of_error first] at stop
      exact .inl (by rw [Except.error.inj stop])
    | ok r =>
      obtain ⟨a, t⟩ := r
      rw [bind_of_ok first] at stop
      exact .inr ⟨a, t, rfl, stop⟩
  · rintro (stop | ⟨a, t, first, stop⟩)
    · exact bind_of_error stop
    · rw [bind_of_ok first, stop]

theorem pure_ne_error (a : A) (s : S) : (pure a : Prog S A) s ≠ .error fault := by
  intro stop
  cases stop

theorem bind_ne_error {x : Prog S A} {f : A → Prog S B} {s : S} (first : x s ≠ .error fault)
    (rest : ∀ a t, x s = .ok (a, t) → f a t ≠ .error fault) : (x >>= f) s ≠ .error fault := by
  intro stop
  rcases bind_eq_error.mp stop with here | ⟨a, t, run, later⟩
  · exact first here
  · exact rest a t run later

theorem check_ne_error {c : Prop} [Decidable c] {other : Fault} {f : Unit → Prog S B} {s : S} (apart : other ≠ fault)
    (rest : c → f () s ≠ .error fault) : (require c other >>= f) s ≠ .error fault := by
  by_cases holds : c
  · rw [bind_of_ok (run_require_of holds s)]
    exact rest holds
  · rw [bind_of_error (by rw [run_require, if_neg holds])]
    exact fun same => apart (Except.error.inj same)

/-- No run of the program stops with this fault, even among others. -/
def Avoids (fault : Fault) : Prog S A → Prop
  | done _ => True
  | fail other => other ≠ fault
  | load rest => ∀ s, Avoids fault (rest s)
  | store _ rest => Avoids fault rest
  | wait rest => Avoids fault rest

namespace Avoids

theorem run {x : Prog S A} (avoids : Avoids fault x) (s : S) : x s ≠ .error fault := by
  induction x generalizing s with
  | done a => exact fun stop => nomatch stop
  | fail other => exact fun stop => avoids (Except.error.inj stop)
  | load rest ih => exact ih s (avoids s) s
  | store t rest ih => exact ih avoids t
  | wait rest ih => exact ih avoids s

theorem bind {x : Prog S A} {f : A → Prog S B} (first : Avoids fault x) (rest : ∀ a, Avoids fault (f a)) :
    Avoids fault (x >>= f) := by
  induction x with
  | done a => exact rest a
  | fail other => exact first
  | load k ih => exact fun s => ih s (first s)
  | store t k ih => exact ih first
  | wait k ih => exact ih first

theorem ret (a : A) : Avoids fault (pure a : Prog S A) := trivial

theorem look : Avoids fault (get : Prog S S) := fun _ => trivial

theorem put (s : S) : Avoids fault (set s : Prog S PUnit) := trivial

theorem change (f : S → S) : Avoids fault (modify f : Prog S PUnit) := fun _ => trivial

theorem rest : Avoids fault (pause : Prog S Unit) := trivial

theorem ite {c : Prop} [Decidable c] {x y : Prog S A} (first : Avoids fault x) (second : Avoids fault y) :
    Avoids fault (if c then x else y) := by
  split
  · exact first
  · exact second

theorem check (c : Prop) [Decidable c] {other : Fault} (apart : other ≠ fault) :
    Avoids fault (require c other : Prog S Unit) := by
  unfold require
  split
  · trivial
  · exact apart

end Avoids

end Prog

end Foundation
