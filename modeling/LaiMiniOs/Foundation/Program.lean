import Mathlib.Logic.Basic

/-! Fallible programs on a shared state.

A program reads and writes the state, may wait for something, and either returns a value or
stops with a fault. Alone it runs through its waits. The rules below take a successful run
apart, one bind at a time, and put runs together again; nothing here mentions what the state
is.
-/

set_option autoImplicit false

namespace Foundation

/-- The ways in which a run of C code fails to return to its caller. -/
inductive Fault where
  /-- A failed run-time assertion stops the machine. -/
  | assertion
  /-- An access outside the object it was meant for. -/
  | undefined
  /-- A loop that is never left. -/
  | diverges
  /-- Control passes to code outside the development. -/
  | external
  deriving DecidableEq, Repr

/-- A program, by its accesses to the state and the points at which others may run. -/
inductive Prog (S A : Type) where
  | done (a : A)
  | fail (fault : Fault)
  | load (rest : S → Prog S A)
  | store (s : S) (rest : Prog S A)
  | wait (rest : Prog S A)

namespace Prog

variable {S A B : Type}

def run : Prog S A → S → Except Fault (A × S)
  | done a, s => .ok (a, s)
  | fail fault, _ => .error fault
  | load rest, s => (rest s).run s
  | store t rest, _ => rest.run t
  | wait rest, s => rest.run s

instance : CoeFun (Prog S A) fun _ => S → Except Fault (A × S) := ⟨run⟩

protected def bind : Prog S A → (A → Prog S B) → Prog S B
  | done a, f => f a
  | fail fault, _ => fail fault
  | load rest, f => load fun s => (rest s).bind f
  | store t rest, f => store t (rest.bind f)
  | wait rest, f => wait (rest.bind f)

instance : Monad (Prog S) where
  pure := done
  bind := Prog.bind

instance : MonadStateOf S (Prog S) where
  get := load done
  set s := store s (done ())
  modifyGet f := load fun s => store (f s).2 (done (f s).1)

def pause : Prog S Unit := wait (done ())

def require (c : Prop) [Decidable c] (fault : Fault) : Prog S Unit :=
  if c then done () else fail fault

abbrev assert (c : Prop) [Decidable c] : Prog S Unit := require c .assertion

def when (c : Prop) [Decidable c] (x : Prog S Unit) : Prog S Unit := if c then x else pure ()

theorem run_bind (x : Prog S A) (f : A → Prog S B) (s : S) :
    (x >>= f) s = match x s with
      | .ok (a, t) => f a t
      | .error fault => .error fault := by
  induction x generalizing s with
  | done a => rfl
  | fail fault => rfl
  | load rest ih => exact ih s s
  | store t rest ih => exact ih t
  | wait rest ih => exact ih s

@[simp] theorem run_pure (a : A) (s : S) : (pure a : Prog S A) s = .ok (a, s) := rfl

@[simp] theorem run_get (s : S) : (get : Prog S S) s = .ok (s, s) := rfl

@[simp] theorem run_set (t s : S) : (set t : Prog S PUnit) s = .ok (PUnit.unit, t) := rfl

@[simp] theorem run_modify (f : S → S) (s : S) :
    (modify f : Prog S PUnit) s = .ok (PUnit.unit, f s) := rfl

@[simp] theorem run_pause (s : S) : (pause : Prog S Unit) s = .ok ((), s) := rfl

@[simp] theorem run_fail (fault : Fault) (s : S) : (fail fault : Prog S A) s = .error fault := rfl

theorem run_ite (c : Prop) [Decidable c] (x y : Prog S A) (s : S) :
    (if c then x else y) s = if c then x s else y s := by
  split <;> rfl

theorem run_when_of {c : Prop} [Decidable c] (h : c) (x : Prog S Unit) (s : S) : when c x s = x s := by
  rw [when, if_pos h]

theorem run_when_of_not {c : Prop} [Decidable c] (h : ¬ c) (x : Prog S Unit) (s : S) : when c x s = .ok ((), s) := by
  rw [when, if_neg h]
  rfl

theorem run_require (c : Prop) [Decidable c] (fault : Fault) (s : S) :
    (require c fault : Prog S Unit) s = if c then .ok ((), s) else .error fault := by
  unfold require
  split <;> rfl

@[simp] theorem run_require_of {c : Prop} [Decidable c] {fault : Fault} (h : c) (s : S) :
    (require c fault : Prog S Unit) s = .ok ((), s) := by
  simp [run_require, h]

@[simp] theorem require_eq_ok {c : Prop} [Decidable c] {fault : Fault} {s : S} {r : Unit × S} :
    (require c fault : Prog S Unit) s = .ok r ↔ c ∧ r = ((), s) := by
  by_cases h : c <;> simp [run_require, h, eq_comm]

theorem bind_of_ok {x : Prog S A} {f : A → Prog S B} {s t : S} {a : A}
    (h : x s = .ok (a, t)) : (x >>= f) s = f a t := by
  rw [run_bind, h]

theorem get_bind {f : S → Prog S A} {s : S} : (get >>= f) s = f s s := rfl

theorem set_bind {f : PUnit → Prog S A} {s t : S} : (set t >>= f) s = f ⟨⟩ t := rfl

theorem modify_bind {g : S → S} {f : PUnit → Prog S A} {s : S} : (modify g >>= f) s = f ⟨⟩ (g s) := rfl

theorem require_bind {c : Prop} [Decidable c] {fault : Fault} {f : Unit → Prog S A} {s : S} (holds : c) :
    (require c fault >>= f) s = f () s :=
  bind_of_ok (run_require_of holds s)

theorem bind_of_error {x : Prog S A} {f : A → Prog S B} {s : S} {fault : Fault}
    (h : x s = .error fault) : (x >>= f) s = .error fault := by
  rw [run_bind, h]

theorem bind_eq_ok {x : Prog S A} {f : A → Prog S B} {s : S} {r : B × S} :
    (x >>= f) s = .ok r ↔ ∃ a t, x s = .ok (a, t) ∧ f a t = .ok r := by
  constructor
  · intro run
    cases first : x s with
    | error fault => simp [bind_of_error first] at run
    | ok result =>
      obtain ⟨a, t⟩ := result
      rw [bind_of_ok first] at run
      exact ⟨a, t, rfl, run⟩
  · rintro ⟨a, t, first, rest⟩
    rw [bind_of_ok first]
    exact rest

theorem require_bind_eq_ok {c : Prop} [Decidable c] {fault : Fault} {f : Unit → Prog S A} {s : S} {r : A × S} :
    (require c fault >>= f) s = .ok r ↔ c ∧ f () s = .ok r := by
  by_cases holds : c
  · rw [bind_of_ok (run_require_of holds s), and_iff_right holds]
  · rw [bind_of_error (by rw [run_require, if_neg holds])]
    exact iff_of_false (fun same => nomatch same) fun both => holds both.1

def forUpTo (body : Nat → Prog S Unit) : Nat → Prog S Unit
  | 0 => pure ()
  | n + 1 => do
    forUpTo body n
    body n

theorem forUpTo_total {body : Nat → Prog S Unit} {I : Nat → S → Prop} {s : S} {n : Nat} (start : I 0 s)
    (step : ∀ k t, k < n → I k t → ∃ t', body k t = .ok ((), t') ∧ I (k + 1) t') :
    ∃ s', forUpTo body n s = .ok ((), s') ∧ I n s' := by
  induction n with
  | zero => exact ⟨s, rfl, start⟩
  | succ n ih =>
    obtain ⟨t, before, holds⟩ := ih fun k t hk => step k t (by omega)
    obtain ⟨s', last, holds'⟩ := step n t (by omega) holds
    refine ⟨s', ?_, holds'⟩
    rw [forUpTo, bind_of_ok before, last]

theorem forUpTo_partial {body : Nat → Prog S Unit} {I : Nat → S → Prop} {s s' : S} {n : Nat} (start : I 0 s)
    (step : ∀ k t t', k < n → I k t → body k t = .ok ((), t') → I (k + 1) t')
    (run : forUpTo body n s = .ok ((), s')) : I n s' := by
  induction n generalizing s' with
  | zero =>
    cases run
    exact start
  | succ n ih =>
    obtain ⟨_, t, before, last⟩ := bind_eq_ok.mp run
    exact step n t s' (by omega) (ih (fun k t t' hk => step k t t' (by omega)) before) last

def yields (x : Prog S A) (s : S) (check : A → S → Bool) : Bool :=
  match x s with
  | .ok (a, t) => check a t
  | .error _ => false

theorem exists_of_yields {x : Prog S A} {s : S} {c : A → S → Bool} (passed : x.yields s c = true) :
    ∃ a t, x s = .ok (a, t) ∧ c a t = true := by
  unfold yields at passed
  cases run : x s with
  | error fault =>
    rw [run] at passed
    cases passed
  | ok result =>
    rw [run] at passed
    exact ⟨result.1, result.2, rfl, passed⟩

def stops (x : Prog S A) (s : S) (fault : Fault) : Bool :=
  match x s with
  | .ok _ => false
  | .error other => decide (other = fault)

theorem eq_error_of_stops {x : Prog S A} {s : S} {fault : Fault} (passed : x.stops s fault = true) :
    x s = .error fault := by
  unfold stops at passed
  cases run : x s with
  | ok result =>
    rw [run] at passed
    cases passed
  | error other =>
    rw [run] at passed
    rw [of_decide_eq_true passed]

def final (x : Prog S A) (s : S) : S :=
  match x s with
  | .ok (_, t) => t
  | .error _ => s

theorem run_final {x : Prog S A} {s : S} {c : A → Bool} (passed : x.yields s (fun a _ => c a) = true) :
    ∃ a, x s = .ok (a, x.final s) ∧ c a = true := by
  obtain ⟨a, t, run, holds⟩ := exists_of_yields passed
  refine ⟨a, ?_, holds⟩
  rw [final, run]

theorem run_final_of [DecidableEq A] {x : Prog S A} {s : S} {a : A}
    (passed : x.yields s (fun b _ => decide (b = a)) = true) : x s = .ok (a, x.final s) := by
  obtain ⟨b, run, same⟩ := run_final passed
  rw [of_decide_eq_true same] at run
  exact run

end Prog

end Foundation
