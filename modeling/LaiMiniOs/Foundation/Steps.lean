import LaiMiniOs.Foundation.Program

/-! The single steps of a program.

A program is within a relation when everything it stores is a step of the relation, whatever
the state is after each of its waits. This holds of a run alone and of a run among others: it
is what a program guarantees to those that run during its waits.
-/

set_option autoImplicit false

namespace Foundation

namespace Prog

variable {S A B : Type} {R : S → S → Prop}

/-- Every store from this state on is a step of `R`. -/
def Within (R : S → S → Prop) : Prog S A → S → Prop
  | done _, _ => True
  | fail _, _ => True
  | load rest, s => Within R (rest s) s
  | store t rest, s => R s t ∧ Within R rest t
  | wait rest, _ => ∀ t, Within R rest t

theorem within_bind {x : Prog S A} {f : A → Prog S B} {s : S} (first : Within R x s)
    (rest : ∀ a t, Within R (f a) t) : Within R (x >>= f) s := by
  induction x generalizing s with
  | done a => exact rest a s
  | fail fault => trivial
  | load k ih => exact ih s first
  | store t k ih => exact ⟨first.1, ih first.2⟩
  | wait k ih => exact fun t => ih (first t)

theorem Within.run {x : Prog S A} {s t : S} {a : A} (within : Within R x s) (refl : ∀ s, R s s)
    (trans : ∀ s t u, R s t → R t u → R s u) (returns : x s = .ok (a, t)) : R s t := by
  induction x generalizing s with
  | done b =>
    cases returns
    exact refl _
  | fail fault => cases returns
  | load k ih => exact ih s within returns
  | store u k ih => exact trans s u t within.1 (ih within.2 returns)
  | wait k ih => exact ih (within s) returns

def last : Prog S A → S → S
  | done _, s => s
  | fail _, s => s
  | load rest, s => (rest s).last s
  | store t rest, _ => rest.last t
  | wait rest, s => rest.last s

theorem last_of_ok {x : Prog S A} {s t : S} {a : A} (returns : x s = .ok (a, t)) : x.last s = t := by
  induction x generalizing s with
  | done b =>
    cases returns
    rfl
  | fail fault => cases returns
  | load k ih => exact ih s returns
  | store u k ih => exact ih returns
  | wait k ih => exact ih returns

theorem last_bind_of_ok {x : Prog S A} {f : A → Prog S B} {s t : S} {a : A} (returns : x s = .ok (a, t)) :
    (x >>= f).last s = (f a).last t := by
  induction x generalizing s with
  | done b =>
    cases returns
    rfl
  | fail fault => cases returns
  | load k ih => exact ih s returns
  | store u k ih => exact ih returns
  | wait k ih => exact ih returns

theorem last_bind_pure (x : Prog S A) (f : A → B) (s : S) : (x >>= fun a => pure (f a)).last s = x.last s := by
  induction x generalizing s with
  | done a => rfl
  | fail fault => rfl
  | load k ih => exact ih s s
  | store u k ih => exact ih u
  | wait k ih => exact ih s

theorem last_bind {P : S → Prop} {x : Prog S A} {f : A → Prog S B} {s : S} (first : P (x.last s))
    (rest : ∀ a t, x s = .ok (a, t) → P ((f a).last t)) : P ((x >>= f).last s) := by
  induction x generalizing s with
  | done a => exact rest a s rfl
  | fail fault => exact first
  | load k ih => exact ih s first rest
  | store t k ih => exact ih first rest
  | wait k ih => exact ih first rest

theorem Within.last {x : Prog S A} {s : S} (within : Within R x s) (refl : ∀ s, R s s)
    (trans : ∀ s t u, R s t → R t u → R s u) : R s (x.last s) := by
  induction x generalizing s with
  | done b => exact refl s
  | fail fault => exact refl s
  | load k ih => exact ih s within
  | store u k ih => exact trans s u _ within.1 (ih within.2)
  | wait k ih => exact ih (within s)

theorem within_pure (a : A) (s : S) : Within R (pure a) s := trivial

theorem within_fail (fault : Fault) (s : S) : Within R (fail fault : Prog S A) s := trivial

theorem within_get (s : S) : Within R (get : Prog S S) s := trivial

theorem within_pause (s : S) : Within R pause s := fun _ => trivial

theorem within_set {s t : S} (step : R s t) : Within R (set t : Prog S PUnit) s := ⟨step, trivial⟩

theorem within_modify {f : S → S} {s : S} (step : R s (f s)) : Within R (modify f : Prog S PUnit) s := ⟨step, trivial⟩

theorem within_require (c : Prop) [Decidable c] (fault : Fault) (s : S) : Within R (require c fault) s := by
  unfold require
  split <;> trivial

theorem within_ite {c : Prop} [Decidable c] {x y : Prog S A} {s : S} (first : c → Within R x s)
    (second : ¬ c → Within R y s) :
    Within R (if c then x else y) s := by
  split
  next holds => exact first holds
  next fails => exact second fails

theorem within_require_bind {c : Prop} [Decidable c] {fault : Fault} {f : Unit → Prog S A} {s : S}
    (rest : c → Within R (f ()) s) : Within R (require c fault >>= f) s := by
  unfold require
  split
  next holds => exact rest holds
  next => trivial

theorem within_forUpTo {body : Nat → Prog S Unit} {n : Nat} (each : ∀ k t, k < n → Within R (body k) t) (s : S) :
    Within R (forUpTo body n) s := by
  induction n with
  | zero => trivial
  | succ n ih => exact within_bind (ih fun k t hk => each k t (by omega)) fun _ t => each n t (by omega)

/-- All steps of a program are in the relation, wherever it starts. -/
structure Keeps (R : S → S → Prop) (x : Prog S A) : Prop where
  within : ∀ s, Within R x s

namespace Keeps

theorem bind {x : Prog S A} {f : A → Prog S B} (first : Keeps R x) (rest : ∀ a, Keeps R (f a)) : Keeps R (x >>= f) :=
  ⟨fun s => within_bind (first.within s) fun a t => (rest a).within t⟩

theorem read {f : S → Prog S B} (rest : ∀ s, Within R (f s) s) : Keeps R (get >>= f) := ⟨rest⟩

theorem ite {c : Prop} [Decidable c] {x y : Prog S A} (first : Keeps R x) (second : Keeps R y) :
    Keeps R (if c then x else y) :=
  ⟨fun s => within_ite (fun _ => first.within s) (fun _ => second.within s)⟩

theorem when {c : Prop} [Decidable c] {x : Prog S Unit} (body : Keeps R x) : Keeps R (Prog.when c x) :=
  ite body ⟨within_pure ()⟩

theorem check (c : Prop) [Decidable c] (fault : Fault) : Keeps R (require c fault) := ⟨within_require c fault⟩

theorem ret (a : A) : Keeps R (pure a : Prog S A) := ⟨within_pure a⟩

theorem stop (fault : Fault) : Keeps R (fail fault : Prog S A) := ⟨within_fail fault⟩

theorem change {f : S → S} (step : ∀ s, R s (f s)) : Keeps R (modify f : Prog S PUnit) :=
  ⟨fun s => within_modify (step s)⟩

theorem look : Keeps R (get : Prog S S) := ⟨within_get⟩

theorem rest : Keeps R (pause : Prog S Unit) := ⟨within_pause⟩

theorem loop {body : Nat → Prog S Unit} (each : ∀ k, Keeps R (body k)) (n : Nat) : Keeps R (forUpTo body n) :=
  ⟨fun s => within_forUpTo (fun k t _ => (each k).within t) s⟩

end Keeps

end Prog

end Foundation
