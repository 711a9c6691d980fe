import LaiMiniOs.Foundation.Focus

/-! Programs that keep a record.

A record is a list of events beside the state. Programs on the state run beside it unchanged, and
a program that makes notes traces the program that is left when the notes are taken out.
-/

set_option autoImplicit false

namespace Foundation

structure Traced (S E : Type) where
  state : S
  log : List E

def Traced.part (S E : Type) : Lens (Traced S E) S where
  get := Traced.state
  put s t := ⟨s, t.log⟩
  get_put _ _ := rfl
  put_get _ := rfl
  put_put _ _ _ := rfl

namespace Prog

variable {S E A B : Type}

def quiet (x : Prog S A) : Prog (Traced S E) A := x.zoom (Traced.part S E)

def note (e : E) : Prog (Traced S E) Unit := modify fun t => ⟨t.state, t.log ++ [e]⟩

theorem run_quiet (x : Prog S A) (t : Traced S E) : quiet x t = (x t.state).map fun r => (r.1, ⟨r.2, t.log⟩) :=
  run_zoom _ x t

theorem quiet_of_ok {x : Prog S A} {t : Traced S E} {a : A} {s : S} (run : x t.state = .ok (a, s)) :
    quiet x t = .ok (a, ⟨s, t.log⟩) := by
  rw [run_quiet, run]
  rfl

theorem quiet_eq_ok {x : Prog S A} {t t' : Traced S E} {a : A} :
    quiet x t = .ok (a, t') ↔ x t.state = .ok (a, t'.state) ∧ t'.log = t.log := by
  rw [run_quiet]
  constructor
  · intro run
    cases result : x t.state with
    | error fault =>
      rw [result] at run
      cases run
    | ok r =>
      rw [result] at run
      cases run
      exact ⟨rfl, rfl⟩
  · rintro ⟨run, same⟩
    rw [run, ← same]
    rfl

/-- Apart from its notes the first program does what the second does. -/
def Traces (x : Prog (Traced S E) A) (y : Prog S A) : Prop := ∀ t, (x t).map (fun r => (r.1, r.2.state)) = y t.state

namespace Traces

variable {x : Prog (Traced S E) A} {y : Prog S A}

theorem returns (traces : Traces x y) {t t' : Traced S E} {a : A} (run : x t = .ok (a, t')) :
    y t.state = .ok (a, t'.state) := by
  rw [← traces t, run]
  rfl

theorem exists_log (traces : Traces x y) {t : Traced S E} {a : A} {s : S} (run : y t.state = .ok (a, s)) :
    ∃ log, x t = .ok (a, ⟨s, log⟩) := by
  rw [← traces t] at run
  cases result : x t with
  | error fault =>
    rw [result] at run
    cases run
  | ok r =>
    rw [result] at run
    cases run
    exact ⟨r.2.log, rfl⟩

theorem bind {f : A → Prog (Traced S E) B} {g : A → Prog S B} (first : Traces x y) (rest : ∀ a, Traces (f a) (g a)) :
    Traces (x >>= f) (y >>= g) := by
  intro t
  rw [run_bind, run_bind, ← first t]
  cases x t with
  | error fault => rfl
  | ok r => exact rest r.1 r.2

theorem quiet (y : Prog S A) : Traces (quiet y : Prog (Traced S E) A) y := by
  intro t
  rw [run_quiet]
  cases y t.state <;> rfl

theorem ret (a : A) : Traces (pure a : Prog (Traced S E) A) (pure a) := fun _ => rfl

theorem stop (fault : Fault) : Traces (fail fault : Prog (Traced S E) A) (fail fault) := fun _ => rfl

theorem note {e : E} {f : Unit → Prog (Traced S E) A} (rest : Traces (f ()) y) : Traces (Prog.note e >>= f) y := by
  intro t
  rw [Prog.note, modify_bind]
  exact rest _

theorem noteAfter {e : E} (first : Traces x y) : Traces (x >>= fun a => Prog.note e >>= fun _ => pure a) y := by
  intro t
  rw [run_bind, ← first t]
  cases x t <;> rfl

theorem ite {c : Prop} [Decidable c] {x' : Prog (Traced S E) A} {y' : Prog S A} (first : Traces x y)
    (second : Traces x' y') :
    Traces (if c then x else x') (if c then y else y') := by
  split
  · exact first
  · exact second

theorem assoc {f : A → Prog (Traced S E) B} {C : Type} {g : B → Prog (Traced S E) C} {z : Prog S C}
    (traces : Traces (x >>= fun a => f a >>= g) z) : Traces (x >>= f >>= g) z := by
  intro t
  rw [← traces t, run_bind, run_bind, run_bind]
  cases x t with
  | error fault => rfl
  | ok r => exact congrArg _ (run_bind (f r.1) g r.2).symm

theorem iteBind {c : Prop} [Decidable c] {x' : Prog (Traced S E) A} {f : A → Prog (Traced S E) B} {z z' : Prog S B}
    (first : Traces (x >>= f) z) (second : Traces (x' >>= f) z') :
    Traces ((if c then x else x') >>= f) (if c then z else z') := by
  split
  · exact first
  · exact second

end Traces

def Adds (P : E → Prop) (t t' : Traced S E) : Prop := ∃ more, t'.log = t.log ++ more ∧ ∀ e ∈ more, P e

section
variable {P : E → Prop}

theorem Adds.refl (t : Traced S E) : Adds P t t := ⟨[], (List.append_nil _).symm, nofun⟩

theorem Adds.trans (t u v : Traced S E) (first : Adds P t u) (second : Adds P u v) : Adds P t v := by
  obtain ⟨more, log, each⟩ := first
  obtain ⟨more', log', each'⟩ := second
  refine ⟨more ++ more', by rw [log', log, List.append_assoc], fun e member => ?_⟩
  exact (List.mem_append.mp member).elim (each e) (each' e)

theorem keeps_quiet (x : Prog S A) : Keeps (Adds P) (quiet x : Prog (Traced S E) A) :=
  (Keeps.always x).zoom fun t _ _ => ⟨[], (List.append_nil t.log).symm, nofun⟩

theorem keeps_note {e : E} (holds : P e) : Keeps (Adds P) (note e : Prog (Traced S E) Unit) :=
  .change fun t => ⟨[e], rfl, by simpa using holds⟩

/-- What follows a check may rely on it. -/
theorem keeps_check {R : Traced S E → Traced S E → Prop} {c : Prop} [Decidable c] {fault : Fault}
    {f : Unit → Prog (Traced S E) A} (rest : c → Keeps R (f ())) : Keeps R (quiet (require c fault) >>= f) := by
  unfold require
  split
  next holds => exact rest holds
  next => exact .stop fault

theorem last_note_bind (e : E) (f : Unit → Prog (Traced S E) A) (t : Traced S E) :
    (note e >>= f).last t = (f ()).last ⟨t.state, t.log ++ [e]⟩ := rfl

theorem last_quiet_bind {P : List E → Prop} {x : Prog S A} {f : A → Prog (Traced S E) B} {t : Traced S E}
    (here : P t.log)
    (rest : ∀ a u, x t.state = .ok (a, u.state) → u.log = t.log → P ((f a).last u).log) :
    P ((quiet x >>= f).last t).log := by
  have same : ((quiet x).last t).log = t.log := by
    obtain ⟨more, log, each⟩ := (keeps_quiet (P := fun _ : E => False) x).within t |>.last Adds.refl Adds.trans
    cases more with
    | nil => rw [log, List.append_nil]
    | cons e more => exact (each e List.mem_cons_self).elim
  refine last_bind (P := fun u : Traced S E => P u.log) ?_ fun a u run => ?_
  · rw [same]
    exact here
  · obtain ⟨state, log⟩ := quiet_eq_ok.mp run
    exact rest a u state log

/-- What a run that starts with an empty record has noted, whether it returns or fails. -/
def events (x : Prog (Traced S E) A) (s : S) : List E := (x.last ⟨s, []⟩).log

theorem Keeps.events {x : Prog (Traced S E) A} (keeps : Keeps (Adds P) x) (s : S) : ∀ e ∈ x.events s, P e := by
  obtain ⟨more, log, each⟩ := (keeps.within ⟨s, []⟩).last Adds.refl Adds.trans
  intro e member
  rw [Prog.events, log, List.nil_append] at member
  exact each e member

end

end Prog

end Foundation
