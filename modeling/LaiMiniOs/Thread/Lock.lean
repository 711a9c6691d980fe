import Mathlib.Algebra.Group.Nat.Defs
import Mathlib.Logic.Function.Basic
import Mathlib.Logic.Relation
import Mathlib.Data.List.Nodup
import LaiMiniOs.Foundation.Program
import LaiMiniOs.Foundation.Memory

/-! One lock and any number of tasks that take and give it back, from `thread/sync.c`.

`lock_acquire` and `lock_release` run with interrupts on, so a task can lose the CPU between any two
of their statements; only `sema_down`, up to the point where it sleeps, and `sema_up` are whole. A
task is at one of the points below, and a step of the system is the next statement of some task that
is not asleep.
-/

set_option autoImplicit false

namespace LaiMiniOs
open Foundation Function

inductive LockPoint where
  | outside
  /-- `if (plock->holder != running_thread())`. -/
  | testHolder
  /-- The section of `sema_down`, entered for the first time. -/
  | down
  /-- Blocked in `sema_down`. -/
  | asleep
  /-- Unblocked by `sema_up`; the loop of `sema_down` tests the value again. -/
  | woken
  /-- `plock->holder = running_thread()`. -/
  | setHolder
  /-- `ASSERT(plock->holder_repeat_nr == 0)`. -/
  | assertZero
  /-- `plock->holder_repeat_nr = 1`. -/
  | setOne
  /-- `plock->holder_repeat_nr++`. -/
  | increase
  /-- `ASSERT(plock->holder == running_thread())`. -/
  | assertHolder
  /-- `if (plock->holder_repeat_nr > 1)`. -/
  | testRepeat
  /-- `plock->holder_repeat_nr--`. -/
  | decrease
  /-- `ASSERT(plock->holder_repeat_nr == 1)`. -/
  | assertOne
  /-- `plock->holder = NULL`. -/
  | clearHolder
  /-- `plock->holder_repeat_nr = 0`. -/
  | clearRepeat
  /-- `sema_up`. -/
  | up
  deriving DecidableEq

/-- `struct lock` with its semaphore, where each task is, and how often it has taken the lock without
giving it back. -/
structure LockState (T : Type) where
  holder : Option T
  holderRepeatNr : Word
  value : Byte
  waiters : List T
  point : T → LockPoint
  depth : T → Nat

namespace LockState

variable {T : Type} [DecidableEq T]

def lockInit : LockState T := ⟨none, 0, 1, [], fun _ => .outside, fun _ => 0⟩

def goto (s : LockState T) (t : T) (point : LockPoint) : LockState T := { s with point := update s.point t point }

def setDepth (s : LockState T) (t : T) (depth : Nat) : LockState T := { s with depth := update s.depth t depth }

def assert (c : Prop) [Decidable c] (rest : LockState T) : Except Fault (LockState T) :=
  if c then .ok rest else .error .assertion

def semaDown (s : LockState T) (t : T) : Except Fault (LockState T) :=
  if s.value = 0 then assert (t ∉ s.waiters) ({ s with waiters := s.waiters ++ [t] }.goto t .asleep)
  else assert (s.value - 1 = 0) ({ s with value := s.value - 1 }.goto t .setHolder)

def semaUp (s : LockState T) (t : T) : Except Fault (LockState T) :=
  if s.value = 0 then
    match s.waiters with
    | [] => assert (s.value + 1 = 1) (({ s with value := s.value + 1 }.goto t .outside).setDepth t 0)
    | first :: rest =>
      if s.point first = .asleep then
        assert (s.value + 1 = 1)
          ((({ s with value := s.value + 1, waiters := rest }.goto first .woken).goto t .outside).setDepth t 0)
      else .error .assertion
  else .error .assertion

def next (s : LockState T) (t : T) : Except Fault (LockState T) :=
  match s.point t with
  | .outside | .asleep => .ok s
  | .testHolder => .ok (s.goto t (if s.holder ≠ some t then .down else .increase))
  | .down | .woken => s.semaDown t
  | .setHolder => .ok ({ s with holder := some t }.goto t .assertZero)
  | .assertZero => assert (s.holderRepeatNr = 0) (s.goto t .setOne)
  | .setOne => .ok (({ s with holderRepeatNr := 1 }.goto t .outside).setDepth t 1)
  | .increase => .ok (({ s with holderRepeatNr := s.holderRepeatNr + 1 }.goto t .outside).setDepth t (s.depth t + 1))
  | .assertHolder => assert (s.holder = some t) (s.goto t .testRepeat)
  | .testRepeat => .ok (s.goto t (if 1 < s.holderRepeatNr then .decrease else .assertOne))
  | .decrease => .ok (({ s with holderRepeatNr := s.holderRepeatNr - 1 }.goto t .outside).setDepth t (s.depth t - 1))
  | .assertOne => assert (s.holderRepeatNr = 1) (s.goto t .clearHolder)
  | .clearHolder => .ok ({ s with holder := none }.goto t .clearRepeat)
  | .clearRepeat => .ok ({ s with holderRepeatNr := 0 }.goto t .up)
  | .up => s.semaUp t

/-- A step of the system: a task calls `lock_acquire`, one that has the lock calls `lock_release`, or
a task that can run goes on with its next statement. -/
inductive Step (s : LockState T) : LockState T → Prop where
  | acquire {t : T} (idle : s.point t = .outside) : Step s (s.goto t .testHolder)
  | release {t : T} (idle : s.point t = .outside) (held : 0 < s.depth t) : Step s (s.goto t .assertHolder)
  | next {t : T} {s' : LockState T} (ready : s.point t ≠ .asleep) (run : s.next t = .ok s') : Step s s'

def BoundedStep (s s' : LockState T) : Prop := Step s s' ∧ ∀ t, s'.depth t < 2 ^ 32

end LockState

/-- What a task at a point has: whether the semaphore is its own, and how deep it has taken the
lock. -/
def LockPoint.Fits (p : LockPoint) (depth : Nat) (owner : Prop) : Prop :=
  match p with
  | .outside | .testHolder => owner ↔ 0 < depth
  | .down | .asleep | .woken => depth = 0 ∧ ¬owner
  | .setHolder | .assertZero | .setOne => depth = 0 ∧ owner
  | .increase | .assertHolder | .testRepeat => 0 < depth ∧ owner
  | .decrease => 1 < depth ∧ owner
  | .assertOne | .clearHolder | .clearRepeat | .up => depth = 1 ∧ owner

def LockPoint.named : LockPoint → Bool
  | .setHolder | .clearRepeat | .up => false
  | _ => true

def LockPoint.count (p : LockPoint) (depth : Nat) : Word :=
  match p with
  | .setHolder | .assertZero | .setOne | .up => 0
  | _ => BitVec.ofNat 32 depth

namespace LockState

variable {T : Type} {s s' : LockState T} {owner : Option T} {t u : T} {p : LockPoint} {d : Nat}

/-- The semaphore has at most one owner, and the fields of the lock are what the owner's place in the
code makes them. -/
structure Owned (s : LockState T) (owner : Option T) : Prop where
  fits : ∀ t, (s.point t).Fits (s.depth t) (owner = some t)
  value : s.value = owner.elim 1 fun _ => 0
  holder : s.holder = owner.filter fun t => (s.point t).named
  count : s.holderRepeatNr = owner.elim 0 fun t => (s.point t).count (s.depth t)
  nodup : s.waiters.Nodup
  asleep : ∀ t, t ∈ s.waiters ↔ s.point t = .asleep
  woken : owner = none → s.waiters ≠ [] → ∃ t, s.point t = .woken

theorem lockInit_owned : (lockInit : LockState T).Owned none where
  fits t := by simp [lockInit, LockPoint.Fits]
  value := rfl
  holder := rfl
  count := rfl
  nodup := List.nodup_nil
  asleep t := by simp [lockInit]
  woken _ some := absurd rfl some

theorem Owned.holder_eq_some_iff (owned : s.Owned owner) : s.holder = some t ↔ owner = some t ∧ (s.point t).named := by
  rw [owned.holder, Option.filter_eq_some_iff]

theorem Owned.value_eq_zero_iff (owned : s.Owned owner) : s.value = 0 ↔ owner ≠ none := by
  rw [owned.value]
  cases owner <;> simp

theorem Owned.depth_pos (owned : s.Owned owner) (held : 0 < s.depth t) : owner = some t := by
  have fits := owned.fits t
  cases here : s.point t <;> simp only [here, LockPoint.Fits] at fits <;>
    first | omega | exact fits.2 | exact fits.mpr held

theorem Owned.count_eq_depth (owned : s.Owned owner) (bound : s.depth t < 2 ^ 32) (holder : s.holder = some t) :
    s.holderRepeatNr.toNat = s.depth t := by
  obtain ⟨rfl, named⟩ := owned.holder_eq_some_iff.mp holder
  have fits := owned.fits t
  rw [owned.count]
  cases here : s.point t <;> simp_all [LockPoint.count, LockPoint.named, LockPoint.Fits]

variable [DecidableEq T]

theorem Owned.move (owned : s.Owned (some t)) (fits : p.Fits d True)
    (holder : s'.holder = if p.named then some t else none)
    (count : s'.holderRepeatNr = p.count d) (value : s'.value = s.value) (waiters : s'.waiters = s.waiters)
    (point : s'.point = update s.point t p) (depth : s'.depth = update s.depth t d) : s'.Owned (some t) := by
  have awake : s.point t ≠ .asleep := fun asleep => by simpa [asleep, LockPoint.Fits] using owned.fits t
  have awake' : p ≠ .asleep := by rintro rfl; simp [LockPoint.Fits] at fits
  refine ⟨fun u => ?_, value.trans owned.value, ?_, ?_, waiters ▸ owned.nodup, fun u => ?_, fun none =>
    absurd none (Option.some_ne_none t)⟩
  · by_cases same : u = t
    · subst same
      simpa [point, depth] using fits
    · simpa [point, depth, same] using owned.fits u
  · rw [holder, Option.filter_some, point, update_self]
  · rw [count, Option.elim_some, point, depth, update_self, update_self]
  · by_cases same : u = t
    · subst same
      simp [waiters, point, owned.asleep, awake, awake']
    · simp [waiters, point, owned.asleep, same]

theorem Owned.goto (owned : s.Owned owner) (fits : p.Fits (s.depth t) (owner = some t)) (awake : s.point t ≠ .asleep)
    (awake' : p ≠ .asleep)
    (quiet : s.point t ≠ .woken) (named : owner = some t → p.named = (s.point t).named)
    (count : owner = some t → p.count (s.depth t) = (s.point t).count (s.depth t)) : (s.goto t p).Owned owner := by
  refine ⟨fun u => ?_, owned.value, ?_, ?_, owned.nodup, fun u => ?_, fun none some => ?_⟩
  · by_cases same : u = t
    · subst same
      simpa [LockState.goto] using fits
    · simpa [LockState.goto, same] using owned.fits u
  · refine owned.holder.trans ?_
    cases owner with
    | none => rfl
    | some u =>
      by_cases same : u = t
      · subst same
        simp [LockState.goto, Option.filter_some, named rfl]
      · simp [LockState.goto, Option.filter_some, same]
  · refine owned.count.trans ?_
    cases owner with
    | none => rfl
    | some u =>
      by_cases same : u = t
      · subst same
        simp [LockState.goto, count rfl]
      · simp [LockState.goto, same]
  · by_cases same : u = t
    · subst same
      simp [LockState.goto, owned.asleep, awake, awake']
    · simp [LockState.goto, owned.asleep, same]
  · obtain ⟨u, woken⟩ := owned.woken none some
    have same : u ≠ t := by rintro rfl; exact quiet woken
    exact ⟨u, by simpa [LockState.goto, same] using woken⟩

theorem semaDown_owned (owned : s.Owned owner) (free : s.depth t = 0 ∧ owner ≠ some t) (awake : s.point t ≠ .asleep) :
    ∃ s' owner', s.semaDown t = .ok s' ∧ s'.Owned owner' := by
  have absent : t ∉ s.waiters := mt (owned.asleep t).mp awake
  cases owner with
  | some u =>
    have other : u ≠ t := fun same => free.2 (congrArg some same)
    refine ⟨_, some u, (if_pos (owned.value_eq_zero_iff.mpr (Option.some_ne_none u))).trans (if_pos absent), fun v =>
      ?_, owned.value, ?_, ?_, ?_, fun v => ?_,
      fun none => absurd none (Option.some_ne_none u)⟩
    · by_cases same : v = t
      · subst same
        simp [LockState.goto, LockPoint.Fits, free.1, other]
      · simpa [LockState.goto, same] using owned.fits v
    · simpa [LockState.goto, Option.filter_some, other] using owned.holder
    · simpa [LockState.goto, other] using owned.count
    · exact List.nodup_append'.mpr ⟨owned.nodup, List.nodup_singleton t, by simpa using absent⟩
    · by_cases same : v = t
      · subst same
        simp [LockState.goto]
      · simp [LockState.goto, owned.asleep, same]
  | none =>
    have one : s.value = 1 := owned.value
    refine ⟨_, some t, (if_neg (by simp [one])).trans (if_pos (by simp [one])), fun v => ?_, ?_, ?_, ?_, owned.nodup,
      fun v => ?_,
      fun none => absurd none (Option.some_ne_none t)⟩
    · by_cases same : v = t
      · subst same
        simp [LockState.goto, LockPoint.Fits, free.1]
      · have other : ¬t = v := Ne.symm same
        simpa [LockState.goto, same, other] using owned.fits v
    · simp [LockState.goto, one]
    · simpa [LockState.goto, LockPoint.named, Option.filter_some] using owned.holder
    · simpa [LockState.goto, LockPoint.count] using owned.count
    · by_cases same : v = t
      · subst same
        simp [LockState.goto, absent]
      · simp [LockState.goto, owned.asleep, same]

theorem semaUp_owned (owned : s.Owned (some t)) (last : s.point t = .up) : ∃ s' owner', s.semaUp t = .ok s' ∧
    s'.Owned owner' := by
  have zero : s.value = 0 := owned.value
  have holder : s.holder = none := by simp [owned.holder, last, LockPoint.named, Option.filter_some]
  have count : s.holderRepeatNr = 0 := by simp [owned.count, last, LockPoint.count]
  have others : ∀ {v}, v ≠ t → (s.point v).Fits (s.depth v) False := fun {v} other => by
    simpa [Ne.symm other] using owned.fits v
  cases waiters : s.waiters with
  | nil =>
    have run : s.semaUp t = .ok (({ s with value := s.value + 1 }.goto t .outside).setDepth t 0) := by
      simp [semaUp, zero, waiters, assert]
    refine ⟨_, none, run, fun v =>
      ?_, by simp [LockState.goto, setDepth, zero], holder, count, owned.nodup, fun v => ?_,
      fun _ some => absurd waiters some⟩
    · by_cases same : v = t
      · subst same
        simp [LockState.goto, setDepth, LockPoint.Fits]
      · simpa [LockState.goto, setDepth, same] using others same
    · by_cases same : v = t
      · subst same
        simp [LockState.goto, setDepth, owned.asleep, last]
      · simp [LockState.goto, setDepth, owned.asleep, same]
  | cons first rest =>
    have asleep : s.point first = .asleep := (owned.asleep first).mp (by simp [waiters])
    have other : first ≠ t := by rintro rfl; simp [last] at asleep
    have fresh : first ∉ rest ∧ rest.Nodup := by simpa [waiters] using owned.nodup
    have members (v : T) : v = first ∨ v ∈ rest ↔ s.point v = .asleep := by simpa [waiters] using owned.asleep v
    have run : s.semaUp t = .ok
        ((({ s with value := s.value + 1, waiters := rest }.goto first .woken).goto t .outside).setDepth t 0) := by
      simp [semaUp, zero, waiters, assert, asleep]
    refine ⟨_, none, run, fun v => ?_, by simp [LockState.goto, setDepth, zero], holder, count, fresh.2, fun v => ?_,
      fun _ _ => ⟨first, by simp [LockState.goto, setDepth, other]⟩⟩
    · by_cases same : v = t
      · subst same
        simp [LockState.goto, setDepth, LockPoint.Fits]
      · by_cases head : v = first
        · subst head
          simpa [LockState.goto, setDepth, same, LockPoint.Fits, asleep] using others same
        · simpa [LockState.goto, setDepth, same, head] using others same
    · by_cases same : v = t
      · subst same
        have absent : v ∉ rest := fun mem => by simpa [last] using (members v).mp (.inr mem)
        simp [LockState.goto, setDepth, absent]
      · by_cases head : v = first
        · subst head
          simp [LockState.goto, setDepth, same, fresh.1]
        · simp [LockState.goto, setDepth, same, head, ← members]

/-- The counter tells a nested release from the last one, as long as it has not wrapped. -/
theorem one_lt_ofNat_iff {n : Nat} (bound : n < 2 ^ 32) : 1 < BitVec.ofNat 32 n ↔ 1 < n := by
  rw [BitVec.lt_def, BitVec.toNat_ofNat, Nat.mod_eq_of_lt bound]
  rfl

theorem Owned.pass {q : LockPoint} (owned : s.Owned (some t)) (here : s.point t = q) (fits : p.Fits (s.depth t) True)
    (named : p.named = q.named)
    (count : p.count (s.depth t) = q.count (s.depth t)) (run : s.next t = .ok (s.goto t p)) :
    ∃ s' owner', s.next t = .ok s' ∧ s'.Owned owner' := by
  subst here
  have holds := owned.fits t
  refine ⟨_, some t, run, owned.goto (by simpa using fits) ?_ ?_ ?_ (fun _ => named) (fun _ => count)⟩
  · exact fun at_ => by simp [at_, LockPoint.Fits] at holds
  · exact fun at_ => by simp [at_, LockPoint.Fits] at fits
  · exact fun at_ => by simp [at_, LockPoint.Fits] at holds

theorem next_owner (owned : s.Owned (some t)) (bound : s.depth t < 2 ^ 32) : ∃ s' owner', s.next t = .ok s' ∧
    s'.Owned owner' := by
  have fits := owned.fits t
  have holder : s.holder = if (s.point t).named then some t else none := owned.holder
  have count : s.holderRepeatNr = (s.point t).count (s.depth t) := owned.count
  have same : update s.depth t (s.depth t) = s.depth := update_eq_self t s.depth
  cases here : s.point t with
  | outside => exact ⟨s, some t, by simp [next, here], owned⟩
  | down | asleep | woken => simp [here, LockPoint.Fits] at fits
  | testHolder =>
    simp only [here, LockPoint.Fits, true_iff] at fits
    simp only [here, LockPoint.named, if_true] at holder
    exact owned.pass (p := .increase) here ⟨fits, trivial⟩ rfl rfl (by simp [next, here, holder])
  | setHolder =>
    simp only [here, LockPoint.Fits, and_true] at fits
    simp only [here, LockPoint.count] at count
    exact ⟨{ s with holder := some t }.goto t .assertZero, some t, by simp only [next, here],
      owned.move (p := .assertZero) ⟨fits, trivial⟩ rfl count rfl rfl rfl same.symm⟩
  | assertZero =>
    simp only [here, LockPoint.Fits, and_true] at fits
    simp only [here, LockPoint.count] at count
    exact owned.pass (p := .setOne) here ⟨fits, trivial⟩ rfl rfl (by simp [next, here, assert, count])
  | setOne =>
    simp only [here, LockPoint.named, if_true] at holder
    exact ⟨({ s with holderRepeatNr := 1 }.goto t .outside).setDepth t 1, some t, by simp only [next, here],
      owned.move (p := .outside) (d := 1) (by simp [LockPoint.Fits]) holder rfl rfl rfl rfl rfl⟩
  | increase =>
    simp only [here, LockPoint.named, if_true] at holder
    simp only [here, LockPoint.count] at count
    refine ⟨({ s with holderRepeatNr := s.holderRepeatNr + 1 }.goto t .outside).setDepth t (s.depth t + 1), some t,
      by simp only [next, here],
      owned.move (p := .outside) (d := s.depth t + 1) (by simp [LockPoint.Fits]) holder ?_ rfl rfl rfl rfl⟩
    exact (congrArg (· + 1) count).trans (BitVec.ofNat_add _ 1).symm
  | assertHolder =>
    simp only [here, LockPoint.Fits, and_true] at fits
    simp only [here, LockPoint.named, if_true] at holder
    exact owned.pass (p := .testRepeat) here ⟨fits, trivial⟩ rfl rfl (by simp [next, here, assert, holder])
  | testRepeat =>
    simp only [here, LockPoint.Fits, and_true] at fits
    simp only [here, LockPoint.count] at count
    by_cases nested : 1 < s.depth t
    · have greater : 1 < s.holderRepeatNr := count ▸ (one_lt_ofNat_iff bound).mpr nested
      exact owned.pass (p := .decrease) here ⟨nested, trivial⟩ rfl rfl (by simp only [next, here, greater, if_true])
    · have last : ¬1 < s.holderRepeatNr := count ▸ mt (one_lt_ofNat_iff bound).mp nested
      exact owned.pass (p := .assertOne) here ⟨by omega, trivial⟩ rfl rfl (by simp only [next, here, last, if_false])
  | decrease =>
    simp only [here, LockPoint.Fits, and_true] at fits
    simp only [here, LockPoint.named, if_true] at holder
    simp only [here, LockPoint.count] at count
    refine ⟨({ s with holderRepeatNr := s.holderRepeatNr - 1 }.goto t .outside).setDepth t (s.depth t - 1), some t,
      by simp only [next, here],
      owned.move (p := .outside) (d := s.depth t - 1) (by simp [LockPoint.Fits]; omega) holder ?_ rfl rfl rfl rfl⟩
    exact (congrArg (· - 1) count).trans (BitVec.ofNat_sub_ofNat_of_le _ 1 (by decide) (by omega))
  | assertOne =>
    simp only [here, LockPoint.Fits, and_true] at fits
    simp only [here, LockPoint.count, fits] at count
    exact owned.pass (p := .clearHolder) here ⟨fits, trivial⟩ rfl rfl (by simp [next, here, assert, count])
  | clearHolder =>
    simp only [here, LockPoint.Fits, and_true] at fits
    simp only [here, LockPoint.count] at count
    exact ⟨{ s with holder := none }.goto t .clearRepeat, some t, by simp only [next, here],
      owned.move (p := .clearRepeat) ⟨fits, trivial⟩ rfl count rfl rfl rfl same.symm⟩
  | clearRepeat =>
    simp only [here, LockPoint.Fits, and_true] at fits
    simp only [here, LockPoint.named] at holder
    exact ⟨{ s with holderRepeatNr := 0 }.goto t .up, some t, by simp only [next, here],
      owned.move (p := .up) ⟨fits, trivial⟩ holder rfl rfl rfl rfl same.symm⟩
  | up => simpa [next, here] using semaUp_owned owned here

/-- The next statement of a task that can run passes its assertions and keeps the invariant. -/
theorem next_owned (owned : s.Owned owner) (bound : ∀ t, s.depth t < 2 ^ 32) (ready : s.point t ≠ .asleep) :
    ∃ s' owner', s.next t = .ok s' ∧ s'.Owned owner' := by
  by_cases own : owner = some t
  · subst own
    exact next_owner owned (bound t)
  have fits := owned.fits t
  cases here : s.point t with
  | outside => exact ⟨s, owner, by simp [next, here], owned⟩
  | testHolder =>
    simp only [here, LockPoint.Fits, own, false_iff] at fits
    have holder : s.holder ≠ some t := fun named => own (owned.holder_eq_some_iff.mp named).1
    exact ⟨s.goto t .down, owner,
      by simp [next, here, holder], owned.goto ⟨by omega, own⟩ ready (by decide) (by simp [here])
      (fun yes => absurd yes own) (fun yes => absurd yes own)⟩
  | down | woken =>
    rw [here] at fits
    simpa [next, here] using semaDown_owned owned fits ready
  | asleep => exact absurd here ready
  | _ => simp [here, LockPoint.Fits, own] at fits

theorem Step.owned (step : Step s s') (owned : s.Owned owner) (bound : ∀ t, s.depth t < 2 ^ 32) :
    ∃ owner', s'.Owned owner' := by
  cases step with
  | @acquire t idle =>
    have fits := owned.fits t
    rw [idle] at fits
    exact ⟨owner, owned.goto fits (by simp [idle]) (by decide) (by simp [idle]) (fun _ => by rw [idle]; rfl)
      (fun _ => by rw [idle]; rfl)⟩
  | @release t idle held =>
    have fits := owned.fits t
    rw [idle] at fits
    exact ⟨owner, owned.goto ⟨held, fits.mpr held⟩ (by simp [idle]) (by decide) (by simp [idle])
      (fun _ => by rw [idle]; rfl) (fun _ => by rw [idle]; rfl)⟩
  | next ready run =>
    obtain ⟨after, owner', run', owned'⟩ := next_owned owned bound ready
    obtain rfl : after = s' := Except.ok.inj (run'.symm.trans run)
    exact ⟨owner', owned'⟩

/-- Every state reached while no nesting outgrows the counter has at most one owner. -/
theorem bounded_owned (steps : Relation.ReflTransGen BoundedStep lockInit s) : (∃ owner, s.Owned owner) ∧
    ∀ t, s.depth t < 2 ^ 32 := by
  induction steps with
  | refl => exact ⟨⟨none, lockInit_owned⟩, fun _ => by simp [lockInit]⟩
  | tail _ step ih =>
    obtain ⟨⟨owner, owned⟩, bound⟩ := ih
    exact ⟨step.1.owned owned bound, step.2⟩

end LockState

inductive LockCall where
  | acquire
  | release
  deriving DecidableEq

def LockPoint.call : LockPoint → Option LockCall
  | .outside => none
  | .testHolder | .down | .asleep | .woken | .setHolder | .assertZero | .setOne | .increase => some .acquire
  | .assertHolder | .testRepeat | .decrease | .assertOne | .clearHolder | .clearRepeat | .up => some .release

namespace LockState

variable {T : Type} {s s' : LockState T} {owner : Option T} {t : T}

def depthAfter (depth : Nat) : Option LockCall → Nat
  | none => depth
  | some .acquire => depth + 1
  | some .release => depth - 1

/-- A statement of one task leaves the others in the functions they are in. The task itself stays in
its function, or returns from it one level deeper or higher. -/
structure Moves (s s' : LockState T) (t : T) : Prop where
  others : ∀ u, u ≠ t → (s'.point u).call = (s.point u).call ∧ s'.depth u = s.depth u
  self : (s'.point t).call = (s.point t).call ∧ s'.depth t = s.depth t ∨
    (s'.point t).call = none ∧ s'.depth t = depthAfter (s.depth t) (s.point t).call

@[simp] theorem assert_eq_ok {c : Prop} [Decidable c] {rest : LockState T} : assert c rest = .ok s' ↔ c ∧
    rest = s' := by
  by_cases holds : c <;> simp [assert, holds]

variable [DecidableEq T]

theorem Moves.stays {p : LockPoint} (point : s'.point = update s.point t p) (depth : s'.depth = s.depth)
    (same : p.call = (s.point t).call) : Moves s s' t where
  others u other := ⟨by rw [point, update_of_ne other], by rw [depth]⟩
  self := .inl ⟨by rw [point, update_self, same], by rw [depth]⟩

theorem Moves.returns {d : Nat} (others : ∀ u, u ≠ t → (s'.point u).call = (s.point u).call)
    (outside : s'.point t = .outside)
    (depth : s'.depth = update s.depth t d) (level : d = depthAfter (s.depth t) (s.point t).call) : Moves s s' t where
  others u other := ⟨others u other, by rw [depth, update_of_ne other]⟩
  self := .inr ⟨by rw [outside]; rfl, by rw [depth, update_self, level]⟩

theorem next_moves (owned : s.Owned owner) (run : s.next t = .ok s') : Moves s s' t := by
  have fits := owned.fits t
  have others {p : LockPoint} (u : T) (other : u ≠ t) : (update s.point t p u).call = (s.point u).call := by
    rw [update_of_ne other]
  cases here : s.point t with
  | outside | asleep =>
    obtain rfl : s = s' := by simpa [next, here] using run
    exact ⟨fun _ _ => ⟨rfl, rfl⟩, .inl ⟨rfl, rfl⟩⟩
  | testHolder | testRepeat =>
    simp only [next, here, Except.ok.injEq] at run
    subst run
    refine .stays rfl rfl ?_
    rw [here]
    split <;> rfl
  | setHolder | clearHolder | clearRepeat =>
    simp only [next, here, Except.ok.injEq] at run
    subst run
    exact .stays rfl rfl (by rw [here]; rfl)
  | assertZero | assertHolder | assertOne =>
    simp only [next, here, assert_eq_ok] at run
    obtain ⟨-, rfl⟩ := run
    exact .stays rfl rfl (by rw [here]; rfl)
  | down | woken =>
    simp only [next, here, semaDown] at run
    split at run <;> obtain ⟨-, rfl⟩ := assert_eq_ok.mp run
    all_goals exact .stays rfl rfl (by rw [here]; rfl)
  | setOne =>
    simp only [next, here, Except.ok.injEq] at run
    subst run
    rw [here] at fits
    exact .returns others (update_self ..) rfl (by rw [here, fits.1]; rfl)
  | increase | decrease =>
    simp only [next, here, Except.ok.injEq] at run
    subst run
    exact .returns others (update_self ..) rfl (by rw [here]; rfl)
  | up =>
    rw [here] at fits
    have level : 0 = depthAfter (s.depth t) (s.point t).call := by rw [here, fits.1]; rfl
    simp only [next, here, semaUp] at run
    split at run
    · split at run
      · obtain ⟨-, rfl⟩ := assert_eq_ok.mp run
        exact .returns others (update_self ..) rfl level
      · rename_i first rest waiters
        split at run
        · rename_i asleep
          obtain ⟨-, rfl⟩ := assert_eq_ok.mp run
          -- the task that is woken stays in `lock_acquire`
          refine .returns (fun u other => ?_) (update_self ..) rfl level
          by_cases same : u = first
          · subst same
            simp [goto, setDepth, other, asleep, LockPoint.call]
          · simp [goto, setDepth, other, same]
        · cases run
    · cases run

end LockState

/-- Mutual exclusion of `lock_acquire` and `lock_release` for any tasks under any schedule, with the
counter equal to the nesting depth, every assertion passing, and no waiter left behind. -/
theorem lock_excludes {T : Type} [DecidableEq T] {s : LockState T}
    (steps : Relation.ReflTransGen LockState.BoundedStep LockState.lockInit s) :
    (∀ t u, 0 < s.depth t → 0 < s.depth u → t = u) ∧ (s.value = 0 ∨ s.value = 1) ∧
    (∀ t, 0 < s.depth t ∨ s.holder = some t → s.value = 0) ∧
    (∀ t, s.holder = some t → s.holderRepeatNr.toNat = s.depth t) ∧
    (∀ t, s.point t ≠ .asleep → ∃ s', s.next t = .ok s') ∧
    (s.waiters ≠ [] → s.value = 1 → ∃ t, s.point t = .woken) := by
  obtain ⟨⟨owner, owned⟩, bound⟩ := LockState.bounded_owned steps
  grind [owned.count_eq_depth, owned.depth_pos, owned.value, owned.holder_eq_some_iff, owned.value_eq_zero_iff,
    LockState.next_owned, owned.woken]

namespace LockState

def alone (holder : Option Unit) (count : Word) (value : Byte) (point : LockPoint) (depth : Nat) : LockState Unit :=
  ⟨holder, count, value, [], fun _ => point, fun _ => depth⟩

theorem alone_goto (holder : Option Unit) (count : Word) (value : Byte) (point next : LockPoint) (depth : Nat) :
    (alone holder count value point depth).goto () next = alone holder count value next depth := by
  simp [alone, goto, Function.update_eq_const_of_subsingleton]
  rfl

theorem alone_setDepth (holder : Option Unit) (count : Word) (value : Byte) (point : LockPoint) (depth next : Nat) :
    (alone holder count value point depth).setDepth () next = alone holder count value point next := by
  simp [alone, setDepth, Function.update_eq_const_of_subsingleton]
  rfl

def held (n : Nat) : LockState Unit := alone (some ()) (BitVec.ofNat 32 n) 0 .outside n

variable {R : LockState Unit → LockState Unit → Prop} {n : Nat}

theorem held_one (allow : ∀ s s', Step s s' → s'.depth () ≤ 1 → R s s') :
    Relation.ReflTransGen R lockInit (held 1) := by
  have start : R lockInit (alone none 0 1 .testHolder 0) :=
    allow _ _ (alone_goto none 0 1 .outside .testHolder 0 ▸ .acquire rfl) (by decide)
  have next {s s' : LockState Unit} (ready : s.point () ≠ .asleep) (run : s.next () = .ok s')
      (bound : s'.depth () ≤ 1) : R s s' :=
    allow s s' (.next ready run) bound
  have test : R (alone none 0 1 .testHolder 0) (alone none 0 1 .down 0) :=
    next (by decide) (congrArg Except.ok (alone_goto ..)) (by decide)
  have down : R (alone none 0 1 .down 0) (alone none 0 0 .setHolder 0) :=
    next (by decide) (congrArg Except.ok (alone_goto ..)) (by decide)
  have name : R (alone none 0 0 .setHolder 0) (alone (some ()) 0 0 .assertZero 0) :=
    next (by decide) (congrArg Except.ok (alone_goto ..)) (by decide)
  have zero : R (alone (some ()) 0 0 .assertZero 0) (alone (some ()) 0 0 .setOne 0) :=
    next (by decide) (congrArg Except.ok (alone_goto ..)) (by decide)
  have one : R (alone (some ()) 0 0 .setOne 0) (held 1) := next (by decide)
    (congrArg Except.ok ((congrArg (setDepth · () 1) (alone_goto ..)).trans (alone_setDepth ..))) (by decide)
  exact .tail (.tail (.tail (.tail (.tail (.single start) test) down) name) zero) one

theorem held_succ (allow : ∀ s s', Step s s' → s'.depth () ≤ n + 1 → R s s') :
    Relation.ReflTransGen R (held n) (held (n + 1)) := by
  have start : R (held n) (alone (some ()) (BitVec.ofNat 32 n) 0 .testHolder n) :=
    allow _ _ (alone_goto (some ()) (BitVec.ofNat 32 n) 0 .outside .testHolder n ▸ .acquire rfl) (Nat.le_succ n)
  have test : R (alone (some ()) (BitVec.ofNat 32 n) 0 .testHolder n)
      (alone (some ()) (BitVec.ofNat 32 n) 0 .increase n) :=
    allow _ _ (.next (t := ()) LockPoint.noConfusion (congrArg Except.ok (alone_goto ..))) (Nat.le_succ n)
  have increase : R (alone (some ()) (BitVec.ofNat 32 n) 0 .increase n) (held (n + 1)) :=
    allow _ _ (.next (t := ()) LockPoint.noConfusion
      (congrArg Except.ok ((congrArg (setDepth · () (n + 1)) (alone_goto ..)).trans
      ((alone_setDepth ..).trans (by rw [held, BitVec.ofNat_add]; rfl))))) (Nat.le_refl _)
  exact .tail (.tail (.single start) test) increase

theorem held_run (allow : ∀ s s', Step s s' → s'.depth () ≤ n + 1 → R s s') :
    Relation.ReflTransGen R lockInit (held (n + 1)) := by
  induction n with
  | zero => exact held_one allow
  | succ n ih => exact (ih fun s s' step bound => allow s s' step (by omega)).trans (held_succ allow)

end LockState

/-- A lock that is taken three times by one task. -/
theorem lock_excludes_nested : (LockState.held 3).value = 0 ∧ (LockState.held 3).holderRepeatNr.toNat = 3 := by
  have run : Relation.ReflTransGen LockState.BoundedStep LockState.lockInit (LockState.held 3) :=
    LockState.held_run fun s s' step bound => ⟨step, fun _ => Nat.lt_of_le_of_lt bound (by decide)⟩
  obtain ⟨-, -, value, count, -⟩ := lock_excludes run
  exact ⟨value () (.inr rfl), count () rfl⟩

/-- After 2^32 nested acquires the 32-bit counter is back at zero, while the task still holds the
lock that often. -/
theorem lock_counter_wraps : Relation.ReflTransGen LockState.Step LockState.lockInit (LockState.held (2 ^ 32)) ∧
    (LockState.held (2 ^ 32)).holder = some () ∧ (LockState.held (2 ^ 32)).depth () = 2 ^ 32 ∧
    (LockState.held (2 ^ 32)).holderRepeatNr = 0 :=
  ⟨LockState.held_run (n := 2 ^ 32 - 1) fun _ _ step _ => step, rfl, rfl, by decide⟩

end LaiMiniOs
