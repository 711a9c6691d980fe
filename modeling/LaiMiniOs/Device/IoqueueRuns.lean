import LaiMiniOs.Device.Ioqueue

/-! Who sleeps in the queue.

At most one task is past the semaphore, and it is the one that sleeps in `ioq_wait` or has just been
woken there. So no assertion of the code fails. What can go wrong is the condition that a task sleeps
on: it was tested before the task waited for the lock.
-/

set_option autoImplicit false

namespace LaiMiniOs
open Foundation Prog Function

/-- What a task at a point has to do with the list of the semaphore, with the lock and with the fields
of the queue. -/
def IoqPoint.Fits (p : IoqPoint) (waiting owner : Prop) (named : IoqSide → Prop) : Prop :=
  match p with
  | .outside | .lockWoken _ => ¬waiting ∧ ¬owner ∧ ∀ side, ¬named side
  | .lockWait _ => waiting ∧ ¬owner ∧ ∀ side, ¬named side
  | .asleep role => ¬waiting ∧ owner ∧ ∀ side, named side ↔ side = role.side
  | .woken _ => ¬waiting ∧ owner ∧ ∀ side, ¬named side

namespace IoqState

variable {T : Type} {s s' : IoqState T} {owner : Option T} {t u : T} {role : IoqRole} {side : IoqSide}

/-- The lock belongs to the task that sleeps in `ioq_wait` or was woken there, and the fields of the
queue name the sleeper. -/
structure Owned (s : IoqState T) (owner : Option T) : Prop where
  head : s.head < bufsize
  tail : s.tail < bufsize
  value : s.value = owner.elim 1 fun _ => 0
  holder : s.holder = owner
  count : s.holderRepeatNr = owner.elim 0 fun _ => 1
  nodup : s.waiters.Nodup
  fits : ∀ t, (s.point t).Fits (t ∈ s.waiters) (owner = some t) fun side => s.waiter side = some t

theorem ioqueueInit_owned (buf : Memory) : (ioqueueInit buf : IoqState T).Owned none where
  head := Nat.succ_pos _
  tail := Nat.succ_pos _
  value := rfl
  holder := rfl
  count := rfl
  nodup := List.nodup_nil
  fits _ := ⟨List.not_mem_nil, nofun, nofun⟩

theorem Owned.value_eq_zero_iff (owned : s.Owned owner) : s.value = 0 ↔ owner ≠ none := by
  rw [owned.value]
  cases owner <;> simp

theorem Owned.eq_of_waiter (owned : s.Owned owner) (named : s.waiter side = some t) :
    owner = some t ∧ ∃ role : IoqRole, role.side = side ∧ s.point t = .asleep role := by
  have fits := owned.fits t
  cases here : s.point t with
  | asleep role =>
    rw [here] at fits
    exact ⟨fits.2.1, role, ((fits.2.2 side).mp named).symm, rfl⟩
  | _ =>
    rw [here] at fits
    exact absurd named (fits.2.2 side)

theorem Owned.waiter_eq_none (owned : s.Owned none) : s.waiter side = none := by
  cases here : s.waiter side with
  | none => rfl
  | some t => exact nomatch (owned.eq_of_waiter here).1

theorem Owned.not_asleep (owned : s.Owned none) (u : T) (role : IoqRole) : s.point u ≠ .asleep role := fun asleep => by
  have fits := owned.fits u
  rw [asleep] at fits
  exact nomatch fits.2.1

theorem blocks_congr {role' : IoqRole} (same : role.side = role'.side) : s.Blocks role ↔ s.Blocks role' := by
  cases role <;> cases role' <;> first | exact Iff.rfl | cases same

def moved (s : IoqState T) : IoqRole → IoqState T
  | .get => { s with tail := nextPos s.tail }
  | .put byte => { s with buf := update s.buf s.head byte, head := nextPos s.head }

def byte (s : IoqState T) : IoqRole → Byte
  | .get => s.buf s.tail
  | .put byte => byte

theorem Owned.moved (owned : s.Owned owner) (role : IoqRole) : (s.moved role).Owned owner := by
  have bound (pos : Nat) : nextPos pos < bufsize := Nat.mod_lt _ (Nat.succ_pos _)
  cases role with
  | get => exact { owned with tail := bound s.tail }
  | put byte => exact { owned with head := bound s.head }

variable [DecidableEq T]

def queued (s : IoqState T) (t : T) (role : IoqRole) : IoqState T :=
  { s with waiters := s.waiters ++ [t] }.goto t (.lockWait role)

def slept (s : IoqState T) (t : T) (role : IoqRole) : IoqState T :=
  ({ s with value := 0, holder := some t, holderRepeatNr := 1 }.setWaiter role.side (some t)).goto t (.asleep role)

def woke (s : IoqState T) (side : IoqSide) : IoqState T :=
  match s.waiter side with
  | none => s
  | some t => (s.goto t (s.point t).unblocked).setWaiter side none

def dequeued (s : IoqState T) : IoqState T :=
  match s.waiters with
  | [] => s
  | first :: rest => { s with waiters := rest }.goto first (s.point first).unblocked

def released (s : IoqState T) (t : T) : IoqState T :=
  { s.goto t .outside with value := 1, holder := none, holderRepeatNr := 0 }.dequeued

theorem Owned.fits_update {owner' : Option T} {p : IoqPoint} (owned : s.Owned owner)
    (point : s'.point = update s.point t p)
    (fits : p.Fits (t ∈ s'.waiters) (owner' = some t) fun side => s'.waiter side = some t)
    (others : ∀ u, u ≠ t → (u ∈ s'.waiters ↔ u ∈ s.waiters) ∧ (owner' = some u ↔ owner = some u) ∧
      ∀ side, s'.waiter side = some u ↔ s.waiter side = some u) (u : T) :
    (s'.point u).Fits (u ∈ s'.waiters) (owner' = some u) fun side => s'.waiter side = some u := by
  by_cases same : u = t
  · subst same
    rwa [point, update_self]
  · obtain ⟨member, owns, named⟩ := others u same
    rw [point, update_of_ne same]
    simpa only [member, owns, named] using owned.fits u

theorem Owned.queued (owned : s.Owned owner) (idle : s.point t = .outside) : (s.queued t role).Owned owner := by
  have fits := owned.fits t
  rw [idle] at fits
  obtain ⟨absent, free, unnamed⟩ := fits
  refine { owned with
    nodup := List.nodup_append'.mpr ⟨owned.nodup, List.nodup_singleton t, by simpa using absent⟩
    fits := owned.fits_update rfl ⟨by simp [IoqState.queued, goto], free, unnamed⟩ fun u other =>
      ⟨?_, Iff.rfl, fun side => Iff.rfl⟩ }
  simp [IoqState.queued, goto, other]

theorem Owned.slept (owned : s.Owned none) (idle : s.point t = .outside) : (s.slept t role).Owned (some t) := by
  have fits := owned.fits t
  rw [idle] at fits
  have named (side : IoqSide) : (s.slept t role).waiter side = if side = role.side then some t else none := by
    simp only [IoqState.slept, goto, setWaiter, update_apply, owned.waiter_eq_none]
  refine { owned with
    value := rfl
    holder := rfl
    count := rfl
    fits := owned.fits_update rfl ⟨fits.1, rfl, fun side => by simp [named]⟩ fun u other =>
      ⟨Iff.rfl, by simp [Ne.symm other], fun side => ?_⟩ }
  rw [named, owned.waiter_eq_none]
  split <;> simp [Ne.symm other]

theorem Owned.woke (owned : s.Owned owner) : (s.woke side).Owned owner := by
  unfold IoqState.woke
  cases here : s.waiter side with
  | none => exact owned
  | some t =>
    obtain ⟨rfl, role, rfl, asleep⟩ := owned.eq_of_waiter here
    have fits := owned.fits t
    rw [asleep] at fits
    dsimp only
    rw [asleep]
    refine { owned with fits := owned.fits_update rfl ⟨fits.1, rfl, fun side named => ?_⟩ fun u other =>
      ⟨Iff.rfl, Iff.rfl, fun side => ?_⟩ }
    · by_cases same : side = role.side
      · simp [setWaiter, goto, same] at named
      · exact same ((fits.2.2 side).mp (by simpa [setWaiter, goto, same] using named))
    · by_cases same : side = role.side
      · simp [setWaiter, goto, same, here, Ne.symm other]
      · simp [setWaiter, goto, same]

theorem Owned.dequeued (owned : s.Owned owner) : s.dequeued.Owned owner := by
  unfold IoqState.dequeued
  split
  · exact owned
  · rename_i first rest waiters
    have fits := owned.fits first
    have nodup := owned.nodup
    rw [waiters, List.nodup_cons] at nodup
    cases here : s.point first with
    | lockWait role =>
      rw [here] at fits
      refine { owned with
        nodup := nodup.2
        fits := owned.fits_update rfl ⟨nodup.1, fits.2⟩ fun u other => ⟨?_, Iff.rfl, fun side => Iff.rfl⟩ }
      simp [goto, waiters, other]
    | _ =>
      rw [here, waiters] at fits
      exact absurd List.mem_cons_self fits.1

theorem Owned.released (owned : s.Owned (some t)) (woken : s.point t = .woken role) : (s.released t).Owned none := by
  have fits := owned.fits t
  rw [woken] at fits
  refine Owned.dequeued { owned with
    value := rfl
    holder := rfl
    count := rfl
    fits := owned.fits_update rfl ⟨fits.1, nofun, fits.2.2⟩ fun u other => ⟨Iff.rfl, ?_, fun side => Iff.rfl⟩ }
  simp [Ne.symm other]

theorem Owned.goto_outside (owned : s.Owned owner) (woken : s.point t = .lockWoken role) :
    (s.goto t .outside).Owned owner := by
  have fits := owned.fits t
  rw [woken] at fits
  exact { owned with fits := owned.fits_update rfl fits fun u _ => ⟨Iff.rfl, Iff.rfl, fun side => Iff.rfl⟩ }

def blocked (s : IoqState T) (t : T) (role : IoqRole) : IoqState T :=
  if s.value = 0 then s.queued t role else s.slept t role

theorem Owned.blocked (owned : s.Owned owner) (role : IoqRole) (idle : s.point t = .outside) :
    ∃ owner', (s.blocked t role).Owned owner' := by
  unfold IoqState.blocked
  split
  · exact ⟨owner, owned.queued idle⟩
  · rename_i free
    obtain rfl : owner = none := not_not.mp (mt owned.value_eq_zero_iff.mpr free)
    exact ⟨some t, owned.slept idle⟩

theorem ioqDownAndWait_run (owned : s.Owned owner) (idle : s.point t = .outside) :
    ioqDownAndWait t role s = .ok ((), s.blocked t role) := by
  have fits := owned.fits t
  rw [idle] at fits
  unfold ioqDownAndWait ioqSemaDown IoqState.blocked
  by_cases zero : s.value = 0
  · simp [run_bind, zero, fits.1, queued]
  · obtain rfl : owner = none := not_not.mp (mt owned.value_eq_zero_iff.mpr zero)
    have one : s.value = 1 := owned.value
    have count : s.holderRepeatNr = 0 := owned.count
    simp [run_bind, one, ioqTakeLock, IoqState.ioqWait, count, owned.waiter_eq_none, slept]

theorem ioqTransfer_blocked (owned : s.Owned owner) (idle : s.point t = .outside) (blocks : s.Blocks role) :
    ioqTransfer t role s = .ok (none, s.blocked t role) := by
  have fits := owned.fits t
  rw [idle] at fits
  have other : s.holder ≠ some t := owned.holder ▸ fits.2.1
  simp [ioqTransfer, ioqSleep, run_bind, blocks, other, ioqDownAndWait_run owned idle]

theorem ioqWakeup_run (owned : s.Owned owner) (side : IoqSide) : Prog.when (s.waiter side ≠ none) (ioqWakeup side) s =
    .ok ((), s.woke side) := by
  cases here : s.waiter side with
  | none => simp [Prog.when, woke, here]
  | some t =>
    obtain ⟨-, role, rfl, asleep⟩ := owned.eq_of_waiter here
    simp [Prog.when, ioqWakeup, ioqUnblock, run_bind, woke, here, asleep, IoqPoint.unblocked]

theorem ioqTransfer_moves (owned : s.Owned owner) (free : ¬s.Blocks role) :
    ioqTransfer t role s = .ok (some (s.byte role), (s.moved role).woke role.side.other) := by
  have move : ioqMove role s = .ok (s.byte role, s.moved role) := by cases role <;> rfl
  have wake := ioqWakeup_run (owned.moved role) role.side.other
  simp [ioqTransfer, run_bind, free, move, wake]

theorem ioqLockRelease_run (owned : s.Owned (some t)) (woken : s.point t = .woken role) :
    ioqLockRelease t (s.goto t .outside) = .ok ((), s.released t) := by
  have value : s.value = 0 := owned.value
  have holder : s.holder = some t := owned.holder
  have count : s.holderRepeatNr = 1 := owned.count
  cases waiters : s.waiters with
  | nil => simp [ioqLockRelease, ioqSemaUp, run_bind, goto, holder, count, value, waiters, released, dequeued]
  | cons first rest =>
    have fits := owned.fits first
    have other : first ≠ t := by
      rintro rfl
      rw [woken, waiters] at fits
      exact fits.1 List.mem_cons_self
    cases here : s.point first with
    | lockWait role =>
      simp [ioqLockRelease, ioqSemaUp, ioqUnblock, run_bind, goto, holder, count, value, waiters, released, dequeued,
        here, other,
        IoqPoint.unblocked]
    | _ =>
      rw [here, waiters] at fits
      exact absurd List.mem_cons_self fits.1

theorem point_released (owned : s.Owned (some t)) (woken : s.point t = .woken role) :
    (s.released t).point t = .outside := by
  have fits := owned.fits t
  rw [woken] at fits
  unfold released dequeued
  split
  · exact update_self ..
  · rename_i first rest waiters
    have other : t ≠ first := by
      rintro rfl
      exact fits.1 (by simp [show s.waiters = t :: rest from waiters])
    exact (update_of_ne other ..).trans (update_self ..)

theorem ioqResume_lockWoken (owned : s.Owned owner) (woken : s.point t = .lockWoken role) :
    ioqResume t s = .ok (none, (s.goto t .outside).blocked t role) := by
  have idle : (s.goto t .outside).point t = .outside := update_self ..
  simp [ioqResume, run_bind, woken, ioqDownAndWait_run (owned.goto_outside woken) idle]

theorem ioqResume_woken (owned : s.Owned owner) (woken : s.point t = .woken role) :
    ioqResume t s = ioqTransfer t role (s.released t) := by
  have fits := owned.fits t
  rw [woken] at fits
  obtain rfl := fits.2.1
  simp [ioqResume, run_bind, woken, ioqLockRelease_run owned woken]

theorem ioqTransfer_owned (owned : s.Owned owner) (idle : s.point t = .outside) (role : IoqRole) :
    ∃ result s' owner', ioqTransfer t role s = .ok (result, s') ∧ s'.Owned owner' := by
  by_cases blocks : s.Blocks role
  · obtain ⟨owner', owned'⟩ := owned.blocked role idle
    exact ⟨_, _, owner', ioqTransfer_blocked owned idle blocks, owned'⟩
  · exact ⟨_, _, owner, ioqTransfer_moves owned blocks, (owned.moved role).woke⟩

theorem ioqResume_owned (owned : s.Owned owner) (t : T) : ∃ result s' owner', ioqResume t s = .ok (result, s') ∧
    s'.Owned owner' := by
  cases here : s.point t with
  | lockWoken role =>
    obtain ⟨owner', owned'⟩ := (owned.goto_outside here).blocked role (update_self ..)
    exact ⟨_, _, owner', ioqResume_lockWoken owned here, owned'⟩
  | woken role =>
    have fits := owned.fits t
    rw [here] at fits
    obtain rfl := fits.2.1
    rw [ioqResume_woken owned here]
    exact ioqTransfer_owned (owned.released here) (point_released owned here) role
  | _ => exact ⟨none, s, owner, by simp [ioqResume, run_bind, here], owned⟩

theorem Step.owned (step : Step s t s') (owned : s.Owned owner) : ∃ owner', s'.Owned owner' := by
  have same {result result' : Option Byte} {s'' : IoqState T} {owner' : Option T} {call : IoqM T (Option Byte)}
      (run : call s = .ok (result, s'))
      (run' : call s = .ok (result', s'')) (owned' : s''.Owned owner') : ∃ owner', s'.Owned owner' := by
    cases run.symm.trans run'
    exact ⟨owner', owned'⟩
  cases step with
  | getchar idle run =>
    obtain ⟨_, _, _, run', owned'⟩ := ioqTransfer_owned owned idle .get
    exact same run run' owned'
  | putchar idle run =>
    obtain ⟨_, _, _, run', owned'⟩ := ioqTransfer_owned owned idle (.put _)
    exact same run run' owned'
  | resume run =>
    obtain ⟨_, _, _, run', owned'⟩ := ioqResume_owned owned t
    exact same run run' owned'

def Justified (s : IoqState T) : Prop := ∀ t role, s.point t = .asleep role → s.Blocks role

/-- A task that gets the lock after waiting for it finds the queue as it was when it tested it. -/
def StillBlocks (s : IoqState T) (t : T) : Prop := ∀ role, s.point t = .lockWoken role → s.value ≠ 0 → s.Blocks role

theorem blocked_justified (owned : s.Owned owner) (justified : s.Justified) :
    (s.blocked t role).Justified ↔ (s.value ≠ 0 → s.Blocks role) := by
  unfold IoqState.blocked
  by_cases zero : s.value = 0
  · rw [if_pos zero]
    refine iff_of_true (fun u r asleep => ?_) fun nonzero => absurd zero nonzero
    by_cases same : u = t
    · simp [queued, goto, same] at asleep
    · exact justified u r (by simpa [queued, goto, same] using asleep)
  · rw [if_neg zero]
    obtain rfl : owner = none := not_not.mp (mt owned.value_eq_zero_iff.mpr zero)
    constructor
    · intro after _
      exact after t role (update_self ..)
    · intro blocks u r asleep
      by_cases same : u = t
      · obtain rfl : role = r := by simpa [slept, goto, setWaiter, same] using asleep
        exact blocks zero
      · exact absurd (by simpa [slept, goto, setWaiter, same] using asleep) (owned.not_asleep u r)

/-- A byte that moves leaves nobody asleep: a sleeper of the same side would have had no reason to, and
one of the other side is woken. -/
theorem moved_justified (owned : s.Owned owner) (justified : s.Justified) (free : ¬s.Blocks role) :
    ((s.moved role).woke role.side.other).Justified := by
  have point : (s.moved role).point = s.point := by cases role <;> rfl
  have waiter : (s.moved role).waiter = s.waiter := by cases role <;> rfl
  -- a sleeper of `s` is the one that the field of the other side names
  have named {u r} (asleep : s.point u = .asleep r) : s.waiter role.side.other = some u := by
    have fits := owned.fits u
    rw [asleep] at fits
    refine (fits.2.2 _).mpr ?_
    have sides : role.side ≠ r.side := fun same => free ((blocks_congr same).mpr (justified u r asleep))
    cases role <;> cases r <;> first | rfl | exact absurd rfl sides
  intro u r asleep
  unfold woke at asleep
  rw [waiter] at asleep
  cases here : s.waiter role.side.other with
  | none =>
    rw [here, point] at asleep
    exact nomatch (named asleep).symm.trans here
  | some v =>
    obtain ⟨-, r', -, was⟩ := owned.eq_of_waiter here
    rw [here] at asleep
    by_cases same : u = v
    · simp [setWaiter, goto, same, point, was, IoqPoint.unblocked] at asleep
    · have before : s.point u = .asleep r := by simpa [setWaiter, goto, same, point] using asleep
      exact absurd (Option.some.inj ((named before).symm.trans here)) same

theorem ioqTransfer_justified {result : Option Byte} (owned : s.Owned owner) (idle : s.point t = .outside)
    (justified : s.Justified)
    (run : ioqTransfer t role s = .ok (result, s')) : s'.Justified := by
  by_cases blocks : s.Blocks role
  · grind [ioqTransfer_blocked, blocked_justified]
  grind [ioqTransfer_moves, moved_justified]

/-- A step keeps the sleepers justified exactly when the task, if it waited for the lock and now gets
it, still finds the condition it tested before. -/
theorem Step.justified_iff (step : Step s t s') (owned : s.Owned owner) (justified : s.Justified) : s'.Justified ↔
    s.StillBlocks t := by
  cases step with
  | getchar idle run => exact iff_of_true (ioqTransfer_justified owned idle justified run) fun role woken =>
      nomatch idle.symm.trans woken
  | putchar idle run => exact iff_of_true (ioqTransfer_justified owned idle justified run) fun role woken =>
      nomatch idle.symm.trans woken
  | resume run =>
    cases here : s.point t with
    | lockWoken role =>
      cases run.symm.trans (ioqResume_lockWoken owned here)
      have before : (s.goto t .outside).Justified := by
        intro u r asleep
        by_cases same : u = t
        · simp [goto, same] at asleep
        · exact justified u r (by simpa [goto, same] using asleep)
      refine (blocked_justified (owned.goto_outside here) before).trans ?_
      simp only [StillBlocks, here, IoqPoint.lockWoken.injEq, forall_eq']
      exact Iff.rfl
    | woken role =>
      have fits := owned.fits t
      rw [here] at fits
      obtain rfl := fits.2.1
      have owned' := owned.released here
      rw [ioqResume_woken owned here] at run
      refine iff_of_true (ioqTransfer_justified owned' (point_released owned here) (fun u r asleep => ?_) run)
        fun role woken => nomatch here.symm.trans woken
      exact absurd asleep (owned'.not_asleep u r)
    | _ =>
      have stays : ioqResume t s = .ok (none, s) := by simp [ioqResume, run_bind, here]
      cases run.symm.trans stays
      exact iff_of_true justified fun role woken => nomatch here.symm.trans woken

def AnyStep (s s' : IoqState T) : Prop := ∃ t, Step s t s'

/-- A step of a task that, if it waited for the lock and now gets it, still finds the queue empty or
full as it did before it waited. -/
def RetestedStep (s s' : IoqState T) : Prop := ∃ t, Step s t s' ∧ s.StillBlocks t

theorem owned_of_steps {buf : Memory} (run : Relation.ReflTransGen AnyStep (ioqueueInit buf) s) :
    ∃ owner, s.Owned owner := by
  induction run with
  | refl => exact ⟨none, ioqueueInit_owned buf⟩
  | tail _ last ih =>
    obtain ⟨owner, owned⟩ := ih
    obtain ⟨t, step⟩ := last
    exact step.owned owned

theorem any_of_retested {a b : IoqState T} (run : Relation.ReflTransGen RetestedStep a b) :
    Relation.ReflTransGen AnyStep a b :=
  Relation.ReflTransGen.mono (fun _ _ ⟨t, step, _⟩ => ⟨t, step⟩) _ _ run

theorem justified_of_steps {buf : Memory} (run : Relation.ReflTransGen RetestedStep (ioqueueInit buf) s) :
    s.Justified := by
  induction run with
  | refl => exact fun t role asleep => nomatch asleep
  | tail before last ih =>
    obtain ⟨t, step, still⟩ := last
    obtain ⟨owner, owned⟩ := owned_of_steps (any_of_retested before)
    exact (step.justified_iff owned ih).mpr still

/-- In every run no assertion of the queue's code fails, in particular not the one on entry to
`ioq_wait`. As long as every task that gets the lock after waiting for it still finds the condition it
tested, every sleeper has a reason to sleep; the first step at which that fails leaves one that has
none. -/
theorem ioqueue_waits (buf : Memory) :
    (∀ s : IoqState T, Relation.ReflTransGen AnyStep (ioqueueInit buf) s →
      (∀ t, s.point t = .outside → (∃ result, ioqGetchar t s = .ok result) ∧
      ∀ byte, ∃ result, ioqPutchar t byte s = .ok result) ∧
        ∀ t, ∃ result, ioqResume t s = .ok result) ∧
    ∀ s : IoqState T, Relation.ReflTransGen RetestedStep (ioqueueInit buf) s →
      s.Justified ∧ ∀ t s', Step s t s' → (s'.Justified ↔ s.StillBlocks t) := by
  constructor
  · intro s run
    obtain ⟨owner, owned⟩ := owned_of_steps run
    have returns (t : T) (idle : s.point t = .outside) (role : IoqRole) :
        ∃ result, ioqTransfer t role s = .ok result := by
      obtain ⟨result, s', _, returned, _⟩ := ioqTransfer_owned owned idle role
      exact ⟨(result, s'), returned⟩
    refine ⟨fun t idle => ⟨returns t idle .get, fun byte => returns t idle (.put byte)⟩, fun t => ?_⟩
    obtain ⟨result, s', _, returned, _⟩ := ioqResume_owned owned t
    exact ⟨(result, s'), returned⟩
  · intro s run
    obtain ⟨owner, owned⟩ := owned_of_steps (any_of_retested run)
    exact ⟨justified_of_steps run, fun t s' step => step.justified_iff owned (justified_of_steps run)⟩

def play : List (T × Option IoqRole) → IoqM T Unit
  | [] => pure ()
  | (t, some role) :: rest => do
    Prog.require ((← get).point t = .outside) .external
    let _ ← ioqTransfer t role
    play rest
  | (t, none) :: rest => do
    let _ ← ioqResume t
    play rest

theorem steps_of_play {schedule : List (T × Option IoqRole)} (run : play schedule s = .ok ((), s')) :
    Relation.ReflTransGen AnyStep s s' := by
  induction schedule generalizing s with
  | nil =>
    cases run
    exact .refl
  | cons first rest ih =>
    obtain ⟨t, role | role⟩ := first
    · obtain ⟨result, mid, here, run⟩ := bind_eq_ok.mp run
      exact .head ⟨t, .resume here⟩ (ih run)
    · obtain ⟨_, _, here, run⟩ := bind_eq_ok.mp run
      cases here
      obtain ⟨idle, run⟩ := require_bind_eq_ok.mp run
      obtain ⟨result, mid, here, run⟩ := bind_eq_ok.mp run
      refine .head ⟨t, ?_⟩ (ih run)
      cases role with
      | get => exact .getchar idle here
      | put byte => exact .putchar idle here

/-- Two consumers wait, the second of them for the lock. Two bytes arrive, the first consumer takes one
and gives the lock back, and the second sleeps with the other byte in the queue. -/
theorem sleeps_with_byte : ∃ s : IoqState Nat, Relation.ReflTransGen AnyStep (ioqueueInit Memory.zero) s ∧
    ∃ t, s.point t = .asleep .get ∧ ¬s.IoqEmpty := by
  have played : (play [(0, some .get), (1, some .get), (2, some (.put 97)), (2, some (.put 98)), (0, none),
      (1, none)]).yields
      (ioqueueInit Memory.zero : IoqState Nat) (fun _ s => s.point 1 = .asleep .get ∧ ¬s.IoqEmpty) = true := by
        decide +kernel
  obtain ⟨_, s, run, asleep⟩ := exists_of_yields played
  exact ⟨s, steps_of_play run, 1, of_decide_eq_true asleep⟩

/-- A consumer of an empty queue sleeps, and it may. -/
theorem ioqueue_waits_alone : ∃ s : IoqState Nat, s.point 0 = .asleep .get ∧ s.Justified := by
  have played : (ioqGetchar 0).yields (ioqueueInit Memory.zero : IoqState Nat) (fun _ s => s.point 0 = .asleep .get) =
      true := by
    decide +kernel
  obtain ⟨_, s, run, asleep⟩ := exists_of_yields played
  refine ⟨s, of_decide_eq_true asleep, (((ioqueue_waits Memory.zero).2 s) (.single ⟨0, .getchar rfl run, ?_⟩)).1⟩
  exact fun role woken => nomatch woken

end IoqState

end LaiMiniOs
