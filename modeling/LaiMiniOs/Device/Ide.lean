import LaiMiniOs.Thread.Lock
import LaiMiniOs.Fs.State

/-! The tasks and the interrupts of one IDE channel, from `device/ide.c`.

A task in `ide_read` or `ide_write` takes the lock of the channel, gives the controller one command
after the other and waits for each in `sema_down(&disk_done)`. Interrupts are on, so a task can lose
the CPU between any two statements. The controller raises one interrupt for each command, at any time
after the command register was written. Commands are numbered in the order of these writes.
-/

set_option autoImplicit false

namespace LaiMiniOs
open Foundation Function

structure IdeWork where
  /-- `ide_write` rather than `ide_read`. -/
  write : Bool
  lba : Word
  secCnt : Word
  secsDone : Word
  secsOp : Word

inductive IdePoint where
  | outside
  /-- `lock_acquire`; the state of the lock says where. -/
  | acquire (work : IdeWork)
  /-- `while (secs_done < sec_cnt)`, with the choice of `secs_op`. -/
  | loop (work : IdeWork)
  /-- `select_sector`. -/
  | select (work : IdeWork)
  /-- `channel->expecting_intr = true`. -/
  | expect (work : IdeWork)
  /-- `outb(reg_cmd(channel), cmd)`. -/
  | command (work : IdeWork)
  /-- `sema_down(&disk_done)`, entered for the first time. -/
  | down (work : IdeWork) (k : Nat)
  /-- Blocked in `sema_down`. -/
  | asleep (work : IdeWork) (k : Nat)
  /-- Unblocked by `sema_up`; the loop of `sema_down` tests the value again. -/
  | woken (work : IdeWork) (k : Nat)
  /-- `busy_wait`. -/
  | busy (work : IdeWork) (k : Nat)
  /-- `read_from_sector` or `write2sector`. -/
  | move (work : IdeWork) (k : Nat)
  /-- `lock_release`; the state of the lock says where. -/
  | release

/-- `struct ide_channel` with its tasks. The numbers of the commands whose interrupt is still to come,
of those whose interrupt was handled and of those whose wait has returned are kept beside it. -/
structure IdeState (T : Type) where
  lock : LockState T
  expectingIntr : Bool
  value : Byte
  waiters : List T
  point : T → IdePoint
  issued : Nat
  pending : List Nat
  handled : List Nat
  returned : List Nat

namespace IdeState

variable {T : Type} [DecidableEq T]

def ideInit : IdeState T := ⟨LockState.lockInit, false, 0, [], fun _ => .outside, 0, [], [], []⟩

def goto (s : IdeState T) (t : T) (point : IdePoint) : IdeState T := { s with point := update s.point t point }

def assert (c : Prop) [Decidable c] (rest : IdeState T) : Except Fault (IdeState T) :=
  if c then .ok rest else .error .assertion

def nextChunk (w : IdeWork) : IdeWork :=
  { w with secsOp := if w.secsDone + 256 ≤ w.secCnt then 256 else w.secCnt - w.secsDone }

def chunkDone (w : IdeWork) : IdeWork := { w with secsDone := w.secsDone + w.secsOp }

/-- A round of the loop of `sema_down` for command `k`. `ide_read` waits for the data before it moves
them, `ide_write` after. -/
def semaDown (s : IdeState T) (t : T) (w : IdeWork) (k : Nat) : Except Fault (IdeState T) :=
  if s.value = 0 then assert (t ∉ s.waiters) ({ s with waiters := s.waiters ++ [t] }.goto t (.asleep w k))
  else assert (s.value - 1 = 0) ({ s with value := s.value - 1, returned := s.returned ++ [k] }.goto t
    (if w.write then .loop (chunkDone w) else .busy w k))

/-- `sema_up`; `thread_unblock` asserts that the task it wakes is blocked. -/
def semaUp (s : IdeState T) : Except Fault (IdeState T) :=
  if s.value = 0 then
    match s.waiters with
    | [] => assert (s.value + 1 = 1) { s with value := s.value + 1 }
    | first :: rest =>
      match s.point first with
      | .asleep w k =>
          assert (s.value + 1 = 1) ({ s with value := s.value + 1, waiters := rest }.goto first (.woken w k))
      | _ => .error .assertion
  else .error .assertion

def intrHdHandler (s : IdeState T) : Except Fault (IdeState T) :=
  if s.expectingIntr then semaUp { s with expectingIntr := false } else .ok s

/-- A statement of the lock's function that a task is in, and where the task goes on when it returns. -/
def lockNext (s : IdeState T) (t : T) (inside after : IdePoint) : Except Fault (IdeState T) :=
  match s.lock.next t with
  | .error fault => .error fault
  | .ok lock => .ok ({ s with lock }.goto t (if (lock.point t).call = none then after else inside))

/-- The next statement of a task. `busy_wait` is shown where it returns true: when it does not, the
caller panics. -/
def next (s : IdeState T) (t : T) : Except Fault (IdeState T) :=
  match s.point t with
  | .outside | .asleep _ _ => .ok s
  | .acquire w => s.lockNext t (.acquire w) (.loop w)
  | .loop w =>
    if w.secsDone < w.secCnt then .ok (s.goto t (.select (nextChunk w)))
    else .ok ({ s with lock := s.lock.goto t .assertHolder }.goto t .release)
  | .select w => assert ((w.lba + w.secsDone).toNat ≤ maxLba) (s.goto t (.expect w))
  | .expect w => .ok ({ s with expectingIntr := true }.goto t (.command w))
  | .command w => .ok ({ s with issued := s.issued + 1, pending := s.pending ++ [s.issued] }.goto t
      (if w.write then .busy w s.issued else .down w s.issued))
  | .down w k | .woken w k => s.semaDown t w k
  | .busy w k => .ok (s.goto t (.move w k))
  | .move w k => .ok (s.goto t (if w.write then .down w k else .loop (chunkDone w)))
  | .release => s.lockNext t .release .outside

/-- A step of the system: a task calls `ide_read` or `ide_write`, a task goes on with its next statement,
or an interrupt that is still to come arrives and is handled. -/
inductive Step (s : IdeState T) : IdeState T → Prop where
  | call {t : T} (write : Bool) (lba secCnt secsOp : Word) (idle : s.point t = .outside) (reach : lba.toNat ≤ maxLba)
      (some : 0 < secCnt) :
      Step s ({ s with lock := s.lock.goto t .testHolder }.goto t (.acquire ⟨write, lba, secCnt, 0, secsOp⟩))
  | next {t : T} {s' : IdeState T} (run : s.next t = .ok s') : Step s s'
  | interrupt {k : Nat} {s' : IdeState T} (raised : k ∈ s.pending)
      (run : intrHdHandler { s with pending := s.pending.erase k, handled := s.handled ++ [k] } = .ok s') : Step s s'

end IdeState

inductive IdeStage where
  /-- None is outstanding. -/
  | quiet
  /-- `cmd_out` has begun. -/
  | expecting
  /-- Command `k` was given to the controller, and its wait has not returned; the task sleeps in the wait or
  does not. -/
  | running (k : Nat) (sleeps : Bool)
  deriving DecidableEq

namespace IdePoint

def stage : IdePoint → IdeStage
  | .outside | .acquire _ | .loop _ | .select _ | .expect _ | .release => .quiet
  | .command _ => .expecting
  | .down _ k | .woken _ k => .running k false
  | .asleep _ k => .running k true
  | .busy w k | .move w k => if w.write then .running k false else .quiet

/-- The function of the lock that a task at a point is in, and whether it has the lock. -/
def Fits (p : IdePoint) (call : Option LockCall) (depth : Nat) : Prop :=
  match p with
  | .outside => call = none ∧ depth = 0
  | .acquire _ => call = some .acquire ∧ depth = 0
  | .release => call = some .release ∧ depth = 1
  | _ => call = none ∧ depth = 1

theorem depth_of_stage {p : IdePoint} {call : Option LockCall} {depth : Nat} (fits : p.Fits call depth)
    (outstanding : p.stage ≠ .quiet) :
    depth = 1 := by
  cases p <;> first | exact fits.2 | exact absurd rfl outstanding

end IdePoint

namespace IdeState

variable {T : Type} {s s' : IdeState T} {t u : T} {p : IdePoint}

def Quiet (s : IdeState T) : Prop :=
  s.expectingIntr = false ∧ s.value = 0 ∧ s.waiters = [] ∧ s.pending = [] ∧ s.handled = s.returned ∧
    s.issued = s.returned.length

/-- The channel while the task that has the lock is at a stage. The interrupt of a running command is
either still to come or was handled, and then the semaphore holds its release. -/
def At (s : IdeState T) (t : T) : IdeStage → Prop
  | .quiet => s.Quiet
  | .expecting => s.expectingIntr = true ∧ s.value = 0 ∧ s.waiters = [] ∧ s.pending = [] ∧ s.handled = s.returned ∧
      s.issued = s.returned.length
  | .running k sleeps => s.issued = k + 1 ∧ k = s.returned.length ∧
    (s.expectingIntr = true ∧ s.value = 0 ∧ s.waiters = (if sleeps then [t] else []) ∧ s.pending = [k] ∧
      s.handled = s.returned ∨
      sleeps = false ∧ s.expectingIntr = false ∧ s.value = 1 ∧ s.waiters = [] ∧ s.pending = [] ∧
        s.handled = s.returned ++ [k])

/-- The lock has one owner, every task is where the lock lets it be, and the channel is as the task that
has the lock left it. -/
structure Sound (s : IdeState T) : Prop where
  owned : ∃ owner, s.lock.Owned owner
  fits : ∀ t, (s.point t).Fits (s.lock.point t).call (s.lock.depth t)
  idle : (∀ t, (s.point t).stage = .quiet) → s.Quiet
  outstanding : ∀ t, (s.point t).stage ≠ .quiet → s.At t (s.point t).stage
  numbered : s.returned = List.range s.returned.length

theorem Sound.depth_lt (sound : s.Sound) (t : T) : s.lock.depth t < 2 ^ 32 := by
  have fits := sound.fits t
  cases here : s.point t <;> rw [here] at fits <;> rw [fits.2] <;> decide

theorem Sound.eq_of_depth (sound : s.Sound) (first : s.lock.depth t = 1) (second : s.lock.depth u = 1) : u = t := by
  obtain ⟨owner, owned⟩ := sound.owned
  exact Option.some.inj ((owned.depth_pos (by omega)).symm.trans (owned.depth_pos (by omega)))

theorem Sound.others_quiet (sound : s.Sound) (has : s.lock.depth t = 1) (other : u ≠ t) :
    (s.point u).stage = .quiet := by
  by_contra outstanding
  exact other (sound.eq_of_depth has (IdePoint.depth_of_stage (sound.fits u) outstanding))

theorem Sound.at (sound : s.Sound) (has : s.lock.depth t = 1) : s.At t (s.point t).stage := by
  by_cases quiet : (s.point t).stage = .quiet
  · rw [quiet]
    refine sound.idle fun u => ?_
    by_cases same : u = t
    · rw [same, quiet]
    · exact sound.others_quiet has same
  · exact sound.outstanding t quiet

theorem assert_eq_ok {c : Prop} [Decidable c] {rest : IdeState T} : assert c rest = .ok s' ↔ c ∧ rest = s' := by
  by_cases holds : c <;> simp [assert, holds]

theorem ideInit_sound : (ideInit : IdeState T).Sound where
  owned := ⟨none, LockState.lockInit_owned⟩
  fits _ := ⟨rfl, rfl⟩
  idle _ := ⟨rfl, rfl, rfl, rfl, rfl, rfl⟩
  outstanding _ outstanding := absurd rfl outstanding
  numbered := rfl

/-- The interrupts handled so far are those of the waits that have returned, and of one more while the
semaphore holds its release. -/
theorem Sound.handled_cases (sound : s.Sound) :
    s.handled = List.range s.returned.length ∧ s.value = 0 ∨ s.handled = List.range (s.returned.length + 1) ∧
      s.value = 1 := by
  have numbered := sound.numbered
  by_cases quiet : ∀ t, (s.point t).stage = .quiet
  · obtain ⟨-, value, -, -, handled, -⟩ := sound.idle quiet
    exact .inl ⟨handled.trans numbered, value⟩
  · obtain ⟨t, outstanding⟩ := not_forall.mp quiet
    have device := sound.outstanding t outstanding
    cases stage : (s.point t).stage with
    | quiet => exact absurd stage outstanding
    | expecting =>
      rw [stage] at device
      exact .inl ⟨device.2.2.2.2.1.trans numbered, device.2.1⟩
    | running k sleeps =>
      rw [stage] at device
      obtain ⟨-, number, ⟨-, value, -, -, handled⟩ | ⟨-, -, value, -, -, handled⟩⟩ := device
      · exact .inl ⟨handled.trans numbered, value⟩
      · refine .inr ⟨?_, value⟩
        rw [handled, List.range_succ, ← numbered, number]

variable [DecidableEq T]

theorem Sound.move (sound : s.Sound) (has : s.lock.depth t = 1) (lock : s'.lock = s.lock)
    (point : s'.point = update s.point t p)
    (fits : p.Fits (s.lock.point t).call 1) (device : s'.At t p.stage)
    (numbered : s'.returned = List.range s'.returned.length) : s'.Sound where
  owned := lock ▸ sound.owned
  fits u := by
    rw [point, lock]
    grind [sound.fits]
  idle quiet := by
    have here := quiet t
    rw [point, update_self] at here
    rwa [here] at device
  outstanding u outstanding := by
    rw [point] at outstanding ⊢
    grind [sound.others_quiet]
  numbered := numbered

theorem Sound.lockMove {lock : LockState T} (sound : s.Sound) (owned : ∃ owner, lock.Owned owner)
    (others : ∀ u, u ≠ t → (lock.point u).call = (s.lock.point u).call ∧ lock.depth u = s.lock.depth u)
    (fits : p.Fits (lock.point t).call (lock.depth t)) (before : (s.point t).stage = .quiet)
    (after : p.stage = .quiet) :
    ({ s with lock }.goto t p).Sound where
  owned := owned
  fits u := by
    by_cases same : u = t
    · subst same
      simpa [goto] using fits
    · have fits := sound.fits u
      rw [← (others u same).1, ← (others u same).2] at fits
      simpa [goto, same] using fits
  idle quiet := by
    refine sound.idle fun u => ?_
    by_cases same : u = t
    · rw [same, before]
    · simpa [goto, same] using quiet u
  outstanding u outstanding := by
    by_cases same : u = t
    · subst same
      simp [goto, after] at outstanding
    · have here : ({ s with lock }.goto t p).point u = s.point u := update_of_ne same ..
      rw [here] at outstanding ⊢
      have device := sound.outstanding u outstanding
      cases stage : (s.point u).stage <;> rw [stage] at device <;> exact device
  numbered := sound.numbered

theorem Sound.lockNext {call : LockCall} {depth : Nat} {inside after : IdePoint} (sound : s.Sound)
    (here : s.point t = inside)
    (run : s.lockNext t inside after = .ok s') (fits : (s.lock.point t).call = some call ∧ s.lock.depth t = depth)
    (stays : inside.Fits (some call) depth) (returns : after.Fits none (LockState.depthAfter depth (some call)))
    (quiet : inside.stage = .quiet) (quiet' : after.stage = .quiet) : s'.Sound := by
  obtain ⟨owner, owned⟩ := sound.owned
  unfold IdeState.lockNext at run
  split at run
  · cases run
  · rename_i lock step
    obtain rfl := Except.ok.inj run
    have moves := LockState.next_moves owned step
    refine sound.lockMove ?_ moves.others ?_ (by rw [here, quiet]) (by split <;> assumption)
    · by_cases asleep : s.lock.point t = .asleep
      · grind [LockState.next]
      · exact (LockState.Step.next asleep step).owned owned sound.depth_lt
    grind [moves.self]

theorem outside_of_call {q : LockPoint} (none : q.call = none) : q = .outside := by
  cases q <;> first | rfl | cases none

theorem Sound.call {w : IdeWork} (sound : s.Sound) (idle : s.point t = .outside) :
    ({ s with lock := s.lock.goto t .testHolder }.goto t (.acquire w)).Sound := by
  obtain ⟨owner, owned⟩ := sound.owned
  have fits := sound.fits t
  rw [idle] at fits
  have outside := outside_of_call fits.1
  refine sound.lockMove ((LockState.Step.acquire outside).owned owned sound.depth_lt) (fun u other => ?_) ?_
    (by rw [idle]; rfl) rfl
  · exact ⟨congrArg _ (update_of_ne other ..), rfl⟩
  · exact ⟨by simp [LockState.goto, LockPoint.call], fits.2⟩

theorem Sound.startRelease {w : IdeWork} (sound : s.Sound) (here : s.point t = .loop w) :
    ({ s with lock := s.lock.goto t .assertHolder }.goto t .release).Sound := by
  obtain ⟨owner, owned⟩ := sound.owned
  have fits := sound.fits t
  rw [here] at fits
  have outside := outside_of_call fits.1
  refine sound.lockMove ((LockState.Step.release outside (fits.2 ▸ Nat.one_pos)).owned owned sound.depth_lt)
    (fun u other => ?_) ?_ (by rw [here]; rfl) rfl
  · exact ⟨congrArg _ (update_of_ne other ..), rfl⟩
  · exact ⟨by simp [LockState.goto, LockPoint.call], fits.2⟩

/-- A round of `sema_down`: the task sleeps while the interrupt of its command is still to come, and
returns when it was handled. -/
theorem Sound.semaDown {w : IdeWork} {k : Nat} (sound : s.Sound) (has : s.lock.depth t = 1)
    (call : (s.lock.point t).call = none)
    (stage : (s.point t).stage = .running k false) (run : s.semaDown t w k = .ok s') : s'.Sound := by
  have device := sound.at has
  rw [stage] at device
  obtain ⟨issued, rfl,
    ⟨expecting, value, waiters, pending, handled⟩ | ⟨-, expecting, value, waiters, pending, handled⟩⟩ := device
  · rw [IdeState.semaDown, if_pos value, assert_eq_ok] at run
    obtain ⟨-, rfl⟩ := run
    refine sound.move has rfl rfl ⟨call, rfl⟩ ⟨issued, rfl, .inl ⟨expecting, value, ?_, pending, handled⟩⟩
      sound.numbered
    simpa [goto] using waiters
  · rw [IdeState.semaDown, if_neg (by simp [value]), assert_eq_ok] at run
    obtain ⟨-, rfl⟩ := run
    have quiet : (if w.write then IdePoint.loop (chunkDone w) else .busy w s.returned.length).stage = .quiet := by
      cases write : w.write
      · simp [IdePoint.stage, write]
      · rfl
    refine sound.move has rfl rfl ?_ ?_ ?_
    · split <;> exact ⟨call, rfl⟩
    · rw [quiet]
      refine ⟨expecting, by simp [goto, value], waiters, pending, handled, ?_⟩
      simpa [goto] using issued
    grind [sound.numbered, goto, List.length_singleton, List.range_succ]

theorem Sound.advance (sound : s.Sound) (fits : (s.lock.point t).call = none ∧ s.lock.depth t = 1)
    (inside : p.Fits none 1)
    (stage : p.stage = (s.point t).stage) : (s.goto t p).Sound := by
  refine sound.move fits.2 rfl rfl (fits.1 ▸ inside) ?_ sound.numbered
  have device := sound.at fits.2
  rw [← stage] at device
  cases here : p.stage <;> rw [here] at device <;> exact device

theorem Sound.next (sound : s.Sound) (run : s.next t = .ok s') : s'.Sound := by
  have fits := sound.fits t
  cases here : s.point t with
  | outside | asleep w k =>
    obtain rfl : s = s' := by simpa [IdeState.next, here] using run
    exact sound
  | acquire w =>
    rw [here] at fits
    simp only [IdeState.next, here] at run
    exact sound.lockNext here run fits ⟨rfl, rfl⟩ ⟨rfl, rfl⟩ rfl rfl
  | release =>
    rw [here] at fits
    simp only [IdeState.next, here] at run
    exact sound.lockNext here run fits ⟨rfl, rfl⟩ ⟨rfl, rfl⟩ rfl rfl
  | loop w =>
    rw [here] at fits
    simp only [IdeState.next, here] at run
    split at run
    · cases run
      exact sound.advance fits ⟨rfl, rfl⟩ (by rw [here]; rfl)
    · cases run
      exact sound.startRelease here
  | select w =>
    rw [here] at fits
    simp only [IdeState.next, here, assert_eq_ok] at run
    obtain ⟨-, rfl⟩ := run
    exact sound.advance fits ⟨rfl, rfl⟩ (by rw [here]; rfl)
  | expect w =>
    rw [here] at fits
    have device := sound.at fits.2
    rw [here] at device
    simp only [IdeState.next, here, Except.ok.injEq] at run
    subst run
    exact sound.move fits.2 rfl rfl ⟨fits.1, rfl⟩ ⟨rfl, device.2⟩ sound.numbered
  | command w =>
    rw [here] at fits
    have device := sound.at fits.2
    rw [here] at device
    simp only [IdeState.next, here, Except.ok.injEq] at run
    subst run
    obtain ⟨expecting, value, waiters, pending, handled, issued⟩ := device
    have stage : (if w.write then IdePoint.busy w s.issued else .down w s.issued).stage = .running s.issued false := by
      cases write : w.write <;> simp [IdePoint.stage, write]
    refine sound.move fits.2 rfl rfl ?_ ?_ sound.numbered
    · split <;> exact ⟨fits.1, rfl⟩
    · rw [stage]
      exact ⟨rfl, issued, .inl ⟨expecting, value, waiters, by simp [goto, pending], handled⟩⟩
  | down w k | woken w k =>
    rw [here] at fits
    simp only [IdeState.next, here] at run
    exact sound.semaDown fits.2 fits.1 (by rw [here]; rfl) run
  | busy w k =>
    rw [here] at fits
    simp only [IdeState.next, here, Except.ok.injEq] at run
    subst run
    exact sound.advance fits ⟨rfl, rfl⟩ (by rw [here]; rfl)
  | move w k =>
    rw [here] at fits
    simp only [IdeState.next, here, Except.ok.injEq] at run
    subst run
    refine sound.advance fits (by split <;> exact ⟨rfl, rfl⟩) ?_
    cases write : w.write <;> simp [IdePoint.stage, here, write]

theorem asleep_of_stage {k : Nat} (stage : p.stage = .running k true) : ∃ w, p = .asleep w k := by
  cases p with
  | asleep w j =>
    obtain rfl : j = k := by simpa [IdePoint.stage] using stage
    exact ⟨w, rfl⟩
  | busy w j | move w j => cases write : w.write <;> simp [IdePoint.stage, write] at stage
  | _ => simp [IdePoint.stage] at stage

theorem Sound.interrupt {k : Nat} (sound : s.Sound) (raised : k ∈ s.pending) :
    ∃ s', intrHdHandler { s with pending := s.pending.erase k, handled := s.handled ++ [k] } = .ok s' ∧ s'.Sound := by
  have some : ∃ t, (s.point t).stage ≠ .quiet := by
    by_contra quiet
    have idle := sound.idle fun t => not_not.mp (not_exists.mp quiet t)
    rw [idle.2.2.2.1] at raised
    cases raised
  obtain ⟨t, outstanding⟩ := some
  have fits := sound.fits t
  have has := IdePoint.depth_of_stage fits outstanding
  have device := sound.at has
  cases stage : (s.point t).stage with
  | quiet => exact absurd stage outstanding
  | expecting =>
    rw [stage] at device
    rw [device.2.2.2.1] at raised
    cases raised
  | running j sleeps =>
    rw [stage] at device
    obtain ⟨issued, number, ⟨expecting, value, waiters, pending, handled⟩ | ⟨-, -, -, -, pending, -⟩⟩ := device
    · rw [pending, List.mem_singleton] at raised
      subst raised
      have released :
          At { s with expectingIntr := false, value := 1, waiters := [], pending := [], handled := s.handled ++ [k] }
          t (.running k false) :=
        ⟨issued, number, .inr ⟨rfl, rfl, rfl, rfl, rfl, by rw [handled]⟩⟩
      cases sleeps with
      | false =>
        refine ⟨{ s with expectingIntr := false, value := 1, waiters := [], pending := [], handled := s.handled ++
          [k] }, ?_, ?_⟩
        · simp [intrHdHandler, IdeState.semaUp, expecting, value, waiters, assert, pending]
        · refine sound.move has rfl (update_eq_self t s.point).symm (has ▸ fits) ?_ sound.numbered
          rwa [stage]
      | true =>
        obtain ⟨w, asleep⟩ := asleep_of_stage stage
        rw [asleep] at fits
        refine ⟨{ s with expectingIntr := false, value := 1, waiters := [], pending := [], handled := s.handled ++
          [k] }.goto t (.woken w k), ?_, ?_⟩
        · simp [intrHdHandler, IdeState.semaUp, expecting, value, waiters, assert, pending, asleep]
        · exact sound.move has rfl rfl ⟨fits.1, rfl⟩ released sound.numbered
    · rw [pending] at raised
      cases raised

theorem Step.sound (step : Step s s') (sound : s.Sound) : s'.Sound := by
  cases step with
  | call _ _ _ _ idle => exact sound.call idle
  | next run => exact sound.next run
  | interrupt raised run =>
    grind [sound.interrupt]

theorem sound_of_steps (steps : Relation.ReflTransGen Step ideInit s) : s.Sound := by
  induction steps with
  | refl => exact ideInit_sound
  | tail _ step ih => exact step.sound ih

theorem next_handled (run : s.next t = .ok s') : s'.handled = s.handled := by
  cases here : s.point t with
  | acquire w | release =>
    simp only [IdeState.next, here, IdeState.lockNext] at run
    split at run <;> cases run
    rfl
  | loop w =>
    simp only [IdeState.next, here] at run
    split at run <;> cases run <;> rfl
  | select w =>
    simp only [IdeState.next, here, assert_eq_ok] at run
    obtain ⟨-, rfl⟩ := run
    rfl
  | down w k | woken w k =>
    simp only [IdeState.next, here, IdeState.semaDown] at run
    split at run <;> obtain ⟨-, rfl⟩ := assert_eq_ok.mp run <;> rfl
  | _ =>
    simp only [IdeState.next, here] at run
    cases run
    rfl

/-- Any tasks on one channel, under any schedule and with the interrupts at any time: a wait returns
only after the interrupt of its own command was handled, every interrupt releases one wait, the handler
fails no assertion, and the channel is quiet when no command is outstanding. -/
theorem disk_waits (steps : Relation.ReflTransGen Step ideInit s) :
    (∀ t s' k, s.next t = .ok s' → s'.returned = s.returned ++ [k] → k ∈ s.handled) ∧
    (s.returned <+: s.handled ∧ s.handled.Nodup ∧ s.handled.length = s.returned.length + s.value.toNat) ∧
    (∀ t w k, s.point t = .asleep w k → k ∈ s.pending) ∧
    (∀ k ∈ s.pending, ∃ s', intrHdHandler { s with pending := s.pending.erase k, handled := s.handled ++ [k] } =
    .ok s') ∧
    ((∀ t, (s.point t).stage = .quiet) → s.value = 0 ∧ s.expectingIntr = false) := by
  have sound := sound_of_steps steps
  have released {s : IdeState T} (sound : s.Sound) : s.returned <+: s.handled ∧ s.handled.Nodup ∧ s.handled.length =
      s.returned.length + s.value.toNat := by grind [sound.handled_cases, sound.numbered, List.range_succ]
  refine ⟨fun t s' k run returned => ?_, released sound, fun t w k asleep => ?_, fun k raised => ?_, fun quiet => ?_⟩
  · have member : k ∈ s'.returned := by simp [returned]
    exact next_handled run ▸ (released (sound.next run)).1.subset member
  · have device := sound.outstanding t (by simp [asleep, IdePoint.stage])
    rw [asleep] at device
    obtain ⟨-, -, ⟨-, -, -, pending, -⟩ | ⟨awake, -⟩⟩ := device
    · rw [pending]
      exact List.mem_singleton_self k
    · cases awake
  · obtain ⟨s', run, -⟩ := sound.interrupt raised
    exact ⟨s', run⟩
  · obtain ⟨expecting, value, -⟩ := sound.idle quiet
    exact ⟨value, expecting⟩

def nexts (s : IdeState T) (t : T) : Nat → Option (IdeState T)
  | 0 => some s
  | n + 1 =>
    match s.next t with
    | .error _ => none
    | .ok s' => s'.nexts t n

theorem steps_of_nexts {n : Nat} (run : s.nexts t n = some s') : Relation.ReflTransGen Step s s' := by
  induction n generalizing s with
  | zero =>
    cases run
    exact .refl
  | succ n ih =>
    unfold nexts at run
    split at run
    · cases run
    · rename_i mid step
      exact .head (.next step) (ih run)

def oneRead : IdeState Nat :=
  { ideInit with lock := LockState.lockInit.goto 0 .testHolder }.goto 0 (.acquire ⟨false, 0, 1, 0, 0⟩)

/-- A read of one sector: the command is given, its interrupt is handled, and the wait returns. -/
theorem disk_waits_read : ∃ s s' s'' : IdeState Nat, s.pending = [0] ∧
    intrHdHandler { s with pending := [], handled := [0] } = .ok s' ∧ s'.next 0 = .ok s'' ∧ s''.returned = [0] ∧
    0 ∈ s'.handled ∧ s''.returned <+: s''.handled := by
  have returns : ((oneRead.nexts 0 9).any fun s => decide (s.pending = [0] ∧ s.handled = []) &&
      match intrHdHandler { s with pending := [], handled := [0] } with
      | .error _ => false
      | .ok s' => match s'.next 0 with
        | .error _ => false
        | .ok s'' => decide (s''.returned = s'.returned ++ [0] ∧ s''.returned = [0])) = true := by decide +kernel
  obtain ⟨s, run, passed⟩ := (Option.any_eq_true ..).mp returns
  obtain ⟨given, passed⟩ := Bool.and_eq_true_iff.mp passed
  obtain ⟨pending, handled⟩ := of_decide_eq_true given
  split at passed
  · cases passed
  next s' intr =>
  split at passed
  · cases passed
  next s'' next =>
  obtain ⟨one, returned⟩ := of_decide_eq_true passed
  have start : Step ideInit oneRead := .call false 0 1 0 rfl (by decide) (by decide)
  have steps : Relation.ReflTransGen Step ideInit s := .head start (steps_of_nexts run)
  have steps' := steps.tail (.interrupt (k := 0) (by simp [pending]) (by rw [pending, handled]; exact intr))
  exact ⟨s, s', s'', pending, intr, next, returned, (disk_waits steps').1 0 s'' 0 next one,
    (disk_waits (steps'.tail (.next next))).2.1.1⟩

end IdeState

end LaiMiniOs
