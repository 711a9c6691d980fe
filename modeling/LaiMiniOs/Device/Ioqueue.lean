import Mathlib.Logic.Relation
import Mathlib.Data.List.Nodup
import LaiMiniOs.Foundation.Program
import LaiMiniOs.Foundation.Memory
import LaiMiniOs.Foundation.Ring

/-! The queue of `device/ioqueue.c` and the tasks that use it.

All of the code runs with interrupts off, so a task gives up the CPU only where it blocks: in
`sema_down`, waiting for the lock of the queue, and in `ioq_wait`, with the lock in its hands. A call
is a program that runs to its end or to such a point; where the rest of it goes on is written down in
`point`.
-/

set_option autoImplicit false

namespace LaiMiniOs
open Foundation Function

inductive IoqRole where
  /-- `ioq_getchar`. -/
  | get
  /-- `ioq_putchar` with its argument. -/
  | put (byte : Byte)
  deriving DecidableEq, Repr

inductive IoqSide where
  | producer
  | consumer
  deriving DecidableEq, Repr

def IoqSide.other : IoqSide → IoqSide
  | producer => consumer
  | consumer => producer

def IoqRole.side : IoqRole → IoqSide
  | get => .consumer
  | put _ => .producer

inductive IoqPoint where
  | outside
  /-- Blocked in `sema_down`. -/
  | lockWait (role : IoqRole)
  /-- Unblocked by `sema_up`; the loop of `sema_down` tests the value again. -/
  | lockWoken (role : IoqRole)
  /-- Blocked in `ioq_wait`. -/
  | asleep (role : IoqRole)
  /-- Unblocked by `wakeup`; `lock_release` is next. -/
  | woken (role : IoqRole)
  deriving DecidableEq, Repr

def IoqPoint.unblocked : IoqPoint → IoqPoint
  | lockWait role => lockWoken role
  | asleep role => woken role
  | point => point

structure IoqState (T : Type) where
  holder : Option T
  holderRepeatNr : Word
  value : Byte
  waiters : List T
  /-- `producer` and `consumer`, by their side. -/
  waiter : IoqSide → Option T
  head : Nat
  tail : Nat
  buf : Memory
  point : T → IoqPoint

abbrev IoqM (T : Type) := Prog (IoqState T)

def bufsize : Nat := 2048

def nextPos (pos : Nat) : Nat := (pos + 1) % bufsize

namespace IoqState

variable {T : Type}

def ioqueueInit (buf : Memory) : IoqState T := ⟨none, 0, 1, [], fun _ => none, 0, 0, buf, fun _ => .outside⟩

def IoqFull (s : IoqState T) : Prop := nextPos s.head = s.tail

def IoqEmpty (s : IoqState T) : Prop := s.head = s.tail

def ioqLength (s : IoqState T) : Nat := if s.tail ≤ s.head then s.head - s.tail else bufsize - (s.tail - s.head)

instance (s : IoqState T) : Decidable s.IoqFull := inferInstanceAs (Decidable (_ = _))

instance (s : IoqState T) : Decidable s.IoqEmpty := inferInstanceAs (Decidable (_ = _))

def Blocks (s : IoqState T) : IoqRole → Prop
  | .get => s.IoqEmpty
  | .put _ => s.IoqFull

instance (s : IoqState T) : (role : IoqRole) → Decidable (s.Blocks role)
  | .get => inferInstanceAs (Decidable s.IoqEmpty)
  | .put _ => inferInstanceAs (Decidable s.IoqFull)

def setWaiter (s : IoqState T) (side : IoqSide) (task : Option T) : IoqState T :=
  { s with waiter := update s.waiter side task }

variable [DecidableEq T]

def goto (s : IoqState T) (t : T) (point : IoqPoint) : IoqState T := { s with point := update s.point t point }

end IoqState

section Calls

variable {T : Type} [DecidableEq T]

def ioqUnblock (t : T) : IoqM T Unit := do
  let s ← get
  Prog.assert ((s.point t).unblocked ≠ s.point t)
  set (s.goto t (s.point t).unblocked)

/-- A round of the loop of `sema_down`; the result is false when the task has gone to sleep. -/
def ioqSemaDown (t : T) (role : IoqRole) : IoqM T Bool := do
  let s ← get
  if s.value = 0 then do
    Prog.assert (t ∉ s.waiters)
    set ({ s with waiters := s.waiters ++ [t] }.goto t (.lockWait role))
    return false
  else do
    Prog.assert (s.value - 1 = 0)
    set { s with value := s.value - 1 }
    return true

def ioqSemaUp : IoqM T Unit := do
  let s ← get
  Prog.assert (s.value = 0)
  match s.waiters with
  | [] => pure ()
  | first :: rest => do
    set { s with waiters := rest }
    ioqUnblock first
  modify fun s => { s with value := s.value + 1 }
  let s ← get
  Prog.assert (s.value = 1)

def ioqTakeLock (t : T) : IoqM T Unit := do
  modify fun s => { s with holder := some t }
  let s ← get
  Prog.assert (s.holderRepeatNr = 0)
  set { s with holderRepeatNr := 1 }

def ioqLockRelease (t : T) : IoqM T Unit := do
  let s ← get
  Prog.assert (s.holder = some t)
  if 1 < s.holderRepeatNr then
    set { s with holderRepeatNr := s.holderRepeatNr - 1 }
  else do
    Prog.assert (s.holderRepeatNr = 1)
    set { s with holder := none, holderRepeatNr := 0 }
    ioqSemaUp

def IoqState.ioqWait (t : T) (role : IoqRole) : IoqM T Unit := do
  let s ← get
  Prog.assert (s.waiter role.side = none)
  set ((s.setWaiter role.side (some t)).goto t (.asleep role))

def ioqDownAndWait (t : T) (role : IoqRole) : IoqM T Unit := do
  if ← ioqSemaDown t role then do
    ioqTakeLock t
    IoqState.ioqWait t role

/-- The body of the loop of `ioq_getchar` and `ioq_putchar`, up to the first sleep. -/
def ioqSleep (t : T) (role : IoqRole) : IoqM T Unit := do
  let s ← get
  if s.holder ≠ some t then
    ioqDownAndWait t role
  else do
    set { s with holderRepeatNr := s.holderRepeatNr + 1 }
    IoqState.ioqWait t role

def ioqWakeup (side : IoqSide) : IoqM T Unit := do
  let s ← get
  match s.waiter side with
  | none => Prog.fail .assertion
  | some t => do
    ioqUnblock t
    modify fun s => s.setWaiter side none

def ioqMove (role : IoqRole) : IoqM T Byte := do
  let s ← get
  match role with
  | .get => do
    set { s with tail := nextPos s.tail }
    return s.buf s.tail
  | .put byte => do
    set { s with buf := update s.buf s.head byte, head := nextPos s.head }
    return byte

/-- `ioq_getchar` and `ioq_putchar` from the test of the loop on; there is no result when the task has
gone to sleep. -/
def ioqTransfer (t : T) (role : IoqRole) : IoqM T (Option Byte) := do
  let s ← get
  if s.Blocks role then do
    ioqSleep t role
    return none
  else do
    let byte ← ioqMove role
    let s ← get
    Prog.when (s.waiter role.side.other ≠ none) (ioqWakeup role.side.other)
    return some byte

def ioqGetchar (t : T) : IoqM T (Option Byte) := ioqTransfer t .get

def ioqPutchar (t : T) (byte : Byte) : IoqM T (Option Byte) := ioqTransfer t (.put byte)

def ioqResume (t : T) : IoqM T (Option Byte) := do
  let s ← get
  match s.point t with
  | .lockWoken role => do
    set (s.goto t .outside)
    ioqDownAndWait t role
    return none
  | .woken role => do
    set (s.goto t .outside)
    ioqLockRelease t
    ioqTransfer t role
  | _ => return none

end Calls

namespace IoqState

variable {T : Type} [DecidableEq T]

/-- A step of the system: a task calls one of the two functions, or one that was unblocked goes on. -/
inductive Step (s : IoqState T) (t : T) (s' : IoqState T) : Prop where
  | getchar {result : Option Byte} (idle : s.point t = .outside) (run : ioqGetchar t s = .ok (result, s')) : Step s t s'
  | putchar {byte : Byte} {result : Option Byte} (idle : s.point t = .outside)
      (run : ioqPutchar t byte s = .ok (result, s')) : Step s t s'
  | resume {result : Option Byte} (run : ioqResume t s = .ok (result, s')) : Step s t s'

end IoqState

end LaiMiniOs
