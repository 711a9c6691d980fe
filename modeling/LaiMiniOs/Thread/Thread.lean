import Mathlib.Logic.Function.Basic
import LaiMiniOs.Kernel.Bitmap

/-! Tasks and their queues, from `thread/thread.c`, with `sema_down` and `sema_up` of
`thread/sync.c` and the two sleeping functions of `device/ioqueue.c`.

A task is named by the address of its PCB. The functions run with interrupts off, so each is one
step for everybody else; one that gives up the CPU ends there, and what its task does when it is
switched to again is a step of its own. The node `general_tag` links a task into the ready list or
into the waiters of a semaphore; the lists are kept as lists of tasks, and that a node is never in
two of them is proved, not assumed.
-/

set_option autoImplicit false

namespace LaiMiniOs
open Foundation Function

inductive TaskStatus where
  | running
  | ready
  | blocked
  | waiting
  | hanging
  | died
  deriving DecidableEq

/-- The fields of `struct task_struct` that the scheduler and the process calls use; `parentPid` is
`none` for `-1`, and `user` says that the task has a page directory. -/
structure TaskStruct where
  pid : Nat
  status : TaskStatus
  priority : Byte
  ticks : Byte
  parentPid : Option Nat
  exitStatus : Byte
  user : Bool
  deriving DecidableEq

/-- The PCBs, the global lists of `thread.c`, the semaphores and the pointers `consumer` and
`producer` of the I/O queues. -/
structure Threads where
  pcb : Nat → Option TaskStruct
  /-- `running_thread()`. -/
  cur : Nat
  mainThread : Nat
  idleThread : Nat
  threadReadyList : List Nat
  threadAllList : List Nat
  pidBitmap : Bitmap
  value : Nat → Byte
  waiters : Nat → List Nat
  ioqWaiter : Nat → Option Nat

def pidStart : Nat := 1

abbrev ThreadM := Prog Threads

namespace Threads

def setTask (s : Threads) (t : Nat) (task : TaskStruct) : Threads := { s with pcb := update s.pcb t (some task) }

def status (s : Threads) (t : Nat) : Option TaskStatus := (s.pcb t).map TaskStruct.status

end Threads

def readTask (t : Nat) : ThreadM TaskStruct := do
  let s ← get
  match s.pcb t with
  | some task => return task
  | none => .fail .undefined

def threadUnblock (pthread : Nat) : ThreadM Unit := do
  let task ← readTask pthread
  Prog.assert (task.status = .blocked ∨ task.status = .waiting ∨ task.status = .hanging)
  let s ← get
  Prog.assert (pthread ∉ s.threadReadyList)
  set ({ s with threadReadyList := pthread :: s.threadReadyList }.setTask pthread { task with status := .ready })

def schedule : ThreadM Unit := do
  let s ← get
  let task ← readTask s.cur
  Prog.when (task.status = .running) do
    Prog.assert (s.cur ∉ s.threadReadyList)
    set ({ s with threadReadyList := s.threadReadyList ++ [s.cur] }.setTask s.cur { task with
      ticks := task.priority, status := .ready })
  let s ← get
  Prog.when (s.threadReadyList = []) (threadUnblock s.idleThread)
  let s ← get
  match s.threadReadyList with
  | [] => .fail .assertion
  | next :: rest =>
    let task ← readTask next
    set ({ s with threadReadyList := rest, cur := next }.setTask next { task with status := .running })

def threadBlock (stat : TaskStatus) : ThreadM Unit := do
  Prog.assert (stat = .blocked ∨ stat = .waiting ∨ stat = .hanging)
  let s ← get
  let task ← readTask s.cur
  set (s.setTask s.cur { task with status := stat })
  schedule

def threadYield : ThreadM Unit := do
  let s ← get
  let task ← readTask s.cur
  Prog.assert (s.cur ∉ s.threadReadyList)
  set ({ s with threadReadyList := s.threadReadyList ++ [s.cur] }.setTask s.cur { task with status := .ready })
  schedule

def intrTimerHandler : ThreadM Unit := do
  let s ← get
  let task ← readTask s.cur
  if task.ticks = 0 then schedule
  else set (s.setTask s.cur { task with ticks := task.ticks - 1 })

/-- `allocate_pid`. The lock of the pool is free, because nobody is switched away from while
holding it. -/
def allocatePid : ThreadM Nat := do
  let s ← get
  match s.pidBitmap.scan 1 with
  | .error fault => .fail fault
  | .ok none => .fail .undefined
  | .ok (some bitIdx) =>
    set { s with pidBitmap := s.pidBitmap.set bitIdx true }
    return bitIdx + pidStart

def releasePid (pid : Nat) : ThreadM Unit :=
  modify fun s => { s with pidBitmap := s.pidBitmap.set (pid - pidStart) false }

def enlist (thread : Nat) (task : TaskStruct) : ThreadM Unit := do
  let s ← get
  Prog.assert (thread ∉ s.threadReadyList)
  Prog.assert (thread ∉ s.threadAllList)
  set ({ s with threadReadyList := s.threadReadyList ++ [thread], threadAllList := s.threadAllList ++
    [thread] }.setTask thread task)

def threadStart (thread : Nat) (prio : Byte) : ThreadM Unit := do
  let pid ← allocatePid
  enlist thread ⟨pid, .ready, prio, prio, none, 0, false⟩

def processExecute (thread : Nat) : ThreadM Unit := do
  let pid ← allocatePid
  enlist thread ⟨pid, .ready, 31, 31, none, 0, true⟩

def makeMainThread : ThreadM Unit := do
  let pid ← allocatePid
  let s ← get
  Prog.assert (s.cur ∉ s.threadAllList)
  set ({ s with mainThread := s.cur, threadAllList := s.threadAllList ++ [s.cur] }.setTask s.cur
    ⟨pid, .running, 31, 31, none, 0, false⟩)

/-- `thread_init` on the pages for the PCBs of `init` and of the idle thread. -/
def threadInit (init idle : Nat) : ThreadM Unit := do
  modify fun s => { s with threadReadyList := [], threadAllList := [], pidBitmap := ⟨128, fun _ => 0⟩ }
  processExecute init
  makeMainThread
  threadStart idle 10
  modify fun s => { s with idleThread := idle }

/-- `thread_exit`. The PCB of the main thread is not in an allocated page and stays. The pid is
read after the page has been given back, from what the page still holds. -/
def threadExit (threadOver : Nat) (needSchedule : Bool) : ThreadM Unit := do
  let task ← readTask threadOver
  modify fun s => { s with threadReadyList := s.threadReadyList.erase threadOver }.setTask threadOver { task with
    status := .died }
  modify fun s => { s with threadAllList := s.threadAllList.erase threadOver }
  let s ← get
  Prog.when (threadOver ≠ s.mainThread) (set { s with pcb := update s.pcb threadOver none })
  releasePid task.pid
  Prog.when (needSchedule = true) schedule

/-- One round of the loop of `sema_down`: the task that finds the value 0 sleeps, and starts with
another round when it is woken. -/
def semaDown (sema : Nat) : ThreadM Unit := do
  let s ← get
  if s.value sema = 0 then
    Prog.assert (s.cur ∉ s.waiters sema)
    set { s with waiters := update s.waiters sema (s.waiters sema ++ [s.cur]) }
    threadBlock .blocked
  else
    set { s with value := update s.value sema (s.value sema - 1) }
    Prog.assert (s.value sema - 1 = 0)

def semaUp (sema : Nat) : ThreadM Unit := do
  let s ← get
  Prog.assert (s.value sema = 0)
  match s.waiters sema with
  | [] => pure ()
  | first :: rest =>
    set { s with waiters := update s.waiters sema rest }
    threadUnblock first
  let s ← get
  set { s with value := update s.value sema (s.value sema + 1) }
  Prog.assert (s.value sema + 1 = 1)

def ioqWait (waiter : Nat) : ThreadM Unit := do
  let s ← get
  Prog.assert (s.ioqWaiter waiter = none)
  set { s with ioqWaiter := update s.ioqWaiter waiter (some s.cur) }
  threadBlock .blocked

def wakeup (waiter : Nat) : ThreadM Unit := do
  let s ← get
  match s.ioqWaiter waiter with
  | none => .fail .assertion
  | some t =>
    threadUnblock t
    modify fun s => { s with ioqWaiter := update s.ioqWaiter waiter none }

end LaiMiniOs
