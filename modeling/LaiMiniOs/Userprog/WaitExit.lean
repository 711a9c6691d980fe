import LaiMiniOs.Thread.Sections

/-! `sys_fork`, `sys_exit` and `sys_wait`, from `userprog/fork.c` and `userprog/wait_exit.c`.

System calls run with interrupts off, so a call is one step up to the point where it blocks. Of
`sys_fork` the part that concerns the lists and the pids is kept; what it copies for the child is
none of the scheduler's business. In the same way `release_prog_resource` changes nothing here.
-/

set_option autoImplicit false

namespace LaiMiniOs
open Foundation

def TaskStruct.initAdopt (pid : Nat) (task : TaskStruct) : TaskStruct :=
  if task.parentPid = some pid then { task with parentPid := some 1 } else task

namespace Threads

def findChild (s : Threads) (ppid t : Nat) : Bool := (s.pcb t).any fun task => task.parentPid == some ppid

def findHangingChild (s : Threads) (ppid t : Nat) : Bool :=
  (s.pcb t).any fun task => task.parentPid == some ppid && task.status == .hanging

def pid2thread (s : Threads) (pid : Nat) : Option Nat := s.threadAllList.find? fun t => (s.pcb t).any fun task =>
  task.pid == pid

def initAdopt (s : Threads) (pid : Nat) : Threads :=
  { s with pcb := fun t => if t ∈ s.threadAllList then (s.pcb t).map (TaskStruct.initAdopt pid) else s.pcb t }

end Threads

def sysFork (child : Nat) : ThreadM Nat := do
  let s ← get
  let parent ← readTask s.cur
  Prog.assert (parent.user = true)
  let pid ← allocatePid
  enlist child { parent with pid := pid, status := .ready, ticks := parent.priority, parentPid := some parent.pid }
  return pid

inductive Waited where
  /-- It returns the pid of a child and stores its exit status. -/
  | reaped (childPid : Nat) (status : Int)
  /-- It returns `-1`. -/
  | noChild
  /-- The task sleeps and starts with another round when it is woken. -/
  | asleep
  deriving DecidableEq

def sysWait : ThreadM Waited := do
  let s ← get
  let parent ← readTask s.cur
  match s.threadAllList.find? (s.findHangingChild parent.pid) with
  | some child =>
    let childThread ← readTask child
    threadExit child false
    return .reaped childThread.pid childThread.exitStatus.toInt
  | none =>
    match s.threadAllList.find? (s.findChild parent.pid) with
    | none => return .noChild
    | some _ =>
      threadBlock .waiting
      return .asleep

def sysExit (status : Word) : ThreadM Unit := do
  let s ← get
  let task ← readTask s.cur
  set (s.setTask s.cur { task with exitStatus := status.setWidth 8 })
  Prog.assert (task.parentPid ≠ none)
  modify fun s => s.initAdopt task.pid
  let childThread ← readTask s.cur
  let s ← get
  match childThread.parentPid.bind s.pid2thread with
  | none => .fail .undefined
  | some parent =>
    let parentThread ← readTask parent
    Prog.when (parentThread.status = .waiting) (threadUnblock parent)
    threadBlock .hanging

inductive Op where
  /-- The timer interrupt. -/
  | tick
  | yield
  /-- The idle thread blocks itself. -/
  | idle
  | start (thread : Nat) (prio : Byte)
  | semaDown (sema : Nat)
  | semaUp (sema : Nat)
  | ioqWait (waiter : Nat)
  | wakeup (waiter : Nat)
  | fork (child : Nat)
  | exit (status : Word)
  | wait
  /-- The end of `main`. -/
  | mainExit

inductive Answer where
  | nothing
  | forked (pid : Nat)
  | waited (result : Waited)
  deriving DecidableEq

def Op.run : Op → ThreadM Answer
  | tick => do intrTimerHandler; return .nothing
  | yield => do threadYield; return .nothing
  | idle => do threadBlock .blocked; return .nothing
  | start thread prio => do threadStart thread prio; return .nothing
  | semaDown sema => do LaiMiniOs.semaDown sema; return .nothing
  | semaUp sema => do LaiMiniOs.semaUp sema; return .nothing
  | ioqWait waiter => do LaiMiniOs.ioqWait waiter; return .nothing
  | wakeup waiter => do LaiMiniOs.wakeup waiter; return .nothing
  | fork child => do let pid ← sysFork child; return .forked pid
  | exit status => do sysExit status; return .nothing
  | wait => do let result ← sysWait; return .waited result
  | mainExit => do let s ← get; threadExit s.cur true; return .nothing

/-- Who takes which step. The idle thread does nothing but block itself and be interrupted, by the
timer or by a device whose handler wakes somebody. A page for a new PCB is not in use. -/
def Op.Allowed (s : Threads) : Op → Prop
  | tick | semaUp _ | wakeup _ => True
  | yield | semaDown _ | ioqWait _ | exit _ | wait => s.cur ≠ s.idleThread
  | idle => s.cur = s.idleThread
  | start thread _ | fork thread => s.cur ≠ s.idleThread ∧ s.pcb thread = none
  | mainExit => s.cur = s.mainThread ∧ s.cur ≠ s.idleThread

def Threads.Step (s : Threads) (op : Op) (answer : Answer) (s' : Threads) : Prop :=
  op.Allowed s ∧ op.run s = .ok (answer, s')

end LaiMiniOs
