import LaiMiniOs.Shell.Pipe
import Mathlib.Logic.Relation

/-! Tasks that share the file system: `userprog/fork.c` and `userprog/wait_exit.c`.

Each task has descriptors and a working directory of its own; the rest of the state is shared.
Here a system call runs to its end before another one starts. Address spaces, scheduling and the
waiting of parents for their children are outside the development.
-/

set_option autoImplicit false

namespace LaiMiniOs
open Foundation Function

structure Task where
  fdTable : Nat → Option Nat
  cwdInodeNr : Word
  /-- `pgdir` is not `NULL`. -/
  user : Bool
  /-- `none` for `-1`. -/
  parentPid : Option Nat

structure System where
  fs : Fs
  tasks : Nat → Option Task

variable {pid pid' : Nat} {sys : System} {task : Task}

def Fs.as (s : Fs) (task : Task) : Fs := { s with fdTable := task.fdTable, cwdInodeNr := task.cwdInodeNr }

def Task.after (task : Task) (s : Fs) : Task := { task with fdTable := s.fdTable, cwdInodeNr := s.cwdInodeNr }

def countFd (localFd : Nat) : FsM Unit := do
  match (← get).fdTable localFd with
  | none => return
  | some globalFd =>
    Prog.assert (globalFd < maxFileOpen)
    if ← isPipe localFd then
      modify fun s => s.setFile globalFd { s.fileTable globalFd with fdPos := (s.fileTable globalFd).fdPos + 1 }
    else do
      match ((← get).fileTable globalFd).fdInode with
      | none => Prog.fail .undefined
      | some p => modify fun s => s.setInode p { s.heap p with iOpenCnts := (s.heap p).iOpenCnts + 1 }

def updateInodeOpenCnts : FsM Unit := Prog.forUpTo (fun i => countFd (3 + i)) (maxFilesOpenPerProc - 3)

def releaseFd (localFd : Nat) : FsM Unit := do
  match (← get).fdTable localFd with
  | none => return
  | some _ =>
    if ← isPipe localFd then pipeClose (← fdLocal2Global localFd)
    else do
      let _ ← sysClose localFd
      return

def releaseProgResource : FsM Unit := Prog.forUpTo (fun i => releaseFd (3 + i)) (maxFilesOpenPerProc - 3)

inductive Call where
  | open (stack : Stack) (pathname : List Byte) (flags : Word)
  | close (fd : Int)
  | read (fd : Int) (count : Word)
  | write (fd : Int) (buf : Memory) (count : Word)
  | lseek (fd : Int) (offset : Word) (whence : Whence)
  | pipe
  | redirect (oldLocalFd newLocalFd : Nat)
  | mkdir (stack : Stack) (pathname : List Byte)
  | unlink (stack : Stack) (pathname : List Byte)
  | rmdir (stack : Stack) (pathname : List Byte)
  | chdir (stack : Stack) (path : List Byte)
  | getcwd (size : Nat)
  | stat (stack : Stack) (path : List Byte)
  | opendir (stack : Stack) (name : List Byte)
  | closedir (dir : Option Dir)

def Call.run : Call → FsM (List Int)
  | .open stack pathname flags => do return [← sysOpen stack pathname flags]
  | .close fd => do return [← sysClose fd]
  | .read fd count => do return [((← sysRead fd count).map fun bytes => (bytes.length : Int)).getD (-1)]
  | .write fd buf count => do return [← sysWrite fd buf count]
  | .lseek fd offset whence => do return [← sysLseek fd offset whence]
  | .pipe => do
    let (ret, fd₀, fd₁) ← sysPipe
    return [ret, fd₀, fd₁]
  | .redirect oldLocalFd newLocalFd => do
    sysFdRedirect oldLocalFd newLocalFd
    return []
  | .mkdir stack pathname => do return [← sysMkdir stack pathname]
  | .unlink stack pathname => do return [← sysUnlink stack pathname]
  | .rmdir stack pathname => do return [← sysRmdir stack pathname]
  | .chdir stack path => do return [← sysChdir stack path]
  | .getcwd size => do return [if (← sysGetcwd size).isSome then 0 else -1]
  | .stat stack path => do return [if (← sysStat stack path).isSome then 0 else -1]
  | .opendir stack name => do return [if (← sysOpendir stack name).isSome then 0 else -1]
  | .closedir dir => do return [← sysClosedir dir]

inductive Event where
  | call (call : Call) (answer : List Int)
  | fork (child : Nat)
  | exit

def Task.adopted (pid : Nat) (task : Task) : Task :=
  if task.parentPid = some pid then { task with parentPid := some 1 } else task

def System.called (sys : System) (pid : Nat) (task : Task) (s : Fs) : System :=
  ⟨s, update sys.tasks pid (some (task.after s))⟩

/-- The task `pid` does something. A kernel thread cannot fork, and a task without a parent cannot
exit. -/
inductive System.Step (sys : System) (pid : Nat) : Event → System → Prop where
  | call {task : Task} {call : Call} {answer : List Int} {s : Fs} (live : sys.tasks pid = some task)
      (run : call.run (sys.fs.as task) = .ok (answer, s)) :
      Step sys pid (.call call answer) (sys.called pid task s)
  | fork {task : Task} {child : Nat} {s : Fs} (live : sys.tasks pid = some task) (user : task.user = true)
      (new : sys.tasks child = none) (run : updateInodeOpenCnts (sys.fs.as task) = .ok ((), s)) :
      Step sys pid (.fork child) ⟨s, update sys.tasks child (some { task with parentPid := some pid })⟩
  | exit {task : Task} {s : Fs} (live : sys.tasks pid = some task) (parent : task.parentPid ≠ none)
      (run : releaseProgResource (sys.fs.as task) = .ok ((), s)) :
      Step sys pid .exit ⟨s, update (fun other => (sys.tasks other).map (Task.adopted pid)) pid none⟩

def System.slot (sys : System) (pid fd : Nat) : Option Nat := (sys.tasks pid).bind fun task => task.fdTable fd

theorem System.slot_of_live (live : sys.tasks pid = some task) (fd : Nat) :
    sys.slot pid fd = task.fdTable fd := by
  rw [System.slot, live]
  rfl

theorem System.slot_called_self (sys : System) (pid : Nat) (task : Task) (s : Fs) (fd : Nat) :
    (sys.called pid task s).slot pid fd = s.fdTable fd :=
  System.slot_of_live (show (sys.called pid task s).tasks pid = some (task.after s) from update_self _ _ _) fd

theorem System.slot_update_of_ne (sys : System) (s : Fs) (task : Option Task) (other : pid' ≠ pid) (fd : Nat) :
    System.slot ⟨s, update sys.tasks pid task⟩ pid' fd = sys.slot pid' fd := by
  unfold System.slot
  dsimp only
  rw [update_of_ne other]

theorem System.slot_called_of_ne (live : sys.tasks pid = some task) {s : Fs} {fd : Nat} {named : Option Nat}
    (fds : s.fdTable = update task.fdTable fd named) {fd' : Nat} (other : (pid', fd') ≠ (pid, fd)) :
    (sys.called pid task s).slot pid' fd' = sys.slot pid' fd' := by
  by_cases same : pid' = pid
  · subst same
    have apart : fd' ≠ fd := fun this => other (by rw [this])
    rw [System.slot_called_self, System.slot_of_live live, fds, update_of_ne apart]
  · exact System.slot_update_of_ne sys s _ same fd'

theorem System.slot_called (live : sys.tasks pid = some task) {s : Fs}
    (fds : s.fdTable = task.fdTable) (pid' fd' : Nat) : (sys.called pid task s).slot pid' fd' = sys.slot pid' fd' := by
  by_cases same : pid' = pid
  · subst same
    rw [System.slot_called_self, System.slot_of_live live, fds]
  · exact System.slot_update_of_ne sys s _ same fd'

theorem System.slot_exit_of_ne (sys : System) (s : Fs) (other : pid' ≠ pid) (fd : Nat) :
    System.slot ⟨s, update (fun other => (sys.tasks other).map (Task.adopted pid)) pid none⟩ pid' fd =
      sys.slot pid' fd := by
  unfold System.slot
  dsimp only
  rw [update_of_ne other]
  cases sys.tasks pid' with
  | none => rfl
  | some task =>
    dsimp only [Option.map_some, Option.bind_some, Task.adopted]
    split <;> rfl

abbrev Ledger (B : Type) := Nat → Nat → Option B

section
variable {B : Type}

def Ledger.set (ledger : Ledger B) (pid fd : Nat) (entry : Option B) : Ledger B :=
  update ledger pid (update (ledger pid) fd entry)

theorem Ledger.set_self (ledger : Ledger B) (pid fd : Nat) (entry : Option B) :
    ledger.set pid fd entry pid fd = entry := by
  rw [Ledger.set, update_self, update_self]

theorem Ledger.set_of_ne (ledger : Ledger B) {fd fd' : Nat} (entry : Option B) (other : (pid', fd') ≠ (pid, fd)) :
    ledger.set pid fd entry pid' fd' = ledger pid' fd' := by
  rw [Ledger.set]
  by_cases this : pid' = pid
  · subst this
    rw [update_self, update_of_ne fun again => other (by rw [again])]
  · rw [update_of_ne this]

theorem Ledger.set_eq {ledger : Ledger B} {fd fd' : Nat} {entry found : Option B}
    (here : ledger.set pid fd entry pid' fd' = found) :
    (pid', fd') = (pid, fd) ∧ entry = found ∨ (pid', fd') ≠ (pid, fd) ∧ ledger pid' fd' = found := by
  by_cases same : (pid', fd') = (pid, fd)
  · cases same
    exact .inl ⟨rfl, (ledger.set_self ..).symm.trans here⟩
  · exact .inr ⟨same, (ledger.set_of_ne _ same).symm.trans here⟩

end

end LaiMiniOs
