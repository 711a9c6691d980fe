import LaiMiniOs.Fs.Syscalls

/-! Pipes: `shell/pipe.c`.

A pipe is a slot of `file_table` whose `fd_flag` is the pipe flag, whose `fd_inode` is the page
with the ring buffer and whose `fd_pos` is the number of its descriptors. What goes through the
ring buffer is outside the development.
-/

set_option autoImplicit false

namespace LaiMiniOs
open Foundation

/-- A page after `ioqueue_init`, read as an inode: the lock of the queue has no holder, which is
where `i_no` would be, and its semaphore is 1, which is where `i_size` would be. -/
def ioqueuePage : Inode := { Inode.blank with iSize := 1 }

/-- `sys_pipe`: the return value and the two descriptors. Without a free slot it would write before
the start of `file_table`. -/
def sysPipe : FsM (Int × Int × Int) := do
  match ← getFreeSlotInGlobal with
  | none => Prog.fail .undefined
  | some globalFd =>
    modify fun s => { (s.setInode s.brk ioqueuePage).setFile globalFd ⟨2, pipeFlag, some s.brk⟩ with brk := s.brk + 1 }
    let fd₀ ← pcbFdInstall globalFd
    let fd₁ ← pcbFdInstall globalFd
    return (0, fd₀, fd₁)

def sysFdRedirect (oldLocalFd newLocalFd : Nat) : FsM Unit := do
  Prog.require (oldLocalFd < maxFilesOpenPerProc ∧ newLocalFd < maxFilesOpenPerProc) .undefined
  modify fun s =>
    let globalFd := if newLocalFd < 3 then some newLocalFd else s.fdTable newLocalFd
    { s with fdTable := Function.update s.fdTable oldLocalFd globalFd }

end LaiMiniOs
