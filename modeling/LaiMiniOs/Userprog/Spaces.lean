import LaiMiniOs.Foundation.Focus
import LaiMiniOs.Kernel.PageCalls
import LaiMiniOs.Userprog.WaitExit
import LaiMiniOs.Userprog.Tasks

/-! Address spaces: the page directories of the tasks, from `userprog/process.c`, and the allocation
of kernel pages, from `kernel/memory.c`.

`Paging` is the memory as the running task sees it. Beside it stand the directories that are not
active, by the frame they are in, the contents of the frames, and what the PCBs of the tasks say
about memory and files. What the kernel keeps in pages of its own, PCBs, directories, tables and
bitmaps, is kept as such and not as bytes of a frame. The memory of the file system, with the
buffers of its pipes, is the file system's.
-/

set_option autoImplicit false

namespace LaiMiniOs
open Foundation Function

/-- `struct task_struct`, as far as memory and files go; for the running task the last two fields
are in the file system's state. -/
structure TaskSpace where
  /-- The address of the page directory, `none` for `NULL`. -/
  pgdir : Option Nat
  /-- `userprog_vaddr.vaddr_bitmap.bits`. -/
  bits : Nat
  fdTable : Nat → Option Nat
  cwdInodeNr : Word

structure Spaces where
  paging : Paging
  /-- The frame of the active directory. -/
  cr3 : Nat
  /-- The directories in the other frames. -/
  dirs : Nat → Nat → PageEntry
  frames : Nat → Memory
  /-- The `userprog_vaddr` bitmaps of the tasks that do not run, by their addresses. -/
  bitmaps : Nat → Memory
  /-- By the address of the PCB. -/
  task : Nat → TaskSpace
  threads : Threads
  fs : Fs

abbrev SpacesM := Prog Spaces

namespace Spaces

def pagingPart : Lens Spaces Paging :=
  ⟨paging, fun t s => { s with paging := t }, fun _ _ => rfl, fun _ => rfl, fun _ _ _ => rfl⟩

def threadsPart : Lens Spaces Threads :=
  ⟨threads, fun t s => { s with threads := t }, fun _ _ => rfl, fun _ => rfl, fun _ _ _ => rfl⟩

def fsPart : Lens Spaces Fs := ⟨fs, fun t s => { s with fs := t }, fun _ _ => rfl, fun _ => rfl, fun _ _ _ => rfl⟩

def setFrame (s : Spaces) (frame : Nat) (bytes : Memory) : Spaces := { s with frames := update s.frames frame bytes }

def setTaskSpace (s : Spaces) (t : Nat) (space : TaskSpace) : Spaces := { s with task := update s.task t space }

def clearPages (s : Spaces) (page : Nat) : Nat → Spaces
  | 0 => s
  | cnt + 1 => (s.clearPages page cnt).setFrame (s.paging.pte (page + cnt)).frame Memory.zero

def loadCr3 (s : Spaces) (frame : Nat) : Spaces :=
  let dirs := update s.dirs s.cr3 s.paging.pde
  { s with cr3 := frame, dirs := dirs, paging := { s.paging with pde := dirs frame } }

def current (s : Spaces) : TaskSpace :=
  { s.task s.threads.cur with fdTable := s.fs.fdTable, cwdInodeNr := s.fs.cwdInodeNr }

end Spaces

open Spaces

def onPaging {A : Type} (x : PagingM A) : SpacesM A := x.zoom pagingPart

def onThreads {A : Type} (x : ThreadM A) : SpacesM A := x.zoom threadsPart

def onFs {A : Type} (x : FsM A) : SpacesM A := x.zoom fsPart

section
variable {A : Type} {s : Spaces} {a : A}

theorem onPaging_of_ok {x : PagingM A} {p : Paging} (run : x s.paging = .ok (a, p)) :
    onPaging x s = .ok (a, { s with paging := p }) :=
  Prog.zoom_of_ok (show x (pagingPart.get s) = _ from run)

theorem onPaging_eq_ok {x : PagingM A} {t : Spaces} : onPaging x s = .ok (a, t) ↔ ∃ p, x s.paging = .ok (a, p) ∧
    t = { s with paging := p } := Prog.zoom_eq_ok

theorem onThreads_eq_ok {x : ThreadM A} {t : Spaces} : onThreads x s = .ok (a, t) ↔ ∃ u, x s.threads = .ok (a, u) ∧
    t = { s with threads := u } := Prog.zoom_eq_ok

theorem onThreads_of_ok {x : ThreadM A} {t : Threads} (run : x s.threads = .ok (a, t)) :
    onThreads x s = .ok (a, { s with threads := t }) :=
  Prog.zoom_of_ok (show x (threadsPart.get s) = _ from run)

theorem onFs_of_ok {x : FsM A} {f : Fs} (run : x s.fs = .ok (a, f)) : onFs x s = .ok (a, { s with fs := f }) :=
  Prog.zoom_of_ok (show x (fsPart.get s) = _ from run)

end

def getKernelPages (pgCnt : Nat) : SpacesM (Option Nat) := do
  match ← onPaging (mallocPage .kernel pgCnt) with
  | none => return none
  | some vaddr =>
    modify fun s => s.clearPages (vaddr / pgSize) pgCnt
    return some vaddr

def pageDirActivate (pgdir : Option Nat) : SpacesM Unit := do
  let pagedirPhyAddr ← match pgdir with
    | none => pure 0x100
    | some vaddr => onPaging (addrV2p (vaddr / pgSize))
  modify fun s => s.loadCr3 pagedirPhyAddr

def newPageDir (pde : Nat → PageEntry) (frame : Nat) : Nat → PageEntry := fun i =>
  if i = 1023 then ⟨frame, true⟩ else if 0x300 ≤ i then pde i else ⟨0, false⟩

def createPageDir : SpacesM (Option Nat) := do
  match ← getKernelPages 1 with
  | none => return none
  | some pageDirVaddr =>
    let newPageDirPhyAddr ← onPaging (addrV2p (pageDirVaddr / pgSize))
    modify fun s => { s with dirs := update s.dirs newPageDirPhyAddr (newPageDir s.paging.pde newPageDirPhyAddr) }
    return some pageDirVaddr

def copyPage (dst src : Nat) : SpacesM Unit := do
  let s ← get
  Prog.require (((s.paging.pde (src / 1024)).present = true ∧ (s.paging.pte src).present = true) ∧
    (s.paging.pde (dst / 1024)).present = true ∧ (s.paging.pte dst).present = true) .undefined
  set (s.setFrame (s.paging.pte dst).frame (s.frames (s.paging.pte src).frame))

/-- The running task's own memory and files take the place of those of the task `before`. -/
def Spaces.swapped (s : Spaces) (before : Nat) : Spaces :=
  let next := s.task s.threads.cur
  { s with
    paging := { s.paging with vaddr := update s.paging.vaddr .user (s.bitmaps next.bits), user := next.pgdir.isSome }
    bitmaps := update s.bitmaps (s.task before).bits (s.paging.vaddr .user)
    task := update s.task before { s.task before with fdTable := s.fs.fdTable, cwdInodeNr := s.fs.cwdInodeNr }
    fs := { s.fs with fdTable := next.fdTable, cwdInodeNr := next.cwdInodeNr } }

def switchTo (before : Nat) : SpacesM Unit := do
  let s ← get
  pageDirActivate (s.task s.threads.cur).pgdir
  modify fun s => s.swapped before

def scheduling {A : Type} (x : ThreadM A) : SpacesM A := do
  let before := (← get).threads.cur
  let a ← onThreads x
  Prog.when ((← get).threads.cur ≠ before) (switchTo before)
  return a

end LaiMiniOs
