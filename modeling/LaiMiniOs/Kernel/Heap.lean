import Mathlib.Algebra.Group.Nat.Defs
import LaiMiniOs.Kernel.Pages

/-! `sys_malloc` and `sys_free`, from `kernel/memory.c`, as one task runs them.

An arena is named by the number of its first page. A block descriptor is named by the task whose
PCB it is in and by its index; the descriptors are in kernel memory, so that a task can reach those
of another one through the header of an arena. A free list is kept as the list of its blocks. What
`malloc_page` returns is an argument, and its effect is that the pages are present.
-/

set_option autoImplicit false

namespace LaiMiniOs
open Foundation Function

structure Arena where
  desc : Option (Nat × Nat)
  cnt : Nat
  large : Bool
  deriving DecidableEq

structure Heap where
  /-- The task that runs, whose descriptors `sys_malloc` uses. -/
  me : Nat
  /-- The task has a page directory of its own. -/
  user : Bool
  /-- The pages of the task's address space. -/
  present : Nat → Bool
  /-- The header at the start of a page. -/
  arena : Nat → Arena
  freeList : Nat → Nat → List Nat
  memory : Memory

abbrev HeapM := Prog Heap

def arenaSize : Nat := 12

def descCnt : Nat := 7

def blockSize (descIdx : Nat) : Nat := 16 * 2 ^ descIdx

def blocksPerArena (descIdx : Nat) : Nat := (pgSize - arenaSize) / blockSize descIdx

def arena2block (page descIdx idx : Nat) : Nat := page * pgSize + arenaSize + idx * blockSize descIdx

def block2arena (b : Nat) : Nat := b / pgSize

def largePages (size : Nat) : Nat := (size + arenaSize + pgSize - 1) / pgSize

def fittingDesc (size : Nat) : Nat := skipWhile (fun descIdx => blockSize descIdx < size) descCnt 0

namespace Heap

variable (s : Heap)

def blockDescInit : Heap := { s with freeList := update s.freeList s.me fun _ => [] }

def setPresent (page cnt : Nat) (value : Bool) : Heap :=
  { s with present := fun p => if page ≤ p ∧ p < page + cnt then value else s.present p }

def setArena (page : Nat) (arena : Arena) : Heap := { s with arena := update s.arena page arena }

def setFreeList (desc : Nat × Nat) (list : List Nat) : Heap :=
  { s with freeList := update s.freeList desc.1 (update (s.freeList desc.1) desc.2 list) }

def clear (start cnt : Nat) : Heap := { s with memory := s.memory.splice start Memory.zero cnt }

end Heap

def appendBlock (page : Nat) (desc : Nat × Nat) (idx : Nat) : HeapM Unit := do
  let s ← get
  let b := arena2block page desc.2 idx
  Prog.assert (b ∉ s.freeList desc.1 desc.2)
  set (s.setFreeList desc (s.freeList desc.1 desc.2 ++ [b]))

/-- The part of `sys_malloc` that gets a new arena when the free list is empty; `false` stands for
`return NULL`. -/
def refill (supply : Option Nat) (descIdx : Nat) : HeapM Bool := do
  let s ← get
  if s.freeList s.me descIdx = [] then
    match supply with
    | none => return false
    | some page =>
      set (((s.setPresent page 1 true).clear (page * pgSize) pgSize).setArena page
        ⟨some (s.me, descIdx), blocksPerArena descIdx, false⟩)
      Prog.forUpTo (appendBlock page (s.me, descIdx)) (blocksPerArena descIdx)
      return true
  else return true

def popBlock (descIdx : Nat) : HeapM Nat := do
  let s ← get
  match s.freeList s.me descIdx with
  | [] => .fail .undefined
  | b :: rest =>
    let a := s.arena (block2arena b)
    set (((s.setFreeList (s.me, descIdx) rest).clear b (blockSize descIdx)).setArena (block2arena b)
      { a with cnt := a.cnt - 1 })
    return b

/-- `sys_malloc`; `supply` is the first page of what `malloc_page` returns, if it is called. -/
def sysMalloc (poolSize : Nat) (supply : Option Nat) (size : Nat) : HeapM (Option Nat) := do
  if ¬(0 < size ∧ size < poolSize) then return none
  else if 1024 < size then
    match supply with
    | none => return none
    | some page =>
      modify fun s =>
        ((s.setPresent page (largePages size) true).clear (page * pgSize) (largePages size * pgSize)).setArena page
        ⟨none, largePages size, true⟩
      return some (page * pgSize + arenaSize)
  else
    let filled ← refill supply (fittingDesc size)
    if filled then
      let b ← popBlock (fittingDesc size)
      return some b
    else return none

/-- A round of the loop that takes the blocks of an arena out of its free list. -/
def unlinkBlock (page : Nat) (desc : Nat × Nat) (idx : Nat) : HeapM Unit := do
  let s ← get
  let b := arena2block page desc.2 idx
  Prog.assert (b ∈ s.freeList desc.1 desc.2)
  set (s.setFreeList desc ((s.freeList desc.1 desc.2).erase b))

/-- The part of `sys_free` for a block of the arena at a page; following a null descriptor faults. -/
def freeIn (page ptr : Nat) : HeapM Unit := do
  let s ← get
  let a := s.arena page
  match a.desc with
  | none => if a.large then set (s.setPresent page a.cnt false) else .fail .undefined
  | some desc =>
    set ((s.setFreeList desc (s.freeList desc.1 desc.2 ++ [ptr])).setArena page { a with cnt := a.cnt + 1 })
    Prog.when (a.cnt + 1 = blocksPerArena desc.2) do
      Prog.forUpTo (unlinkBlock page desc) (blocksPerArena desc.2)
      modify fun s => s.setPresent page 1 false

/-- `sys_free`; reading the header of a page that is not present faults. -/
def sysFree (ptr : Nat) : HeapM Unit := do
  Prog.assert (ptr ≠ 0)
  let s ← get
  Prog.when (s.user = false) (Prog.assert (0xc0100 * pgSize ≤ ptr))
  Prog.require (s.present (block2arena ptr) = true) .undefined
  freeIn (block2arena ptr) ptr

end LaiMiniOs
