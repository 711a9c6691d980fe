import LaiMiniOs.Kernel.PageEffects
import LaiMiniOs.Userprog.Spaces

/-! `sys_fork` with the memory it copies, from `userprog/fork.c`, and what a shortage of memory does
to it.

The stack that `build_child_stack` prepares in the child's PCB is left out.
-/

set_option autoImplicit false

namespace LaiMiniOs
open Foundation Prog

def userBytesLen : Nat := (0xc0000000 - 0x8048000) / pgSize / 8

def bitmapPgCnt : Nat := (userBytesLen + pgSize - 1) / pgSize

def copyPcbVaddrbitmapStack0 (child parent : Nat) : SpacesM Int := do
  let parentThread ← onThreads (readTask parent)
  modify fun s => s.setTaskSpace child s.current
  let pid ← onThreads allocatePid
  onThreads (modify fun s => s.setTask child { parentThread with
    pid := pid, status := .ready, ticks := parentThread.priority, parentPid := some parentThread.pid })
  match ← getKernelPages bitmapPgCnt with
  | none => return -1
  | some vaddrBtmp =>
    modify fun s => { s.setTaskSpace child { s.task child with bits := vaddrBtmp } with
      bitmaps := Function.update s.bitmaps vaddrBtmp (s.paging.vaddr .user) }
    return 0

def copyProgPage (child parent : Nat) (bufPage progVaddr : Nat) : SpacesM Unit := do
  copyPage (bufPage / pgSize) (progVaddr / pgSize)
  pageDirActivate ((← get).task child).pgdir
  let _ ← onPaging (getAPageWithoutOpvaddrbitmap .user progVaddr)
  copyPage (progVaddr / pgSize) (bufPage / pgSize)
  pageDirActivate ((← get).task parent).pgdir

def copyBodyStack3 (child parent bufPage : Nat) : SpacesM Unit := do
  let vaddrBtmp := (← get).paging.vaddrBitmap .user
  Prog.forUpTo (fun idxByte =>
    Prog.when (vaddrBtmp.bits idxByte ≠ 0)
      (Prog.forUpTo (fun idxBit =>
        Prog.when (Bitmap.setBit (vaddrBtmp.bits idxByte) idxBit = true)
          (copyProgPage child parent bufPage ((idxByte * 8 + idxBit) * pgSize + Paging.vaddrStart .user * pgSize)))
            8)) vaddrBtmp.btmpBytesLen

def copyProcess (child parent : Nat) : SpacesM Int := do
  match ← getKernelPages 1 with
  | none => return -1
  | some bufPage =>
    if (← copyPcbVaddrbitmapStack0 child parent) = -1 then return -1
    else do
      let pgdir ← createPageDir
      modify fun s => s.setTaskSpace child { s.task child with pgdir := pgdir }
      if pgdir = none then return -1
      else do
        copyBodyStack3 child parent bufPage
        onFs updateInodeOpenCnts
        onPaging (mfreePage .kernel bufPage 1)
        return 0

def Spaces.sysFork : SpacesM Int := do
  let parent := (← get).threads.cur
  match ← getKernelPages 1 with
  | none => return -1
  | some child =>
    Prog.assert (((← get).task parent).pgdir ≠ none)
    if (← copyProcess child parent) = -1 then return -1
    else do
      let childThread ← onThreads (readTask child)
      onThreads (enlist child childThread)
      return childThread.pid

namespace Spaces

def MarksGrow (s t : Spaces) : Prop := ∀ j, (s.paging.vaddrBitmap .kernel).bit j = true →
  (t.paging.vaddrBitmap .kernel).bit j = true

variable {s t : Spaces} {child parent : Nat}

theorem paging_clearPages (s : Spaces) (page cnt : Nat) : (s.clearPages page cnt).paging = s.paging := by
  induction cnt with
  | zero => rfl
  | succ cnt ih => exact ih

end Spaces

open Spaces

section
variable {s t : Spaces} {child parent : Nat}

theorem getKernelPages_paging {pgCnt : Nat} {r : Option Nat} (run : getKernelPages pgCnt s = .ok (r, t)) :
    mallocPage .kernel pgCnt s.paging = .ok (r, t.paging) := by
  obtain ⟨found, u, call, rest⟩ := bind_eq_ok.mp run
  obtain ⟨p, malloc, rfl⟩ := onPaging_eq_ok.mp call
  cases found with
  | none =>
    cases rest
    exact malloc
  | some vaddr =>
    cases rest
    rw [paging_clearPages]
    exact malloc

theorem bit_of_marked {p q : Paging} {i cnt : Nat} (same : (p.setVaddr .kernel i true cnt).SameRanges q) (j : Nat) :
    (q.vaddrBitmap .kernel).bit j = if i ≤ j ∧ j < i + cnt then true else (p.vaddrBitmap .kernel).bit j := by
  rw [same.vaddrBitmap, Paging.bit_setVaddr]
  simp only [true_and]

theorem getKernelPages_grows {pgCnt : Nat} {r : Option Nat} (run : getKernelPages pgCnt s = .ok (r, t)) :
    s.MarksGrow t := by
  intro j marked
  rcases mallocPage_marks (getKernelPages_paging run) with ⟨-, -, same⟩ | ⟨i, -, -, same⟩
  · rwa [same]
  · rw [bit_of_marked same, marked, ite_self]

theorem copyPcb_grows {ret : Int} (run : copyPcbVaddrbitmapStack0 child parent s = .ok (ret, t)) : s.MarksGrow t := by
  obtain ⟨task, s₁, read, run⟩ := bind_eq_ok.mp run
  obtain ⟨_, -, rfl⟩ := onThreads_eq_ok.mp read
  rw [modify_bind] at run
  obtain ⟨pid, s₂, alloc, run⟩ := bind_eq_ok.mp run
  obtain ⟨_, -, rfl⟩ := onThreads_eq_ok.mp alloc
  obtain ⟨_, s₃, write, run⟩ := bind_eq_ok.mp run
  obtain ⟨_, -, rfl⟩ := onThreads_eq_ok.mp write
  obtain ⟨found, s₄, pages, run⟩ := bind_eq_ok.mp run
  have grows := getKernelPages_grows pages
  cases found <;> cases run <;> exact grows

theorem getKernelPages_rest {pgCnt : Nat} {r : Option Nat} (run : getKernelPages pgCnt s = .ok (r, t)) :
    t.task = s.task ∧ t.threads = s.threads := by
  have cleared (u : Spaces) (page cnt : Nat) : (u.clearPages page cnt).task = u.task ∧
      (u.clearPages page cnt).threads = u.threads := by
    induction cnt with
    | zero => exact ⟨rfl, rfl⟩
    | succ cnt ih => exact ih
  obtain ⟨found, u, call, run⟩ := bind_eq_ok.mp run
  obtain ⟨p, -, rfl⟩ := onPaging_eq_ok.mp call
  cases found with
  | none =>
    cases run
    exact ⟨rfl, rfl⟩
  | some vaddr =>
    cases run
    exact cleared _ _ _

theorem createPageDir_marks {r : Option Nat} (run : createPageDir s = .ok (r, t)) :
    ∃ k, r = some ((Paging.vaddrStart .kernel + k) * pgSize) ∧ k < 8 * s.paging.vaddrBytesLen .kernel ∧
      (s.paging.vaddrBitmap .kernel).bit k = false ∧
      (s.paging.setVaddr .kernel k true 1).SameRanges t.paging ∧ t.task = s.task ∧ t.threads = s.threads := by
  obtain ⟨found, s₁, pages, run⟩ := bind_eq_ok.mp run
  obtain ⟨k, rfl, low, clear, same⟩ := mallocPage_one (getKernelPages_paging pages)
  obtain ⟨task, threads⟩ := getKernelPages_rest pages
  obtain ⟨frame, s₂, address, run⟩ := bind_eq_ok.mp run
  obtain ⟨p, looked, rfl⟩ := onPaging_eq_ok.mp address
  have still := sameRanges_of_run (addrV2p_ranges _) looked
  cases run
  exact ⟨k, rfl, low, clear, same.trans still, task, threads⟩

theorem createPageDir_grows {r : Option Nat} (run : createPageDir s = .ok (r, t)) : s.MarksGrow t := by
  intro j marked
  obtain ⟨k, -, -, -, same, -⟩ := createPageDir_marks run
  rw [bit_of_marked same, marked, ite_self]

theorem copyProcess_grows (run : copyProcess child parent s = .ok (-1, t)) : s.MarksGrow t := by
  obtain ⟨found, s₁, pages, run⟩ := bind_eq_ok.mp run
  have first := getKernelPages_grows pages
  cases found with
  | none =>
    cases run
    exact first
  | some bufPage =>
    obtain ⟨ret, s₂, pcb, run⟩ := bind_eq_ok.mp run
    have second := copyPcb_grows pcb
    split at run
    · cases run
      exact fun j marked => second j (first j marked)
    obtain ⟨pgdir, s₃, dir, run⟩ := bind_eq_ok.mp run
    have third := createPageDir_grows dir
    rw [modify_bind] at run
    split at run
    · cases run
      exact fun j marked => third j (second j (first j marked))
    · -- The rest of the function returns 0.
      obtain ⟨_, s₄, -, run⟩ := bind_eq_ok.mp run
      obtain ⟨_, s₅, -, run⟩ := bind_eq_ok.mp run
      obtain ⟨_, s₆, -, run⟩ := bind_eq_ok.mp run
      cases run

end

/-- The bitmaps of the pids, of the pools and of the kernel's range are the same. -/
structure Spaces.SameMaps (s t : Spaces) : Prop where
  pids : ∀ i, t.threads.pidBitmap.bit i = s.threads.pidBitmap.bit i
  pools : ∀ pf k, (t.paging.poolBitmap pf).bit k = (s.paging.poolBitmap pf).bit k
  marks : ∀ j, (t.paging.vaddrBitmap .kernel).bit j = (s.paging.vaddrBitmap .kernel).bit j

structure Spaces.Unchanged (s t : Spaces) : Prop extends Spaces.SameMaps s t where
  lists : t.threads.threadReadyList = s.threads.threadReadyList ∧ t.threads.threadAllList = s.threads.threadAllList
  counts : ∀ p, (t.fs.heap p).iOpenCnts = (s.fs.heap p).iOpenCnts

/-- `sys_fork` never fails without a trace: whenever it returns -1, the page for the child's PCB stays
allocated. -/
theorem sysFork_never_undone (s : Spaces) : ¬∃ t, Spaces.sysFork s = .ok (-1, t) ∧ s.Unchanged t := by
  rintro ⟨t, run, unchanged⟩
  obtain ⟨found, s₁, pages, run⟩ := bind_eq_ok.mp (show (getKernelPages 1 >>= _) s = .ok (-1, t) from run)
  obtain ⟨i, rfl, -, clear, same⟩ := mallocPage_one (getKernelPages_paging pages)
  have marked : (s₁.paging.vaddrBitmap .kernel).bit i = true := by grind [same.vaddrBitmap, Paging.bit_setVaddr]
  have left : (t.paging.vaddrBitmap .kernel).bit i = true := by
    rw [get_bind] at run
    obtain ⟨-, run⟩ := require_bind_eq_ok.mp run
    obtain ⟨ret, s₂, copied, run⟩ := bind_eq_ok.mp run
    split at run
    next failed =>
      subst failed
      cases run
      exact copyProcess_grows copied i marked
    next =>
      -- A pid is not -1.
      obtain ⟨task, s₃, -, run⟩ := bind_eq_ok.mp run
      obtain ⟨_, s₄, -, run⟩ := bind_eq_ok.mp run
      have pid := (Prod.mk.inj (Except.ok.inj run)).1
      omega
  rw [unchanged.marks, clear] at left
  cases left

/-- A process that has the pages `marks` of the kernel's range and the lowest page of its own. Page `k`
of the kernel's range is in frame `k` of the kernel's pool, and the last of these frames holds the
page table of the process. -/
def smallSpaces (marks : Memory) : Spaces where
  paging := {
    allFreePages := 128
    pool := fun
      | .kernel => fun i => marks i ||| if i = 7 then 0x80 else 0
      | .user => fun i => if i = 0 then 1 else 0
    vaddr := fun
      | .kernel => marks
      | .user => fun i => if i = 0 then 1 else 0
    user := true
    pde := fun i => if i = 32 then ⟨0x23f, true⟩ else if i = 1023 then ⟨0x201, true⟩ else if 768 ≤
      i then ⟨0x101 + (i - 768), true⟩ else ⟨0, false⟩
    table := fun frame i =>
      if frame = 0x101
        then (if 256 ≤ i ∧ Bitmap.bit ⟨8, marks⟩ (i - 256) = true then ⟨0x200 + (i - 256), true⟩ else ⟨0, false⟩)
      else if frame = 0x23f ∧ i = 72 then ⟨0x240, true⟩ else ⟨0, false⟩ }
  cr3 := 0x201
  dirs _ _ := ⟨0, false⟩
  frames _ i := BitVec.ofNat 8 i
  bitmaps _ := Memory.zero
  task _ := ⟨some 0xc0101000, 0, fun _ => none, 0⟩
  threads := ⟨fun t => if t = 0xc0100000 then some ⟨1, .running, 31, 31, none, 0, true⟩ else none, 0xc0100000, 0, 0,
    [], [0xc0100000],
    ⟨128, fun i => if i = 0 then 1 else 0⟩, fun _ => 0, fun _ => [], fun _ => none⟩
  fs := blankFs

def twoMarks : Memory := fun i => if i = 0 then 3 else 0

def fragmentedMarks : Memory := fun i => if i = 0 then 3 else if i = 2 ∨ i = 7 then 1 else if i = 4 then 16 else 0

/-- Without 23 pages in a row for the bitmap `sys_fork` returns -1 and has lost a pid and two pages;
without a frame it does not return. -/
theorem sysFork_loses : (∃ t, Spaces.sysFork (smallSpaces fragmentedMarks) = .ok (-1, t) ∧
      (smallSpaces fragmentedMarks).threads.pidBitmap.bit 1 = false ∧ t.threads.pidBitmap.bit 1 = true ∧
      ∀ k, k = 2 ∨ k = 3 → ((smallSpaces fragmentedMarks).paging.vaddrBitmap .kernel).bit k = false ∧
        (t.paging.vaddrBitmap .kernel).bit k = true) ∧
    Spaces.sysFork { smallSpaces fragmentedMarks with
      paging := { (smallSpaces fragmentedMarks).paging with pool := fun _ _ => 0xff } } = .error .assertion := by
  refine ⟨?_, rfl⟩
  obtain ⟨ret, t, run, found⟩ := exists_of_yields (x := Spaces.sysFork) (s := smallSpaces fragmentedMarks)
    (c := fun ret t => ret == -1 && t.threads.pidBitmap.bit 1 && (t.paging.vaddrBitmap .kernel).bit 2 &&
      (t.paging.vaddrBitmap .kernel).bit 3) (by decide +kernel)
  simp only [Bool.and_eq_true, beq_iff_eq] at found
  obtain ⟨⟨⟨rfl, pid⟩, pcb⟩, buf⟩ := found
  refine ⟨t, run, by decide, pid, ?_⟩
  rintro k (rfl | rfl)
  · exact ⟨by decide, pcb⟩
  · exact ⟨by decide, buf⟩

end LaiMiniOs
