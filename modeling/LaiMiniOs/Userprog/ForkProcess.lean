import LaiMiniOs.Userprog.ForkCopies

/-! `copy_process` as a whole: three allocations of kernel pages, the copy of the pages in use, and
the buffer given back. -/

set_option autoImplicit false

namespace LaiMiniOs
open Foundation Prog Function Paging

variable {p i : Nat}

namespace Spaces

/-- The running task is a process that can fork: its page tables are consistent, the kernel's half
is complete, its directory is in a kernel page, and its descriptors name open files. -/
structure Process (s : Spaces) (parent : Nat) : Prop where
  running : s.threads.cur = parent
  pcb : ∃ task, s.threads.pcb parent = some task
  user : s.paging.user = true
  consistent : s.paging.Consistent fun _ => False
  apart : s.paging.Apart
  tables : s.paging.KernelTables
  pgdir : ∃ vaddr, (s.task parent).pgdir = some vaddr ∧
    (s.paging.Managed .kernel (vaddr / pgSize) ∧ s.paging.Present (vaddr / pgSize)) ∧
    (s.paging.pte (vaddr / pgSize)).frame = s.cr3
  files : ∃ fs, updateInodeOpenCnts s.fs = .ok ((), fs)

/-- There is a pid, room in the kernel's range for the buffer, the bitmap and the directory, a
kernel frame for each of these pages and each page table of the child, and a user frame for each
page in use. -/
structure Sufficient (s : Spaces) : Prop where
  pid : ∃ i, s.threads.pidBitmap.scan 1 = .ok (some i)
  room : ∃ i₁ i₂ i₃, (s.paging.vaddrBitmap .kernel).scan 1 = .ok (some i₁) ∧
    ((s.paging.vaddrBitmap .kernel).setRun i₁ true 1).scan bitmapPgCnt = .ok (some i₂) ∧
      i₂ + bitmapPgCnt ≤ 8 * s.paging.vaddrBytesLen .kernel ∧
    (((s.paging.vaddrBitmap .kernel).setRun i₁ true 1).setRun i₂ true bitmapPgCnt).scan 1 = .ok (some i₃)
  kernelFrames : 1 + bitmapPgCnt + 1 + (s.entriesFrom 0).card ≤ (s.paging.freeFrames .kernel).card
  userFrames : (s.marksFrom 0).card ≤ (s.paging.freeFrames .user).card

structure Prepared (s : Spaces) (paging : Paging) (frames : Nat → Memory) (dirs : Nat → Nat → PageEntry) : Prop where
  layout : paging.allFreePages = s.paging.allFreePages ∧ paging.user = s.paging.user
  vaddr : paging.vaddr .user = s.paging.vaddr .user
  consistent : paging.Consistent fun _ => False
  apart : paging.Apart
  pde : paging.pde = s.paging.pde
  grows : ∀ pf k, (s.paging.poolBitmap pf).bit k = true → (paging.poolBitmap pf).bit k = true
  tables : ∀ f, (∀ i, 0x300 ≤ i → f ≠ (s.paging.pde i).frame) → paging.table f = s.paging.table f
  kept : ∀ p, s.paging.Home p → s.paging.Present p → paging.Present p ∧ paging.pte p = s.paging.pte p
  contents : ∀ f, ¬s.paging.Free f → frames f = s.frames f
  dirs : ∀ f, ¬s.paging.Free f → dirs f = s.dirs f

variable {s t : Spaces} {child parent : Nat}

theorem Process.prepared (process : s.Process parent) : s.Prepared s.paging s.frames s.dirs where
  layout := ⟨rfl, rfl⟩
  vaddr := rfl
  consistent := process.consistent
  apart := process.apart
  pde := rfl
  grows _ _ := id
  tables _ _ := rfl
  kept _ _ present := ⟨present, rfl⟩
  contents _ _ := rfl
  dirs _ _ := rfl

theorem vaddrBitmap_setVaddr (p : Paging) (pf : PoolFlags) (i cnt : Nat) :
    (p.setVaddr pf i true cnt).vaddrBitmap pf = (p.vaddrBitmap pf).setRun i true cnt := by
  have len (b : Bitmap) : (b.setRun i true cnt).btmpBytesLen = b.btmpBytesLen := by
    induction cnt with
    | zero => rfl
    | succ cnt ih => exact ih
  have bits : (p.setVaddr pf i true cnt).vaddr pf = ((p.vaddrBitmap pf).setRun i true cnt).bits := update_self _ _ _
  rw [vaddrBitmap, bits]
  exact congrArg (fun n => Bitmap.mk n _) (len (p.vaddrBitmap pf)).symm

section
variable {paging : Paging} {frames : Nat → Memory} {dirs : Nat → Nat → PageEntry}
  (prepared : s.Prepared paging frames dirs)

include prepared

theorem Prepared.free {f : Nat} (there : paging.Free f) : s.paging.Free f :=
  there.of_grows prepared.layout.1 prepared.grows

theorem Prepared.extend (tables : s.paging.KernelTables) {pgCnt : Nat} (range : 0 < pgCnt ∧ pgCnt < 3840)
    (scan : (paging.vaddrBitmap .kernel).scan pgCnt = .ok (some i))
    (inside : i + pgCnt ≤ 8 * s.paging.vaddrBytesLen .kernel)
    (enough : pgCnt ≤ (paging.freeFrames .kernel).card) :
    ∃ p, mallocPage .kernel pgCnt paging = .ok (some ((vaddrStart .kernel + i) * pgSize), p) ∧
      paging.Extended p (vaddrStart .kernel + i) pgCnt ∧
      ∀ frames', (∀ f, ¬paging.Free f → frames' f = frames f) → s.Prepared p frames' dirs := by
  have tables' : paging.KernelTables := by
    unfold KernelTables
    rw [prepared.pde]
    exact tables
  have inside' : i + pgCnt ≤ 8 * paging.vaddrBytesLen .kernel := by
    simpa only [vaddrBytesLen, freePages, prepared.layout.1] using inside
  obtain ⟨p, malloc, consistent, apart, extended⟩ :=
    mallocPage_extends prepared.consistent prepared.apart tables' range scan inside' enough
  refine ⟨p, malloc, extended, fun frames' same => ?_⟩
  have grown := extended.grown
  exact {
    layout := ⟨grown.layout.1.trans prepared.layout.1, grown.layout.2.trans prepared.layout.2⟩
    vaddr := by
      rw [grown.vaddr, setVaddr]
      dsimp only
      rw [update_of_ne (by decide), prepared.vaddr]
    consistent := consistent
    apart := apart
    pde := extended.pde.trans prepared.pde
    grows := fun pf k taken => grown.grows pf k (prepared.grows pf k taken)
    tables := fun f other => (extended.tables f fun i low => prepared.pde ▸ other i low).trans (prepared.tables f other)
    kept := fun q home present => by
      obtain ⟨there, entry⟩ := prepared.kept q home present
      have home' : paging.Home q := (home_congr prepared.layout).mpr home
      exact ⟨(grown.present q home').mpr (.inl there), (grown.kept q home' there).trans entry⟩
    contents := fun f taken => (same f fun there => taken (prepared.free there)).trans (prepared.contents f taken)
    dirs := prepared.dirs }

end

theorem Prepared.getKernelPages (prepared : s.Prepared t.paging t.frames t.dirs) (tables : s.paging.KernelTables)
    {pgCnt : Nat} (range : 0 < pgCnt ∧ pgCnt < 3840)
    (scan : (t.paging.vaddrBitmap .kernel).scan pgCnt = .ok (some i))
    (inside : i + pgCnt ≤ 8 * s.paging.vaddrBytesLen .kernel)
    (enough : pgCnt ≤ (t.paging.freeFrames .kernel).card) :
    ∃ p frames, getKernelPages pgCnt t =
      .ok (some ((vaddrStart .kernel + i) * pgSize), { t with paging := p, frames := frames }) ∧
      t.paging.Extended p (vaddrStart .kernel + i) pgCnt ∧ s.Prepared p frames t.dirs := by
  obtain ⟨p, malloc, extended, rest⟩ := prepared.extend tables range scan inside enough
  refine ⟨p, (clearPages { t with paging := p } (vaddrStart .kernel + i) pgCnt).frames, ?_, extended,
    rest _ fun f taken => ?_⟩
  · rw [LaiMiniOs.getKernelPages, bind_of_ok (onPaging_of_ok malloc)]
    dsimp only
    rw [modify_bind, Nat.mul_div_cancel _ (by decide : 0 < pgSize), clearPages_eq]
    rfl
  · -- The pages that are cleared are in frames that were free.
    refine frames_clearPages fun k hk clash => taken ?_
    obtain ⟨-, j, here, clear⟩ := extended.grown.fresh (vaddrStart .kernel + i + k) ⟨by omega, by omega⟩
    exact ⟨.kernel, j, clash ▸ here, clear⟩

theorem Prepared.copyPcb (child : Nat) (prepared : s.Prepared t.paging t.frames t.dirs)
    (tables : s.paging.KernelTables) {task : TaskStruct} (pcb : t.threads.pcb parent = some task)
    {pid : Nat} (pidFree : t.threads.pidBitmap.scan 1 = .ok (some pid))
    (scan : (t.paging.vaddrBitmap .kernel).scan bitmapPgCnt = .ok (some i))
    (inside : i + bitmapPgCnt ≤ 8 * s.paging.vaddrBytesLen .kernel)
    (enough : bitmapPgCnt ≤ (t.paging.freeFrames .kernel).card) :
    ∃ p frames threads, copyPcbVaddrbitmapStack0 child parent t = .ok (0, { t with
        paging := p
        frames := frames
        threads := threads
        task := update t.task child { t.current with bits := (vaddrStart .kernel + i) * pgSize }
        bitmaps := update t.bitmaps ((vaddrStart .kernel + i) * pgSize) (p.vaddr .user) }) ∧
      t.paging.Extended p (vaddrStart .kernel + i) bitmapPgCnt ∧ s.Prepared p frames t.dirs := by
  have read := readTask_eq pcb
  have allocate : allocatePid t.threads =
      .ok (pid + pidStart, { t.threads with pidBitmap := t.threads.pidBitmap.set pid true }) := by
    rw [allocatePid, get_bind]
    simp only [pidFree]
    rfl
  generalize { t.threads with pidBitmap := t.threads.pidBitmap.set pid true } = threads₁ at allocate
  generalize new :
    ({ task with pid := pid + pidStart, status := .ready, ticks := task.priority, parentPid := some task.pid } :
    TaskStruct) = childTask
  obtain ⟨p, frames, pages, extended, prepared'⟩ := Prepared.getKernelPages
    (t := { t.setTaskSpace child t.current with threads := threads₁.setTask child childTask }) prepared tables
      ⟨by decide, by decide⟩ scan inside enough
  refine ⟨p, frames, threads₁.setTask child childTask, ?_, extended, prepared'⟩
  have first : onThreads (readTask parent) t = .ok (task, t) := onThreads_of_ok read
  have second : onThreads allocatePid (t.setTaskSpace child t.current) =
      .ok (pid + pidStart, { t.setTaskSpace child t.current with threads := threads₁ }) :=
    onThreads_of_ok allocate
  have third : onThreads (modify fun s => s.setTask child childTask) { t.setTaskSpace child t.current with
      threads := threads₁ } =
      .ok ((), { t.setTaskSpace child t.current with threads := threads₁.setTask child childTask }) :=
        onThreads_of_ok (run_modify _ _)
  rw [copyPcbVaddrbitmapStack0, bind_of_ok first, modify_bind, bind_of_ok second, new, bind_of_ok third,
    bind_of_ok pages]
  dsimp only
  rw [modify_bind]
  simp only [setTaskSpace, update_self, update_idem]
  rfl

theorem Prepared.createPageDir (prepared : s.Prepared t.paging t.frames t.dirs) (tables : s.paging.KernelTables)
    (scan : (t.paging.vaddrBitmap .kernel).scan 1 = .ok (some i)) (enough : 1 ≤ (t.paging.freeFrames .kernel).card) :
    ∃ p frames dir, createPageDir t = .ok (some ((vaddrStart .kernel + i) * pgSize), { t with
        paging := p
        frames := frames
        dirs := update t.dirs dir (newPageDir p.pde dir) }) ∧
      dir = (p.pte (vaddrStart .kernel + i)).frame ∧ s.paging.Free dir ∧
        t.paging.Extended p (vaddrStart .kernel + i) 1 ∧
      s.Prepared p frames (update t.dirs dir (newPageDir p.pde dir)) := by
  have inside : i + 1 ≤ 8 * s.paging.vaddrBytesLen .kernel := by
    obtain ⟨_, found, bound, -⟩ := Bitmap.scan_one_eq_ok.mp scan
    cases found
    change i < 8 * t.paging.vaddrBytesLen .kernel at bound
    simp only [vaddrBytesLen, freePages, prepared.layout.1] at bound ⊢
    exact bound
  obtain ⟨p, frames, pages, extended, prepared'⟩ :=
    prepared.getKernelPages tables ⟨by decide, by decide⟩ scan inside enough
  have managed : t.paging.Managed .kernel (vaddrStart .kernel + i) := by
    refine ⟨by omega, ?_⟩
    simp only [vaddrBytesLen, freePages, prepared.layout.1] at inside ⊢
    omega
  have present : p.Present (vaddrStart .kernel + i) :=
    (extended.grown.present _ ⟨.kernel, managed⟩).mpr (.inr ⟨by omega, by omega⟩)
  have free : s.paging.Free (p.pte (vaddrStart .kernel + i)).frame := by
    obtain ⟨-, k, here, clear⟩ := extended.grown.fresh (vaddrStart .kernel + i) ⟨by omega, by omega⟩
    exact prepared.free ⟨.kernel, k, here, clear⟩
  have away {f : Nat} (taken : ¬s.paging.Free f) : f ≠ (p.pte (vaddrStart .kernel + i)).frame := by
    rintro rfl
    exact taken free
  refine ⟨p, frames, (p.pte (vaddrStart .kernel + i)).frame, ?_, rfl, free, extended,
    { prepared' with dirs := fun f taken => (update_of_ne (away taken) _ _).trans (prepared.dirs f taken) }⟩
  rw [LaiMiniOs.createPageDir, bind_of_ok pages]
  dsimp only
  rw [Nat.mul_div_cancel _ (by decide : 0 < pgSize),
    bind_of_ok (onPaging_of_ok (s := { t with paging := p, frames := frames }) (addrV2p_run present)), modify_bind]
  rfl

structure Launched (s t : Spaces) (child parent bufPage bits dir : Nat) : Prop where
  forking : t.Forking child parent bufPage dir
  prepared : s.Prepared t.paging t.frames t.dirs
  cr3 : t.cr3 = s.cr3
  fs : t.fs = s.fs
  dirFree : s.paging.Free dir
  itsBits : (t.task child).bits = bits
  bitmap : t.bitmaps bits = s.paging.vaddr .user
  ownPages : bits % pgSize = 0 ∧ ∀ k, k < bitmapPgCnt → s.paging.Managed .kernel (bits / pgSize + k) ∧
    ¬s.paging.Marked .kernel (bits / pgSize + k)
  buffer : bufPage % pgSize = 0 ∧ ∃ k, t.paging.Locates .kernel k (t.paging.pte (bufPage / pgSize)).frame
  apart : (t.paging.pte (bufPage / pgSize)).frame ≠ dir
  userFrames : (t.marksFrom 0).card ≤ (t.paging.freeFrames .user).card
  kernelFrames : (t.entriesFrom 0).card ≤ (t.paging.freeFrames .kernel).card

section
variable {p q r : Paging} {page cnt : Nat}

theorem extended_vaddrBitmap (extended : p.Extended q page cnt) :
    q.vaddrBitmap .kernel = (p.vaddrBitmap .kernel).setRun (page - vaddrStart .kernel) true cnt := by
  rw [SameRanges.vaddrBitmap ⟨extended.grown.layout, extended.grown.vaddr⟩, vaddrBitmap_setVaddr]

theorem extended_page (extended : p.Extended q page cnt) {k : Nat} (there : p.Managed .kernel k ∧ p.Present k) :
    (q.Managed .kernel k ∧ q.Present k) ∧ q.pte k = p.pte k := by
  obtain ⟨managed, present⟩ := there
  have home : p.Home k := ⟨.kernel, managed⟩
  exact ⟨⟨(Managed.congr extended.grown.layout).mpr managed, (extended.grown.present k home).mpr (.inl present)⟩,
    extended.grown.kept k home present⟩

theorem extended_new (extended : p.Extended q page cnt) (managed : p.Managed .kernel page) (some : 0 < cnt) :
    (q.Managed .kernel page ∧ q.Present page) ∧ ∃ k, q.Locates .kernel k (q.pte page).frame := by
  obtain ⟨-, k, here, -⟩ := extended.grown.fresh page ⟨Nat.le_refl page, by omega⟩
  exact ⟨⟨(Managed.congr extended.grown.layout).mpr managed, (extended.grown.present page ⟨.kernel, managed⟩).mpr
    (.inr ⟨Nat.le_refl page, by omega⟩)⟩,
    k, (locates_congr extended.grown.layout.1).mpr here⟩

end

def copyRest (child parent bufPage : Nat) : SpacesM Int := do
  copyBodyStack3 child parent bufPage
  onFs updateInodeOpenCnts
  onPaging (mfreePage .kernel bufPage 1)
  return 0

theorem Process.launch (process : s.Process parent) (sufficient : s.Sufficient) (other : child ≠ parent) :
    ∃ t bufPage bits dir, s.Launched t child parent bufPage bits dir ∧
      copyProcess child parent s = copyRest child parent bufPage t := by
  obtain ⟨task, pcb⟩ := process.pcb
  obtain ⟨pid, pidFree⟩ := sufficient.pid
  obtain ⟨i₁, i₂, i₃, scan₁, scan₂, inside₂, scan₃⟩ := sufficient.room
  have frames := sufficient.kernelFrames
  have inside₁ : i₁ + 1 ≤ 8 * s.paging.vaddrBytesLen .kernel := by
    obtain ⟨_, found, bound, -⟩ := Bitmap.scan_one_eq_ok.mp scan₁
    cases found
    exact bound
  -- The transfer buffer.
  obtain ⟨p₁, f₁, run₁, ext₁, prep₁⟩ :=
    process.prepared.getKernelPages (t := s) process.tables ⟨by decide, by decide⟩ scan₁ inside₁ (by omega)
  have map₁ := extended_vaddrBitmap ext₁
  rw [Nat.add_sub_cancel_left] at map₁
  -- The PCB and the bitmap.
  obtain ⟨p₂, f₂, threads, run₂, ext₂, prep₂⟩ :=
    Prepared.copyPcb (t := { s with paging := p₁, frames := f₁ }) child prep₁ process.tables pcb pidFree
    (by rw [map₁]; exact scan₂) inside₂ (by have := ext₁.kernel; dsimp only; omega)
  have map₂ := extended_vaddrBitmap ext₂
  rw [Nat.add_sub_cancel_left, map₁] at map₂
  -- The page directory.
  generalize mid : ({ s with
    paging := p₂
    frames := f₂
    threads := threads
    task := update s.task child { current { s with paging := p₁, frames := f₁ } with
      bits := (vaddrStart .kernel + i₂) * pgSize }
    bitmaps := update s.bitmaps ((vaddrStart .kernel + i₂) * pgSize) (p₂.vaddr .user) } : Spaces) = t₂ at run₂
  have ext₂' : p₁.Extended t₂.paging (vaddrStart .kernel + i₂) bitmapPgCnt := by rw [← mid]; exact ext₂
  obtain ⟨p₃, f₃, dir, run₃, dirFrame, dirFree, ext₃, prep₃⟩ :=
    Prepared.createPageDir (t := t₂) (by rw [← mid]; exact prep₂) process.tables
    (by rw [← mid]; dsimp only; rw [map₂]; exact scan₃) (by have := ext₁.kernel; have := ext₂'.kernel; omega)
  have managed₃ : t₂.paging.Managed .kernel (vaddrStart .kernel + i₃) := by
    obtain ⟨_, found, bound, -⟩ := Bitmap.scan_one_eq_ok.mp scan₃
    cases found
    rw [← map₂] at bound
    rw [← mid]
    exact ⟨by omega, by dsimp only; exact Nat.add_lt_add_left bound _⟩
  have page₁ := extended_new ext₁ ⟨by omega, by omega⟩ (by decide)
  have page₁₂ := extended_page ext₂' page₁.1
  have page₁₃ := extended_page ext₃ page₁₂.1
  have page₃ := extended_new ext₃ managed₃ (by decide)
  have number (i : Nat) : (vaddrStart .kernel + i) * pgSize / pgSize = vaddrStart .kernel + i :=
    Nat.mul_div_cancel _ (by decide)
  obtain ⟨parentDir, ofParent, parentPage, parentFrame⟩ := process.pgdir
  have parentHome : s.paging.Home (parentDir / pgSize) := ⟨.kernel, parentPage.1⟩
  have users : p₃.vaddrBitmap .user = s.paging.vaddrBitmap .user := by
    simp only [vaddrBitmap, vaddrBytesLen, prep₃.layout.2, prep₃.vaddr]
  have task₂ : t₂.task = update s.task child { current { s with paging := p₁, frames := f₁ } with
      bits := (vaddrStart .kernel + i₂) * pgSize } := by rw [← mid]
  have rest : t₂.cr3 = s.cr3 ∧ t₂.fs = s.fs ∧
      t₂.bitmaps ((vaddrStart .kernel + i₂) * pgSize) = s.paging.vaddr .user := by
    rw [← mid]
    exact ⟨rfl, rfl, (update_self _ _ _).trans prep₂.vaddr⟩
  have taskChild :
      (update t₂.task child { t₂.task child with pgdir := some ((vaddrStart .kernel + i₃) * pgSize) }) child =
      { t₂.task child with pgdir := some ((vaddrStart .kernel + i₃) * pgSize) } := update_self _ _ _
  have taskParent : (update t₂.task child { t₂.task child with pgdir := some ((vaddrStart .kernel + i₃) * pgSize) })
      parent = s.task parent := by
    rw [update_of_ne other.symm, task₂, update_of_ne other.symm]
  have frames₁ := ext₁.kernel
  have frames₂ := ext₂'.kernel
  have frames₃ := ext₃.kernel
  have marks : ∀ {u : Spaces}, u.paging = p₃ → u.marksFrom 0 = s.marksFrom 0 := by
    intro u same
    rw [marksFrom, marksFrom, same, users]
  refine ⟨{ t₂ with paging := p₃, frames := f₃, dirs := update t₂.dirs dir (newPageDir p₃.pde dir) }.setTaskSpace child
    { t₂.task child with pgdir := some ((vaddrStart .kernel + i₃) * pgSize) }, (vaddrStart .kernel + i₁) * pgSize,
      (vaddrStart .kernel + i₂) * pgSize, dir, ?_, ?_⟩
  · exact {
      forking := {
        user := prep₃.layout.2.trans process.user
        consistent := prep₃.consistent
        apart := prep₃.apart
        buf := by rw [number]; exact page₁₃.1
        ofChild := ⟨(vaddrStart .kernel + i₃) * pgSize,
          by rw [setTaskSpace]; dsimp only; rw [taskChild], by rw [number]; exact page₃.1,
          by rw [number]; exact dirFrame.symm⟩
        ofParent := ⟨parentDir, by rw [setTaskSpace]; dsimp only; rw [taskParent, ofParent],
          ⟨(Managed.congr prep₃.layout).mpr parentPage.1, (prep₃.kept _ parentHome parentPage.2).1⟩,
          ((congrArg PageEntry.frame (prep₃.kept _ parentHome parentPage.2).2).trans parentFrame).trans rest.1.symm⟩
        away := fun clash => process.consistent.mapped_not_free parentHome parentPage.2
          (by rw [parentFrame, ← rest.1, ← show dir = t₂.cr3 from clash]; exact dirFree)
        empty := update_self _ _ _ }
      prepared := prep₃
      cr3 := rest.1
      fs := rest.2.1
      dirFree := dirFree
      itsBits := by
        rw [setTaskSpace]
        dsimp only
        rw [taskChild, task₂, update_self]
      bitmap := rest.2.2
      ownPages := ⟨Nat.mul_mod_left _ _, fun k hk => by
        rw [number]
        have managed : s.paging.Managed .kernel (vaddrStart .kernel + i₂ + k) := ⟨by omega, by omega⟩
        refine ⟨managed, fun marked => ext₂.absent k hk ?_⟩
        exact (prep₁.kept _ ⟨.kernel, managed⟩ ((process.consistent.present_iff .kernel _ managed).mpr ⟨marked, id⟩)).1⟩
      buffer := ⟨Nat.mul_mod_left _ _, by
        obtain ⟨k, here⟩ := page₁.2
        refine ⟨k, ?_⟩
        rw [number]
        change p₃.Locates .kernel k (p₃.pte (vaddrStart .kernel + i₁)).frame
        grind [locates_congr, prep₃.layout, prep₁.layout]⟩
      apart := by
        rw [number, dirFrame]
        intro clash
        have same := prep₃.consistent.distinct _ _ ⟨.kernel, page₁₃.1.1⟩ ⟨.kernel, page₃.1.1⟩ page₁₃.1.2 page₃.1.2 clash
        exact ext₃.absent 0 (by decide) (by rw [Nat.add_zero, ← same]; exact page₁₂.1.2)
      userFrames := by
        rw [marks rfl]
        exact sufficient.userFrames.trans_eq (((ext₃.user.trans ext₂'.user).trans ext₁.user).symm)
      kernelFrames := by
        rw [entriesFrom, marks rfl]
        change (s.entriesFrom 0).card ≤ (p₃.freeFrames .kernel).card
        omega }
  · have dirRun : createPageDir t₂ = _ := run₃
    rw [copyProcess, bind_of_ok run₁]
    dsimp only
    rw [bind_of_ok run₂, if_neg (by decide), bind_of_ok dirRun, modify_bind, if_neg (by simp)]
    rfl

/-- The directory of another process: what it maps below the kernel's half is taken, and its tables
there are not the kernel's. -/
structure Foreign (s : Spaces) (other : Nat → PageEntry) : Prop where
  tables : ∀ i, i < 0x300 → (other i).present = true → ¬s.paging.Free (other i).frame ∧ ∀ j, 0x300 ≤ j →
    (other i).frame ≠ (s.paging.pde j).frame
  mapped : ∀ q, q < 0xc0000 → Present { s.paging with pde := other } q →
    ¬s.paging.Free (pte { s.paging with pde := other } q).frame

/-- The child has copies of the parent's pages in frames of its own, and the parent has what it had. -/
structure Duplicated (s t : Spaces) (child dir bits : Nat) : Prop where
  directory : ∃ vaddr, (t.task child).pgdir = some vaddr ∧ t.paging.Present (vaddr / pgSize) ∧
    (t.paging.pte (vaddr / pgSize)).frame = dir
  mapped : ∀ p, p < 0xc0000 → ((t.view dir).Present p ↔ vaddrStart .user ≤ p ∧ s.paging.Marked .user p)
  fresh : ∀ p, p < 0xc0000 → (t.view dir).Present p →
    ∃ k, s.paging.Locates .user k ((t.view dir).pte p).frame ∧ (s.paging.poolBitmap .user).bit k = false
  alone : ∀ p, p < 0xc0000 → (t.view dir).Present p →
    (∀ q, t.paging.Home q → (t.view dir).Present q → ((t.view dir).pte p).frame = ((t.view dir).pte q).frame → p = q) ∧
    (∀ q, t.paging.Home q → t.paging.Present q → ((t.view dir).pte p).frame ≠ (t.paging.pte q).frame) ∧
    ∀ other, s.Foreign other → ∀ q, q < 0xc0000 → Present { t.paging with pde := other } q →
      ((t.view dir).pte p).frame ≠ (pte { t.paging with pde := other } q).frame
  contents : ∀ p, p < 0xc0000 → (t.view dir).Present p →
    t.frames ((t.view dir).pte p).frame = s.frames (s.paging.pte p).frame
  bitmap : (t.task child).bits = bits ∧ t.bitmaps bits = s.paging.vaddr .user ∧
    ∀ k, k < bitmapPgCnt → s.paging.Managed .kernel (bits / pgSize + k) ∧ ¬s.paging.Marked .kernel (bits / pgSize + k)
  parentBitmap : t.paging.vaddr .user = s.paging.vaddr .user
  parentPages : ∀ p, s.paging.Managed .user p → (t.paging.Present p ↔ s.paging.Present p) ∧
    (s.paging.Present p → t.paging.pte p = s.paging.pte p ∧
      t.frames (s.paging.pte p).frame = s.frames (s.paging.pte p).frame)

end Spaces

theorem mfreePage_one {p : Paging} {vaddr k : Nat} (aligned : vaddr % pgSize = 0) (present : p.Present (vaddr / pgSize))
    (here : p.Locates .kernel k (p.pte (vaddr / pgSize)).frame) :
    mfreePage .kernel vaddr 1 p =
      .ok ((), (p.unmap .kernel (vaddr / pgSize)).setVaddr .kernel (vaddrBitIdx .kernel vaddr) false 1) := by
  have inPool := here.inPool
  have high : 0x102 ≤ (p.pte (vaddr / pgSize)).frame := by
    have low := inPool.1
    simp only [phyAddrStart] at low
    omega
  have choice : (if p.phyAddrStart .user ≤ (p.pte (vaddr / pgSize)).frame then PoolFlags.user else .kernel) =
      .kernel := if_neg (Nat.not_le.mpr inPool.2)
  have loop : Prog.forUpTo (fun k => freePage .kernel (vaddr / pgSize + k)) 1 p =
      .ok ((), p.unmap .kernel (vaddr / pgSize)) := freePage_run present inPool
  rw [mfreePage_eq ⟨Nat.le_refl 1, aligned⟩ present high, choice, bind_of_ok loop]
  rfl

namespace Spaces

variable {s t : Spaces} {child parent : Nat}

section
variable {u : Spaces} {bufPage bits dir : Nat} (launched : s.Launched t child parent bufPage bits dir)
  (copying : t.Copying u dir (t.paging.pte (bufPage / pgSize)).frame (8 * userBytesLen))

def afterwards (u : Spaces) (bufPage : Nat) : Paging :=
  (u.paging.unmap .kernel (bufPage / pgSize)).setVaddr .kernel (vaddrBitIdx .kernel bufPage) false 1

abbrev bufferFreed (u : Spaces) (bufPage : Nat) : Paging := u.paging.unmap .kernel (bufPage / pgSize)

abbrev childFreed (u : Spaces) (bufPage dir : Nat) : Paging := { u.bufferFreed bufPage with pde := u.dirs dir }

include launched copying

theorem Launched.buffer_page : (u.paging.Managed .kernel (bufPage / pgSize) ∧ u.paging.Present (bufPage / pgSize)) ∧
    u.paging.InPool .kernel (u.paging.pte (bufPage / pgSize)).frame := by
  obtain ⟨⟨present, entry⟩, -⟩ := copying.kernel_page launched.forking launched.forking.buf
  obtain ⟨-, k, here⟩ := launched.buffer
  refine ⟨⟨(Managed.congr copying.kept.ranges.layout).mpr launched.forking.buf.1, present⟩, ?_⟩
  rw [entry]
  exact ((locates_congr copying.kept.ranges.layout.1).mpr here).inPool

theorem Launched.parent_shrunk : Shrunk u.paging (u.bufferFreed bufPage) (· = bufPage / pgSize) := by
  obtain ⟨⟨managed, present⟩, inPool⟩ := launched.buffer_page copying
  exact ((copying.kept.consistent launched.forking.consistent).unmap
    (copying.kept.apart launched.forking.consistent launched.forking.apart) managed present inPool).2.2

theorem Launched.same_table : u.dirs dir (bufPage / pgSize / 1024) = u.paging.pde (bufPage / pgSize / 1024) := by
  have entry := launched.forking.kernel_entry launched.forking.buf.1
  have present : ((t.view dir).pde (bufPage / pgSize / 1024)).present = true := by
    rw [entry]
    exact launched.forking.buf.2.1
  rw [copying.kept.pde, ← entry]
  exact copying.grown.pde _ present

theorem Launched.child_view : u.childFreed bufPage dir = (u.view dir).unmap .kernel (bufPage / pgSize) := by
  have same := launched.same_table copying
  have entry : (u.view dir).pte (bufPage / pgSize) = u.paging.pte (bufPage / pgSize) := by
    simp only [Paging.pte, view, same]
  simp only [Paging.unmap, entry]
  simp only [setPte, setPool, view, same]
  rfl

theorem Launched.child_shrunk : Shrunk (u.view dir) (u.childFreed bufPage dir) (· = bufPage / pgSize) := by
  obtain ⟨-, present, entry⟩ := copying.kernel_page launched.forking launched.forking.buf
  have managed : (u.view dir).Managed .kernel (bufPage / pgSize) :=
    (Managed.congr copying.grown.layout).mpr launched.forking.buf.1
  obtain ⟨-, k, here⟩ := launched.buffer
  have inPool : (u.view dir).InPool .kernel ((u.view dir).pte (bufPage / pgSize)).frame := by
    rw [entry]
    exact ((locates_congr copying.kept.ranges.layout.1).mpr here).inPool
  rw [launched.child_view copying]
  exact (copying.consistent.unmap copying.apart managed present inPool).2.2

theorem Launched.low_table (low : i < 0x300) (table : (u.dirs dir i).present = true) :
    (u.bufferFreed bufPage).table (u.dirs dir i).frame = u.paging.table (u.dirs dir i).frame := by
  have kernel : ¬t.paging.Free (u.paging.pde (bufPage / pgSize / 1024)).frame := by
    rw [copying.kept.pde]
    exact launched.forking.consistent.table_not_free
      (Home.covers ⟨.kernel, launched.forking.buf.1⟩) launched.forking.buf.2.1
  refine update_of_ne (fun clash => kernel ?_) _ _
  exact clash ▸ (copying.tables i low table).2

theorem Launched.low_page (low : p < 0xc0000) :
    (Present (u.childFreed bufPage dir) p ↔ (u.view dir).Present p) ∧
    ((u.view dir).Present p → pte (u.childFreed bufPage dir) p = (u.view dir).pte p) := by
  have entry (table : (u.dirs dir (p / 1024)).present = true) :
      pte (u.childFreed bufPage dir) p = (u.view dir).pte p :=
    congrFun (launched.low_table copying (by omega) table) (p % 1024)
  exact ⟨and_congr_right fun table => by rw [entry table], fun present => entry present.1⟩

theorem Launched.done_iff (low : p < 0xc0000) : (u.view dir).Present p ↔ vaddrStart .user ≤ p ∧
    s.paging.Marked .user p := by
  have users : t.paging.vaddrBitmap .user = s.paging.vaddrBitmap .user := by
    simp only [vaddrBitmap, vaddrBytesLen, launched.prepared.layout.2, launched.prepared.vaddr]
  have top : vaddrStart .user + 8 * userBytesLen = 0xc0000 := rfl
  grind [Done, Marked, copying.only, copying.grown.present, copying.grown.fresh]

theorem Launched.child_frame (low : p < 0xc0000) (present : (u.view dir).Present p) :
    t.paging.Free ((u.view dir).pte p).frame ∧ ∃ k, s.paging.Locates .user k ((u.view dir).pte p).frame ∧
      (s.paging.poolBitmap .user).bit k = false := by
  obtain ⟨-, k, here, clear⟩ := copying.grown.fresh p (copying.only p low present)
  refine ⟨⟨.user, k, here, clear⟩, k, (locates_congr launched.prepared.layout.1).mp here, ?_⟩
  by_contra taken
  have still := launched.prepared.grows .user k (by simpa using taken)
  change (t.paging.poolBitmap .user).bit k = false at clear
  simp [still] at clear

theorem Launched.parent_page (process : s.Process parent) (managed : s.paging.Managed .user p) :
    ((u.bufferFreed bufPage).Present p ↔ s.paging.Present p) ∧
    (s.paging.Present p → (u.bufferFreed bufPage).pte p = s.paging.pte p ∧
    u.frames (s.paging.pte p).frame = s.frames (s.paging.pte p).frame) := by
  have prepared := launched.prepared
  have shrunk := launched.parent_shrunk copying
  have home : s.paging.Home p := ⟨.user, managed⟩
  have managed' : t.paging.Managed .user p := (Managed.congr prepared.layout).mpr managed
  have home' : t.paging.Home p := ⟨.user, managed'⟩
  have home'' : u.paging.Home p := (home_congr copying.kept.ranges.layout).mpr home'
  have other : p ≠ bufPage / pgSize := by grind [managed.user_table, launched.forking.buf.1.kernel_table]
  have marked : t.paging.Marked .user p ↔ s.paging.Marked .user p := by
    simp only [Marked, vaddrBitmap, vaddrBytesLen, prepared.layout.2, prepared.vaddr]
  have first : t.paging.Present p ↔ s.paging.Present p := by
    grind [prepared.consistent.present_iff, process.consistent.present_iff]
  have second := copying.kept.present launched.forking.consistent home'
  refine ⟨?_, fun present => ?_⟩
  · rw [shrunk.present p home'', second, first]
    exact and_iff_left other
  · have present' := first.mpr present
    have entry := (prepared.kept p home present).2
    have taken := process.consistent.mapped_not_free home present
    refine ⟨?_, ?_⟩
    · rw [shrunk.kept p home'' (second.mpr present') other,
        copying.kept.pte launched.forking.consistent home' present'.1, entry]
    · rw [copying.frames _ (fun free => taken (prepared.free free)) fun clash => other ?_, prepared.contents _ taken]
      rw [← entry] at clash
      exact prepared.consistent.distinct _ _ home'
        ⟨.kernel, launched.forking.buf.1⟩ present' launched.forking.buf.2 clash

theorem Launched.duplicated (process : s.Process parent) {v : Spaces} (task : v.task = u.task)
    (bitmaps : v.bitmaps = u.bitmaps) (frames : v.frames = u.frames)
    (dirs : v.dirs = u.dirs) (paging : v.paging = u.afterwards bufPage) : s.Duplicated v child dir bits := by
  have prepared := launched.prepared
  have forking := launched.forking
  have shrunk := launched.parent_shrunk copying
  have shrunk' := launched.child_shrunk copying
  -- Marks are not looked at when an address is translated.
  have child_present (p : Nat) : (v.view dir).Present p ↔ Present (u.childFreed bufPage dir) p := by
    rw [view, paging, dirs]
    rfl
  have child_pte (p : Nat) : (v.view dir).pte p = pte (u.childFreed bufPage dir) p := by
    rw [view, paging, dirs]
    rfl
  have parent_present (p : Nat) : v.paging.Present p ↔ (u.bufferFreed bufPage).Present p := by
    rw [paging]
    rfl
  have parent_pte (p : Nat) : v.paging.pte p = (u.bufferFreed bufPage).pte p := by
    rw [paging]
    rfl
  have low {p : Nat} (low : p < 0xc0000) (present : (v.view dir).Present p) : (u.view dir).Present p ∧
      (v.view dir).pte p = (u.view dir).pte p := by grind [launched.low_page]
  have homes {q : Nat} : v.paging.Home q ↔ u.paging.Home q := by
    rw [paging]
    exact Iff.rfl
  refine {
    directory := ?_
    mapped := fun p hp => ?_
    fresh := fun p hp present => ?_
    alone := fun p hp present => ?_
    contents := fun p hp present => ?_
    bitmap := ?_
    parentBitmap := ?_
    parentPages := fun p managed => ?_ }
  · obtain ⟨vaddr, pgdir, page, frame⟩ := forking.ofChild
    obtain ⟨⟨present, entry⟩, -⟩ := copying.kernel_page forking page
    have home : u.paging.Home (vaddr / pgSize) := (home_congr copying.kept.ranges.layout).mpr ⟨.kernel, page.1⟩
    grind [launched.apart, copying.task, shrunk.present, shrunk.kept]
  · rw [child_present, (launched.low_page copying hp).1]
    exact launched.done_iff copying hp
  · obtain ⟨there, entry⟩ := low hp present
    rw [entry]
    exact (launched.child_frame copying hp there).2
  · obtain ⟨there, entry⟩ := low hp present
    have free := (launched.child_frame copying hp there).1
    have home : (u.view dir).Home p :=
      (home_congr copying.grown.layout).mpr (copying.grown.fresh p (copying.only p hp there)).1
    rw [entry]
    refine ⟨fun q home' present' same => ?_, fun q home' present' same =>
      ?_, fun other foreign q hq present' same => ?_⟩
    · have homeq : (u.view dir).Home q := homes.mp home'
      grind [shrunk'.present, shrunk'.kept, copying.consistent.distinct]
    · have homeq : u.paging.Home q := homes.mp home'
      have homet : t.paging.Home q := (home_congr copying.kept.ranges.layout).mp homeq
      obtain ⟨thereq, apart⟩ := (shrunk.present q homeq).mp ((parent_present q).mp present')
      have present'' := (copying.kept.present forking.consistent homet).mp thereq
      rw [parent_pte, shrunk.kept q homeq thereq apart, copying.kept.pte forking.consistent homet present''.1] at same
      exact forking.consistent.mapped_not_free homet present'' (same ▸ free)
    · -- Nothing that the call writes to is reached through the other directory.
      have table : (other (q / 1024)).present = true := present'.1
      obtain ⟨taken, apart⟩ := foreign.tables (q / 1024) (by omega) table
      have unchanged : v.paging.table (other (q / 1024)).frame = s.paging.table (other (q / 1024)).frame := by
        rw [paging]
        refine (update_of_ne ?_ _ _).trans
          ((copying.kept.table _ fun free => taken (prepared.free free)).trans (prepared.tables _ apart))
        rw [show (u.paging.setPool .kernel _ false).pde = u.paging.pde from rfl, copying.kept.pde, prepared.pde]
        exact apart _ forking.buf.1.kernel_table.1
      have same' : pte { v.paging with pde := other } q = pte { s.paging with pde := other } q :=
        congrFun unchanged (q % 1024)
      refine foreign.mapped q hq ⟨table, ?_⟩ ?_
      · rw [← same']
        exact present'.2
      · rw [← same', ← same]
        exact prepared.free free
  · obtain ⟨there, entry⟩ := low hp present
    have copied := copying.only p hp there
    obtain ⟨-, marked⟩ := (launched.done_iff copying hp).mp there
    have managed : s.paging.Managed .user p := by
      refine ⟨copied.2.1, ?_⟩
      rw [vaddrBytesLen, if_pos process.user]
      simp only [vaddrStart]
      omega
    have present' := (process.consistent.present_iff .user p managed).mpr ⟨marked, id⟩
    rw [frames, entry, copying.contents p copied, (prepared.kept p ⟨.user, managed⟩ present').2,
      prepared.contents _ (process.consistent.mapped_not_free ⟨.user, managed⟩ present')]
  · grind [launched.ownPages, copying.task, launched.itsBits, copying.bitmaps, launched.bitmap]
  · rw [paging, afterwards, setVaddr]
    dsimp only
    rw [update_of_ne (by decide)]
    exact (congrFun copying.kept.ranges.vaddr _).trans prepared.vaddr
  grind [launched.parent_page]

end

/-- With enough memory `copy_process` returns, and the child is a copy of its parent. -/
theorem copyProcess_duplicates (process : s.Process parent) (sufficient : s.Sufficient) (other : child ≠ parent) :
    ∃ t dir bits, copyProcess child parent s = .ok (0, t) ∧ s.Duplicated t child dir bits := by
  obtain ⟨t, bufPage, bits, dir, launched, copied⟩ := process.launch sufficient other
  obtain ⟨u, loop, copying⟩ :=
    copyBodyStack3_run launched.forking rfl (launched.forking.start _ launched.userFrames launched.kernelFrames)
  obtain ⟨fs, counted⟩ := process.files
  rw [← launched.fs, ← copying.fs] at counted
  obtain ⟨⟨managed, present⟩, -⟩ := launched.buffer_page copying
  obtain ⟨aligned, k, here⟩ := launched.buffer
  rw [← (copying.kernel_page launched.forking launched.forking.buf).1.2,
    ← locates_congr copying.kept.ranges.layout.1] at here
  have freed : onPaging (mfreePage .kernel bufPage 1) { u with fs := fs } =
      .ok ((), { u with fs := fs, paging := u.afterwards bufPage }) :=
    onPaging_of_ok (s := { u with fs := fs }) (mfreePage_one aligned present here)
  refine ⟨_, dir, bits, ?_, launched.duplicated copying process
    (v := { u with fs := fs, paging := u.afterwards bufPage }) rfl rfl rfl rfl rfl⟩
  rw [copied, copyRest, bind_of_ok loop, bind_of_ok (onFs_of_ok counted), bind_of_ok freed]
  rfl

end Spaces

theorem bit_twoMarks (len k : Nat) : Bitmap.bit ⟨len, twoMarks⟩ k = decide (k < 2) := by
  rw [Bitmap.bit]
  change (if k / 8 = 0 then (3 : Byte) else 0).getLsbD (k % 8) = _
  by_cases low : k < 8
  · rw [if_pos (by omega)]
    have all : ∀ k, k < 8 → (3 : Byte).getLsbD (k % 8) = decide (k < 2) := by decide
    exact all k low
  · rw [if_neg (by omega), decide_eq_false (by omega)]
    simp

theorem pte_smallSpaces (low : p < 0x100000) (table : ((smallSpaces twoMarks).paging.pde (p / 1024)).present = true) :
    (smallSpaces twoMarks).paging.pte p =
      if p = 0x8048 then ⟨0x240, true⟩ else if p = 0xc0100 then ⟨0x200, true⟩ else if p = 0xc0101 then ⟨0x201, true⟩
        else ⟨0, false⟩ := by
  simp only [pte, smallSpaces, bit_twoMarks, decide_eq_true_eq] at table ⊢
  by_cases user : p / 1024 = 32
  · rw [if_pos user, if_neg (by decide)]
    by_cases here : p % 1024 = 72
    · rw [if_pos ⟨rfl, here⟩, if_pos (by omega)]
    · rw [if_neg fun both => here both.2, if_neg (by omega), if_neg (by omega), if_neg (by omega)]
  · rw [if_neg user] at table ⊢
    by_cases last : p / 1024 = 1023
    · rw [if_pos last, if_neg (by decide), if_neg fun both => absurd both.1 (by decide), if_neg (by omega),
        if_neg (by omega), if_neg (by omega)]
    · rw [if_neg last] at table ⊢
      by_cases kernel : 768 ≤ p / 1024
      · rw [if_pos kernel, if_neg (show p ≠ 0x8048 by omega)]
        dsimp only
        by_cases first : p / 1024 = 768
        · rw [if_pos (by omega)]
          by_cases pcb : p = 0xc0100
          · subst pcb
            rfl
          · rw [if_neg pcb]
            by_cases dir : p = 0xc0101
            · subst dir
              rfl
            · rw [if_neg (by omega), if_neg dir]
        · rw [if_neg (by omega), if_neg (by omega), if_neg (by omega), if_neg (by omega)]
      · rw [if_neg kernel] at table
        cases table

theorem present_smallSpaces (low : p < 0x100000) : (smallSpaces twoMarks).paging.Present p ↔ p = 0xc0100 ∨
    p = 0xc0101 ∨ p = 0x8048 := by
  constructor
  · rintro ⟨table, entry⟩
    grind [pte_smallSpaces]
  · rintro (rfl | rfl | rfl) <;> exact ⟨rfl, rfl⟩

theorem smallSpaces_consistent : (smallSpaces twoMarks).paging.Consistent (fun _ => False) ∧
    (smallSpaces twoMarks).paging.Apart := by
  have bound {p : Nat} (home : (smallSpaces twoMarks).paging.Home p) : p < 0x100000 :=
    home.elim fun _ managed => managed.lt.trans (by decide)
  have frame {p : Nat} (low : p < 0x100000) (present : (smallSpaces twoMarks).paging.Present p) :=
    congrArg PageEntry.frame (pte_smallSpaces low present.1)
  have entries {i : Nat} (covers : (smallSpaces twoMarks).paging.Covers i)
      (table : ((smallSpaces twoMarks).paging.pde i).present = true) :
      i = 32 ∧ (smallSpaces twoMarks).paging.pde i = ⟨0x23f, true⟩ ∨ i = 768 ∧
        (smallSpaces twoMarks).paging.pde i = ⟨0x101, true⟩ := by
    obtain ⟨p, ⟨pf, low, high⟩, rfl⟩ := covers
    cases pf with
    | kernel =>
      change 0xc0100 ≤ p at low
      change p < 0xc0100 + 64 at high
      have here : p / 1024 = 768 := by omega
      rw [here]
      exact .inr ⟨rfl, rfl⟩
    | user =>
      change 0x8048 ≤ p at low
      change p < 0x8048 + 8 * 94199 at high
      grind [smallSpaces]
  refine ⟨⟨fun pf p managed => ?_, fun p q home home' present present' same => ?_, fun p home present =>
    ?_, fun i covers table pool k here => ?_⟩,
    ⟨fun i j covers covers' table table' same => ?_, fun i p covers table home present same => ?_⟩⟩
  · rw [present_smallSpaces (managed.lt.trans (by decide)), and_iff_left not_false]
    obtain ⟨low, high⟩ := managed
    cases pf with
    | kernel =>
      change 0xc0100 ≤ p at low
      change _ ↔ Bitmap.bit ⟨_, twoMarks⟩ (p - 0xc0100) = true
      rw [bit_twoMarks, decide_eq_true_eq]
      omega
    | user =>
      change 0x8048 ≤ p at low
      change p < 0x8048 + 8 * 94199 at high
      change _ ↔ ((if (p - 0x8048) / 8 = 0 then (1 : Byte) else 0).getLsbD ((p - 0x8048) % 8)) = true
      by_cases near : p < 0x8050
      · have all : ∀ k, k < 8 → ((1 : Byte).getLsbD (k % 8) = true ↔ k = 0) := by decide
        rw [if_pos (by omega), all (p - 0x8048) (by omega)]
        omega
      · rw [if_neg (by omega)]
        refine iff_of_false (by omega) ?_
        simp
  · grind [present_smallSpaces]
  · rw [frame (bound home) present]
    rw [present_smallSpaces (bound home)] at present
    rcases present with rfl | rfl | rfl
    · exact ⟨.kernel, 0, ⟨rfl, by decide⟩, by decide⟩
    · exact ⟨.kernel, 1, ⟨rfl, by decide⟩, by decide⟩
    · exact ⟨.user, 0, ⟨rfl, by decide⟩, by decide⟩
  · obtain ⟨place, inside⟩ := here
    rcases entries covers table with ⟨rfl, entry⟩ | ⟨rfl, entry⟩ <;> rw [entry] at place
    · cases pool with
      | kernel =>
        change 0x23f = 0x200 + k at place
        obtain rfl : k = 63 := by omega
        decide
      | user =>
        change 0x23f = 0x240 + k at place
        omega
    · cases pool with
      | kernel =>
        change 0x101 = 0x200 + k at place
        omega
      | user =>
        change 0x101 = 0x240 + k at place
        omega
  · grind
  grind

theorem smallSpaces_process : (smallSpaces twoMarks).Process 0xc0100000 where
  running := rfl
  pcb := ⟨_, rfl⟩
  user := rfl
  consistent := smallSpaces_consistent.1
  apart := smallSpaces_consistent.2
  tables i low high := by grind [smallSpaces]
  pgdir := ⟨0xc0101000, rfl, ⟨⟨by decide, by decide⟩, rfl, rfl⟩, rfl⟩
  files := ⟨_, rfl⟩

theorem smallSpaces_marks : (smallSpaces twoMarks).marksFrom 0 = {0} := by
  ext k
  rw [Spaces.mem_marksFrom, Finset.mem_singleton]
  have bit : ((smallSpaces twoMarks).paging.vaddrBitmap .user).bit k = decide (k = 0) := by
    change ((if k / 8 = 0 then (1 : Byte) else 0).getLsbD (k % 8)) = _
    by_cases near : k < 8
    · grind
    · rw [if_neg (by omega), decide_eq_false (by omega)]
      simp
  rw [bit, decide_eq_true_eq]
  constructor
  · exact fun ⟨_, _, here⟩ => here
  · rintro rfl
    exact ⟨by decide, Nat.le_refl 0, rfl⟩

theorem smallSpaces_sufficient : (smallSpaces twoMarks).Sufficient where
  pid := ⟨1, rfl⟩
  room := ⟨2, 3, 26, rfl, rfl, by decide, rfl⟩
  kernelFrames := by
    rw [Spaces.entriesFrom, smallSpaces_marks]
    decide
  userFrames := by
    rw [smallSpaces_marks]
    decide

theorem copyProcess_duplicates_small : ∃ t dir bits, copyProcess 0xc0102000 0xc0100000 (smallSpaces twoMarks) =
    .ok (0, t) ∧
    (smallSpaces twoMarks).Duplicated t 0xc0102000 dir bits ∧ (t.view dir).Present 0x8048 := by
  obtain ⟨t, dir, bits, run, duplicated⟩ :=
    Spaces.copyProcess_duplicates smallSpaces_process smallSpaces_sufficient (show 0xc0102000 ≠ 0xc0100000 by decide)
  exact ⟨t, dir, bits, run, duplicated, (duplicated.mapped 0x8048 (by decide)).mpr
    ⟨by decide, show ((smallSpaces twoMarks).paging.vaddrBitmap .user).bit 0 = true by decide⟩⟩

end LaiMiniOs
