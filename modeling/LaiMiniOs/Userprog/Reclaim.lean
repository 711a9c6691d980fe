import LaiMiniOs.Userprog.Fork

/-! `sys_exit` and `sys_wait` with the memory they give back, from `userprog/wait_exit.c` and
`thread_exit` of `thread/thread.c`, and what is left of a child when its parent has waited for it.
-/

set_option autoImplicit false

namespace LaiMiniOs
open Foundation Prog Function

variable {parent : Nat} {s : Spaces} {p : Paging} {r : Option Nat}

def freeAPhyPage (pgPhyAddr : Nat) : PagingM Unit := pfree pgPhyAddr

def releaseTable (pdeIdx : Nat) : PagingM Unit := do
  let pde := (← get).pde pdeIdx
  Prog.when (pde.present = true) do
    Prog.forUpTo (fun pteIdx => do
      let pte := (← get).pte (pdeIdx * 1024 + pteIdx)
      Prog.when (pte.present = true) (freeAPhyPage pte.frame)) 1024
    freeAPhyPage pde.frame

def releaseTables : Nat → Nat → PagingM Unit
  | 0, _ => return
  | left + 1, pdeIdx => do
    releaseTable pdeIdx
    releaseTables left (pdeIdx + 1)

namespace Spaces

def releaseProgResource (releaseThread : Nat) : SpacesM Unit := do
  onPaging (releaseTables 768 0)
  onPaging (mfreePage .kernel ((← get).task releaseThread).bits (userBytesLen / pgSize))
  onFs LaiMiniOs.releaseProgResource

def sysExit (status : Word) : SpacesM Unit := do
  let cur := (← get).threads.cur
  let task ← onThreads (readTask cur)
  onThreads (modify fun s => s.setTask cur { task with exitStatus := status.setWidth 8 })
  Prog.assert (task.parentPid ≠ none)
  onThreads (modify fun s => s.initAdopt task.pid)
  releaseProgResource cur
  let childThread ← onThreads (readTask cur)
  match childThread.parentPid.bind (← get).threads.pid2thread with
  | none => .fail .undefined
  | some parent =>
    let parentThread ← onThreads (readTask parent)
    Prog.when (parentThread.status = .waiting) (onThreads (threadUnblock parent))
    scheduling (threadBlock .hanging)

def threadExit (threadOver : Nat) (needSchedule : Bool) : SpacesM Unit := do
  let task ← onThreads (readTask threadOver)
  onThreads (modify fun s => { s with threadReadyList := s.threadReadyList.erase threadOver }.setTask threadOver
    { task with status := .died })
  match ((← get).task threadOver).pgdir with
  | none => pure ()
  | some pgdir => onPaging (mfreePage .kernel pgdir 1)
  onThreads (modify fun s => { s with threadAllList := s.threadAllList.erase threadOver })
  Prog.when (threadOver ≠ (← get).threads.mainThread) do
    onPaging (mfreePage .kernel threadOver 1)
    onThreads (modify fun s => { s with pcb := update s.pcb threadOver none })
  onThreads (releasePid task.pid)
  Prog.when (needSchedule = true) (scheduling schedule)

def hangingChild (s : Spaces) : Option Nat :=
  (s.threads.pcb s.threads.cur).bind fun parent => s.threads.threadAllList.find? (s.threads.findHangingChild parent.pid)

def sysWait : SpacesM Waited := do
  let s ← get
  let parent ← onThreads (readTask s.threads.cur)
  match s.threads.threadAllList.find? (s.threads.findHangingChild parent.pid) with
  | some child =>
    let childThread ← onThreads (readTask child)
    threadExit child false
    return .reaped childThread.pid childThread.exitStatus.toInt
  | none =>
    match s.threads.threadAllList.find? (s.threads.findChild parent.pid) with
    | none => return .noChild
    | some _ =>
      scheduling (threadBlock .waiting)
      return .asleep

end Spaces

def PageRequest.OfUser : PageRequest → Prop
  | mallocPage pf _ => pf = .user
  | getAPage pf _ => pf = .user

namespace Spaces

/-- What happens between the fork of a child and the end of the parent's `sys_wait`: the timer ticks,
tasks yield, the parent waits, and the child asks for pages and exits. -/
inductive LifeStep (child : Nat) (s t : Spaces) : Prop where
  | tick (run : scheduling intrTimerHandler s = .ok ((), t))
  | yield (run : scheduling threadYield s = .ok ((), t))
  | asleep (run : sysWait s = .ok (.asleep, t))
  | alloc {request : PageRequest} {r : Option Nat} (ofUser : request.OfUser) (running : s.threads.cur = child)
      (run : onPaging request.run s = .ok (r, t))
  | exit {status : Word} (running : s.threads.cur = child) (run : sysExit status s = .ok ((), t))

structure Lifetime (s t : Spaces) (child : Nat) (forked last : Spaces) : Prop where
  fork : ∃ pid, sysFork s = .ok (pid, forked) ∧ pid ≠ -1
  born : forked.threads.threadAllList = s.threads.threadAllList ++ [child]
  lives : Relation.ReflTransGen (LifeStep child) forked last
  found : last.hangingChild = some child
  reaped : ∃ pid status, sysWait last = .ok (.reaped pid status, t)

structure Settled (s t : Spaces) : Prop where
  marks : t.paging.vaddrBitmap .kernel = s.paging.vaddrBitmap .kernel
  task : ∀ x, (t.task x).bits = (s.task x).bits ∧ (t.task x).pgdir = (s.task x).pgdir

theorem Settled.refl (s : Spaces) : s.Settled s := ⟨rfl, fun _ => ⟨rfl, rfl⟩⟩

theorem Settled.trans {t u : Spaces} (first : s.Settled t) (second : t.Settled u) : s.Settled u :=
  ⟨second.marks.trans first.marks, fun x =>
    ⟨(second.task x).1.trans (first.task x).1, (second.task x).2.trans (first.task x).2⟩⟩

section
variable {A : Type} {s t : Spaces} {a : A}

theorem settled_of_run {x : SpacesM A} (keeps : Prog.Keeps Settled x) (run : x s = .ok (a, t)) : s.Settled t :=
  (keeps.within s).run Settled.refl (fun _ _ _ => Settled.trans) run

theorem onThreads_settled (x : ThreadM A) : Prog.Keeps Settled (onThreads x) :=
  (Prog.Keeps.always x).zoom fun _ _ _ => ⟨rfl, fun _ => ⟨rfl, rfl⟩⟩

theorem onFs_settled (x : FsM A) : Prog.Keeps Settled (onFs x) :=
  (Prog.Keeps.always x).zoom fun _ _ _ => ⟨rfl, fun _ => ⟨rfl, rfl⟩⟩

theorem onPaging_settled {x : PagingM A} (keeps : Prog.Keeps Paging.SameRanges x) : Prog.Keeps Settled (onPaging x) :=
  keeps.zoom fun _ _ same => ⟨same.vaddrBitmap .kernel, fun _ => ⟨rfl, rfl⟩⟩

theorem pageDirActivate_settled (pgdir : Option Nat) : Prog.Keeps Settled (pageDirActivate pgdir) := by
  cases pgdir with
  | none => exact .bind (.ret _) fun _ => .change fun _ => ⟨rfl, fun _ => ⟨rfl, rfl⟩⟩
  | some vaddr => exact .bind (onPaging_settled (addrV2p_ranges _)) fun _ => .change fun _ => ⟨rfl, fun _ => ⟨rfl, rfl⟩⟩

theorem settled_swapped (s : Spaces) (before : Nat) : s.Settled (s.swapped before) := by
  refine ⟨?_, fun x => ?_⟩
  · simp only [swapped, Paging.vaddrBitmap, update_of_ne (show PoolFlags.kernel ≠ .user by decide)]
    rfl
  · by_cases here : x = before
    · subst here
      simp only [swapped, update_self, and_self]
    · simp only [swapped, update_of_ne here, and_self]

theorem scheduling_settled (x : ThreadM A) : Prog.Keeps Settled (scheduling x) := by
  refine .bind .look fun s => .bind (onThreads_settled x) fun a => .bind .look fun t => .bind (.when ?_) fun _ => .ret a
  exact .bind .look fun u => .bind (pageDirActivate_settled _) fun _ => .change fun s => settled_swapped s _

end

theorem userRequest_kernel {q : Paging} {request : PageRequest} (ofUser : request.OfUser)
    (run : request.run p = .ok (r, q)) :
    q.vaddrBitmap .kernel = p.vaddrBitmap .kernel := by
  have aside (i cnt : Nat) (v : Bool) : (p.setVaddr .user i v cnt).vaddrBitmap .kernel = p.vaddrBitmap .kernel := by
    simp only [Paging.vaddrBitmap, Paging.setVaddr, update_of_ne (show PoolFlags.kernel ≠ .user by decide)]
    rfl
  cases request with
  | mallocPage pf pgCnt =>
    obtain rfl : pf = .user := ofUser
    rcases mallocPage_marks run with ⟨-, -, rfl⟩ | ⟨i, -, -, same⟩
    · rfl
    · rw [same.vaddrBitmap, aside]
  | getAPage pf vaddr =>
    obtain rfl : pf = .user := ofUser
    change getAPage .user vaddr p = _ at run
    obtain ⟨-, run⟩ := getAPage_eq_ok run
    rw [(sameRanges_of_run (getAPageWithoutOpvaddrbitmap_ranges _ _) run).vaddrBitmap, aside]

structure Leaking (s : Spaces) (child i : Nat) : Prop where
  marked : (s.paging.vaddrBitmap .kernel).bit (i + 22) = true
  bits : (s.task child).bits = (Paging.vaddrStart .kernel + i) * pgSize
  pgdir : ∃ k, (s.task child).pgdir = some ((Paging.vaddrStart .kernel + k) * pgSize) ∧ k < 0x100000 ∧ k ≠ i + 22
  pcb : ∃ k, child = (Paging.vaddrStart .kernel + k) * pgSize ∧ k < 0x100000 ∧ k ≠ i + 22

section
variable {s t : Spaces} {child i : Nat}

theorem Leaking.settled (leaking : s.Leaking child i) (settled : s.Settled t) : t.Leaking child i where
  marked := by
    rw [settled.marks]
    exact leaking.marked
  bits := (settled.task child).1.trans leaking.bits
  pgdir := by
    rw [(settled.task child).2]
    exact leaking.pgdir
  pcb := leaking.pcb

theorem Leaking.run {A : Type} {x : SpacesM A} {a : A} (leaking : s.Leaking child i) (keeps : Prog.Keeps Settled x)
    (run : x s = .ok (a, t)) : t.Leaking child i :=
  leaking.settled (settled_of_run keeps run)

theorem Leaking.onThreads {A : Type} {x : ThreadM A} {a : A} (leaking : s.Leaking child i)
    (run : onThreads x s = .ok (a, t)) : t.Leaking child i :=
  leaking.run (onThreads_settled x) run

theorem vaddrBitIdx_kernel (k : Nat) : vaddrBitIdx .kernel ((Paging.vaddrStart .kernel + k) * pgSize) =
    k % 0x100000 := by
  rw [vaddrBitIdx, Nat.mul_div_cancel _ (by decide : 0 < pgSize),
    show Paging.vaddrStart .kernel + k + 0x100000 - Paging.vaddrStart .kernel = k + 0x100000 by omega,
    Nat.add_mod_right]

theorem Leaking.mfree {vaddr cnt : Nat} (leaking : s.Leaking child i)
    (run : mfreePage .kernel vaddr cnt s.paging = .ok ((), p))
    (outside : ¬(vaddrBitIdx .kernel vaddr ≤ i + 22 ∧ i + 22 < vaddrBitIdx .kernel vaddr + cnt)) :
    Leaking { s with paging := p } child i := by
  refine ⟨?_, leaking.bits, leaking.pgdir, leaking.pcb⟩
  change (p.vaddrBitmap .kernel).bit (i + 22) = true
  rw [(mfreePage_clears run).vaddrBitmap, Paging.bit_setVaddr, if_neg fun inside => outside inside.2]
  exact leaking.marked

theorem releaseTable_ranges (pdeIdx : Nat) : Prog.Keeps Paging.SameRanges (releaseTable pdeIdx) := by
  refine .bind .look fun s => .when (.bind (.loop (fun pteIdx => ?_) 1024) fun _ => pfree_ranges _)
  exact .bind .look fun s => .when (pfree_ranges _)

theorem releaseTables_ranges (left pdeIdx : Nat) : Prog.Keeps Paging.SameRanges (releaseTables left pdeIdx) := by
  induction left generalizing pdeIdx with
  | zero => exact .ret ()
  | succ left ih => exact .bind (releaseTable_ranges pdeIdx) fun _ => ih (pdeIdx + 1)

theorem Leaking.release (leaking : s.Leaking child i) (run : releaseProgResource child s = .ok ((), t)) :
    t.Leaking child i := by
  obtain ⟨_, s₁, tables, run⟩ := bind_eq_ok.mp run
  have leaking₁ := leaking.run (onPaging_settled (releaseTables_ranges 768 0)) tables
  rw [get_bind] at run
  obtain ⟨_, s₂, freed, run⟩ := bind_eq_ok.mp run
  obtain ⟨p, memory, rfl⟩ := onPaging_eq_ok.mp freed
  have leaking₂ : Leaking { s₁ with paging := p } child i := by
    grind [leaking₁.mfree, leaking₁.bits, vaddrBitIdx_kernel, userBytesLen, pgSize]
  exact leaking₂.run (onFs_settled _) run

theorem Leaking.exit {status : Word} (leaking : s.Leaking child i) (running : s.threads.cur = child)
    (run : sysExit status s = .ok ((), t)) : t.Leaking child i := by
  rw [sysExit, get_bind, running] at run
  obtain ⟨task, s₁, read, run⟩ := bind_eq_ok.mp run
  obtain ⟨_, s₂, stored, run⟩ := bind_eq_ok.mp run
  obtain ⟨-, run⟩ := require_bind_eq_ok.mp run
  obtain ⟨_, s₃, adopted, run⟩ := bind_eq_ok.mp run
  obtain ⟨_, s₄, released, run⟩ := bind_eq_ok.mp run
  have leaking₄ := (((leaking.onThreads read).onThreads stored).onThreads adopted).release released
  refine leaking₄.run ?_ run
  -- What is left concerns the lists only.
  refine .bind (onThreads_settled _) fun childThread => .bind .look fun u => ?_
  split
  · exact .stop _
  · exact .bind (onThreads_settled _) fun parent => .bind (.when (onThreads_settled _)) fun _ => scheduling_settled _

theorem Leaking.step (leaking : s.Leaking child i) (step : LifeStep child s t) : t.Leaking child i := by
  cases step with
  | tick run => exact leaking.run (scheduling_settled _) run
  | yield run => exact leaking.run (scheduling_settled _) run
  | asleep run =>
    rw [sysWait, get_bind] at run
    obtain ⟨task, s₁, read, run⟩ := bind_eq_ok.mp run
    have leaking₁ := leaking.onThreads read
    split at run
    · obtain ⟨_, s₂, -, run⟩ := bind_eq_ok.mp run
      obtain ⟨_, s₃, -, run⟩ := bind_eq_ok.mp run
      cases run
    split at run
    · cases run
    · exact leaking₁.run (.bind (scheduling_settled _) fun _ => .ret _) run
  | alloc ofUser running run =>
    obtain ⟨p, memory, rfl⟩ := onPaging_eq_ok.mp run
    exact leaking.settled ⟨userRequest_kernel ofUser memory, fun _ => ⟨rfl, rfl⟩⟩
  | exit running run => exact leaking.exit running run

theorem Leaking.threadExit (leaking : s.Leaking child i) (run : threadExit child false s = .ok ((), t)) :
    t.Leaking child i := by
  obtain ⟨task, s₁, read, run⟩ := bind_eq_ok.mp run
  obtain ⟨_, s₂, removed, run⟩ := bind_eq_ok.mp run
  have leaking₂ := (leaking.onThreads read).onThreads removed
  rw [get_bind] at run
  obtain ⟨k, pgdir, low, apart⟩ := leaking₂.pgdir
  rw [pgdir] at run
  obtain ⟨_, s₃, freed, run⟩ := bind_eq_ok.mp run
  obtain ⟨p, memory, rfl⟩ := onPaging_eq_ok.mp freed
  have leaking₃ : Leaking { s₂ with paging := p } child i :=
    leaking₂.mfree memory (by rw [vaddrBitIdx_kernel, Nat.mod_eq_of_lt low]; omega)
  obtain ⟨_, s₄, unlisted, run⟩ := bind_eq_ok.mp run
  have leaking₄ := leaking₃.onThreads unlisted
  rw [get_bind] at run
  obtain ⟨_, s₅, pcb, run⟩ := bind_eq_ok.mp run
  have leaking₅ : s₅.Leaking child i := by
    by_cases main : child ≠ s₄.threads.mainThread
    · rw [run_when_of main] at pcb
      obtain ⟨_, s₆, freed, cleared⟩ := bind_eq_ok.mp pcb
      obtain ⟨q, memory', rfl⟩ := onPaging_eq_ok.mp freed
      obtain ⟨k', place, low', apart'⟩ := leaking₄.pcb
      have leaking₆ : Leaking { s₄ with paging := q } child i :=
        leaking₄.mfree memory' (by rw [place, vaddrBitIdx_kernel, Nat.mod_eq_of_lt low']; omega)
      exact leaking₆.onThreads cleared
    · rw [run_when_of_not main] at pcb
      cases pcb
      exact leaking₄
  exact leaking₅.run (.bind (onThreads_settled _) fun _ => .when (scheduling_settled _)) run

theorem Leaking.wait {pid : Nat} {status : Int} (leaking : s.Leaking child i) (found : s.hangingChild = some child)
    (run : sysWait s = .ok (.reaped pid status, t)) : t.Leaking child i := by
  rw [sysWait, get_bind] at run
  obtain ⟨parent, s₁, read, run⟩ := bind_eq_ok.mp run
  have leaking₁ := leaking.onThreads read
  have first : s.threads.threadAllList.find? (s.threads.findHangingChild parent.pid) = some child := by
    obtain ⟨u, read, -⟩ := onThreads_eq_ok.mp read
    rw [readTask, get_bind] at read
    rw [hangingChild] at found
    cases pcb : s.threads.pcb s.threads.cur with
    | none => simp [pcb] at found
    | some task =>
      simp only [pcb] at read
      cases read
      simpa [pcb] using found
  rw [first] at run
  obtain ⟨task, s₂, read', run⟩ := bind_eq_ok.mp run
  obtain ⟨_, s₃, gone, run⟩ := bind_eq_ok.mp run
  cases run
  exact (leaking₁.onThreads read').threadExit gone

structure Copies (s t : Spaces) : Prop where
  ranges : s.paging.SameRanges t.paging
  rest : t.task = s.task ∧ t.threads = s.threads

theorem copyBodyStack3_copies {bufPage : Nat} : Prog.Keeps Copies (copyBodyStack3 child parent bufPage) := by
  have activate (pgdir : Option Nat) : Prog.Keeps Copies (pageDirActivate pgdir) := by
    cases pgdir with
    | none => exact .bind (.ret _) fun _ => .change fun _ => ⟨⟨⟨rfl, rfl⟩, rfl⟩, rfl, rfl⟩
    | some vaddr => exact .bind ((addrV2p_ranges _).zoom fun _ _ same => ⟨same, rfl, rfl⟩) fun _ => .change fun _ =>
        ⟨⟨⟨rfl, rfl⟩, rfl⟩, rfl, rfl⟩
  have copy (dst src : Nat) : Prog.Keeps Copies (copyPage dst src) :=
    .read fun _ => Prog.within_require_bind fun _ => Prog.within_set ⟨.refl _, rfl, rfl⟩
  refine .bind .look fun s => .loop (fun idxByte => .when (.loop (fun idxBit => .when ?_) 8)) _
  refine .bind (copy _ _) fun _ => .bind .look fun t => .bind (activate _) fun _ => ?_
  exact .bind ((getAPageWithoutOpvaddrbitmap_ranges _ _).zoom fun _ _ same => ⟨same, rfl, rfl⟩) fun _ =>
    .bind (copy _ _) fun _ => .bind .look fun u => activate _

theorem allocatePid_lists : Prog.Keeps (fun s t : Threads => t.threadAllList = s.threadAllList) allocatePid := by
  refine .read fun s => ?_
  grind [Prog.within_fail, Prog.within_bind, Prog.within_set, Prog.within_pure]

theorem copyPcb_marks {ret : Int} (run : copyPcbVaddrbitmapStack0 child parent s = .ok (ret, t)) (good : ret ≠ -1) :
    ∃ i, (∀ j, j < 23 → (s.paging.vaddrBitmap .kernel).bit (i + j) = false) ∧
      (s.paging.setVaddr .kernel i true 23).SameRanges t.paging ∧
      (t.task child).bits = (Paging.vaddrStart .kernel + i) * pgSize ∧
      t.threads.threadAllList = s.threads.threadAllList := by
  obtain ⟨task, s₁, read, run⟩ := bind_eq_ok.mp run
  obtain ⟨th₁, same₁, rfl⟩ := onThreads_eq_ok.mp read
  rw [modify_bind] at run
  obtain ⟨pid, s₂, alloc, run⟩ := bind_eq_ok.mp run
  obtain ⟨th₂, same₂, rfl⟩ := onThreads_eq_ok.mp alloc
  obtain ⟨_, s₃, write, run⟩ := bind_eq_ok.mp run
  obtain ⟨th₃, same₃, rfl⟩ := onThreads_eq_ok.mp write
  obtain ⟨found, s₄, pages, run⟩ := bind_eq_ok.mp run
  have lists : th₃.threadAllList = s.threads.threadAllList := by
    obtain rfl := (readTask_eq_ok same₁).2
    have kept : th₂.threadAllList = s.threads.threadAllList :=
      (allocatePid_lists.within _).run (fun _ => rfl) (fun _ _ _ first second => second.trans first) same₂
    cases same₃
    exact kept
  obtain ⟨-, threads⟩ := getKernelPages_rest pages
  rcases mallocPage_marks (getKernelPages_paging pages) with ⟨-, rfl, -⟩ | ⟨i, scan, rfl, same⟩
  · cases run
    exact absurd rfl good
  · cases run
    refine ⟨i, Bitmap.clear_of_scan (by decide) scan, same, ?_, (congrArg Threads.threadAllList threads).trans lists⟩
    change (update s₄.task child _ child).bits = _
    rw [update_self]

theorem kernelBytes_bound (p : Paging) : 8 * p.vaddrBytesLen .kernel ≤ 0x8000 := by
  have bound := p.allFreePages.isLt
  simp only [Paging.vaddrBytesLen, Paging.freePages]
  omega

theorem copyProcess_marks {ret : Int} (run : copyProcess child parent s = .ok (ret, t)) (good : ret ≠ -1) :
    ∃ i k, (∀ j, (s.paging.vaddrBitmap .kernel).bit j = true → j < i ∨ i + 23 ≤ j) ∧
      (s.paging.vaddrBitmap .kernel).bit (i + 22) = false ∧
      (t.paging.vaddrBitmap .kernel).bit (i + 22) = true ∧
      (t.task child).bits = (Paging.vaddrStart .kernel + i) * pgSize ∧
      (t.task child).pgdir = some ((Paging.vaddrStart .kernel + k) * pgSize) ∧ k < 0x100000 ∧ k ≠ i + 22 ∧
      t.threads.threadAllList = s.threads.threadAllList := by
  obtain ⟨found, s₁, pages, run⟩ := bind_eq_ok.mp run
  obtain ⟨b, rfl, low, clear, same₁⟩ := mallocPage_one (getKernelPages_paging pages)
  obtain ⟨task₁, threads₁⟩ := getKernelPages_rest pages
  obtain ⟨ret₁, s₂, pcb, run⟩ := bind_eq_ok.mp run
  split at run
  · cases run
    exact absurd rfl good
  next good₁ =>
  obtain ⟨i, clear₂, same₂, bits, lists⟩ := copyPcb_marks pcb good₁
  obtain ⟨pgdir, s₃, dir, run⟩ := bind_eq_ok.mp run
  obtain ⟨k, rfl, low₃, clear₃, same₃, task₃, threads₃⟩ := createPageDir_marks dir
  rw [modify_bind, if_neg (by simp)] at run
  obtain ⟨_, s₄, body, run⟩ := bind_eq_ok.mp run
  have copies := (copyBodyStack3_copies.within _).run (fun _ => ⟨.refl _, rfl, rfl⟩)
    (fun _ _ _ first second =>
      ⟨first.ranges.trans second.ranges, second.rest.1.trans first.rest.1, second.rest.2.trans first.rest.2⟩) body
  obtain ⟨_, s₅, counted, run⟩ := bind_eq_ok.mp run
  obtain ⟨fs, -, rfl⟩ := Prog.zoom_eq_ok.mp counted
  obtain ⟨_, s₆, freed, run⟩ := bind_eq_ok.mp run
  obtain ⟨p, memory, rfl⟩ := onPaging_eq_ok.mp freed
  cases run
  -- The bitmap of the kernel's range, call by call.
  have bound := kernelBytes_bound s.paging
  have bound₃ := kernelBytes_bound s₂.paging
  have map₁ := bit_of_marked same₁
  have map₂ := bit_of_marked same₂
  have map₃ := bit_of_marked same₃
  have map₄ (j : Nat) : (p.vaddrBitmap .kernel).bit j = if b ≤ j ∧
      j < b + 1 then false else (s₃.paging.vaddrBitmap .kernel).bit j := by
    rw [(mfreePage_clears memory).vaddrBitmap, Paging.bit_setVaddr, vaddrBitIdx_kernel, Nat.mod_eq_of_lt (by omega)]
    change (if _ then false else (s₄.paging.vaddrBitmap .kernel).bit j) = _
    rw [copies.ranges.vaddrBitmap]
    simp only [true_and]
    rfl
  have outside (j : Nat) (marked : (s.paging.vaddrBitmap .kernel).bit j = true) : j < i ∨ i + 23 ≤ j := by
    by_contra inside
    have gone := clear₂ (j - i) (by omega)
    rw [show i + (j - i) = j by omega, map₁, marked, ite_self] at gone
    cases gone
  have last := clear₂ 22 (by decide)
  have buf : b ≠ i + 22 := by grind
  have new : k ≠ i + 22 := by
    rintro rfl
    rw [map₂, if_pos ⟨by omega, by omega⟩] at clear₃
    cases clear₃
  have tasks : s₄.task child = { s₃.task child with pgdir := some ((Paging.vaddrStart .kernel + k) * pgSize) } := by
    rw [copies.rest.1]
    exact update_self _ _ _
  refine ⟨i, k, outside, ?_, ?_, ?_, ?_, by omega, new, ?_⟩
  · by_contra marked
    have := outside (i + 22) (by simpa using marked)
    omega
  · grind
  · change (s₄.task child).bits = _
    rw [tasks, task₃]
    exact bits
  · change (s₄.task child).pgdir = _
    rw [tasks]
  · change s₄.threads.threadAllList = _
    rw [copies.rest.2]
    change s₃.threads.threadAllList = _
    rw [threads₃, lists, threads₁]

theorem sysFork_leaking {pid : Int} (run : sysFork s = .ok (pid, t)) (good : pid ≠ -1) :
    ∃ child i, t.threads.threadAllList = s.threads.threadAllList ++ [child] ∧
      (s.paging.vaddrBitmap .kernel).bit (i + 22) = false ∧ t.Leaking child i := by
  rw [sysFork, get_bind] at run
  obtain ⟨found, s₁, pages, run⟩ := bind_eq_ok.mp run
  obtain ⟨c, rfl, low, clear, same⟩ := mallocPage_one (getKernelPages_paging pages)
  obtain ⟨task₁, threads₁⟩ := getKernelPages_rest pages
  rw [get_bind] at run
  obtain ⟨-, run⟩ := require_bind_eq_ok.mp run
  obtain ⟨ret, s₂, copied, run⟩ := bind_eq_ok.mp run
  split at run
  · cases run
    exact absurd rfl good
  next good₁ =>
  obtain ⟨i, k, outside, unmarked, marked, bits, pgdir, small, apart, lists⟩ := copyProcess_marks copied good₁
  obtain ⟨task, s₃, read, run⟩ := bind_eq_ok.mp run
  obtain ⟨_, looked, rfl⟩ := onThreads_eq_ok.mp read
  obtain rfl := (readTask_eq_ok looked).2
  obtain ⟨_, s₄, joined, run⟩ := bind_eq_ok.mp run
  obtain ⟨_, entered, rfl⟩ := onThreads_eq_ok.mp joined
  cases run
  have bound := kernelBytes_bound s.paging
  have mark := bit_of_marked same
  have pcb : c ≠ i + 22 := by
    have := outside c (by rw [mark, if_pos ⟨Nat.le_refl c, Nat.lt_succ_self c⟩])
    omega
  refine ⟨(Paging.vaddrStart .kernel + c) * pgSize, i, ?_, ?_,
    ⟨marked, bits, ⟨k, pgdir, small, apart⟩, ⟨c, rfl, by omega, pcb⟩⟩⟩
  · rw [enlist, get_bind] at entered
    obtain ⟨-, entered⟩ := require_bind_eq_ok.mp entered
    obtain ⟨-, entered⟩ := require_bind_eq_ok.mp entered
    cases entered
    change s₂.threads.threadAllList ++ _ = _
    rw [lists, threads₁]
  · rw [mark, if_neg (by omega)] at unmarked
    exact unmarked

theorem Leaking.lives (leaking : s.Leaking child i) (lives : Relation.ReflTransGen (LifeStep child) s t) :
    t.Leaking child i := by
  induction lives with
  | refl => exact leaking
  | tail _ step ih => exact ih.step step

/-- However a child lives, its end leaves a page of the kernel's range marked. -/
theorem child_never_reclaimed (s : Spaces) : ¬∃ t child forked last, s.Lifetime t child forked last ∧ s.SameMaps t := by
  rintro ⟨t, child, forked, last, life, same⟩
  obtain ⟨pid, fork, good⟩ := life.fork
  obtain ⟨child', i, born, unmarked, leaking⟩ := sysFork_leaking fork good
  obtain rfl : child = child' := by simpa using life.born.symm.trans born
  obtain ⟨_, _, reaped⟩ := life.reaped
  have marked := ((leaking.lives life.lives).wait life.found reaped).marked
  rw [same.marks, unmarked] at marked
  cases marked

end

end Spaces

def quietSpaces : Spaces := { smallSpaces twoMarks with
  paging := { (smallSpaces twoMarks).paging with
    pool := fun
      | .kernel => twoMarks
      | .user => Memory.zero
    vaddr := fun
      | .kernel => twoMarks
      | .user => Memory.zero
    pde := fun i => if i = 32 then ⟨0, false⟩ else (smallSpaces twoMarks).paging.pde i } }

theorem copyBodyStack3_empty {child bufPage : Nat} (empty : s.paging.vaddr .user = Memory.zero) :
    copyBodyStack3 child parent bufPage s = .ok ((), s) := by
  rw [copyBodyStack3, get_bind]
  dsimp only
  have skip (k : Nat) (x : SpacesM Unit) : Prog.when ((s.paging.vaddrBitmap .user).bits k ≠ 0) x s = .ok ((), s) :=
    run_when_of_not (not_not.mpr (congrFun empty k)) x s
  induction (s.paging.vaddrBitmap .user).btmpBytesLen with
  | zero => rfl
  | succ n ih =>
    rw [Prog.forUpTo, bind_of_ok ih]
    exact skip n _

theorem vaddr_user_of_ranges {q : Paging} {i cnt : Nat} {v : Bool}
    (same : (p.setVaddr .kernel i v cnt).SameRanges q) : q.vaddr .user = p.vaddr .user := by
  rw [same.vaddr, Paging.setVaddr]
  dsimp only
  rw [update_of_ne (by decide)]

theorem Spaces.paging_setTaskSpace (s : Spaces) (x : Nat) (task : TaskSpace) :
    (s.setTaskSpace x task).paging = s.paging := rfl

def quietPcb : Spaces := (getKernelPages 1).final quietSpaces
def quietBuffer : Spaces := (getKernelPages 1).final quietPcb
def quietBitmap : Spaces := (copyPcbVaddrbitmapStack0 0xc0102000 0xc0100000).final quietBuffer
def quietDir : Spaces := createPageDir.final quietBitmap
def quietReady : Spaces := quietDir.setTaskSpace 0xc0102000 { quietDir.task 0xc0102000 with pgdir := some 0xc011b000 }

def quietCounted : Spaces := (onFs updateInodeOpenCnts).final quietReady
def quietFreed : Spaces := (onPaging (mfreePage .kernel 0xc0103000 1)).final quietCounted
def quietForked : Spaces := (onThreads (enlist 0xc0102000 ⟨2, .ready, 31, 31, some 1, 0, true⟩)).final quietFreed

def quietChild : Spaces := (scheduling threadYield).final quietForked
def quietExited : Spaces := (Spaces.sysExit 0).final quietChild
def quietReaped : Spaces := Spaces.sysWait.final quietExited

theorem readTask_of_eq {t : Nat} {task : TaskStruct} (read : s.threads.pcb t = some task) :
    onThreads (readTask t) s = .ok (task, s) :=
  onThreads_of_ok (readTask_eq read)

theorem quiet_forks : Spaces.sysFork quietSpaces = .ok (2, quietForked) := by
  have pcb : getKernelPages 1 quietSpaces = .ok (some 0xc0102000, quietPcb) := run_final_of (by decide +kernel)
  have buffer : getKernelPages 1 quietPcb = .ok (some 0xc0103000, quietBuffer) := run_final_of (by decide +kernel)
  have bitmap : copyPcbVaddrbitmapStack0 0xc0102000 0xc0100000 quietBuffer = .ok (0, quietBitmap) :=
    run_final_of (by decide +kernel)
  have dir : createPageDir quietBitmap = .ok (some 0xc011b000, quietDir) := run_final_of (by decide +kernel)
  have counted : onFs updateInodeOpenCnts quietReady = .ok ((), quietCounted) := run_final_of (by decide +kernel)
  have freed : onPaging (mfreePage .kernel 0xc0103000 1) quietCounted = .ok ((), quietFreed) :=
    run_final_of (by decide +kernel)
  have entered : onThreads (enlist 0xc0102000 ⟨2, .ready, 31, 31, some 1, 0, true⟩) quietFreed =
      .ok ((), quietForked) := run_final_of (by decide +kernel)
  have read : onThreads (readTask 0xc0102000) quietFreed = .ok (⟨2, .ready, 31, 31, some 1, 0, true⟩, quietFreed) :=
    readTask_of_eq (by decide +kernel)
  -- The allocations are in the kernel's range, so the bitmap of the process stays empty.
  have empty : quietReady.paging.vaddr .user = Memory.zero := by
    obtain ⟨_, _, _, _, same₁⟩ := mallocPage_one (getKernelPages_paging pcb)
    obtain ⟨_, _, _, _, same₂⟩ := mallocPage_one (getKernelPages_paging buffer)
    obtain ⟨_, _, same₃, _⟩ := Spaces.copyPcb_marks bitmap (by decide)
    obtain ⟨_, _, _, _, same₄, _⟩ := createPageDir_marks dir
    rw [quietReady, Spaces.paging_setTaskSpace, vaddr_user_of_ranges same₄, vaddr_user_of_ranges same₃,
      vaddr_user_of_ranges same₂, vaddr_user_of_ranges same₁]
    rfl
  have copied : copyProcess 0xc0102000 0xc0100000 quietPcb = .ok (0, quietFreed) := by
    rw [copyProcess, bind_of_ok buffer]
    dsimp only
    rw [bind_of_ok bitmap, if_neg (by decide), bind_of_ok dir, modify_bind, if_neg (by simp)]
    change ((copyBodyStack3 _ _ _ >>= _) quietReady) = _
    rw [bind_of_ok (copyBodyStack3_empty empty), bind_of_ok counted, bind_of_ok freed]
    rfl
  rw [Spaces.sysFork, get_bind]
  change ((getKernelPages 1 >>= _) quietSpaces) = _
  rw [bind_of_ok pcb]
  dsimp only
  rw [get_bind, require_bind (by decide +kernel)]
  change ((copyProcess 0xc0102000 0xc0100000 >>= _) quietPcb) = _
  rw [bind_of_ok copied, if_neg (by decide), bind_of_ok read, bind_of_ok entered]
  rfl

/-- A child that exits at once and is waited for: the last page of its bitmap and the frame of this
page are still taken. -/
theorem child_leaks : ∃ t, quietSpaces.Lifetime t 0xc0102000 quietForked quietExited ∧
    ((quietSpaces.paging.vaddrBitmap .kernel).bit 26 = false ∧ (t.paging.vaddrBitmap .kernel).bit 26 = true) ∧
    (quietSpaces.paging.poolBitmap .kernel).bit 26 = false ∧ (t.paging.poolBitmap .kernel).bit 26 = true := by
  have runs : scheduling threadYield quietForked = .ok ((), quietChild) := run_final_of (by decide +kernel)
  have exits : Spaces.sysExit 0 quietChild = .ok ((), quietExited) := run_final_of (by decide +kernel)
  have waits : Spaces.sysWait quietExited = .ok (.reaped 2 0, quietReaped) := run_final_of (by decide +kernel)
  refine ⟨quietReaped, ⟨⟨2, quiet_forks, by decide⟩, by decide +kernel, ?_, by decide +kernel, ⟨2, 0, waits⟩⟩,
    ⟨by decide, by decide +kernel⟩, by decide, by decide +kernel⟩
  exact .tail (.single (.yield runs)) (.exit (by decide +kernel) exits)

end LaiMiniOs
