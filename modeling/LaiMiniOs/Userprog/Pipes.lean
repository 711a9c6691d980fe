import LaiMiniOs.Shell.PipeCounts
import LaiMiniOs.Userprog.Sharing

/-! Pipes that several tasks share.

The descriptors from 3 on are counted, those that `sys_fd_redirect` makes are not. A run keeps the
page of each pipe for as long as it is needed, and returns it then, if every standard descriptor on
a pipe goes before the last counted descriptor does, if no counted descriptor is redirected, and if
nothing else overwrites the count.
-/

set_option autoImplicit false

namespace LaiMiniOs
open Foundation Prog Function

/-- The pages of the pipes that descriptors are on, and all pages that pipes were made with. -/
structure PipeLedger where
  pages : Ledger Nat
  made : List Nat

variable {pid fd : Nat} {sys : System} {ledger : PipeLedger}

def holdersOf (pages : Ledger Nat) (holder : Nat × Nat) : Option Nat :=
  if 3 ≤ holder.2 then pages holder.1 holder.2 else none

def PipeLedger.install (pages : Ledger Nat) (pid : Nat) (fd : Int) (page : Nat) : Ledger Nat :=
  if fd < 0 then pages else pages.set pid fd.toNat (some page)

def PipeLedger.after (ledger : PipeLedger) (sys : System) (pid : Nat) : Event → PipeLedger
  | .call .pipe [_, fd₀, fd₁] =>
    { pages := install (install ledger.pages pid fd₀ sys.fs.brk) pid fd₁ sys.fs.brk, made := sys.fs.brk :: ledger.made }
  | .call (.redirect oldFd newFd) _ =>
    { ledger with pages := ledger.pages.set pid oldFd (if newFd < 3 then none else ledger.pages pid newFd) }
  | .call (.close fd) _ => if fd ≤ 2 then ledger else { ledger with pages := ledger.pages.set pid fd.toNat none }
  | .fork child => { ledger with pages := update ledger.pages child (ledger.pages pid) }
  | .exit => { ledger with pages := update ledger.pages pid fun _ => none }
  | _ => ledger

/-- A slot that a descriptor names is a standard one, or it has the page of the pipe that the descriptor
is on. A page is in the kernel pool again, once, if and only if no descriptor is on its pipe. -/
structure System.PipesKept (sys : System) (ledger : PipeLedger) : Prop where
  tracked : ∀ pid fd g, fd < maxFilesOpenPerProc → sys.slot pid fd = some g → 3 ≤ g → ledger.pages pid fd ≠ none
  page : ∀ pid fd page, ledger.pages pid fd = some page → ∃ g, sys.slot pid fd = some g ∧
    (sys.fs.fileTable g).fdFlag = pipeFlag ∧
    (sys.fs.fileTable g).fdInode = some page
  kept : ∀ page ∈ ledger.made, (∃ pid fd, ledger.pages pid fd = some page) → page ∉ sys.fs.freedPages
  returned : ∀ page ∈ ledger.made, (∀ pid fd, ledger.pages pid fd ≠ some page) → sys.fs.freedPages.count page = 1

structure System.PipeInv (sys : System) (ledger : PipeLedger) : Prop where
  pipes : sys.fs.Pipes (holdersOf ledger.pages) ledger.made
  named : ∀ pid fd page, ledger.pages pid fd = some page → fd < maxFilesOpenPerProc ∧ ∃ g, sys.slot pid fd = some g ∧
    sys.fs.toKernel.inSlot g = some page
  rest : ∀ pid fd g, fd < maxFilesOpenPerProc → sys.slot pid fd = some g → ledger.pages pid fd = none → g < 3

def PipeLedger.Backed (ledger : PipeLedger) : Prop :=
  ∀ pid fd page, ledger.pages pid fd = some page → ∃ pid' fd', 3 ≤ fd' ∧ ledger.pages pid' fd' = some page

theorem holdersOf_of_ge {pages : Ledger Nat} (high : 3 ≤ fd) : holdersOf pages (pid, fd) = pages pid fd := if_pos high

theorem holdersOf_set_of_ge (pages : Ledger Nat) (pid : Nat) (high : 3 ≤ fd) (entry : Option Nat) :
    holdersOf (pages.set pid fd entry) = update (holdersOf pages) (pid, fd) entry := by
  funext holder
  obtain ⟨pid', fd'⟩ := holder
  by_cases same : (pid', fd') = (pid, fd)
  · cases same
    rw [update_self, holdersOf_of_ge high, Ledger.set_self]
  · rw [update_of_ne same, holdersOf, holdersOf, Ledger.set_of_ne _ _ same]

theorem holdersOf_set_of_lt (pages : Ledger Nat) (pid : Nat) (low : fd < 3) (entry : Option Nat) :
    holdersOf (pages.set pid fd entry) = holdersOf pages := by
  funext holder
  obtain ⟨pid', fd'⟩ := holder
  unfold holdersOf
  split
  · next high =>
    have other : (pid', fd') ≠ (pid, fd) := fun same => absurd (Prod.mk.inj same).2 (by dsimp only at high; omega)
    rw [Ledger.set_of_ne _ _ other]
  · rfl

theorem System.PipeInv.pipesKept (inv : sys.PipeInv ledger) : sys.PipesKept ledger where
  tracked pid fd g low slot high none := absurd (inv.rest pid fd g low slot none) (by omega)
  page pid fd page here := by
    obtain ⟨-, g, slot, inside⟩ := inv.named pid fd page here
    exact ⟨g, slot, inv.pipes.flag g page inside, inside⟩
  kept page _ some := by
    obtain ⟨pid, fd, here⟩ := some
    obtain ⟨-, g, -, inside⟩ := inv.named pid fd page here
    exact (inv.pipes.inUse g page inside).2
  returned page made none := by grind [inv.pipes.returned, inv.pipes.exists_holder, holdersOf]

theorem named_of_backed (inv : sys.PipeInv ledger) {t : Fs} {ledger' : PipeLedger}
    (pipes : t.Pipes (holdersOf ledger'.pages) ledger'.made) (older : ∀ g page, t.toKernel.inSlot g = some page →
    sys.fs.toKernel.inSlot g = some page)
    (backed : ledger'.Backed) {page : Nat} (here : ledger.pages pid fd = some page)
    (here' : ledger'.pages pid fd = some page) :
    fd < maxFilesOpenPerProc ∧ ∃ g, sys.slot pid fd = some g ∧ t.toKernel.inSlot g = some page := by
  obtain ⟨low, g, slot, inside⟩ := inv.named pid fd page here
  obtain ⟨pid', fd', high, companion⟩ := backed pid fd page here'
  obtain ⟨g', left⟩ := pipes.held (pid', fd') page ((holdersOf_of_ge high).trans companion)
  obtain rfl := inv.pipes.apart g g' page inside (older g' page left)
  exact ⟨low, g, slot, left⟩

section
variable {sys : System} {ledger : PipeLedger} {pid : Nat} (inv : sys.PipeInv ledger) {task : Task}
  (live : sys.tasks pid = some task) {s : Fs}
include inv live

theorem pipe_inv {r fd₀ fd₁ : Int} (run : sysPipe (sys.fs.as task) = .ok ((r, fd₀, fd₁), s))
    (room : TwoFree task.fdTable) :
    (sys.called pid task s).PipeInv (ledger.after sys pid (.call .pipe [r, fd₀, fd₁])) := by
  obtain ⟨g, d₀, d₁, rfl, rfl, two, ⟨high₀, low₀⟩, ⟨high₁, low₁⟩, free₀, free₁, fds, high, empty, table, brk, freed⟩ :=
    sysPipe_eq_ok run room
  have none {d : Nat} (free : task.fdTable d = none) : ledger.pages pid d = none := by
    cases here : ledger.pages pid d with
    | none => rfl
    | some page =>
      obtain ⟨-, g', slot, -⟩ := inv.named pid d page here
      rw [System.slot_of_live live, free] at slot
      cases slot
  have after : ledger.after sys pid (.call .pipe [r, d₀, d₁]) =
      ⟨(ledger.pages.set pid d₀ (some sys.fs.brk)).set pid d₁ (some sys.fs.brk), sys.fs.brk :: ledger.made⟩ := by
        grind [PipeLedger.after, PipeLedger.install]
  have named {d : Nat} (which : d = d₀ ∨ d = d₁) : (sys.called pid task s).slot pid d = some g := by
    rw [System.slot_called_self, fds]
    rcases which with rfl | rfl
    · rw [update_of_ne two.symm, update_self]
    · rw [update_self]
  have slot {pid' fd' : Nat} (other₀ : (pid', fd') ≠ (pid, d₀)) (other₁ : (pid', fd') ≠ (pid, d₁)) :
      (sys.called pid task s).slot pid' fd' = sys.slot pid' fd' := by
    by_cases same : pid' = pid
    · subst same
      rw [System.slot_called_self, System.slot_of_live live, fds, update_of_ne fun this => other₁ (by rw [this]),
        update_of_ne fun this => other₀ (by rw [this])]
      rfl
    · exact System.slot_update_of_ne sys s _ same fd'
  rw [after]
  refine ⟨?_, fun pid' fd' page here => ?_, fun pid' fd' g' low here unknown => ?_⟩
  · rw [Fs.Pipes, holdersOf_set_of_ge _ _ high₁, holdersOf_set_of_ge _ _ high₀]
    change LaiMiniOs.Pipes s.fileTable s.freedPages s.brk _ _
    rw [table, freed, brk]
    refine inv.pipes.make high empty (fun same => two (Prod.mk.inj same).2) ?_ ?_
    · rw [holdersOf_of_ge high₀, none free₀]
    · rw [holdersOf_of_ge high₁, none free₁]
  · -- The two new descriptors are on the new page, the others are where they were.
    have inside : s.toKernel.inSlot g = some sys.fs.brk := by
      unfold Kernel.inSlot
      rw [table, update_self]
      rfl
    obtain ⟨⟨⟩, ⟨⟩⟩ | ⟨same₁, here⟩ := Ledger.set_eq here
    · exact ⟨low₁, g, named (.inr rfl), inside⟩
    · obtain ⟨⟨⟩, ⟨⟩⟩ | ⟨same₀, here⟩ := Ledger.set_eq here
      · exact ⟨low₀, g, named (.inl rfl), inside⟩
      · obtain ⟨low, g', was, old⟩ := inv.named pid' fd' page here
        have other : g' ≠ g := by
          rintro rfl
          exact nomatch old.symm.trans empty
        refine ⟨low, g', (slot same₀ same₁).trans was, ?_⟩
        change (s.fileTable g').fdInode = _
        rw [table, update_of_ne other]
        exact old
  · obtain ⟨-, ⟨⟩⟩ | ⟨other₁, unknown⟩ := Ledger.set_eq unknown
    obtain ⟨-, ⟨⟩⟩ | ⟨other₀, unknown⟩ := Ledger.set_eq unknown
    rw [slot other₀ other₁] at here
    exact inv.rest pid' fd' g' low here unknown

theorem redirect_inv {oldFd newFd : Nat} (run : sysFdRedirect oldFd newFd (sys.fs.as task) = .ok ((), s))
    (same : 3 ≤ oldFd → ledger.pages pid oldFd = if newFd < 3 then none else ledger.pages pid newFd) :
    (sys.called pid task s).PipeInv { ledger with
    pages := ledger.pages.set pid oldFd (if newFd < 3 then none else ledger.pages pid newFd) } := by
  obtain ⟨low, low', rfl⟩ := sysFdRedirect_eq_ok run
  have fds : ((sys.fs.as task).setFd oldFd (if newFd < 3 then some newFd else task.fdTable newFd)).fdTable =
      update task.fdTable oldFd (if newFd < 3 then some newFd else task.fdTable newFd) := rfl
  have self := sys.slot_called_self pid task
    ((sys.fs.as task).setFd oldFd (if newFd < 3 then some newFd else task.fdTable newFd)) oldFd
  rw [fds, update_self] at self
  refine ⟨?_, fun pid' fd' page here => ?_, fun pid' fd' g low here unknown => ?_⟩
  · -- No counted descriptor has changed.
    by_cases high : 3 ≤ oldFd
    · rw [holdersOf_set_of_ge _ _ high, ← same high,
        ← (holdersOf_of_ge high : holdersOf ledger.pages (pid, oldFd) = _), update_eq_self]
      exact inv.pipes
    · rw [holdersOf_set_of_lt _ _ (by omega)]
      exact inv.pipes
  · obtain ⟨⟨⟩, found⟩ | ⟨this, here⟩ := Ledger.set_eq here
    · split at found
      · cases found
      · next high =>
        obtain ⟨-, g, was, inside⟩ := inv.named pid newFd page found
        rw [System.slot_of_live live] at was
        refine ⟨low, g, self.trans ?_, inside⟩
        rw [if_neg high, was]
    · obtain ⟨low, g, was, inside⟩ := inv.named pid' fd' page here
      exact ⟨low, g, (System.slot_called_of_ne live fds this).trans was, inside⟩
  · obtain ⟨⟨⟩, none⟩ | ⟨this, unknown⟩ := Ledger.set_eq unknown
    · have here := self.symm.trans here
      split at here
      · next std =>
        cases here
        exact std
      · next high =>
        rw [if_neg high] at none
        exact inv.rest pid newFd g low' ((System.slot_of_live live newFd).trans here) none
    · exact inv.rest pid' fd' g low ((System.slot_called_of_ne live fds this).symm.trans here) unknown

theorem close_inv {fd : Int} (high : 2 < fd) {r : Int} (run : sysClose fd (sys.fs.as task) = .ok (r, s))
    (backed : PipeLedger.Backed { ledger with pages := ledger.pages.set pid fd.toNat none }) :
    (sys.called pid task s).PipeInv { ledger with pages := ledger.pages.set pid fd.toNat none } := by
  have high' : 3 ≤ fd.toNat := by omega
  have entry : holdersOf ledger.pages (pid, fd.toNat) = ledger.pages pid fd.toNat := holdersOf_of_ge high'
  obtain ⟨-, u, pipes, same, rfl⟩ := sysClose_pipes (s := sys.fs.as task) inv.pipes high (h := (pid, fd.toNat))
    (fun page here => by
      rw [entry] at here
      obtain ⟨-, g, slot, inside⟩ := inv.named pid fd.toNat page here
      exact ⟨g, (System.slot_of_live live _).symm.trans slot, inside⟩)
    (fun low none g named => by
      rw [entry] at none
      exact inv.rest pid fd.toNat g low ((System.slot_of_live live _).trans named) none) run
  rw [← holdersOf_set_of_ge _ _ high'] at pipes
  have fds : (u.setFd fd.toNat none).fdTable = update task.fdTable fd.toNat none := by
    rw [Fs.setFd, same.fdTable]
    rfl
  refine ⟨pipes, fun pid' fd' page here => ?_, fun pid' fd' g low here unknown => ?_⟩
  · obtain ⟨-, ⟨⟩⟩ | ⟨other, was⟩ := Ledger.set_eq here
    obtain ⟨low, g, slot, inside⟩ := named_of_backed inv pipes same.older backed was here
    exact ⟨low, g, (System.slot_called_of_ne live fds other).trans slot, inside⟩
  · dsimp only at unknown
    have other : (pid', fd') ≠ (pid, fd.toNat) := by
      rintro ⟨⟩
      rw [System.slot_called_self, fds, update_self] at here
      cases here
    rw [Ledger.set_of_ne _ _ other] at unknown
    exact inv.rest pid' fd' g low ((System.slot_called_of_ne live fds other).symm.trans here) unknown

def forkHolders (pages : Ledger Nat) (pid child k : Nat) (holder : Nat × Nat) : Option Nat :=
  if holder.1 = child then if 3 ≤ holder.2 ∧
    holder.2 < 3 + k then pages pid holder.2 else none else holdersOf pages holder

omit inv live in
theorem forkHolders_succ (pages : Ledger Nat) (pid child k : Nat) :
    forkHolders pages pid child (k + 1) = update (forkHolders pages pid child k) (child, 3 + k)
      (pages pid (3 + k)) := by
  funext holder
  obtain ⟨pid', fd'⟩ := holder
  by_cases same : (pid', fd') = (child, 3 + k)
  · cases same
    rw [update_self, forkHolders, if_pos rfl, if_pos ⟨by dsimp only; omega, by dsimp only; omega⟩]
  · rw [update_of_ne same]
    unfold forkHolders
    dsimp only
    split
    · next here =>
      have other : fd' ≠ 3 + k := fun this => same (by rw [here, this])
      exact if_congr (by omega) rfl rfl
    · rfl

theorem fork_inv {child : Nat} (new : sys.tasks child = none)
    (room : ∀ g, (sys.fs.fileTable g).fdPos.toNat + 8 < 2 ^ 32)
    (run : updateInodeOpenCnts (sys.fs.as task) = .ok ((), s)) :
    System.PipeInv ⟨s, update sys.tasks child (some { task with parentPid := some pid })⟩
      { ledger with pages := update ledger.pages child (ledger.pages pid) } := by
  have unknown (fd : Nat) : ledger.pages child fd = none := by
    cases here : ledger.pages child fd with
    | none => rfl
    | some page =>
      obtain ⟨-, g, slot, -⟩ := inv.named child fd page here
      rw [System.slot, new] at slot
      cases slot
  have all : s.Pipes (forkHolders ledger.pages pid child 5) ledger.made ∧ (sys.fs.as task).SamePipes s ∧
      (∀ g, s.toKernel.inSlot g = sys.fs.toKernel.inSlot g) ∧
        ∀ g, (s.fileTable g).fdPos.toNat ≤ (sys.fs.fileTable g).fdPos.toNat + 5 := by
    refine forUpTo_partial (I := fun k t => t.Pipes (forkHolders ledger.pages pid child k) ledger.made ∧
      (sys.fs.as task).SamePipes t ∧
      (∀ g, t.toKernel.inSlot g = sys.fs.toKernel.inSlot g) ∧
        ∀ g, (t.fileTable g).fdPos.toNat ≤ (sys.fs.fileTable g).fdPos.toNat + k)
      ?_ (fun k t t' low before round => ?_) run
    · have start : forkHolders ledger.pages pid child 0 = holdersOf ledger.pages := by grind [forkHolders, holdersOf]
      rw [start]
      exact ⟨inv.pipes, ⟨rfl, fun _ _ inside => inside⟩, fun _ => rfl, fun _ => Nat.le_refl _⟩
    · have low : k < 5 := low
      obtain ⟨pipes, same, slots, pos⟩ := before
      have fds (fd : Nat) : t.fdTable fd = sys.slot pid fd := by
        rw [same.fdTable, System.slot_of_live live]
        rfl
      obtain ⟨pipes', same', slots', pos'⟩ :=
        countFd_pipes pipes (3 + k) (h := (child, 3 + k)) (ledger.pages pid (3 + k))
        (by rw [forkHolders, if_pos rfl, if_neg (by dsimp only; omega)])
        (fun page here => by
          obtain ⟨-, g, slot, inside⟩ := inv.named pid (3 + k) page here
          exact ⟨g, (fds _).trans slot, (slots g).trans inside⟩)
        (fun none g named => inv.rest pid (3 + k) g (by unfold maxFilesOpenPerProc; omega)
          ((fds _).symm.trans named) none)
        (fun g => by have := pos g; have := room g; omega) round
      rw [← forkHolders_succ] at pipes'
      exact ⟨pipes', same.trans same', fun g => (slots' g).trans (slots g), fun g =>
        by have := pos g; have := pos' g; omega⟩
  obtain ⟨pipes, -, slots, -⟩ := all
  have finish : forkHolders ledger.pages pid child 5 = holdersOf (update ledger.pages child (ledger.pages pid)) := by
    funext holder
    obtain ⟨pid', fd'⟩ := holder
    unfold forkHolders holdersOf
    dsimp only
    split
    · next here =>
      rw [here, update_self]
      by_cases low : fd' < 8
      · exact if_congr (by omega) rfl rfl
      · have none : ledger.pages pid fd' = none := by
          cases this : ledger.pages pid fd' with
          | none => rfl
          | some page => exact absurd (inv.named pid fd' page this).1 (by unfold maxFilesOpenPerProc; omega)
        rw [none, ite_self, ite_self]
    · next here => rw [update_of_ne here]
  rw [finish] at pipes
  -- The child has the descriptors of its parent.
  have slot (fd : Nat) : System.slot ⟨s, update sys.tasks child (some { task with parentPid := some pid })⟩ child fd =
      sys.slot pid fd := by
    rw [System.slot_of_live live, System.slot]
    dsimp only
    rw [update_self]
    rfl
  refine ⟨pipes, fun pid' fd' page here => ?_, fun pid' fd' g low here none => ?_⟩
  · dsimp only at here
    by_cases same : pid' = child
    · subst same
      rw [update_self] at here
      obtain ⟨low, g, was, inside⟩ := inv.named pid fd' page here
      exact ⟨low, g, (slot fd').trans was, (slots g).trans inside⟩
    · rw [update_of_ne same] at here
      obtain ⟨low, g, was, inside⟩ := inv.named pid' fd' page here
      exact ⟨low, g, (System.slot_update_of_ne sys s _ same fd').trans was, (slots g).trans inside⟩
  · dsimp only at none
    by_cases same : pid' = child
    · subst same
      rw [update_self] at none
      exact inv.rest pid fd' g low ((slot fd').symm.trans here) none
    · rw [update_of_ne same] at none
      exact inv.rest pid' fd' g low ((System.slot_update_of_ne sys s _ same fd').symm.trans here) none

def exitHolders (pages : Ledger Nat) (pid k : Nat) (holder : Nat × Nat) : Option Nat :=
  if holder.1 = pid ∧ 3 ≤ holder.2 ∧ holder.2 < 3 + k then none else holdersOf pages holder

omit inv live in
theorem exitHolders_succ (pages : Ledger Nat) (pid k : Nat) :
    exitHolders pages pid (k + 1) = update (exitHolders pages pid k) (pid, 3 + k) none := by
  funext holder
  obtain ⟨pid', fd'⟩ := holder
  by_cases same : (pid', fd') = (pid, 3 + k)
  · cases same
    rw [update_self, exitHolders, if_pos ⟨rfl, by dsimp only; omega, by dsimp only; omega⟩]
  · rw [update_of_ne same]
    unfold exitHolders
    dsimp only
    refine if_congr ⟨fun ⟨here, high, low⟩ => ⟨here, high, ?_⟩, fun ⟨here, high, low⟩ => ⟨here, high, by omega⟩⟩ rfl rfl
    have other : fd' ≠ 3 + k := fun this => same (by rw [here, this])
    omega

theorem exit_inv (run : releaseProgResource (sys.fs.as task) = .ok ((), s))
    (backed : PipeLedger.Backed { ledger with pages := update ledger.pages pid fun _ => none }) :
    System.PipeInv ⟨s, update (fun other => (sys.tasks other).map (Task.adopted pid)) pid none⟩
      { ledger with pages := update ledger.pages pid fun _ => none } := by
  have all : s.Pipes (exitHolders ledger.pages pid 5) ledger.made ∧ (sys.fs.as task).SamePipes s := by
    refine forUpTo_partial (I := fun k t => t.Pipes (exitHolders ledger.pages pid k) ledger.made ∧
      (sys.fs.as task).SamePipes t)
      ?_ (fun k t t' low before round => ?_) run
    · have start : exitHolders ledger.pages pid 0 = holdersOf ledger.pages := by
        funext holder
        exact if_neg (by omega)
      rw [start]
      exact ⟨inv.pipes, rfl, fun _ _ inside => inside⟩
    · have low : k < 5 := low
      obtain ⟨pipes, same⟩ := before
      have fds (fd : Nat) : t.fdTable fd = sys.slot pid fd := by
        rw [same.fdTable, System.slot_of_live live]
        rfl
      have entry : exitHolders ledger.pages pid k (pid, 3 + k) = ledger.pages pid (3 + k) := by
        rw [exitHolders, if_neg (by dsimp only; omega), holdersOf_of_ge (by omega)]
      obtain ⟨pipes', same'⟩ := releaseFd_pipes pipes (show 2 < 3 + k by omega) (h := (pid, 3 + k))
        (fun page here => by
          -- The slot that the descriptor names is the one with the page, which is still there.
          obtain ⟨g', left⟩ := pipes.held (pid, 3 + k) page here
          rw [entry] at here
          obtain ⟨-, g, slot, inside⟩ := inv.named pid (3 + k) page here
          obtain rfl := inv.pipes.apart g g' page inside (same.older g' page left)
          exact ⟨g, (fds _).trans slot, left⟩)
        (fun none g named => by
          rw [entry] at none
          exact inv.rest pid (3 + k) g (by unfold maxFilesOpenPerProc; omega) ((fds _).symm.trans named) none) round
      rw [← exitHolders_succ] at pipes'
      exact ⟨pipes', same.trans same'⟩
  obtain ⟨pipes, same⟩ := all
  have finish : exitHolders ledger.pages pid 5 = holdersOf (update ledger.pages pid fun _ => none) := by
    funext holder
    obtain ⟨pid', fd'⟩ := holder
    unfold exitHolders holdersOf
    dsimp only
    by_cases here : pid' = pid
    · rw [here, update_self, ite_self]
      split
      · rfl
      · next outside =>
        split
        · next high =>
          cases this : ledger.pages pid fd' with
          | none => rfl
          | some page =>
            have low := (inv.named pid fd' page this).1
            exact absurd ⟨rfl, high, by unfold maxFilesOpenPerProc at low; omega⟩ outside
        · rfl
    · rw [update_of_ne here, if_neg fun both => here both.1]
  rw [finish] at pipes
  have slot {pid' : Nat} (other : pid' ≠ pid) (fd : Nat) :
      System.slot ⟨s, update (fun other => (sys.tasks other).map (Task.adopted pid)) pid none⟩ pid' fd =
        sys.slot pid' fd :=
    System.slot_exit_of_ne sys s other fd
  refine ⟨pipes, fun pid' fd' page here => ?_, fun pid' fd' g low here none => ?_⟩
  · have other : pid' ≠ pid := by
      rintro rfl
      dsimp only at here
      rw [update_self] at here
      cases here
    have was := here
    dsimp only at was
    rw [update_of_ne other] at was
    obtain ⟨low, g, named, inside⟩ := named_of_backed inv pipes same.older backed was here
    exact ⟨low, g, (slot other fd').trans named, inside⟩
  · have other : pid' ≠ pid := by grind [System.slot]
    dsimp only at none
    rw [update_of_ne other] at none
    exact inv.rest pid' fd' g low ((slot other fd').symm.trans here) none

theorem idle_inv : (sys.called pid task (sys.fs.as task)).PipeInv ledger where
  pipes := inv.pipes
  named pid' fd' page here := by
    rw [System.slot_called live rfl]
    exact inv.named pid' fd' page here
  rest pid' fd' g low here unknown := by
    rw [System.slot_called live rfl] at here
    exact inv.rest pid' fd' g low here unknown

end

def Event.OnPipes : Event → Prop
  | .call .pipe _ => True
  | .call (.redirect _ _) _ => True
  | .call (.close _) _ => True
  | .call (.lseek _ _ _) _ => True
  | .call _ _ => False
  | .fork _ => True
  | .exit => True

/-- A new pipe gets its two descriptors. No counted descriptor is redirected, except onto one of the
same pipe. The last counted descriptor of a pipe goes after the others. The count is not set by
`sys_lseek`, which takes the word behind the page for the size of a file, and does not wrap. -/
def Event.Orderly (sys : System) (ledger : PipeLedger) (pid : Nat) : Event → Prop
  | .call .pipe _ => TwoFree (sys.slot pid)
  | .call (.redirect oldFd newFd) _ => 3 ≤ oldFd →
      ledger.pages pid oldFd = if newFd < 3 then none else ledger.pages pid newFd
  | .call (.close fd) answer => (ledger.after sys pid (.call (.close fd) answer)).Backed
  | .call (.lseek fd offset whence) _ => fd < 0 ∨ ∀ g p, sys.slot pid fd.toNat = some g →
      (sys.fs.fileTable g).fdInode = some p → sys.fs.SeeksOutside g p offset whence
  | .call _ _ => True
  | .fork _ => ∀ g, (sys.fs.fileTable g).fdPos.toNat + 8 < 2 ^ 32
  | .exit => (ledger.after sys pid .exit).Backed

structure PipeStep (before : System × PipeLedger) (pid : Nat) (event : Event) (after : System × PipeLedger) : Prop where
  step : before.1.Step pid event after.1
  onPipes : event.OnPipes
  ledger : after.2 = before.2.after before.1 pid event

theorem PipeStep.inv {before after : System × PipeLedger} {event : Event} (step : PipeStep before pid event after)
    (orderly : event.Orderly before.1 before.2 pid) (inv : before.1.PipeInv before.2) : after.1.PipeInv after.2 := by
  obtain ⟨sys, ledger⟩ := before
  obtain ⟨sys', ledger'⟩ := after
  obtain ⟨step, onPipes, same⟩ := step
  dsimp only at step onPipes orderly inv same ⊢
  subst same
  cases step with
  | @call task call answer s live run =>
    cases call with
    | pipe =>
      obtain ⟨⟨r, fd₀, fd₁⟩, t, pipe, last⟩ := bind_eq_ok.mp run
      cases last
      rw [Event.Orderly, funext (System.slot_of_live live)] at orderly
      exact pipe_inv inv live pipe orderly
    | redirect oldFd newFd =>
      obtain ⟨_, t, redirect, last⟩ := bind_eq_ok.mp run
      cases last
      exact redirect_inv inv live redirect orderly
    | close fd =>
      obtain ⟨r, t, close, last⟩ := bind_eq_ok.mp run
      cases last
      dsimp only [PipeLedger.after, Event.Orderly] at orderly ⊢
      by_cases high : 2 < fd
      · rw [if_neg (by omega)] at orderly ⊢
        exact close_inv inv live high close orderly
      · rw [if_pos (by omega)]
        rw [sysClose, if_pos (by omega)] at close
        cases close
        exact idle_inv inv live
    | lseek fd offset whence =>
      obtain ⟨r, t, lseek, last⟩ := bind_eq_ok.mp run
      cases last
      simp only [Event.Orderly, System.slot_of_live live] at orderly
      obtain rfl := sysLseek_refused lseek orderly
      exact idle_inv inv live
    | _ => exact onPipes.elim
  | @fork task child s live user new run => exact fork_inv inv live new orderly run
  | @exit task s live parent run => exact exit_inv inv live run orderly

structure System.NoPipes (sys : System) : Prop where
  empty : ∀ g, (sys.fs.fileTable g).fdInode = none
  std : ∀ g, g < 3 → (sys.fs.fileTable g).fdFlag ≠ pipeFlag
  slots : ∀ pid fd g, sys.slot pid fd = some g → g < 3
  freed : ∀ page ∈ sys.fs.freedPages, page < sys.fs.brk

def PipeLedger.empty : PipeLedger := ⟨fun _ _ => none, []⟩

theorem System.NoPipes.inv (start : sys.NoPipes) : sys.PipeInv .empty where
  pipes := by
    have none (g page : Nat) : (sys.fs.fileTable g).fdInode ≠ some page := by
      rw [start.empty g]
      exact (nomatch ·)
    refine ⟨fun g page here => absurd here (none g page), fun g page here => absurd here (none g page),
      fun g page here => absurd here (none g page),
      fun g _ page here => absurd here (none g page), fun holder page held => ?_, fun g page here =>
        absurd here (none g page),
      fun page made => absurd made List.not_mem_nil, fun page which => ?_, fun g low =>
        ⟨start.empty g, start.std g low⟩⟩
    · unfold holdersOf PipeLedger.empty at held
      rw [ite_self] at held
      cases held
    · exact start.freed page (which.resolve_left List.not_mem_nil)
  named _ _ _ here := nomatch here
  rest pid fd g _ here _ := start.slots pid fd g here

def OrderlyStep (before after : System × PipeLedger) : Prop :=
  ∃ pid event, PipeStep before pid event after ∧ event.Orderly before.1 before.2 pid

/-- In a run of such operations the slot of every descriptor on a pipe has the page of the pipe, and
the page goes back to the kernel pool with the last descriptor. -/
theorem pipes_keep_pages {sys : System} (start : sys.NoPipes) {after : System × PipeLedger}
    (run : Relation.ReflTransGen OrderlyStep (sys, .empty) after) : after.1.PipesKept after.2 := by
  refine System.PipeInv.pipesKept ?_
  induction run with
  | refl => exact start.inv
  | tail _ step ih =>
    obtain ⟨pid, event, step, orderly⟩ := step
    exact step.inv orderly ih

theorem smallSystem_noPipes : smallSystem.NoPipes where
  empty _ := rfl
  std g _ := by
    change (0 : Word) ≠ pipeFlag
    decide
  slots pid fd g here := by
    unfold System.slot smallSystem at here
    dsimp only at here
    split at here
    · grind [userTask]
    · cases here
  freed _ member := absurd member List.not_mem_nil

theorem PipeStep.call {task : Task} {call : Call} {answer : List Int} {s : Fs}
    (live : sys.tasks pid = some task) (run : call.run (sys.fs.as task) = .ok (answer, s))
    (onPipes : (Event.call call answer).OnPipes) :
    PipeStep (sys, ledger) pid (.call call answer)
      (sys.called pid task s, ledger.after sys pid (.call call answer)) := ⟨.call live run, onPipes, rfl⟩

theorem pipe_fork : ∃ after, Relation.ReflTransGen OrderlyStep (smallSystem, .empty) after ∧
    after.2.pages 1 3 = some smallTree.brk ∧ after.2.pages 2 4 = some smallTree.brk := by
  obtain ⟨fds, s', run, passed⟩ := exists_of_yields (s := smallTree.as userTask)
    (x := do
      let fds ← sysPipe
      updateInodeOpenCnts
      return fds)
    (c := fun fds _ => fds == (0, 3, 4)) (by decide +kernel)
  obtain ⟨_, s, pipe, run⟩ := bind_eq_ok.mp run
  obtain ⟨_, t, fork, last⟩ := bind_eq_ok.mp run
  cases last
  obtain rfl := eq_of_beq passed
  have first : PipeStep (smallSystem, .empty) 1 (.call .pipe [0, 3, 4]) _ :=
    .call (show _ = some userTask from rfl) (bind_of_ok pipe) trivial
  have second (ledger : PipeLedger) : PipeStep (smallSystem.called 1 userTask s, ledger) 1 (.fork 2)
      (⟨s', _⟩, ledger.after smallSystem 1 (.fork 2)) :=
    ⟨.fork (show _ = some (userTask.after s) from rfl) rfl rfl fork, trivial, rfl⟩
  have orderly : (Event.call .pipe [0, 3, 4]).Orderly smallSystem .empty 1 :=
    ⟨3, 4, by decide, by decide, by decide, rfl, rfl⟩
  refine ⟨_, (Relation.ReflTransGen.single ⟨1, _, first, orderly⟩).tail ⟨1, _, second _, fun g => ?_⟩, rfl, rfl⟩
  · -- The count of the new pipe is 2, and no other slot is in use.
    obtain ⟨g', -, -, -, -, -, -, -, -, -, -, -, -, table, -, -⟩ :=
      sysPipe_eq_ok pipe ⟨3, 4, by decide, by decide, by decide, rfl, rfl⟩
    change (s.fileTable g).fdPos.toNat + 8 < 2 ^ 32
    rw [table]
    by_cases same : g = g'
    · subst same
      rw [update_self]
      decide
    · rw [update_of_ne same]
      change (0 : Word).toNat + 8 < 2 ^ 32
      decide

theorem pipes_keep_pages_fork : smallSystem.NoPipes ∧
    ∃ after, Relation.ReflTransGen OrderlyStep (smallSystem, .empty) after ∧
    after.2.pages 1 3 = some smallTree.brk ∧ after.2.pages 2 4 = some smallTree.brk ∧ after.1.PipesKept after.2 := by
  obtain ⟨after, run, mine, child⟩ := pipe_fork
  exact ⟨smallSystem_noPipes, after, run, mine, child, pipes_keep_pages smallSystem_noPipes run⟩

/-- A process makes a pipe, puts its end for writing on the standard output and closes the two
descriptors it got: the page is gone, and the standard output is still on the pipe. -/
theorem redirect_loses_page : smallSystem.NoPipes ∧ ∃ after,
    Relation.ReflTransGen (fun before after => ∃ pid event, PipeStep before pid event after)
      (smallSystem, .empty) after ∧
    after.1.slot 1 1 = some 3 ∧ after.2.pages 1 1 = some smallTree.brk ∧ smallTree.brk ∈ after.1.fs.freedPages ∧
      ¬ after.1.PipesKept after.2 := by
  obtain ⟨answers, s₄, run, passed⟩ := exists_of_yields (s := smallTree.as userTask)
    (x := do
      let fds ← sysPipe
      sysFdRedirect 1 4
      let r ← sysClose 3
      let r' ← sysClose 4
      return (fds, r, r'))
    (c := fun answers s₄ => answers == ((0, 3, 4), 0, 0) && s₄.fdTable 1 == some 3 && s₄.freedPages ==
      [smallTree.brk]) (by decide +kernel)
  obtain ⟨fds, s₁, pipe, run⟩ := bind_eq_ok.mp run
  obtain ⟨_, s₂, redirect, run⟩ := bind_eq_ok.mp run
  obtain ⟨r, s₃, close, run⟩ := bind_eq_ok.mp run
  obtain ⟨r', t, close', last⟩ := bind_eq_ok.mp run
  cases last
  simp only [Bool.and_eq_true, beq_iff_eq, Prod.mk.injEq] at passed
  obtain ⟨⟨⟨rfl, rfl, rfl⟩, named⟩, freed⟩ := passed
  have gone : smallTree.brk ∈ s₄.freedPages := by
    rw [freed]
    exact List.mem_singleton_self _
  have first : PipeStep (smallSystem, .empty) 1 (.call .pipe [0, 3, 4]) _ :=
    .call (show _ = some userTask from rfl) (bind_of_ok pipe) trivial
  have second (ledger : PipeLedger) : PipeStep (smallSystem.called 1 userTask s₁, ledger) 1 (.call (.redirect 1 4) [])
      (_, ledger.after _ 1 _) :=
    .call (show _ = some (userTask.after s₁) from rfl) (bind_of_ok redirect) trivial
  have third (ledger : PipeLedger) :
      PipeStep ((smallSystem.called 1 userTask s₁).called 1 _ s₂, ledger) 1 (.call (.close 3) [0])
        (_, ledger.after _ 1 _) :=
    .call (show _ = some ((userTask.after s₁).after s₂) from rfl) (bind_of_ok close) trivial
  have fourth (ledger : PipeLedger) :
      PipeStep (((smallSystem.called 1 userTask s₁).called 1 (userTask.after s₁) s₂).called 1 _ s₃, ledger) 1
        (.call (.close 4) [0]) (_, ledger.after _ 1 _) :=
    .call (show _ = some (((userTask.after s₁).after s₂).after s₃) from rfl) (bind_of_ok close') trivial
  refine ⟨smallSystem_noPipes, _,
    (((Relation.ReflTransGen.single ⟨1, _, first⟩).tail ⟨1, _, second _⟩).tail ⟨1, _, third _⟩).tail ⟨1, _, fourth _⟩,
    ?_, rfl, gone, fun kept => kept.kept smallTree.brk (List.mem_singleton_self _) ⟨1, 1, rfl⟩ gone⟩
  rw [System.slot_called_self]
  exact named

end LaiMiniOs
