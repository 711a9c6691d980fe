import LaiMiniOs.Fs.Slots
import LaiMiniOs.Userprog.Tasks

/-! Descriptors that several tasks share.

`sys_fork` gives the child the descriptors of its parent and counts a user more for each inode,
but parent and child then name the same slots of `file_table`, and closing a descriptor empties its
slot. A task keeps the files that it has open as long as nobody else closes a slot that it names.
-/

set_option autoImplicit false

namespace LaiMiniOs
open Foundation Prog Function

section
variable {s t t' : Fs} (counted : s.Counted)
include counted

theorem countFd_holds (roomy : s.toKernel.Roomy) {held : List Nat} (few : held.length ≤ 6) {fd : Nat}
    (holds : s.Holds held t)
    (run : countFd fd t = .ok ((), t')) : ∃ held', held'.length ≤ held.length + 1 ∧ s.Holds held' t' := by
  unfold countFd at run
  rw [get_bind] at run
  cases here : t.fdTable fd with
  | none =>
    rw [here] at run
    cases run
    exact ⟨held, Nat.le_succ _, holds⟩
  | some g =>
    rw [here] at run
    obtain ⟨-, run⟩ := require_bind_eq_ok.mp run
    obtain ⟨pipe, u, check, run⟩ := bind_eq_ok.mp run
    obtain ⟨rfl, -, g', here', -, rfl⟩ := isPipe_eq_ok check
    have counted' := counted.of_holds holds
    rw [if_neg fun same => counted'.plain g' (eq_of_beq same), get_bind] at run
    cases inside : (t.fileTable g).fdInode with
    | none =>
      rw [inside] at run
      cases run
    | some p =>
      rw [inside] at run
      cases run
      refine ⟨p :: held, Nat.le_refl _, ?_⟩
      exact ⟨holds.cache.again roomy few (counted'.mem inside) rfl rfl, holds.geometry, holds.rootDir,
        holds.fileTable, holds.fdTable, holds.freedPages⟩

theorem updateInodeOpenCnts_holds (roomy : s.toKernel.Roomy) (run : updateInodeOpenCnts s = .ok ((), t)) :
    ∃ held, s.Holds held t := by
  have all : ∃ held : List Nat, held.length ≤ 5 ∧ s.Holds held t := by
    refine forUpTo_partial (I := fun k t => ∃ held : List Nat, held.length ≤ k ∧ s.Holds held t) ?_
      (fun k u u' low some run => ?_) run
    · exact ⟨[], Nat.le_refl _, .refl (counted.ready roomy)⟩
    · grind [countFd_holds]
  obtain ⟨held, -, holds⟩ := all
  exact ⟨held, holds⟩

/-- The slots that the first descriptors name have been emptied, the others are as they were. -/
structure Fs.Emptied (s : Fs) (last : Nat) (t : Fs) : Prop where
  counted : t.Counted
  empty : ∀ fd g, 3 ≤ fd → fd < last → s.fdTable fd = some g → t.toKernel.inSlot g = none
  others : ∀ g, (∀ fd, 3 ≤ fd → fd < last → s.fdTable fd ≠ some g) → s.SameSlot t g
  fds : ∀ fd, last ≤ fd → t.fdTable fd = s.fdTable fd

omit counted in
theorem releaseFd_empties {last : Nat} (high : 3 ≤ last) (emptied : s.Emptied last t)
    (run : releaseFd last t = .ok ((), t')) :
    s.Emptied (last + 1) t' := by
  have split (fd : Nat) (low : fd < last + 1) : fd < last ∨ fd = last := by omega
  unfold releaseFd at run
  rw [get_bind] at run
  cases here : t.fdTable last with
  | none =>
    rw [here] at run
    cases run
    have here' : s.fdTable last = none := by rw [← emptied.fds last (Nat.le_refl _), here]
    refine ⟨emptied.counted, fun fd g above low named => ?_, fun g apart => ?_, fun fd above =>
      emptied.fds fd (by omega)⟩
    · grind [emptied.empty]
    · exact emptied.others g fun fd above low => apart fd above (by omega)
  | some g₀ =>
    rw [here] at run
    dsimp only at run
    obtain ⟨pipe, u, check, run⟩ := bind_eq_ok.mp run
    obtain ⟨rfl, -, g', -, -, rfl⟩ := isPipe_eq_ok check
    rw [if_neg fun same => emptied.counted.plain g' (eq_of_beq same)] at run
    obtain ⟨_, u, close, run⟩ := bind_eq_ok.mp run
    cases run
    obtain ⟨g, u, named, -, closes, rfl⟩ := sysClose_closes emptied.counted (by omega) close
    rw [Int.toNat_natCast] at named
    have named' : s.fdTable last = some g := by rw [← emptied.fds last (Nat.le_refl _), named]
    refine ⟨closes.counted.setFd _ _, fun fd g' above low mine => ?_, fun g' apart => ?_, fun fd above => ?_⟩
    · by_cases this : g' = g
      · rw [this]
        exact closes.empty
      · rcases split fd low with low | rfl
        · exact (closes.others g' this).inSlot.trans (emptied.empty fd g' above low mine)
        · exact absurd (Option.some.inj (mine.symm.trans named')) this
    · have other : g' ≠ g := fun this => apart last high (Nat.lt_succ_self _) (this ▸ named')
      have first := emptied.others g' fun fd above low => apart fd above (by omega)
      exact (first.trans (closes.others g' other)).setFd _ _
    · have apart : fd ≠ last := by omega
      have table : (u.setFd (last : Int).toNat none).fdTable fd = u.fdTable fd := update_of_ne apart _ _
      rw [table, closes.fdTable, emptied.fds fd (by omega)]

theorem releaseProgResource_empties (run : releaseProgResource s = .ok ((), t)) : s.Emptied maxFilesOpenPerProc t := by
  refine forUpTo_partial (I := fun k t => s.Emptied (3 + k) t) ?_ (fun k u u' _ emptied run => ?_) run
  · exact ⟨counted, fun fd g above low => absurd above (by omega), fun g _ => .refl s g, fun _ _ => rfl⟩
  · exact releaseFd_empties (Nat.le_add_right 3 k) emptied run

end

def System.behind (sys : System) (pid fd : Nat) : Option Nat := (sys.slot pid fd).bind sys.fs.toKernel.inSlot

/-- The inode numbers of the descriptors that tasks have opened or inherited and not closed, after the
task `pid` has done something that led to `sys`. -/
def Ledger.after (ledger : Ledger Word) (pid : Nat) (sys : System) : Event → Ledger Word
  | .call (.open _ _ _) [fd] =>
    if fd < 0 then ledger else ledger.set pid fd.toNat ((sys.behind pid fd.toNat).map fun p => (sys.fs.heap p).iNo)
  | .call (.close fd) _ => if fd ≤ 2 then ledger else ledger.set pid fd.toNat none
  | .fork child => update ledger child (ledger pid)
  | .exit => update ledger pid fun _ => none
  | _ => ledger

/-- Every descriptor in the ledger names a slot with its inode, which is cached. -/
def System.Faithful (sys : System) (ledger : Ledger Word) : Prop :=
  ∀ pid fd i, ledger pid fd = some i → ∃ p, sys.behind pid fd = some p ∧ p ∈ sys.fs.openInodes ∧ (sys.fs.heap p).iNo = i

/-- The operations on files that are considered. A user process that creates a file would have the
inode structure in its own memory, where other tasks cannot see it. -/
def Event.OnFiles (sys : System) (pid : Nat) : Event → Prop
  | .call (.open _ _ flags) _ => creates flags → ∀ task, sys.tasks pid = some task → task.user = false
  | .call (.close _) _ => True
  | .call (.read _ _) _ => True
  | .call _ _ => False
  | .fork _ => True
  | .exit => True

def Event.Unshared (sys : System) (ledger : Ledger Word) (pid : Nat) : Event → Prop
  | .call (.close fd) _ => 2 < fd → ∀ pid' fd', (pid', fd') ≠ (pid, fd.toNat) → ledger pid' fd' ≠ none →
      sys.slot pid' fd' ≠ sys.slot pid fd.toNat
  | .exit => ∀ pid' fd', pid' ≠ pid → ledger pid' fd' ≠ none → ∀ fd, 3 ≤ fd → fd < maxFilesOpenPerProc →
      sys.slot pid' fd' ≠ sys.slot pid fd
  | _ => True

/-- One operation on files, and what becomes of the ledger. No count is about to wrap. -/
structure FileStep (before : System × Ledger Word) (pid : Nat) (event : Event) (after : System × Ledger Word) :
    Prop where
  step : before.1.Step pid event after.1
  onFiles : event.OnFiles before.1 pid
  roomy : before.1.fs.toKernel.Roomy
  ledger : after.2 = before.2.after pid after.1 event

theorem Fs.Counted.as {s : Fs} (counted : s.Counted) (task : Task) : (s.as task).Counted :=
  ⟨counted.layout, ⟨counted.sound.fresh, counted.sound.nodup, counted.sound.counted⟩, counted.plain, counted.slots⟩

theorem System.Faithful.keep {sys sys' : System} {ledger : Ledger Word} (counted : sys'.fs.Counted) {pid fd : Nat}
    {i : Word}
    (faithful : sys.Faithful ledger) (here : ledger pid fd = some i) (slot : sys'.slot pid fd = sys.slot pid fd)
    (same : ∀ g, sys.slot pid fd = some g → sys.fs.SameSlot sys'.fs g) :
    ∃ p, sys'.behind pid fd = some p ∧ p ∈ sys'.fs.openInodes ∧ (sys'.fs.heap p).iNo = i := by
  obtain ⟨p, behind, -, number⟩ := faithful pid fd i here
  obtain ⟨g, named, inside⟩ := Option.bind_eq_some_iff.mp behind
  have inside' := (same g named).inSlot.trans inside
  refine ⟨p, ?_, counted.mem inside', ((same g named).iNo p inside).trans number⟩
  rw [System.behind, slot, named]
  exact inside'

theorem System.Faithful.inSlot {sys : System} {ledger : Ledger Word} (faithful : sys.Faithful ledger) {pid fd : Nat}
    {i : Word}
    (here : ledger pid fd = some i) {g : Nat} (named : sys.slot pid fd = some g) : sys.fs.toKernel.inSlot g ≠ none := by
  obtain ⟨p, behind, -, -⟩ := faithful pid fd i here
  rw [System.behind, named] at behind
  exact fun empty => nomatch behind.symm.trans empty

theorem Fs.SameSlot.of_as {s t : Fs} {task : Task} {g : Nat} (same : (s.as task).SameSlot t g) : s.SameSlot t g :=
  ⟨same.inSlot, same.fdFlag, same.iNo⟩

section
variable {sys : System} {ledger : Ledger Word} {pid : Nat} (counted : sys.fs.Counted) (faithful : sys.Faithful ledger)
  {task : Task} (live : sys.tasks pid = some task) {s : Fs}
include faithful live

theorem faithful_of_same (counted' : s.Counted) (others : ∀ g, sys.fs.toKernel.inSlot g ≠ none → sys.fs.SameSlot s g)
    (fds : s.fdTable = task.fdTable) : (sys.called pid task s).Faithful ledger :=
  fun pid' fd' _ here => faithful.keep counted' here (System.slot_called live fds pid' fd') fun g named =>
    others g (faithful.inSlot here named)

include counted

theorem open_faithful (roomy : sys.fs.toKernel.Roomy) {stack : Stack} {path : List Byte} {flags : Word} {fd : Int}
    (run : sysOpen stack path flags (sys.fs.as task) = .ok (fd, s)) :
    (sys.called pid task s).Faithful
    (ledger.after pid (sys.called pid task s) (.call (.open stack path flags) [fd])) := by
  have opens := sysOpen_slots (counted.as task) roomy run
  have others (g : Nat) (some : sys.fs.toKernel.inSlot g ≠ none) : sys.fs.SameSlot s g := .of_as (opens.others g some)
  dsimp only [Ledger.after]
  rcases opens.fds with ⟨rfl, fds⟩ | ⟨d, g, p, rfl, -, -, -, fds, -, inside⟩
  · rw [if_pos (by decide)]
    exact faithful_of_same faithful live opens.counted others fds
  · rw [if_neg (Int.not_lt.mpr (Int.natCast_nonneg d)), Int.toNat_natCast]
    have behind : (sys.called pid task s).behind pid d = some p := by
      rw [System.behind, System.slot_called_self, fds, update_self]
      exact inside
    rw [behind]
    intro pid' fd' i here
    obtain ⟨⟨⟩, found⟩ | ⟨same, here⟩ := Ledger.set_eq here
    · exact ⟨p, behind, opens.counted.mem inside, Option.some.inj found⟩
    · exact faithful.keep opens.counted here (System.slot_called_of_ne live fds same) fun g named =>
        others g (faithful.inSlot here named)

theorem close_faithful_iff {fd : Int} (high : 2 < fd) {r : Int} (run : sysClose fd (sys.fs.as task) = .ok (r, s)) :
    (sys.called pid task s).Faithful (ledger.set pid fd.toNat none) ↔
      ∀ pid' fd', (pid', fd') ≠ (pid, fd.toNat) → ledger pid' fd' ≠ none →
        sys.slot pid' fd' ≠ sys.slot pid fd.toNat := by
  obtain ⟨g, u, named, -, closes, rfl⟩ := sysClose_closes (counted.as task) high run
  have mine : sys.slot pid fd.toNat = some g := (System.slot_of_live live _).trans named
  have fds : (u.setFd fd.toNat none).fdTable = update task.fdTable fd.toNat none := by
    rw [Fs.setFd, closes.fdTable]
    rfl
  constructor
  · intro kept pid' fd' other some same
    obtain ⟨i, here⟩ := Option.ne_none_iff_exists'.mp some
    obtain ⟨p, behind, -, -⟩ := kept pid' fd' i (by rw [Ledger.set_of_ne _ _ other, here])
    rw [System.behind, System.slot_called_of_ne live fds other, same, mine] at behind
    exact nomatch behind.symm.trans closes.empty
  · intro unshared pid' fd' i here
    obtain ⟨-, ⟨⟩⟩ | ⟨other, here⟩ := Ledger.set_eq here
    refine faithful.keep (closes.counted.setFd _ _) here (System.slot_called_of_ne live fds other) fun g' named' => ?_
    have apart : g' ≠ g :=
      fun this => unshared pid' fd' other (by rw [here]; exact Option.some_ne_none i) (by rw [named', mine, this])
    exact .of_as ((closes.others g' apart).setFd _ _)

theorem fork_faithful (roomy : sys.fs.toKernel.Roomy) {child : Nat}
    (run : updateInodeOpenCnts (sys.fs.as task) = .ok ((), s)) :
    System.Faithful ⟨s, update sys.tasks child (some { task with parentPid := some pid })⟩
      (update ledger child (ledger pid)) := by
  obtain ⟨held, holds⟩ := updateInodeOpenCnts_holds (counted.as task) roomy run
  have counted' := (counted.as task).of_holds holds
  have same (g : Nat) : sys.fs.SameSlot s g := .of_as ((counted.as task).sameSlot_of_holds holds g)
  intro pid' fd' i here
  by_cases this : pid' = child
  · subst this
    rw [update_self] at here
    obtain ⟨p, behind, member, number⟩ :=
      faithful.keep (show (System.mk s sys.tasks).fs.Counted from counted') here rfl fun g _ => same g
    grind [System.behind, System.slot]
  · rw [update_of_ne this] at here
    exact faithful.keep counted' here (System.slot_update_of_ne sys s _ this fd') fun g _ => same g

theorem exit_faithful_iff (run : releaseProgResource (sys.fs.as task) = .ok ((), s)) :
    System.Faithful ⟨s, update (fun other => (sys.tasks other).map (Task.adopted pid)) pid none⟩
      (update ledger pid fun _ => none) ↔
      ∀ pid' fd', pid' ≠ pid → ledger pid' fd' ≠ none → ∀ fd, 3 ≤ fd → fd < maxFilesOpenPerProc →
        sys.slot pid' fd' ≠ sys.slot pid fd := by
  have emptied := releaseProgResource_empties (counted.as task) run
  have slot {pid' : Nat} (other : pid' ≠ pid) (fd : Nat) := System.slot_exit_of_ne sys s other fd
  constructor
  · intro kept pid' fd' other some fd above low same
    obtain ⟨i, here⟩ := Option.ne_none_iff_exists'.mp some
    obtain ⟨g, named⟩ : ∃ g, sys.slot pid' fd' = .some g := by
      obtain ⟨p, behind, -, -⟩ := faithful pid' fd' i here
      obtain ⟨g, named, -⟩ := Option.bind_eq_some_iff.mp behind
      exact ⟨g, named⟩
    obtain ⟨p, behind, -, -⟩ := kept pid' fd' i (by rw [update_of_ne other, here])
    rw [System.behind, slot other, named] at behind
    rw [named, System.slot_of_live live] at same
    exact nomatch behind.symm.trans (emptied.empty fd g above low same.symm)
  · intro unshared pid' fd' i here
    have other : pid' ≠ pid := by
      rintro rfl
      rw [update_self] at here
      cases here
    rw [update_of_ne other] at here
    refine faithful.keep emptied.counted here (slot other fd') fun g named =>
      .of_as (emptied.others g fun fd above low mine => ?_)
    refine unshared pid' fd' other (by rw [here]; exact Option.some_ne_none i) fd above low ?_
    rw [named, System.slot_of_live live]
    exact mine.symm

end

/-- One operation: the slots stay counted, and every descriptor keeps its inode exactly when no slot
is emptied that somebody else still names. -/
theorem FileStep.faithful_iff {before after : System × Ledger Word} {pid : Nat} {event : Event}
    (step : FileStep before pid event after)
    (counted : before.1.fs.Counted) (faithful : before.1.Faithful before.2) :
    after.1.fs.Counted ∧ (after.1.Faithful after.2 ↔ event.Unshared before.1 before.2 pid) := by
  obtain ⟨sys, ledger⟩ := before
  obtain ⟨sys', ledger'⟩ := after
  obtain ⟨step, onFiles, roomy, same⟩ := step
  dsimp only at counted faithful step onFiles roomy same ⊢
  subst same
  cases step with
  | @call task call answer s live run =>
    cases call with
    | «open» stack path flags =>
      obtain ⟨fd, t, open_, last⟩ := bind_eq_ok.mp run
      cases last
      exact ⟨(sysOpen_slots (counted.as task) roomy open_).counted,
        iff_of_true (open_faithful counted faithful live roomy open_) trivial⟩
    | close fd =>
      obtain ⟨r, t, close, last⟩ := bind_eq_ok.mp run
      cases last
      dsimp only [Ledger.after, Event.Unshared]
      by_cases high : 2 < fd
      · have closes := close_faithful_iff counted faithful live high close
        rw [if_neg (by omega)]
        obtain ⟨g, u, -, -, closed, rfl⟩ := sysClose_closes (counted.as task) high close
        exact ⟨closed.counted.setFd _ _, closes.trans ⟨fun unshared _ => unshared, fun unshared => unshared high⟩⟩
      · rw [if_pos (by omega)]
        rw [sysClose, if_pos (by omega)] at close
        cases close
        refine ⟨counted.as task, iff_of_true ?_ fun this => absurd this high⟩
        exact faithful_of_same faithful live (counted.as task) (fun g _ => ⟨rfl, rfl, fun _ _ => rfl⟩) rfl
    | read fd count =>
      obtain ⟨r, t, read, last⟩ := bind_eq_ok.mp run
      cases last
      have moves := Fs.Moves.run (sysRead_keeps Fs.Moves.move fd count) read
      have counted' := (counted.as task).of_moves moves
      exact ⟨counted', iff_of_true
        (faithful_of_same faithful live counted' (fun g _ => .of_as (moves.sameSlot g)) moves.fdTable) trivial⟩
    | _ => exact onFiles.elim
  | @fork task child s live user new run =>
    obtain ⟨held, holds⟩ := updateInodeOpenCnts_holds (counted.as task) roomy run
    exact ⟨(counted.as task).of_holds holds, iff_of_true (fork_faithful counted faithful live roomy run) trivial⟩
  | @exit task s live parent run =>
    exact ⟨(releaseProgResource_empties (counted.as task) run).counted, exit_faithful_iff counted faithful live run⟩

def CarefulStep (before after : System × Ledger Word) : Prop :=
  ∃ pid event, FileStep before pid event after ∧ event.Unshared before.1 before.2 pid

theorem careful_run {start after : System × Ledger Word} (counted : start.1.fs.Counted)
    (faithful : start.1.Faithful start.2)
    (run : Relation.ReflTransGen CarefulStep start after) : after.1.fs.Counted ∧ after.1.Faithful after.2 := by
  induction run with
  | refl => exact ⟨counted, faithful⟩
  | tail _ step ih =>
    obtain ⟨pid, event, step, unshared⟩ := step
    grind [step.faithful_iff]

/-- As long as no task empties a slot that another descriptor names, every descriptor that was
opened or inherited names a slot with its inode; the first operation that does empty one breaks
this. -/
theorem descriptors_keep_inodes {sys : System} (counted : sys.fs.Counted) {after : System × Ledger Word}
    (run : Relation.ReflTransGen CarefulStep (sys, fun _ _ => none) after) :
    after.1.Faithful after.2 ∧ ∀ pid event next, FileStep after pid event next →
      (next.1.Faithful next.2 ↔ event.Unshared after.1 after.2 pid) := by
  obtain ⟨counted', faithful⟩ := careful_run counted (by intro _ _ _ none; cases none) run
  exact ⟨faithful, fun pid event next step => (step.faithful_iff counted' faithful).2⟩

theorem smallTree_counted : smallTree.Counted where
  layout := layout_smallPartition.congr rfl
  sound := smallTree_sound
  plain _ := by
    change (0 : Word) ≠ pipeFlag
    decide
  slots _ := ⟨0, Nat.zero_le _, Refs.zero_iff.mpr fun _ none => nomatch none⟩

def userTask : Task := ⟨fun fd => if fd < 3 then some fd else none, 0, true, none⟩

def smallSystem : System := ⟨smallTree, fun pid => if pid = 1 then some userTask else none⟩

theorem Kernel.roomy_of_all {k : Kernel} (few : (k.openInodes.all fun p => (k.heap p).iOpenCnts.toNat < 2 ^ 32 - 8) =
    true) : k.Roomy := by
  intro p
  by_cases member : p ∈ k.openInodes
  · rw [Kernel.users_of_mem member]
    exact of_decide_eq_true (List.all_eq_true.mp few p member)
  · rw [Kernel.users_of_notMem member]
    decide

theorem Fs.as_eq {s : Fs} {task : Task} (fds : task.fdTable = s.fdTable) (cwd : task.cwdInodeNr = s.cwdInodeNr) :
    s.as task = s := by
  unfold Fs.as
  rw [fds, cwd]

def smallOpened (s : Fs) : System × Ledger Word :=
  (smallSystem.called 1 userTask s, Ledger.after (fun _ _ => none) 1 (smallSystem.called 1 userTask s)
    (.call (.open ⟨0, 0, 0⟩ [0x2f, 0x66] 0) [3]))

def smallForked (s s' : Fs) : System × Ledger Word :=
  (⟨s', update (smallOpened s).1.tasks 2 (some { userTask.after s with parentPid := some 1 })⟩,
    update (smallOpened s).2 2 ((smallOpened s).2 1))

theorem open_fork_exit :
    ∃ s s', FileStep (smallSystem, fun _ _ => none) 1 (.call (.open ⟨0, 0, 0⟩ [0x2f, 0x66] 0) [3]) (smallOpened s) ∧
    FileStep (smallOpened s) 1 (.fork 2) (smallForked s s') ∧ s'.toKernel.Roomy ∧
      (smallOpened s).1.slot 1 3 = some 3 ∧ (smallOpened s).2 1 3 = some 2 ∧
    ∃ s'', releaseProgResource (s'.as (userTask.after s)) = .ok ((), s'') ∧ s''.toKernel.inSlot 3 = none := by
  obtain ⟨checks, s'', run, passed⟩ := exists_of_yields (s := smallTree.as userTask)
    (x := do
      let fd ← sysOpen ⟨0, 0, 0⟩ [0x2f, 0x66] 0
      let s ← get
      updateInodeOpenCnts
      let s' ← get
      releaseProgResource
      return [fd == 3, s.fdTable 3 == some 3, ((s.toKernel.inSlot 3).map fun p => (s.heap p).iNo) == some 2,
        s'.cwdInodeNr == s.cwdInodeNr,
        s.openInodes.all fun p => (s.heap p).iOpenCnts.toNat < 2 ^ 32 - 8, s'.openInodes.all fun p =>
          (s'.heap p).iOpenCnts.toNat < 2 ^ 32 - 8])
    (c := fun checks s'' => checks.all id && s''.toKernel.inSlot 3 == none) (by decide +kernel)
  obtain ⟨fd, s, open_, run⟩ := bind_eq_ok.mp run
  rw [get_bind] at run
  obtain ⟨_, s', fork, run⟩ := bind_eq_ok.mp run
  rw [get_bind] at run
  obtain ⟨_, s₃, exit, run⟩ := bind_eq_ok.mp run
  cases run
  simp only [List.all_cons, List.all_nil, id, Bool.and_eq_true, Bool.and_true, beq_iff_eq] at passed
  obtain ⟨⟨rfl, named, number, cwd, few, few'⟩, empty⟩ := passed
  have ready := smallTree_counted.as userTask
  have counted := (sysOpen_slots ready smallTree_ready.roomy open_).counted
  obtain ⟨held, holds⟩ := updateInodeOpenCnts_holds counted (Kernel.roomy_of_all few) fork
  have slot : (smallOpened s).1.slot 1 3 = some 3 := (System.slot_called_self _ _ _ _ _).trans named
  refine ⟨s, s', ⟨.call (show _ = some userTask from rfl) (bind_of_ok open_), fun create => absurd create (by decide),
    smallTree_ready.roomy, rfl⟩,
    ⟨.fork (show _ = some (userTask.after s) from rfl) rfl rfl ?_, trivial, Kernel.roomy_of_all few, rfl⟩,
      Kernel.roomy_of_all few', slot, ?_, _, ?_, empty⟩
  · exact fork
  · have behind : (smallOpened s).1.behind 1 3 = s.toKernel.inSlot 3 := by
      rw [System.behind, slot]
      rfl
    have entry : (smallOpened s).2 1 3 = ((smallOpened s).1.behind 1 3).map fun p => (s.heap p).iNo := by
      dsimp only [smallOpened, Ledger.after]
      rw [if_neg (by decide)]
      exact Ledger.set_self _ 1 3 _
    rw [entry, behind, number]
  · rw [Fs.as_eq holds.fdTable.symm cwd.symm]
    exact exit

theorem descriptors_keep_inodes_fork : smallSystem.fs.Counted ∧
    ∃ after, Relation.ReflTransGen CarefulStep (smallSystem, fun _ _ => none) after ∧
    after.2 1 3 = some 2 ∧ after.2 2 3 = some 2 ∧ after.1.Faithful after.2 := by
  obtain ⟨s, s', first, second, -, -, entry, -⟩ := open_fork_exit
  have steps : Relation.ReflTransGen CarefulStep (smallSystem, fun _ _ => none) (smallForked s s') :=
    (Relation.ReflTransGen.single ⟨1, _, first, trivial⟩).tail ⟨1, _, second, trivial⟩
  exact ⟨smallTree_counted, smallForked s s', steps, entry, entry, (descriptors_keep_inodes smallTree_counted steps).1⟩

/-- The exit of the child empties the slot of its parent. -/
theorem exit_breaks_descriptor : smallSystem.fs.Counted ∧ ∃ after,
    Relation.ReflTransGen (fun before after => ∃ pid event, FileStep before pid event after)
      (smallSystem, fun _ _ => none) after ∧
    after.2 1 3 = some 2 ∧ ¬ after.1.Faithful after.2 := by
  obtain ⟨s, s', first, second, roomy, slot, entry, s'', exit, empty⟩ := open_fork_exit
  have third : FileStep (smallForked s s') 2 .exit (⟨s'', _⟩, update (smallForked s s').2 2 fun _ => none) :=
    ⟨.exit (show _ = some ({ userTask.after s with parentPid := some 1 }) from rfl) (Option.some_ne_none 1) exit,
      trivial, roomy, rfl⟩
  refine ⟨smallTree_counted, _, ((Relation.ReflTransGen.single ⟨1, _, first⟩).tail ⟨1, _, second⟩).tail ⟨2, _, third⟩,
    entry, fun faithful => ?_⟩
  obtain ⟨p, behind, -, -⟩ := faithful 1 3 2 entry
  obtain ⟨g, named, inside⟩ := Option.bind_eq_some_iff.mp behind
  have same : some 3 = some g := slot.symm.trans named
  rw [← Option.some.inj same] at inside
  exact nomatch inside.symm.trans empty

end LaiMiniOs
