import LaiMiniOs.Userprog.Sharing

/-! Who may write a file.

`write_deny` is set by some ways of opening a file for writing, and cleared by every close. The
slot of `file_table` is filled before the flag is looked at. So it is the caller who has to see to
it that a file with a writer is not opened for writing again.
-/

set_option autoImplicit false

namespace LaiMiniOs
open Foundation Prog Function

def writes (flag : Word) : Bool := flag &&& 3 ≠ 0

def Fs.OneWriter (s : Fs) : Prop :=
  ∀ g g' p, s.toKernel.inSlot g = some p → s.toKernel.inSlot g' = some p →
    writes (s.fileTable g).fdFlag = true → writes (s.fileTable g').fdFlag = true → g = g'

theorem Fs.OneWriter.mono {s t : Fs} (one : s.OneWriter)
    (same : ∀ g p, t.toKernel.inSlot g = some p → s.toKernel.inSlot g = some p ∧
    (t.fileTable g).fdFlag = (s.fileTable g).fdFlag) : t.OneWriter := by
  intro g g' p here here' write write'
  obtain ⟨old, flag⟩ := same g p here
  obtain ⟨old', flag'⟩ := same g' p here'
  exact one g g' p old old' (flag ▸ write) (flag' ▸ write')

theorem Fs.OneWriter.entered_iff {s t : Fs} (one : s.OneWriter) {held : List Nat} {flag : Word} {g p : Nat}
    (free : s.toKernel.inSlot g = none)
    (entered : s.Entered held flag g p t) :
    t.OneWriter ↔ (writes flag = true → ∀ g', s.toKernel.inSlot g' = some p →
      writes (s.fileTable g').fdFlag = false) := by
  have self : t.fileTable g = ⟨0, flag, some p⟩ := by rw [entered.fileTable, update_self]
  have other {g' : Nat} (apart : g' ≠ g) : t.fileTable g' = s.fileTable g' := by
    rw [entered.fileTable, update_of_ne apart]
  have inSelf : t.toKernel.inSlot g = some p := congrArg File.fdInode self
  have inOther {g' : Nat} (apart : g' ≠ g) : t.toKernel.inSlot g' = s.toKernel.inSlot g' :=
    congrArg File.fdInode (other apart)
  have apart {g' q : Nat} (old : s.toKernel.inSlot g' = some q) : g' ≠ g := by
    rintro rfl
    rw [free] at old
    cases old
  constructor
  · intro one' write g' old
    by_contra write'
    refine apart old (one' g' g p (by rw [inOther (apart old), old]) inSelf ?_ ?_)
    · rw [other (apart old)]
      exact Bool.eq_true_of_not_eq_false write'
    · rw [self]
      exact write
  · intro alone a b q ha hb wa wb
    -- Two slots that were there before are one by the hypothesis, and the new one has no companion.
    by_cases ga : a = g <;> by_cases gb : b = g
    · rw [ga, gb]
    · grind
    · grind
    · rw [inOther ga] at ha
      rw [inOther gb] at hb
      rw [other ga] at wa
      rw [other gb] at wb
      exact one a b q ha hb wa wb

section
variable {s t : Fs} (counted : s.Counted) (one : s.OneWriter)
include one

theorem Fs.OneWriter.opens_iff {held : List Nat} {flags : Word} {deny : Prop} {p : Nat} {fd : Int}
    (opens : s.Opens held flags deny p fd t) :
    t.OneWriter ↔ (s.toKernel.freeSlot ≠ none → writes flags = true → ∀ g, s.toKernel.inSlot g = some p →
      writes (s.fileTable g).fdFlag = false) := by
  cases opens with
  | full none holds =>
    grind [one.mono, Kernel.inSlot, holds.fileTable]
  | kept slot why entered =>
    rw [one.entered_iff (freeSlot_some slot).2.2 entered, slot]
    exact ⟨fun alone _ => alone, fun alone => alone (Option.some_ne_none _)⟩
  | @given g d u slot free allowed entered =>
    have iff : u.OneWriter ↔ _ := one.entered_iff (freeSlot_some slot).2.2 entered
    rw [slot]
    exact iff.trans ⟨fun alone _ => alone, fun alone => alone (Option.some_ne_none _)⟩

/-- `sys_open` with these arguments does not add a second writer: when an existing file is opened for
writing and there is a slot for it, no slot for writing refers to its inode. -/
def Fs.OpensAlone (s : Fs) (stack : Stack) (path : List Byte) (flags : Word) : Prop :=
  ∀ no record u, openChecks stack path flags s = .ok (some (no, record), u) → creates flags = false →
    writes flags = true →
    s.toKernel.freeSlot ≠ none → ∀ g p, u.toKernel.cached no = some p → s.toKernel.inSlot g = some p →
      writes (s.fileTable g).fdFlag = false

/-- The same by what the path names. -/
def Fs.OpensAloneNamed (s : Fs) (stack : Stack) (path : List Byte) (flags : Word) : Prop :=
  s.Passes stack path flags → creates flags = false → writes flags = true → s.toKernel.freeSlot ≠ none →
    ∀ g p, s.toKernel.cached (s.found stack path).no = some p → s.toKernel.inSlot g = some p →
      writes (s.fileTable g).fdFlag = false

omit one in
theorem Fs.Tree.opensAlone_iff (tree : s.Tree) {stack : Stack} {path : List Byte} (isPath : IsPath path) {flags : Word}
    (known : flags.toNat ≤ 7) : s.OpensAlone stack path flags ↔ s.OpensAloneNamed stack path flags := by
  obtain ⟨found, u, checks, dropped, went⟩ := tree.openChecks_eq isPath stack known
  unfold Fs.OpensAlone Fs.OpensAloneNamed
  rw [checks]
  by_cases passes : s.Passes stack path flags
  · obtain ⟨searched, h, rfl, at_, -⟩ := went passes
    have cached (existing : creates flags = false) :
        u.toKernel.cached (s.found stack path).no = s.toKernel.cached (s.found stack path).no := by
      have there : (s.found stack path).no ≠ -1 := fun missing =>
        Bool.noConfusion (existing.symm.trans (passes.2.2.2.2.mp missing))
      exact at_.cached tree (Fs.Tree.isDir_walk _ .start .start) (tree.walk_apart _ .start passes.2.2.1 there)
    constructor
    · intro alone _ existing
      rw [← cached existing]
      exact alone _ _ u rfl existing
    · intro alone no record u' same existing
      cases same
      rw [cached existing]
      exact alone passes existing
  · obtain rfl := dropped passes
    exact iff_of_true (fun no record u' same => nomatch same) fun other => absurd other passes

include counted

theorem sysOpen_oneWriter_iff (roomy : s.toKernel.Roomy) {stack : Stack} {path : List Byte} {flags : Word} {fd : Int}
    (run : sysOpen stack path flags s = .ok (fd, t)) : t.OneWriter ↔ s.OpensAlone stack path flags := by
  have ready := counted.ready roomy
  obtain ⟨found, u, checks, run⟩ := bind_eq_ok.mp run
  have holds := openChecks_holds ready checks
  cases found with
  | none =>
    cases run
    refine iff_of_true (one.mono fun g q here => ?_) fun no record u' passed => ?_
    · have same := counted.sameSlot_of_holds holds g
      exact ⟨same.inSlot ▸ here, same.fdFlag⟩
    · rw [checks] at passed
      cases passed
  | some found =>
    obtain ⟨no, record⟩ := found
    -- The structure of an inode that was not cached, or is created, is in no slot yet.
    have new {g : Nat} (here : s.toKernel.inSlot g = some u.brk) : False := by
      have low := counted.sound.fresh _ (counted.mem here)
      exact absurd low (Nat.not_lt.mpr holds.cache.brk)
    have opens := openFound_opens ready holds run
    split at opens
    · next create =>
      refine iff_of_true ((one.opens_iff opens).mpr fun _ _ g here => (new here).elim) fun _ _ _ _ existing => ?_
      rw [create] at existing
      cases existing
    · next existing =>
      rw [one.opens_iff opens]
      have existing := Bool.eq_false_of_not_eq_true existing
      have same (alone : ∀ g p, u.toKernel.cached no = some p → s.toKernel.inSlot g = some p →
          writes (s.fileTable g).fdFlag = false) (g : Nat)
          (here : s.toKernel.inSlot g = some (u.toKernel.opened no (u.volume.record no.toNat)).1) :
            writes (s.fileTable g).fdFlag = false := by grind [Kernel.opened]
      constructor
      · intro alone no' record' u' passed _ write some g p cached here
        grind [Kernel.opened]
      · intro alone some write
        exact same (alone no record u checks existing write some)

end

def Event.OnWriters (sys : System) (pid : Nat) : Event → Prop
  | .call (.open _ _ flags) _ => creates flags → ∀ task, sys.tasks pid = some task → task.user = false
  | .call (.close _) _ => True
  | .call (.write _ _ _) _ => True
  | _ => False

def Event.Alone (sys : System) (pid : Nat) : Event → Prop
  | .call (.open stack path flags) _ => ∀ task, sys.tasks pid = some task → (sys.fs.as task).OpensAlone stack path flags
  | _ => True

structure WriterStep (before : System) (pid : Nat) (event : Event) (after : System) : Prop where
  step : before.Step pid event after
  onWriters : event.OnWriters before pid
  roomy : before.fs.toKernel.Roomy

theorem WriterStep.oneWriter_iff {before after : System} {pid : Nat} {event : Event}
    (step : WriterStep before pid event after)
    (counted : before.fs.Counted) (one : before.fs.OneWriter) : after.fs.Counted ∧
    (after.fs.OneWriter ↔ event.Alone before pid) := by
  obtain ⟨step, onWriters, roomy⟩ := step
  cases step with
  | @call task call answer s live run =>
    have counted' := counted.as task
    have one' : (before.fs.as task).OneWriter := one
    cases call with
    | «open» stack path flags =>
      obtain ⟨fd, t, open_, last⟩ := bind_eq_ok.mp run
      cases last
      refine ⟨(sysOpen_slots counted' roomy open_).counted, (sysOpen_oneWriter_iff counted' one' roomy open_).trans ?_⟩
      constructor
      · intro alone task' live'
        rw [live] at live'
        cases live'
        exact alone
      · intro alone
        exact alone task live
    | close fd =>
      obtain ⟨r, t, close, last⟩ := bind_eq_ok.mp run
      cases last
      by_cases high : 2 < fd
      · obtain ⟨g, u, -, -, closes, rfl⟩ := sysClose_closes counted' high close
        refine ⟨closes.counted.setFd _ _, iff_of_true (one'.mono fun g' p here => ?_) trivial⟩
        have other : g' ≠ g := by
          rintro rfl
          exact nomatch here.symm.trans closes.empty
        exact ⟨(closes.others g' other).inSlot.symm.trans here, (closes.others g' other).fdFlag⟩
      · rw [sysClose, if_pos (by omega)] at close
        cases close
        exact ⟨counted', iff_of_true one' trivial⟩
    | write fd buf count =>
      obtain ⟨r, t, write, last⟩ := bind_eq_ok.mp run
      cases last
      have moves := Fs.Moves.run (sysWrite_keeps Fs.Moves.move Fs.Moves.tolerant fd buf count) write
      refine ⟨counted'.of_moves moves, iff_of_true (one'.mono fun g p here => ?_) trivial⟩
      exact ⟨(moves.fileTable g).1.symm.trans here, (moves.fileTable g).2⟩
    | _ => exact onWriters.elim
  | fork => exact onWriters.elim
  | exit => exact onWriters.elim

def AloneStep (before after : System) : Prop := ∃ pid event, WriterStep before pid event after ∧ event.Alone before pid

theorem alone_run {start after : System} (counted : start.fs.Counted) (one : start.fs.OneWriter)
    (run : Relation.ReflTransGen AloneStep start after) :
    after.fs.Counted ∧ after.fs.OneWriter := by
  induction run with
  | refl => exact ⟨counted, one⟩
  | tail _ step ih =>
    obtain ⟨pid, event, step, alone⟩ := step
    obtain ⟨counted', iff⟩ := step.oneWriter_iff ih.1 ih.2
    exact ⟨counted', iff.mpr alone⟩

/-- From a state in which no file is open: an inode has at most one slot for writing as long as no file
with a writer is opened for writing, and the first such open that finds a slot gives it a second
one. -/
theorem writers_exclusive {sys after : System} (counted : sys.fs.Counted) (idle : ∀ g, sys.fs.toKernel.inSlot g = none)
    (run : Relation.ReflTransGen AloneStep sys after) :
    after.fs.OneWriter ∧
      (∀ pid event next, WriterStep after pid event next → (next.fs.OneWriter ↔ event.Alone after pid)) ∧
    ∀ task stack path flags, (after.fs.as task).Tree → IsPath path → flags.toNat ≤ 7 →
      ((after.fs.as task).OpensAlone stack path flags ↔ (after.fs.as task).OpensAloneNamed stack path flags) := by
  have one : sys.fs.OneWriter := by
    intro g g' p here
    rw [idle g] at here
    cases here
  obtain ⟨counted', one'⟩ := alone_run counted one run
  exact ⟨one', fun pid event next step => (step.oneWriter_iff counted' one').2,
    fun task stack path flags tree isPath known => tree.opensAlone_iff isPath known⟩

theorem smallSystem_open_write : ∃ s, WriterStep smallSystem 1 (.call (.open ⟨0, 0, 0⟩ [0x2f, 0x66] 2) [3])
    (smallSystem.called 1 userTask s) ∧
    s.toKernel.Roomy ∧ (s.toKernel.inSlot 3).isSome ∧ writes (s.fileTable 3).fdFlag = true ∧
    ∃ s', sysOpen ⟨0, 0, 0⟩ [0x2f, 0x66] 3 s = .ok (4, s') ∧ s'.toKernel.inSlot 3 = s.toKernel.inSlot 3 ∧
      s'.toKernel.inSlot 4 = s.toKernel.inSlot 3 ∧
    writes (s'.fileTable 3).fdFlag = true ∧ writes (s'.fileTable 4).fdFlag = true := by
  obtain ⟨checks, s', run, passed⟩ := exists_of_yields (s := smallTree.as userTask)
    (x := do
      let fd ← sysOpen ⟨0, 0, 0⟩ [0x2f, 0x66] 2
      let s ← get
      let fd' ← sysOpen ⟨0, 0, 0⟩ [0x2f, 0x66] 3
      let s' ← get
      return [fd == 3, fd' == 4, (s.toKernel.inSlot 3).isSome, writes (s.fileTable 3).fdFlag,
        s'.toKernel.inSlot 3 == s.toKernel.inSlot 3,
        s'.toKernel.inSlot 4 == s.toKernel.inSlot 3, writes (s'.fileTable 3).fdFlag, writes (s'.fileTable 4).fdFlag,
        s.openInodes.all fun p => (s.heap p).iOpenCnts.toNat < 2 ^ 32 - 8])
    (c := fun checks _ => checks.all id) (by decide +kernel)
  obtain ⟨fd, s, open_, run⟩ := bind_eq_ok.mp run
  rw [get_bind] at run
  obtain ⟨fd', s₂, again, run⟩ := bind_eq_ok.mp run
  rw [get_bind] at run
  cases run
  simp only [List.all_cons, List.all_nil, id, Bool.and_eq_true, Bool.and_true, beq_iff_eq] at passed
  obtain ⟨rfl, rfl, some, write, same, same', write', write'', few⟩ := passed
  exact ⟨s, ⟨.call (show _ = Option.some userTask from rfl) (bind_of_ok open_), fun create =>
    absurd create (by decide), smallTree_ready.roomy⟩,
    Kernel.roomy_of_all few, some, write, s', again, same, same', write', write''⟩

theorem smallSystem_alone (stack : Stack) (path : List Byte) (flags : Word) (answer : List Int) :
    (Event.call (.open stack path flags) answer).Alone smallSystem 1 := by
  intro task live no record u _ _ _ _ g p _ here
  cases here

theorem writers_exclusive_open : smallSystem.fs.Counted ∧ (∀ g, smallSystem.fs.toKernel.inSlot g = none) ∧ ∃ after,
    Relation.ReflTransGen AloneStep smallSystem after ∧ writes (after.fs.fileTable 3).fdFlag = true ∧
      after.fs.OneWriter := by
  obtain ⟨s, step, -, -, write, -⟩ := smallSystem_open_write
  have steps := Relation.ReflTransGen.single (r := AloneStep) ⟨1, _, step, smallSystem_alone _ _ _ _⟩
  exact ⟨smallTree_counted, fun _ => rfl, _, steps, write, (writers_exclusive smallTree_counted (fun _ => rfl) steps).1⟩

/-- A file that is open with `O_RDWR` is opened again with `O_WRONLY | O_RDWR`. -/
theorem sysOpen_two_writers : smallSystem.fs.Counted ∧ ∃ after,
    Relation.ReflTransGen (fun before after => ∃ pid event, WriterStep before pid event after) smallSystem after ∧
      ¬ after.fs.OneWriter := by
  obtain ⟨s, first, roomy, some, -, s', again, three, four, write, write'⟩ := smallSystem_open_write
  have second : WriterStep (smallSystem.called 1 userTask s) 1 (.call (.open ⟨0, 0, 0⟩ [0x2f, 0x66] 3) [4])
      ((smallSystem.called 1 userTask s).called 1 (userTask.after s) s') :=
    ⟨.call (show _ = Option.some (userTask.after s) from rfl) (bind_of_ok again), fun create =>
      absurd create (by decide), roomy⟩
  refine ⟨smallTree_counted, _, (Relation.ReflTransGen.single ⟨1, _, first⟩).tail ⟨1, _, second⟩, fun one => ?_⟩
  obtain ⟨p, here⟩ := Option.isSome_iff_exists.mp some
  exact absurd (one 3 4 p (three.trans here) (four.trans here) write write') (by decide)

end LaiMiniOs
