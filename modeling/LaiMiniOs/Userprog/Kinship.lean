import LaiMiniOs.Userprog.WaitExit

/-! Parents and children, without the scheduler.

What `fork`, `exit` and `wait` do to the tree of tasks does not depend on who has the CPU. The tasks
here are those of `Threads` up to scheduling: a task that is running, ready or blocked can act at any
time, one that waits or hangs cannot.
-/

set_option autoImplicit false

namespace LaiMiniOs
open Foundation Function

variable {task : TaskStruct} {t : Nat}

/-- What is seen of exits: a task calls `sys_exit`, or the `sys_wait` of a parent returns a pid and
stores a status. -/
inductive ExitEvent where
  | exited (pid : Nat) (status : Word)
  | reported (parent pid : Nat) (status : Int)
  | other
  deriving DecidableEq

@[ext] structure Kinship where
  task : Nat → Option TaskStruct
  all : List Nat
  pids : Bitmap
  main : Nat

namespace Kinship

def Live (k : Kinship) (t : Nat) (task : TaskStruct) : Prop := k.task t = some task ∧ task.status ≠ .died

def Acts (k : Kinship) (t : Nat) (task : TaskStruct) : Prop := k.task t = some task ∧ task.status = .running

def enlist (k : Kinship) (t bitIdx : Nat) (task : TaskStruct) : Kinship :=
  { k with task := update k.task t (some task), all := k.all ++ [t], pids := k.pids.set bitIdx true }

def put (k : Kinship) (t : Nat) (task : TaskStruct) : Kinship := { k with task := update k.task t (some task) }

def reap (k : Kinship) (t pid : Nat) : Kinship :=
  { k with task := update k.task t none, all := k.all.erase t, pids := k.pids.set (pid - pidStart) false }

def mainExit (k : Kinship) (task : TaskStruct) : Kinship :=
  { k with task := update k.task k.main (some { task with status := .died }), all := k.all.erase k.main,
           pids := k.pids.set (task.pid - pidStart) false }

def adopted (k : Kinship) (pid u : Nat) (task : TaskStruct) : TaskStruct :=
  if u ∈ k.all then task.initAdopt pid else task

def woken (parent u : Nat) (task : TaskStruct) : TaskStruct :=
  if u = parent ∧ task.status = .waiting then { task with status := .running } else task

/-- What becomes of another task when a task with the pid exits whose parent is `parent`. -/
def survivor (k : Kinship) (pid parent u : Nat) (task : TaskStruct) : TaskStruct :=
  woken parent u (k.adopted pid u task)

def exit (k : Kinship) (t : Nat) (task : TaskStruct) (status : Byte) (parent : Nat) : Kinship :=
  { k with task := update (fun u => (k.task u).map (k.survivor task.pid parent u)) t
             (some { task with exitStatus := status, status := .hanging }) }

def Free (k : Kinship) (bitIdx : Nat) : Prop :=
  bitIdx < 8 * k.pids.btmpBytesLen ∧ k.pids.bit bitIdx = false ∧ ∀ j, j < bitIdx → k.pids.bit j = true

inductive Step (k : Kinship) : ExitEvent → Kinship → Prop where
  | same : Step k .other k
  | start {t i : Nat} (new : k.task t = none) (free : k.Free i) :
      Step k .other (k.enlist t i ⟨i + pidStart, .running, 0, 0, none, 0, false⟩)
  | fork {p child i : Nat} {task : TaskStruct} (acts : k.Acts p task) (user : task.user = true)
      (new : k.task child = none) (free : k.Free i) :
      Step k .other (k.enlist child i { task with pid := i + pidStart, parentPid := some task.pid })
  | exit {t parent : Nat} {task above : TaskStruct} {ppid : Nat} (status : Word) (acts : k.Acts t task)
      (below : task.parentPid = some ppid)
      (live : k.Live parent above) (found : above.pid = ppid) :
        Step k (.exited task.pid status) (k.exit t task (status.setWidth 8) parent)
  | reap {p child : Nat} {task below : TaskStruct} (acts : k.Acts p task) (here : k.task child = some below)
      (hangs : below.status = .hanging)
      (mine : below.parentPid = some task.pid) :
        Step k (.reported task.pid below.pid below.exitStatus.toInt) (k.reap child below.pid)
  | sleep {p : Nat} {task : TaskStruct} (acts : k.Acts p task)
      (none : ∀ t below, k.Live t below → below.parentPid = some task.pid → below.status ≠ .hanging) :
      Step k .other (k.put p { task with status := .waiting })
  | mainExit {task : TaskStruct} (acts : k.Acts k.main task) : Step k .other (k.mainExit task)

/-- Every task has its own pid and, but for `init` and the kernel threads, a parent that can still
wait for it. -/
structure Family (k : Kinship) : Prop where
  nodup : k.all.Nodup
  mem : ∀ t, t ∈ k.all ↔ ∃ task, k.Live t task
  distinct : ∀ t t' task task', k.Live t task → k.Live t' task' → task.pid = task'.pid → t = t'
  taken : ∀ t task, k.Live t task → pidStart ≤ task.pid ∧ k.pids.bit (task.pid - pidStart) = true
  root : ∃ t task, k.Live t task ∧ task.pid = 1 ∧ task.parentPid = none ∧ task.user = true
  parent : ∀ t task p, k.Live t task → task.parentPid = some p →
    p ≠ task.pid ∧ ∃ t' task', k.Live t' task' ∧ task'.pid = p ∧ task'.user = true ∧ task'.status ≠ .hanging
  child : ∀ t task, k.task t = some task → task.status = .hanging → task.parentPid ≠ none
  main : ∃ task, k.task k.main = some task ∧ task.parentPid = none ∧ task.user = false

variable {k : Kinship}

@[grind =] theorem task_enlist (k : Kinship) (t i u : Nat) (task : TaskStruct) :
    (k.enlist t i task).task u = if u = t then some task else k.task u := update_apply ..

@[grind =] theorem main_enlist (k : Kinship) (t i : Nat) (task : TaskStruct) : (k.enlist t i task).main = k.main := rfl

theorem Acts.live (acts : k.Acts t task) : k.Live t task := ⟨acts.1, by rw [acts.2]; exact TaskStatus.noConfusion⟩

theorem Family.above (family : k.Family) (live : k.Live t task) {p : Nat} (below : task.parentPid = some p)
    {parent : Nat} {above : TaskStruct} (live' : k.Live parent above) (found : above.pid = p) :
    parent ≠ t ∧ above.user = true ∧ above.status ≠ .hanging := by
  obtain ⟨other, t', task', live'', found', user, awake⟩ := family.parent t task p live below
  obtain rfl := family.distinct parent t' above task' live' live'' (found.trans found'.symm)
  obtain rfl := Option.some.inj (live'.1.symm.trans live''.1)
  refine ⟨fun same => ?_, user, awake⟩
  subst same
  obtain rfl := Option.some.inj (live.1.symm.trans live'.1)
  exact other found.symm

theorem Family.enlist (family : k.Family) {i : Nat} (new : k.task t = none) (free : k.pids.bit i = false)
    (pid : task.pid = i + pidStart) (running : task.status = .running)
    (below : ∀ p, task.parentPid = some p → ∃ t' task', k.Live t' task' ∧ task'.pid = p ∧ task'.user = true ∧
    task'.status ≠ .hanging) :
    (k.enlist t i task).Family := by
  have old {u : Nat} {task' : TaskStruct} (live : k.Live u task') : (k.enlist t i task).Live u task' := by grind [Live]
  -- A live task of the new state is the new one or an old one.
  have split {u : Nat} {task' : TaskStruct} (live : (k.enlist t i task).Live u task') : u = t ∧ task' = task ∨
      k.Live u task' := by grind [Live]
  -- No old task has the new pid.
  have fresh {u : Nat} {task' : TaskStruct} (live : k.Live u task') : task'.pid ≠ task.pid := by
    intro same
    obtain ⟨low, bit⟩ := family.taken u task' live
    rw [same, pid, Nat.add_sub_cancel, free] at bit
    cases bit
  have alive : (k.enlist t i task).Live t task := by grind [Live]
  refine ⟨?nodup, fun u => ?mem, fun u u' task₁ task₂ live live' same => ?distinct, fun u task' live =>
    ?taken, ?root, fun u task' p live up => ?parent, fun u task' here hangs => ?child, ?main⟩
  case nodup =>
    have absent : t ∉ k.all := by grind [family.mem t, Live]
    exact family.nodup.append (List.nodup_singleton t) (by simpa using absent)
  case mem =>
    change u ∈ k.all ++ [t] ↔ _
    grind [family.mem u]
  case distinct =>
    grind [family.distinct]
  case taken =>
    change pidStart ≤ task'.pid ∧ (k.pids.set i true).bit (task'.pid - pidStart) = true
    rw [Bitmap.bit_set]
    rcases split live with ⟨rfl, rfl⟩ | before
    · grind
    · grind [family.taken u task' before]
  case root =>
    obtain ⟨u, task', live, rest⟩ := family.root
    exact ⟨u, task', old live, rest⟩
  case parent =>
    grind [family.parent]
  case child => grind [family.child u task']
  grind [family.main]

theorem Family.gone (family : k.Family) {k' : Kinship} (live : k.Live t task)
    (leaf : ∀ u below, k.Live u below → below.parentPid = some task.pid → False)
    (notRoot : task.pid ≠ 1 ∨ task.user = false)
    (all : k'.all = k.all.erase t) (pids : k'.pids = k.pids.set (task.pid - pidStart) false) (main : k'.main = k.main)
    (others : ∀ u, u ≠ t → k'.task u = k.task u) (self : ∀ task', k'.task t = some task' → task'.status = .died)
    (mainStays : ∃ task', k'.task k.main = some task' ∧ task'.parentPid = none ∧ task'.user = false) : k'.Family := by
  have old {u : Nat} {task' : TaskStruct} (live' : k'.Live u task') : u ≠ t ∧ k.Live u task' := by
    by_cases this : u = t
    · subst this
      exact absurd (self task' live'.1) live'.2
    · exact ⟨this, (others u this).symm.trans live'.1, live'.2⟩
  have still {u : Nat} {task' : TaskStruct} (other : u ≠ t) (live' : k.Live u task') : k'.Live u task' :=
    ⟨(others u other).trans live'.1, live'.2⟩
  refine ⟨?_, fun u => ?_, fun u u' task₁ task₂ live₁ live₂ same => ?_, fun u task' live' =>
    ?_, ?_, fun u task' p live' up => ?_, fun u task' here hangs => ?_, ?_⟩
  · rw [all]
    exact family.nodup.erase t
  · grind [family.nodup.mem_erase_iff, family.mem]
  · exact family.distinct u u' task₁ task₂ (old live₁).2 (old live₂).2 same
  · obtain ⟨other, before⟩ := old live'
    obtain ⟨low, bit⟩ := family.taken u task' before
    obtain ⟨low', -⟩ := family.taken t task live
    grind [family.distinct, Bitmap.bit_set]
  · obtain ⟨u, task', live', one, rest⟩ := family.root
    refine ⟨u, task', still (fun same => ?_) live', one, rest⟩
    subst same
    obtain rfl := Option.some.inj (live.1.symm.trans live'.1)
    grind
  · obtain ⟨-, before⟩ := old live'
    obtain ⟨other, t', task'', live'', found, rest⟩ := family.parent u task' p before up
    refine ⟨other, t', task'', still (fun same => ?_) live'', found, rest⟩
    subst same
    obtain rfl := Option.some.inj (live.1.symm.trans live''.1)
    exact leaf u task' before (found ▸ up)
  · grind [family.child]
  · rw [main]
    exact mainStays

theorem Family.reap (family : k.Family) {child : Nat} {below : TaskStruct} (here : k.task child = some below)
    (hangs : below.status = .hanging) :
    (k.reap child below.pid).Family := by
  have live : k.Live child below := ⟨here, by rw [hangs]; exact TaskStatus.noConfusion⟩
  have self : (k.reap child below.pid).task child = none := update_self _ _ _
  obtain ⟨task', here', none, kernel⟩ := family.main
  have other : k.main ≠ child := by grind [child]
  refine family.gone live (fun u task up parent => ?_) ?_ rfl rfl rfl (fun u ne => update_of_ne ne _ _)
    (fun task ended => ?_)
    ⟨task', (update_of_ne other _ _).trans here', none, kernel⟩
  · exact (family.above up parent live rfl).2.2 hangs
  · -- `init` has no parent, so it does not hang.
    refine .inl fun one => ?_
    obtain ⟨u, root, live', one', none', -⟩ := family.root
    obtain rfl := family.distinct child u below root live live' (one.trans one'.symm)
    obtain rfl := Option.some.inj (here.symm.trans live'.1)
    exact family.child child below here hangs none'
  · rw [self] at ended
    cases ended

theorem Family.mainExit (family : k.Family) (acts : k.Acts k.main task) : (k.mainExit task).Family := by
  obtain ⟨task', here, none, kernel⟩ := family.main
  obtain rfl := Option.some.inj (acts.1.symm.trans here)
  have self : (k.mainExit task).task k.main = some { task with status := .died } := update_self _ _ _
  refine family.gone acts.live (fun u below live up => ?_) (.inr kernel) rfl rfl rfl (fun u ne => update_of_ne ne _ _)
    (fun task' ended => ?_)
    ⟨_, self, none, kernel⟩
  · have user := (family.above live up acts.live rfl).2.1
    rw [kernel] at user
    cases user
  · rw [← Option.some.inj (self.symm.trans ended)]

section Survivor

variable (k) (pid parent u : Nat) (task : TaskStruct)

theorem adopted_eq : k.adopted pid u task =
    { task with parentPid := if u ∈ k.all ∧ task.parentPid = some pid then some 1 else task.parentPid } := by
  unfold adopted TaskStruct.initAdopt
  by_cases member : u ∈ k.all
  · by_cases mine : task.parentPid = some pid
    · rw [if_pos member, if_pos mine, if_pos ⟨member, mine⟩]
    · rw [if_pos member, if_neg mine, if_neg fun both => mine both.2]
  · rw [if_neg member, if_neg fun both => member both.1]

theorem woken_eq : woken parent u task = { task with status := if u = parent ∧
    task.status = .waiting then .running else task.status } := by
  unfold woken
  split <;> rfl

/-- Adoption changes the parent and the wake-up the status, and nothing else changes. -/
theorem survivor_eq : k.survivor pid parent u task =
    { task with
      parentPid := if u ∈ k.all ∧ task.parentPid = some pid then some 1 else task.parentPid
      status := if u = parent ∧ task.status = .waiting then .running else task.status } := by
  rw [survivor, woken_eq, adopted_eq]

theorem survivor_fields : (k.survivor pid parent u task).pid = task.pid ∧
    (k.survivor pid parent u task).user = task.user ∧
    (k.survivor pid parent u task).exitStatus = task.exitStatus := by
  rw [survivor_eq]
  exact ⟨rfl, rfl, rfl⟩

theorem survivor_parentPid : (k.survivor pid parent u task).parentPid = if u ∈ k.all ∧
    task.parentPid = some pid then some 1 else task.parentPid := by
  rw [survivor_eq]

theorem survivor_status : (k.survivor pid parent u task).status = if u = parent ∧
    task.status = .waiting then .running else task.status := by
  rw [survivor_eq]

theorem survivor_hanging : (k.survivor pid parent u task).status = .hanging ↔ task.status = .hanging := by
  rw [survivor_status]
  split
  · next woken =>
    rw [woken.2]
    exact iff_of_false TaskStatus.noConfusion TaskStatus.noConfusion
  · exact Iff.rfl

theorem survivor_died : (k.survivor pid parent u task).status = .died ↔ task.status = .died := by
  rw [survivor_status]
  split
  · next woken =>
    rw [woken.2]
    exact iff_of_false TaskStatus.noConfusion TaskStatus.noConfusion
  · exact Iff.rfl

end Survivor

section Exit

variable {t parent : Nat} {task : TaskStruct} {status : Byte}

theorem task_exit_self :
    (k.exit t task status parent).task t = some { task with exitStatus := status, status := .hanging } := by
  dsimp only [exit]
  rw [update_self]

theorem task_exit_of_ne {u : Nat} (other : u ≠ t) :
    (k.exit t task status parent).task u = (k.task u).map (k.survivor task.pid parent u) := by
  dsimp only [exit]
  rw [update_of_ne other]

theorem live_exit {u : Nat} {task' : TaskStruct} : (k.exit t task status parent).Live u task' ↔
    u = t ∧ task' = { task with exitStatus := status, status := .hanging } ∨
    u ≠ t ∧ ∃ old, k.Live u old ∧ task' = k.survivor task.pid parent u old := by
  by_cases this : u = t
  · subst this
    rw [Live, task_exit_self]
    constructor
    · rintro ⟨same, -⟩
      exact .inl ⟨rfl, (Option.some.inj same).symm⟩
    · rintro (⟨-, rfl⟩ | ⟨other, -⟩)
      · exact ⟨rfl, TaskStatus.noConfusion⟩
      · exact absurd rfl other
  · rw [Live, task_exit_of_ne this, Option.map_eq_some_iff]
    constructor
    · rintro ⟨⟨old, here, rfl⟩, alive⟩
      exact .inr ⟨this, old, ⟨here, mt (survivor_died _ _ _ _ _).mpr alive⟩, rfl⟩
    · rintro (⟨same, -⟩ | ⟨-, old, live, rfl⟩)
      · exact absurd same this
      · exact ⟨⟨old, live.1, rfl⟩, mt (survivor_died _ _ _ _ _).mp live.2⟩

theorem Family.exit (family : k.Family) (acts : k.Acts t task) {ppid : Nat} (below : task.parentPid = some ppid) :
    (k.exit t task status parent).Family := by
  -- Pids and kinds of tasks are what they were.
  have origin {u : Nat} {task' : TaskStruct} (live : (k.exit t task status parent).Live u task') :
      ∃ old, k.Live u old ∧ task'.pid = old.pid ∧ task'.user = old.user := by
        grind [live_exit, acts.live, k.survivor_fields]
  -- A task other than the exiting one that does not hang is there and does not hang.
  have stays {u : Nat} {old : TaskStruct} (other : u ≠ t) (live : k.Live u old) (awake : old.status ≠ .hanging) :
      ∃ new, (k.exit t task status parent).Live u new ∧ new.pid = old.pid ∧ new.user = old.user ∧
        new.status ≠ .hanging := by grind [k.survivor_fields, live_exit, survivor_hanging]
  obtain ⟨r, root, rootLive, one, orphan, user⟩ := family.root
  have rootOther : r ≠ t := by
    intro same
    subst same
    obtain rfl := Option.some.inj (rootLive.1.symm.trans acts.1)
    rw [orphan] at below
    cases below
  have rootAwake : root.status ≠ .hanging := fun hangs => family.child r root rootLive.1 hangs orphan
  refine ⟨family.nodup, fun u => ?_, fun u u' task₁ task₂ live live' same => ?_, fun u task' live =>
    ?_, ?_, fun u task' p live up => ?_,
    fun u task' here hangs => ?_, ?_⟩
  · change u ∈ k.all ↔ _
    rw [family.mem]
    constructor
    · rintro ⟨old, live⟩
      by_cases this : u = t
      · exact ⟨_, live_exit.mpr (.inl ⟨this, rfl⟩)⟩
      · exact ⟨_, live_exit.mpr (.inr ⟨this, old, live, rfl⟩)⟩
    grind
  · grind [family.distinct]
  · obtain ⟨old, before, pid, -⟩ := origin live
    rw [pid]
    exact family.taken u old before
  · refine ⟨r, _, live_exit.mpr (.inr ⟨rootOther, root, rootLive, rfl⟩), ?_, ?_, ?_⟩
    · rw [(k.survivor_fields task.pid parent r root).1, one]
    · rw [survivor_parentPid, orphan, if_neg fun both => by cases both.2]
    · rw [(k.survivor_fields task.pid parent r root).2.1, user]
  · rcases live_exit.mp live with ⟨rfl, rfl⟩ | ⟨other, old, before, rfl⟩
    · -- The exiting task keeps its parent.
      grind [family.parent, acts.live, family.above]
    · rw [survivor_parentPid] at up
      rw [(k.survivor_fields task.pid parent u old).1]
      split at up
      · next mine =>
        -- A child of the exiting task goes to `init`.
        obtain rfl := Option.some.inj up
        obtain ⟨new, now, pid, user'', awake'⟩ := stays rootOther rootLive rootAwake
        refine ⟨fun same => ?_, r, new, now, pid.trans one, user''.trans user, awake'⟩
        obtain rfl := family.distinct r u root old rootLive before (one.trans same)
        obtain rfl := Option.some.inj (rootLive.1.symm.trans before.1)
        rw [orphan] at mine
        cases mine.2
      · next notMine =>
        obtain ⟨apart, t', task', live', found, user', awake⟩ := family.parent u old p before up
        refine ⟨apart, ?_⟩
        have other' : t' ≠ t := by
          intro same
          subst same
          obtain rfl := Option.some.inj (live'.1.symm.trans acts.1)
          exact notMine ⟨(family.mem u).mpr ⟨old, before⟩, by rw [up, found]⟩
        grind
  · grind [task_exit_self, task_exit_of_ne, Option.map_eq_some_iff, survivor_parentPid, family.child, survivor_hanging]
  · obtain ⟨task', here, none', kernel⟩ := family.main
    have other : k.main ≠ t := by
      intro same
      rw [same] at here
      obtain rfl := Option.some.inj (here.symm.trans acts.1)
      rw [none'] at below
      cases below
    refine ⟨k.survivor task.pid parent k.main task', ?_, ?_, ?_⟩
    · change (k.exit t task status parent).task k.main = _
      rw [task_exit_of_ne other, here, Option.map_some]
    · rw [survivor_parentPid, none', if_neg fun both => by cases both.2]
    · rw [(k.survivor_fields task.pid parent k.main task').2.1, kernel]

end Exit

theorem Family.sleep (family : k.Family) (acts : k.Acts t task) :
    (k.put t { task with status := .waiting }).Family := by
  have self : (k.put t { task with status := .waiting }).task t = some { task with status := .waiting } :=
    update_self _ _ _
  have others {u : Nat} (other : u ≠ t) : (k.put t { task with status := .waiting }).task u = k.task u :=
    update_of_ne other _ _
  have origin {u : Nat} {task' : TaskStruct} (live : (k.put t { task with status := .waiting }).Live u task') :
      ∃ old, k.Live u old ∧ task'.pid = old.pid ∧ task'.parentPid = old.parentPid := by
    by_cases this : u = t
    · subst this
      obtain rfl := Option.some.inj (self.symm.trans live.1)
      exact ⟨task, acts.live, rfl, rfl⟩
    · exact ⟨task', ⟨(others this).symm.trans live.1, live.2⟩, rfl, rfl⟩
  have stays {u : Nat} {old : TaskStruct} (live : k.Live u old) :
      ∃ new, (k.put t { task with status := .waiting }).Live u new ∧ new.pid = old.pid ∧
      new.parentPid = old.parentPid ∧ new.user = old.user ∧ (old.status ≠ .hanging → new.status ≠ .hanging) := by
    by_cases this : u = t
    · subst this
      obtain rfl := Option.some.inj (acts.1.symm.trans live.1)
      exact ⟨_, ⟨self, TaskStatus.noConfusion⟩, rfl, rfl, rfl, fun _ => TaskStatus.noConfusion⟩
    · exact ⟨old, ⟨(others this).trans live.1, live.2⟩, rfl, rfl, rfl, id⟩
  refine ⟨family.nodup, fun u => (family.mem u).trans ⟨fun ⟨old, live⟩ => ?_, fun ⟨task', live⟩ => ?_⟩,
    fun u u' task₁ task₂ live live' same => ?_,
    fun u task' live => ?_, ?_, fun u task' p live up => ?_, fun u task' here hangs => ?_, ?_⟩
  · obtain ⟨new, now, -⟩ := stays live
    exact ⟨new, now⟩
  · obtain ⟨old, before, -⟩ := origin live
    exact ⟨old, before⟩
  · grind [family.distinct]
  · obtain ⟨old, before, pid, -⟩ := origin live
    rw [pid]
    exact family.taken u old before
  · grind [family.root]
  · grind [family.parent]
  · grind [family.child]
  · obtain ⟨task', here, none, kernel⟩ := family.main
    change ∃ task'', (k.put t { task with status := .waiting }).task k.main = some task'' ∧ _
    by_cases this : k.main = t
    · rw [this] at here ⊢
      obtain rfl := Option.some.inj (acts.1.symm.trans here)
      exact ⟨_, self, none, kernel⟩
    · exact ⟨task', (others this).trans here, none, kernel⟩

theorem Step.family {event : ExitEvent} {k' : Kinship} (step : k.Step event k') (family : k.Family) : k'.Family := by
  cases step with
  | same => exact family
  | start new free => exact family.enlist new free.2.1 rfl rfl fun p none => by cases none
  | fork acts user new free =>
    refine family.enlist new free.2.1 rfl acts.2 fun p up => ?_
    cases up
    exact ⟨_, _, acts.live, rfl, user, by rw [acts.2]; exact TaskStatus.noConfusion⟩
  | exit status acts below live found => exact family.exit acts below
  | reap acts here hangs mine => exact family.reap here hangs
  | sleep acts none => exact family.sleep acts
  | mainExit acts => exact family.mainExit acts

end Kinship

end LaiMiniOs
