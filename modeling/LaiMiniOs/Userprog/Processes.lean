import LaiMiniOs.Userprog.Kinship

/-! The steps of the system, on the queues and on the tree of tasks.

For each step: which assertion its caller has to meet, that it then runs to its end with the queues
in order, and which step of `Kinship` it is.
-/

set_option autoImplicit false

namespace LaiMiniOs
open Foundation Prog Function

variable {task : TaskStruct} {t pid thread : Nat} {status : TaskStatus}

namespace Threads

def kinship (s : Threads) : Kinship :=
  ⟨fun t => (s.pcb t).map TaskStruct.settled, s.threadAllList, s.pidBitmap, s.mainThread⟩

variable {s s' : Threads}

theorem SameFamily.kinship (same : s.SameFamily s') : s'.kinship = s.kinship := by
  unfold Threads.kinship
  rw [funext same.tasks, same.threadAllList, same.pidBitmap, same.mainThread]

theorem kinship_task (here : s.pcb t = some task) : s.kinship.task t = some task.settled := by
  change (s.pcb t).map _ = _
  rw [here, Option.map_some]

theorem task_of_kinship {kin : TaskStruct} (here : s.kinship.task t = some kin) : ∃ task, s.pcb t = some task ∧
    task.settled = kin :=
  Option.map_eq_some_iff.mp here

theorem kinship_update (s : Threads) (t : Nat) (entry : Option TaskStruct) :
    kinship { s with pcb := update s.pcb t entry } =
      { s.kinship with task := update s.kinship.task t (entry.map TaskStruct.settled) } := by
  have tasks : (fun u => (update s.pcb t entry u).map TaskStruct.settled) = update s.kinship.task t
      (entry.map TaskStruct.settled) := by
    funext u
    by_cases this : u = t
    · rw [this, update_self, update_self]
    · rw [update_of_ne this, update_of_ne this]
      rfl
  unfold Threads.kinship
  rw [tasks]
  rfl

end Threads

@[simp] theorem TaskStatus.settled_hanging : status.settled = .hanging ↔ status = .hanging := by
  cases status <;> simp [TaskStatus.settled]

@[simp] theorem TaskStatus.settled_waiting : status.settled = .waiting ↔ status = .waiting := by
  cases status <;> simp [TaskStatus.settled]

theorem TaskStruct.settled_initAdopt (pid : Nat) (task : TaskStruct) :
    (task.initAdopt pid).settled = task.settled.initAdopt pid := by
  unfold TaskStruct.initAdopt TaskStruct.settled
  split <;> rfl

theorem TaskStruct.initAdopt_of_ne (other : task.parentPid ≠ some pid) : task.initAdopt pid = task := if_neg other

theorem TaskStruct.initAdopt_fields (pid : Nat) (task : TaskStruct) : (task.initAdopt pid).pid = task.pid ∧
    (task.initAdopt pid).status = task.status := by
  unfold TaskStruct.initAdopt
  split <;> exact ⟨rfl, rfl⟩

/-- What the caller of a step has to meet: the assertions that are not about the scheduler. -/
def Op.Asserted (s : Threads) : Op → Prop
  | tick | yield | idle | semaDown _ | wait | mainExit => True
  | semaUp sema => s.value sema = 0
  | ioqWait waiter => s.ioqWaiter waiter = none
  | wakeup waiter => s.ioqWaiter waiter ≠ none
  | start _ _ => ∃ i, i < 8 * s.pidBitmap.btmpBytesLen ∧ s.pidBitmap.bit i = false
  | fork _ => (∃ task, s.pcb s.cur = some task ∧ task.user = true) ∧ ∃ i, i < 8 * s.pidBitmap.btmpBytesLen ∧
      s.pidBitmap.bit i = false
  | exit _ => ∃ task, s.pcb s.cur = some task ∧ task.parentPid ≠ none

section

variable {s : Threads}

theorem exists_free (free : ∃ i, i < 8 * s.pidBitmap.btmpBytesLen ∧ s.pidBitmap.bit i = false) :
    ∃ i, s.kinship.Free i := by
  classical
  have found := Nat.find_spec free
  refine ⟨Nat.find free, found.1, found.2, fun j low => ?_⟩
  have before := Nat.find_min free low
  by_contra clear
  exact before ⟨Nat.lt_trans low found.1, Bool.eq_false_iff.mpr clear⟩

theorem allocatePid_eq {i : Nat} (free : s.kinship.Free i) :
    allocatePid s = .ok (i + pidStart, { s with pidBitmap := s.pidBitmap.set i true }) := by
  have scan : s.pidBitmap.scan 1 = .ok (some i) := Bitmap.scan_one_eq_ok.mpr ⟨i, rfl, free⟩
  unfold allocatePid
  rw [get_bind, scan]
  rfl

theorem allocatePid_eq_ok {s' : Threads} (run : allocatePid s = .ok (pid, s')) :
    ∃ i, i < 8 * s.pidBitmap.btmpBytesLen ∧ s.pidBitmap.bit i = false := by
  unfold allocatePid at run
  rw [get_bind] at run
  grind [run, Bitmap.scan_one_eq_ok]

variable (sound : s.Sound) (family : s.kinship.Family)
include sound

theorem acts_cur (here : s.pcb s.cur = some task) : s.kinship.Acts s.cur task.settled := by
  obtain ⟨task', here', running⟩ := sound.live
  obtain rfl := Option.some.inj (here.symm.trans here')
  refine ⟨Threads.kinship_task here, ?_⟩
  change task.status.settled = .running
  rw [running]
  rfl

omit sound in
include family in
theorem notMem_of_new (new : s.pcb thread = none) : thread ∉ s.threadAllList := by
  intro member
  obtain ⟨task, live⟩ := (family.mem thread).mp member
  obtain ⟨task', here, -⟩ := Threads.task_of_kinship live.1
  rw [new] at here
  cases here

include family in
theorem enlist_refines (new : s.pcb thread = none) (i : Nat) (task : TaskStruct) (isReady : task.status = .ready) :
    ∃ s', enlist thread task { s with pidBitmap := s.pidBitmap.set i true } = .ok ((), s') ∧ s'.Sound ∧
      s'.kinship = s.kinship.enlist thread i task.settled := by
  have sound₁ : Threads.Sound { s with pidBitmap := s.pidBitmap.set i true } :=
    ⟨sound.congr (fun _ => rfl) rfl rfl rfl, sound.values⟩
  have absent := notMem_of_new family new
  obtain ⟨s', run, sound', rfl⟩ := enlist_sound sound₁ new absent isReady
  refine ⟨_, run, sound', ?_⟩
  exact Threads.kinship_update { s with
    pidBitmap := s.pidBitmap.set i true
    threadReadyList := s.threadReadyList ++ [thread]
    threadAllList := s.threadAllList ++ [thread] } thread (some task)

include family in
theorem threadStart_refines (new : s.pcb thread = none) (prio : Byte) (free : ∃ i, i < 8 * s.pidBitmap.btmpBytesLen ∧
    s.pidBitmap.bit i = false) :
    ∃ s', threadStart thread prio s = .ok ((), s') ∧ s'.Sound ∧ s.kinship.Step .other s'.kinship := by
  obtain ⟨i, free⟩ := exists_free free
  obtain ⟨s', run, sound', same⟩ :=
    enlist_refines sound family new i ⟨i + pidStart, .ready, prio, prio, none, 0, false⟩ rfl
  refine ⟨s', ?_, sound', same ▸ .start ?_ free⟩
  · unfold threadStart
    rw [bind_of_ok (allocatePid_eq free)]
    exact run
  · change (s.pcb thread).map _ = none
    rw [new]
    rfl

include family in
theorem sysFork_refines {child : Nat} (new : s.pcb child = none) {parent : TaskStruct}
    (here : s.pcb s.cur = some parent) (user : parent.user = true)
    (free : ∃ i, i < 8 * s.pidBitmap.btmpBytesLen ∧ s.pidBitmap.bit i = false) :
    ∃ pid s', sysFork child s = .ok (pid, s') ∧ s'.Sound ∧ s.kinship.Step .other s'.kinship := by
  obtain ⟨i, free⟩ := exists_free free
  obtain ⟨s', run, sound', same⟩ := enlist_refines sound family new i
    { parent with pid := i + pidStart, status := .ready, ticks := parent.priority, parentPid := some parent.pid } rfl
  have acts := acts_cur sound here
  have settled :
      ({ parent with pid := i + pidStart, status := .ready, ticks := parent.priority, parentPid := some parent.pid } :
      TaskStruct).settled =
      { parent.settled with pid := i + pidStart, parentPid := some parent.settled.pid } := by
    have running : parent.status.settled = .running := acts.2
    unfold TaskStruct.settled
    rw [running]
    rfl
  rw [settled] at same
  refine ⟨i + pidStart, s', ?_, sound', same ▸ .fork acts user ?_ free⟩
  · unfold sysFork
    rw [get_bind, bind_of_ok (readTask_eq here), require_bind user,
      bind_of_ok (allocatePid_eq free), bind_of_ok run]
    rfl
  · change (s.pcb child).map _ = none
    rw [new]
    rfl

theorem mainExit_refines (main : s.cur = s.mainThread) (notIdle : s.cur ≠ s.idleThread) :
    ∃ s', threadExit s.cur true s = .ok ((), s') ∧ s'.Sound ∧ s.kinship.Step .other s'.kinship := by
  obtain ⟨task, here, running⟩ := sound.live
  have out : s.threadReadyList.erase s.cur = s.threadReadyList := List.erase_of_not_mem (sound.curFree .ready)
  let s₁ : Threads := { s with
    pcb := update s.pcb s.cur (some { task with status := .died })
    threadAllList := s.threadAllList.erase s.cur
    pidBitmap := s.pidBitmap.set (task.pid - pidStart) false }
  have self : s₁.pcb s₁.cur = some { task with status := .died } := update_self _ _ _
  have others (t : Nat) (other : t ≠ s.cur) : s₁.status t = s.status t := by
    unfold Threads.status
    rw [show s₁.pcb t = s.pcb t from update_of_ne other _ _]
  have died : s₁.status s.cur = some .died := Threads.status_of_pcb self
  have orderly : s₁.Orderly := sound.leave sound.curFree rfl others rfl (by rw [died]; simp) fun same =>
    absurd same notIdle
  obtain ⟨s', run, scheduled, switched⟩ := schedule_switches orderly self fun t isRunning => by
    by_contra other
    rw [others t other] at isRunning
    exact other ((sound.runs t).mp isRunning)
  refine ⟨s', ?_, ⟨scheduled, by rw [switched.value]; exact sound.values⟩, ?_⟩
  · unfold threadExit
    rw [bind_of_ok (readTask_eq here), modify_bind, out, modify_bind,
      get_bind]
    exact (bind_of_ok (run_when_of_not (not_not_intro main) _ _)).trans run
  · have acts := acts_cur sound here
    rw [show s.cur = s.kinship.main from main] at acts
    have same : s₁.kinship = s.kinship.mainExit task.settled := by
      have update := Threads.kinship_update { s with
        threadAllList := s.threadAllList.erase s.cur
        pidBitmap := s.pidBitmap.set (task.pid - pidStart) false } s.cur (some { task with status := .died })
      rw [show s₁.kinship = _ from update, main]
      rfl
    rw [switched.kinship, same]
    exact .mainExit acts

include family in
theorem threadExit_reaps {child : Nat} {below : TaskStruct} (here : s.pcb child = some below)
    (hangs : below.status = .hanging) :
    ∃ s', threadExit child false s = .ok ((), s') ∧ s'.Sound ∧ s'.kinship = s.kinship.reap child below.pid ∧
      s'.threadReadyList = s.threadReadyList ∧ child ∉ s.threadReadyList := by
  have status := Threads.status_of_pcb here
  rw [hangs] at status
  have free := sound.free (t := child) (by rw [status]; simp) (by rw [status]; simp)
  have out : child ∉ s.threadReadyList := free .ready
  have notMain : child ≠ s.mainThread := by
    rintro rfl
    obtain ⟨task, main, none, -⟩ := family.main
    obtain rfl := Option.some.inj (main.symm.trans (Threads.kinship_task here))
    exact family.child _ _ main (TaskStatus.settled_hanging.mpr hangs) none
  have notIdle : child ≠ s.idleThread := by grind [sound.idle]
  let s' : Threads := { s with
    pcb := update s.pcb child none
    threadAllList := s.threadAllList.erase child
    pidBitmap := s.pidBitmap.set (below.pid - pidStart) false }
  have self : s'.status child = none := by
    unfold Threads.status
    rw [show s'.pcb child = none from update_self _ _ _]
    rfl
  have others (t : Nat) (other : t ≠ child) : s'.status t = s.status t := by
    unfold Threads.status
    rw [show s'.pcb t = s.pcb t from update_of_ne other _ _]
  refine ⟨s', ?_,
    ⟨⟨sound.leave free rfl others rfl (by rw [self]; simp) fun same => absurd same notIdle, fun t => ?_⟩,
    sound.values⟩, ?_, rfl, out⟩
  · unfold threadExit
    rw [bind_of_ok (readTask_eq here), modify_bind, List.erase_of_not_mem out, modify_bind,
      get_bind]
    refine (bind_of_ok ((run_when_of notMain _ _).trans (run_set _ _))).trans ?_
    dsimp only [Threads.setTask]
    rw [update_idem]
    rfl
  · grind [sound.runs]
  · exact Threads.kinship_update { s with
      threadAllList := s.threadAllList.erase child
      pidBitmap := s.pidBitmap.set (below.pid - pidStart) false } child none

include family in
theorem sysWait_refines (notIdle : s.cur ≠ s.idleThread) (here : s.pcb s.cur = some task) :
    ∃ result s', sysWait s = .ok (result, s') ∧ s'.Sound ∧
      ((∃ child below, s.pcb child = some below ∧ below.status = .hanging ∧ below.parentPid = some task.pid ∧
          result = .reaped below.pid below.exitStatus.toInt ∧ s'.kinship = s.kinship.reap child below.pid ∧
          s'.threadReadyList = s.threadReadyList ∧ child ∉ s.threadReadyList) ∨
        result = .noChild ∧ s' = s ∨
        result = .asleep ∧ (∀ t ∈ s.threadAllList, s.findHangingChild task.pid t = false) ∧
          s'.kinship = s.kinship.put s.cur { task.settled with status := .waiting }) := by
  unfold sysWait
  rw [get_bind, bind_of_ok (readTask_eq here)]
  cases hanging : s.threadAllList.find? (s.findHangingChild task.pid) with
  | some child =>
    have found := List.find?_some hanging
    unfold Threads.findHangingChild at found
    obtain ⟨below, here', matches_⟩ := (Option.any_eq_true _ _).mp found
    rw [Bool.and_eq_true, beq_iff_eq, beq_iff_eq] at matches_
    obtain ⟨mine, hangs⟩ := matches_
    obtain ⟨s', run, sound', same, list, out⟩ := threadExit_reaps sound family here' hangs
    refine ⟨_, s', ?_, sound', .inl ⟨child, below, here', hangs, mine, rfl, same, list, out⟩⟩
    dsimp only
    rw [bind_of_ok (readTask_eq here'), bind_of_ok run]
    rfl
  | none =>
    have nobody (t : Nat) (member : t ∈ s.threadAllList) : s.findHangingChild task.pid t = false :=
      Bool.eq_false_iff.mpr (List.find?_eq_none.mp hanging t member)
    dsimp only
    cases child : s.threadAllList.find? (s.findChild task.pid) with
    | none => exact ⟨.noChild, s, rfl, sound, .inr (.inl ⟨rfl, rfl⟩)⟩
    | some t =>
      obtain ⟨s', run, sound', same⟩ := threadBlock_sound sound (.inl rfl) notIdle here
      refine ⟨.asleep, s', ?_, sound', .inr (.inr ⟨rfl, nobody, ?_⟩)⟩
      · dsimp only
        rw [bind_of_ok run]
        rfl
      · rw [same.kinship]
        exact s.kinship_update s.cur (some { task with status := .waiting })

end

theorem Threads.pid2thread_some {s : Threads} (found : s.pid2thread pid = some t) :
    t ∈ s.threadAllList ∧ ∃ task, s.pcb t = some task ∧ task.pid = pid := by
  unfold Threads.pid2thread at found
  have fits := List.find?_some found
  obtain ⟨task, here, same⟩ := (Option.any_eq_true _ _).mp fits
  exact ⟨List.mem_of_find?_eq_some found, task, here, eq_of_beq same⟩

theorem Threads.exists_pid2thread {s : Threads} (member : t ∈ s.threadAllList) (here : s.pcb t = some task)
    (same : task.pid = pid) : ∃ t', s.pid2thread pid = some t' := by
  refine Option.isSome_iff_exists.mp (List.find?_isSome.mpr ⟨t, member, ?_⟩)
  rw [here, Option.any_some, beq_iff_eq, same]

/-- The state in which `sys_exit` looks for the parent: the exit status is stored and the children
have gone to `init`. -/
def Threads.exiting (s : Threads) (task : TaskStruct) (status : Byte) : Threads :=
  (s.setTask s.cur { task with exitStatus := status }).initAdopt task.pid

section Exit

variable {s : Threads} {task : TaskStruct} (status : Byte)

theorem exiting_other (task : TaskStruct) {u : Nat} (other : u ≠ s.cur) :
    (s.exiting task status).pcb u = (s.pcb u).map fun old => if u ∈ s.threadAllList then old.initAdopt task.pid
    else old := by
  change (if u ∈ s.threadAllList then ((s.setTask s.cur _).pcb u).map _ else (s.setTask s.cur _).pcb u) = _
  rw [s.pcb_setTask_of_ne other]
  split
  · rfl
  · cases s.pcb u <;> rfl

theorem exiting_kin (task : TaskStruct) {u : Nat} (other : u ≠ s.cur) :
    (s.exiting task status).kinship.task u = (s.kinship.task u).map (s.kinship.adopted task.pid u) := by
  change ((s.exiting task status).pcb u).map _ = ((s.pcb u).map _).map _
  rw [exiting_other status task other, Option.map_map, Option.map_map]
  congr 1
  funext old
  change (if u ∈ s.threadAllList then old.initAdopt task.pid else old).settled = if u ∈
    s.threadAllList then old.settled.initAdopt task.pid else old.settled
  split
  · exact old.settled_initAdopt task.pid
  · rfl

variable (sound : s.Sound) (family : s.kinship.Family) (here : s.pcb s.cur = some task) {ppid : Nat}
  (below : task.parentPid = some ppid)
include sound family here below

theorem exiting_self : (s.exiting task status).pcb s.cur = some { task with exitStatus := status } := by
  have acts := acts_cur sound here
  have member : s.cur ∈ s.threadAllList := (family.mem s.cur).mpr ⟨_, acts.live⟩
  change (if s.cur ∈ s.threadAllList then ((s.setTask s.cur _).pcb s.cur).map _ else _) = _
  rw [if_pos member, s.pcb_setTask_self, Option.map_some, TaskStruct.initAdopt_of_ne]
  change task.parentPid ≠ some task.pid
  rw [below]
  exact fun same => (family.parent s.cur task.settled ppid acts.live below).1 (Option.some.inj same)

theorem exiting_sound : (s.exiting task status).Sound := by
  refine ⟨sound.congr (fun u => ?_) rfl rfl rfl, sound.values⟩
  by_cases this : u = s.cur
  · rw [this, Threads.status_of_pcb (exiting_self status sound family here below), Threads.status_of_pcb here]
  · rw [Threads.status, exiting_other status task this, Option.map_map, Threads.status]
    congr 1
    funext old
    change (if u ∈ s.threadAllList then old.initAdopt task.pid else old).status = old.status
    split
    · exact (old.initAdopt_fields task.pid).2
    · rfl

theorem exiting_parent : ∃ parent above, (s.exiting task status).pid2thread ppid = some parent ∧ parent ≠ s.cur ∧
    s.kinship.Live parent above ∧ above.pid = ppid := by
  have acts := acts_cur sound here
  obtain ⟨notOwn, t, above, live, found, -⟩ := family.parent s.cur task.settled ppid acts.live below
  -- A task with the pid of the parent, before and after the adoption.
  have pidOf {u : Nat} {task' : TaskStruct} (here' : (s.exiting task status).pcb u = some task') :
      ∃ old, s.pcb u = some old ∧ old.pid = task'.pid := by
    by_cases this : u = s.cur
    · grind [exiting_self]
    · rw [exiting_other status task this, Option.map_eq_some_iff] at here'
      obtain ⟨old, before, rfl⟩ := here'
      grind [old.initAdopt_fields]
  have other : t ≠ s.cur := (family.above acts.live below live found).1
  obtain ⟨old, before, settled⟩ := Threads.task_of_kinship live.1
  obtain ⟨parent, find⟩ : ∃ parent, (s.exiting task status).pid2thread ppid = some parent := by
    have after := exiting_other status task other
    rw [before, Option.map_some] at after
    refine Threads.exists_pid2thread ((family.mem t).mpr ⟨above, live⟩) after ?_
    rw [← found, ← settled]
    split
    · exact (old.initAdopt_fields task.pid).1
    · rfl
  obtain ⟨member, task', here', pid'⟩ := Threads.pid2thread_some find
  obtain ⟨above', live'⟩ := (family.mem parent).mp member
  obtain ⟨old', before', same⟩ := pidOf here'
  obtain rfl := Option.some.inj ((Threads.kinship_task before').symm.trans live'.1)
  exact ⟨parent, _, find, (family.above acts.live below live' (same.trans pid')).1, live', same.trans pid'⟩

theorem exiting_wakes {parent : Nat} (apart : parent ≠ s.cur) {above : TaskStruct}
    (there : (s.exiting task status).pcb parent = some above) :
    ∃ s₃, Prog.when (above.status = .waiting) (threadUnblock parent) (s.exiting task status) = .ok ((), s₃) ∧ s₃.Sound ∧
      s₃.pcb s₃.cur = some { task with exitStatus := status } ∧ (s₃.cur = s.cur ∧ s₃.idleThread = s.idleThread) ∧
      (s₃.kinship.all = s.kinship.all ∧ s₃.kinship.pids = s.kinship.pids ∧ s₃.kinship.main = s.kinship.main) ∧
      ∀ u, u ≠ s.cur → s₃.kinship.task u = (s.kinship.task u).map (s.kinship.survivor task.pid parent u) := by
  have sound₂ := exiting_sound status sound family here below
  have self := exiting_self status sound family here below
  -- What remains to be shown of the tasks is that the wake-up is `woken`.
  have suffices_ {s₃ : Threads} (woken :
      ∀ u, s₃.kinship.task u = ((s.exiting task status).kinship.task u).map (Kinship.woken parent u)) (u : Nat)
      (other : u ≠ s.cur) : s₃.kinship.task u = (s.kinship.task u).map (s.kinship.survivor task.pid parent u) := by
    rw [woken, exiting_kin status task other, Option.map_map]
    rfl
  have kin : (s.exiting task status).kinship.task parent = some above.settled := Threads.kinship_task there
  have idle (u : Nat) (other : u ≠ parent ∨ above.status ≠ .waiting) :
      ((s.exiting task status).kinship.task u).map (Kinship.woken parent u) =
        (s.exiting task status).kinship.task u := by
    by_cases this : u = parent
    · rw [this, kin, Option.map_some, Kinship.woken, if_neg fun both =>
        (other.resolve_left (not_not_intro this)) (TaskStatus.settled_waiting.mp both.2)]
    · have fixed : Kinship.woken parent u = id := by
        funext old
        exact if_neg fun both => this both.1
      rw [fixed, Option.map_id, id]
  by_cases waits : above.status = .waiting
  · have status₂ : (s.exiting task status).status parent = some .waiting := by rw [Threads.status_of_pcb there, waits]
    have free := sound₂.free (t := parent) (by rw [status₂]; simp) (by rw [status₂]; simp)
    refine ⟨(s.exiting task status).unblocked parent above,
      (run_when_of waits _ _).trans (threadUnblock_eq there (.inr (.inl waits)) (free .ready)),
      ⟨⟨sound₂.unblock free above, fun u => ?_⟩, sound₂.values⟩,
        (Threads.pcb_setTask_of_ne _ apart.symm _).trans self, ⟨rfl, rfl⟩, ⟨rfl, rfl, rfl⟩,
      suffices_ fun u => ?_⟩
    · unfold Threads.unblocked
      by_cases this : u = parent
      · rw [this, Threads.status_setTask_self]
        exact iff_of_false (fun same => by cases same) apart
      · rw [Threads.status_setTask_of_ne _ this]
        exact sound₂.runs u
    · by_cases this : u = parent
      · rw [this, kin, Option.map_some, Kinship.woken, if_pos ⟨rfl, TaskStatus.settled_waiting.mpr waits⟩]
        exact Threads.kinship_task (Threads.pcb_setTask_self _ _ _)
      · rw [idle u (.inl this)]
        exact congrArg (Option.map TaskStruct.settled) (Threads.pcb_setTask_of_ne _ this _)
  · exact ⟨_, run_when_of_not waits _ _, sound₂, self, ⟨rfl, rfl⟩, ⟨rfl, rfl, rfl⟩, suffices_ fun u =>
      (idle u (.inr waits)).symm⟩

theorem sysExit_refines (notIdle : s.cur ≠ s.idleThread) (status : Word) :
    ∃ s' parent above, sysExit status s = .ok ((), s') ∧ s'.Sound ∧ s.kinship.Live parent above ∧ above.pid = ppid ∧
      s'.kinship = s.kinship.exit s.cur task.settled (status.setWidth 8) parent := by
  obtain ⟨parent, above, find, apart, live, pid⟩ := exiting_parent (status.setWidth 8) sound family here below
  obtain ⟨-, parentThread, there, -⟩ := Threads.pid2thread_some find
  obtain ⟨s₃, wake, sound₃, self₃, ⟨cur₃, idle₃⟩, ⟨all₃, pids₃, main₃⟩, tasks₃⟩ :=
    exiting_wakes (status.setWidth 8) sound family here below apart there
  obtain ⟨s', run, sound', same⟩ := threadBlock_sound sound₃ (.inr rfl) (by rw [cur₃, idle₃]; exact notIdle) self₃
  have below' : task.parentPid ≠ none := by
    rw [below]
    exact Option.some_ne_none _
  refine ⟨s', parent, above, ?_, sound', live, pid, ?_⟩
  · have self := exiting_self (status.setWidth 8) sound family here below
    unfold sysExit
    rw [get_bind, bind_of_ok (readTask_eq here), set_bind,
      require_bind below', modify_bind]
    refine (bind_of_ok (readTask_eq self)).trans ?_
    rw [get_bind]
    dsimp only
    rw [below, Option.bind_some, find]
    dsimp only
    rw [bind_of_ok (readTask_eq there), bind_of_ok wake]
    exact run
  · rw [same.kinship, Threads.setTask, Threads.kinship_update, cur₃]
    refine Kinship.ext ?_ all₃ pids₃ main₃
    funext u
    dsimp only [Kinship.exit]
    by_cases this : u = s.cur
    · rw [this, update_self, update_self]
      rfl
    · rw [update_of_ne this, update_of_ne this]
      exact tasks₃ u this

end Exit

end LaiMiniOs
