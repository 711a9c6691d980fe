import LaiMiniOs.Userprog.Runs

/-! Exits and who hears of them.

A task that hangs carries its exit status until a `sys_wait` of its parent takes its record away, so
every exit is reported once at most. The wake-up that goes with an exit is sent to the parent of the
exiting task only, although the exit also hands other tasks, some of which may hang already, over to
`init`.
-/

set_option autoImplicit false

namespace LaiMiniOs
open Foundation Prog Function

variable {past : List ExitEvent} {s s' : Threads} {pid parent t : Nat} {event : ExitEvent} {task : TaskStruct}
  {status : Int}

def ExitEvent.Concerns (pid : Nat) : ExitEvent → Prop
  | .exited pid' _ => pid' = pid
  | .reported _ pid' _ => pid' = pid
  | .other => False

def Unreported (past : List ExitEvent) (pid : Nat) (status : Word) : Prop :=
  ∃ recent older, past = recent ++ .exited pid status :: older ∧ ∀ event ∈ recent, ¬ event.Concerns pid

theorem Unreported.cons {status : Word} (unreported : Unreported past pid status)
    (other : ¬ event.Concerns pid) : Unreported (event :: past) pid status := by
  obtain ⟨recent, older, rfl, before⟩ := unreported
  refine ⟨event :: recent, older, rfl, fun event' here => ?_⟩
  rcases List.mem_cons.mp here with rfl | old
  · exact other
  · exact before event' old

namespace Kinship

variable {k k' : Kinship}

/-- Every task that hangs keeps the status of an exit that has not been reported. -/
def Recorded (k : Kinship) (past : List ExitEvent) : Prop :=
  ∀ t task, k.task t = some task → task.status = .hanging → ∃ status, Unreported past task.pid status ∧
    task.exitStatus = status.setWidth 8

theorem Recorded.other (recorded : k.Recorded past)
    (same : ∀ t task, k'.task t = some task → task.status = .hanging → k.task t = some task) :
    k'.Recorded (.other :: past) := by
  intro t task here hangs
  obtain ⟨status, unreported, stored⟩ := recorded t task (same t task here hangs) hangs
  exact ⟨status, unreported.cons id, stored⟩

theorem hangs_of_update {u : Nat} {task' : TaskStruct} (here : update k.task t (some task) u = some task')
    (notHangs : task.status ≠ .hanging)
    (hangs : task'.status = .hanging) : k.task u = some task' := by grind

theorem Step.recorded (step : k.Step event k') (family : k.Family) (recorded : k.Recorded past) :
    k'.Recorded (event :: past) := by
  cases step with
  | same => exact recorded.other fun _ _ here _ => here
  | start new free => exact recorded.other fun _ _ here hangs => hangs_of_update here TaskStatus.noConfusion hangs
  | @fork p child i task acts user new free =>
    refine recorded.other fun _ _ here hangs => hangs_of_update here ?_ hangs
    change task.status ≠ .hanging
    rw [acts.2]
    exact TaskStatus.noConfusion
  | @exit t parent task above ppid status acts below live found =>
    intro u task' here hangs
    by_cases this : u = t
    · -- The exit itself is the last event about the pid.
      subst this
      obtain rfl := Option.some.inj (task_exit_self.symm.trans here)
      exact ⟨status, ⟨[], past, rfl, fun _ member => absurd member List.not_mem_nil⟩, rfl⟩
    · rw [task_exit_of_ne this, Option.map_eq_some_iff] at here
      obtain ⟨old, before, rfl⟩ := here
      rw [survivor_hanging] at hangs
      obtain ⟨pid, -, stored⟩ := k.survivor_fields task.pid parent u old
      obtain ⟨status', unreported, kept⟩ := recorded u old before hangs
      have alive : k.Live u old := ⟨before, by rw [hangs]; exact TaskStatus.noConfusion⟩
      refine ⟨status', ?_, stored.trans kept⟩
      rw [pid]
      exact unreported.cons fun same => this (family.distinct u t old task alive acts.live (Eq.symm same))
  | @reap p child task below acts here hangs mine =>
    intro u task' here' hangs'
    by_cases this : u = child
    · subst this
      change update k.task u none u = some task' at here'
      rw [update_self] at here'
      cases here'
    · change update k.task child none u = some task' at here'
      rw [update_of_ne this] at here'
      obtain ⟨status, unreported, stored⟩ := recorded u task' here' hangs'
      have alive : k.Live u task' := ⟨here', by rw [hangs']; exact TaskStatus.noConfusion⟩
      have alive' : k.Live child below := ⟨here, by rw [hangs]; exact TaskStatus.noConfusion⟩
      exact ⟨status, unreported.cons fun same =>
        this (family.distinct u child task' below alive alive' (Eq.symm same)), stored⟩
  | sleep acts none => exact recorded.other fun _ _ here hangs => hangs_of_update here TaskStatus.noConfusion hangs
  | mainExit acts => exact recorded.other fun _ _ here hangs => hangs_of_update here TaskStatus.noConfusion hangs

end Kinship

theorem Threads.History.recorded {s₀ : Threads} {init idle : Nat} (blank : s₀.Blank) (apart : init ≠ s₀.cur ∧
    idle ≠ s₀.cur ∧ idle ≠ init) (history : (s₀.booted init idle).History past s) : s.kinship.Recorded past := by
  induction history with
  | start =>
    intro t task here hangs
    obtain ⟨ppid, below⟩ := Option.ne_none_iff_exists'.mp ((booted_family apart blank).child t task here hangs)
    obtain ⟨old, before, rfl⟩ := Threads.task_of_kinship here
    rcases booted_cases blank before with ⟨-, rfl⟩ | ⟨-, rfl⟩ | ⟨-, rfl⟩ <;> cases below
  | step before step ih =>
    obtain ⟨sound, family⟩ := before.reachable.keeps blank apart
    exact (step.keeps sound family).2.recorded family ih

def ExitEvent.reports (pid : Nat) : ExitEvent → Bool
  | .reported _ pid' _ => pid' == pid
  | _ => false

/-- Since an exit, and before another one of the same pid, there has been one report at most. -/
def ReportedOnce (past : List ExitEvent) : Prop :=
  ∀ recent older pid status, past = recent ++ .exited pid status :: older → (∀ status', .exited pid status' ∉ recent) →
    (recent.filter (ExitEvent.reports pid)).length ≤ 1

theorem recent_unique {status status' : Word} {recent recent' older older' : List ExitEvent}
    (same : recent ++ .exited pid status :: older = recent' ++ .exited pid status' :: older')
    (first : ∀ status, .exited pid status ∉ recent)
    (second : ∀ status, .exited pid status ∉ recent') : recent = recent' := by
  induction recent generalizing recent' with
  | nil =>
    cases recent' with
    | nil => rfl
    | cons event recent' =>
      obtain ⟨rfl, -⟩ := List.cons.inj same
      exact absurd List.mem_cons_self (second status)
  | cons event recent ih =>
    cases recent' with
    | nil =>
      obtain ⟨rfl, -⟩ := List.cons.inj same
      exact absurd List.mem_cons_self (first status')
    | cons event' recent' =>
      grind

theorem ReportedOnce.cons (once : ReportedOnce past)
    (fresh : ∀ parent pid status, event = .reported parent pid status →
    ∃ exitStatus, Unreported past pid exitStatus) : ReportedOnce (event :: past) := by
  intro recent older pid status split none
  cases recent with
  | nil => exact Nat.zero_le 1
  | cons first recent =>
    obtain ⟨rfl, rest⟩ := List.cons.inj split
    have none' (status' : Word) : .exited pid status' ∉ recent := fun here => none status' (List.mem_cons_of_mem _ here)
    by_cases reports : event.reports pid = true
    · -- Nothing about the pid has been seen since its exit.
      obtain ⟨parent, stored, rfl⟩ : ∃ parent stored, event = .reported parent pid stored := by
        cases event with
        | reported parent pid' stored =>
          obtain rfl := eq_of_beq reports
          exact ⟨parent, stored, rfl⟩
        | exited _ _ => cases reports
        | other => cases reports
      obtain ⟨exitStatus, recent', older', same, silent⟩ := fresh parent pid stored rfl
      have none'' (status' : Word) : .exited pid status' ∉ recent' := fun here => silent _ here rfl
      obtain rfl := recent_unique (rest.symm.trans same) none' none''
      rw [List.filter_cons_of_pos reports, List.length_cons, List.filter_eq_nil_iff.mpr, List.length_nil]
      intro event' here reports'
      cases event' with
      | reported parent' pid' stored' => exact silent _ here (eq_of_beq reports')
      | exited _ _ => cases reports'
      | other => cases reports'
    · rw [List.filter_cons_of_neg reports]
      exact once recent older pid status rest none'

theorem Kinship.Step.reports {k k' : Kinship} (step : k.Step (.reported parent pid status) k')
    (recorded : k.Recorded past) : ∃ exitStatus, Unreported past pid exitStatus ∧
    status = (exitStatus.setWidth 8).toInt := by
  cases step with
  | reap acts here hangs mine =>
    obtain ⟨exitStatus, unreported, stored⟩ := recorded _ _ here hangs
    exact ⟨exitStatus, unreported, by rw [stored]⟩

theorem Threads.History.reportedOnce {s₀ : Threads} {init idle : Nat} (blank : s₀.Blank) (apart : init ≠ s₀.cur ∧
    idle ≠ s₀.cur ∧ idle ≠ init) (history : (s₀.booted init idle).History past s) : ReportedOnce past := by
  induction history with
  | start =>
    intro recent older pid status split
    exact absurd (congrArg List.length split) (by simp)
  | step before step ih =>
    obtain ⟨sound, family⟩ := before.reachable.keeps blank apart
    refine ih.cons fun parent pid status reports => ?_
    have kin := (step.keeps sound family).2
    rw [reports] at kin
    obtain ⟨exitStatus, unreported, -⟩ := kin.reports (before.recorded blank apart)
    exact ⟨exitStatus, unreported⟩

theorem wait_takes_child (sound : s.Sound) (family : s.kinship.Family) {op : Op} {answer : Answer}
    (step : s.Step op answer s') (reports : s.event op answer = .reported parent pid status) :
    s.curPid = parent ∧ ∃ t task, s.pcb t = some task ∧ task.pid = pid ∧ task.parentPid = some parent ∧
      s'.pcb t = none ∧
      t ∉ s'.threadAllList ∧ ∀ q, t ∉ s'.queue q := by
  obtain ⟨allowed, run⟩ := step
  cases op with
  | wait =>
    obtain ⟨result, t, wait, last⟩ := bind_eq_ok.mp run
    cases last
    obtain ⟨self, here, -⟩ := sound.live
    obtain ⟨result', s'', wait', sound', ends⟩ := sysWait_refines sound family allowed here
    cases wait.symm.trans wait'
    have mePid : s.curPid = self.pid := by
      rw [Threads.curPid, here]
      rfl
    rcases ends with ⟨child, below, there, hangs, mine, rfl, same, -⟩ | ⟨rfl, -⟩ | ⟨rfl, -⟩
    · cases reports
      have gone : s'.kinship.task child = none := by
        rw [same]
        exact update_self _ _ _
      have gone' : s'.pcb child = none := Option.map_eq_none_iff.mp gone
      have status' : s'.status child = none := by
        rw [Threads.status, gone']
        rfl
      refine ⟨rfl, child, below, there, rfl, mePid ▸ mine, gone', fun member =>
        ?_, sound'.free (by rw [status']; simp) (by rw [status']; simp)⟩
      have reaped : (s.kinship.reap child below.settled.pid).Family :=
        family.reap (Threads.kinship_task there) (TaskStatus.settled_hanging.mpr hangs)
      have family' : s'.kinship.Family := by
        rw [same]
        exact reaped
      obtain ⟨task, live⟩ := (family'.mem child).mp member
      rw [Kinship.Live, gone] at live
      cases live.1
    · cases reports
    · cases reports
  | tick | yield | idle | start _ _ | semaDown _ | semaUp _ | ioqWait _ | wakeup _ | fork _ | exit _ | mainExit =>
      cases reports

structure Threads.PidFree (s : Threads) (pid : Nat) : Prop where
  unused : ∀ t ∈ s.threadAllList, ∀ task, s.pcb t = some task → task.pid ≠ pid
  free : s.pidBitmap.bit (pid - pidStart) = false

theorem Kinship.Step.pidFree (family : s.kinship.Family)
    (step : s.kinship.Step (.reported parent pid status) s'.kinship) : s'.PidFree pid := by
  have family' := step.family family
  have clear : s'.kinship.pids.bit (pid - pidStart) = false := by
    generalize s'.kinship = k' at step
    cases step with
    | @reap p child task below acts here hangs mine =>
      change (s.kinship.pids.set (below.pid - pidStart) false).bit (below.pid - pidStart) = false
      rw [Bitmap.bit_set, if_pos rfl]
  refine ⟨fun t member task here same => ?_, clear⟩
  obtain ⟨kin, live⟩ := (family'.mem t).mp member
  obtain rfl := Option.some.inj ((Threads.kinship_task here).symm.trans live.1)
  have taken := (family'.taken t _ live).2
  rw [show task.settled.pid = pid from same, clear] at taken
  cases taken

/-- In every run pids are distinct, parents can still wait, and an exit is reported once at most: by a
`sys_wait` of the one who is the parent then, with the pid and the low byte of the status, after which
nothing of the child is left. -/
theorem exits_reported_once {s₀ s₁ s : Threads} {init idle : Nat} (blank : s₀.Blank)
    (apart : init ≠ s₀.cur ∧ idle ≠ s₀.cur ∧ idle ≠ init)
    (boot : threadInit init idle s₀ = .ok ((), s₁)) {past : List ExitEvent} (history : s₁.History past s) :
    (∀ t ∈ s.threadAllList, ∀ t' ∈ s.threadAllList, ∀ task task', s.pcb t = some task → s.pcb t' = some task' →
    task.pid = task'.pid → t = t') ∧
    (∀ t ∈ s.threadAllList, ∀ task p, s.pcb t = some task → task.parentPid = some p →
      ∃ t' ∈ s.threadAllList, ∃ task', s.pcb t' = some task' ∧ task'.pid = p ∧ task'.status ≠ .hanging) ∧
    ReportedOnce past ∧
    ∀ op answer s' parent pid status, s.Step op answer s' → s.event op answer = .reported parent pid status →
      (∃ exitStatus, Unreported past pid exitStatus ∧ status = (exitStatus.setWidth 8).toInt) ∧
      (s.curPid = parent ∧ ∃ t task, s.pcb t = some task ∧ task.pid = pid ∧ task.parentPid = some parent ∧
      s'.pcb t = none ∧
        t ∉ s'.threadAllList ∧ ∀ q, t ∉ s'.queue q) ∧
      s'.PidFree pid := by
  cases (threadInit_eq apart).symm.trans boot
  obtain ⟨sound, family⟩ := history.reachable.keeps blank apart
  have alive {t : Nat} {task : TaskStruct} (member : t ∈ s.threadAllList) (here : s.pcb t = some task) :
      s.kinship.Live t task.settled := by
    obtain ⟨kin, live⟩ := (family.mem t).mp member
    obtain rfl := Option.some.inj ((Threads.kinship_task here).symm.trans live.1)
    exact live
  refine ⟨fun t member t' member' task task' here here' same => ?_, fun t member task p here below =>
    ?_, history.reportedOnce blank apart,
    fun op answer s' parent pid status step reports => ?_⟩
  · exact family.distinct t t' _ _ (alive member here) (alive member' here') same
  · obtain ⟨-, t', kin, live, pid, -, awake⟩ := family.parent t _ p (alive member here) below
    obtain ⟨task', here', rfl⟩ := Threads.task_of_kinship live.1
    exact ⟨t', (family.mem t').mpr ⟨_, live⟩, task', here', pid, mt TaskStatus.settled_hanging.mpr awake⟩
  · have kin := (step.keeps sound family).2
    rw [reports] at kin
    exact ⟨kin.reports (history.recorded blank apart), wait_takes_child sound family step reports, kin.pidFree family⟩

/-- `init` forks a child, which exits with 258, and waits for it: it gets the low byte, 2. -/
theorem exits_reported_once_258 : ∃ s₁ past s, threadInit 2 3 blankThreads = .ok ((), s₁) ∧ s₁.History past s ∧
    .exited 2 258 ∈ past ∧ .reported 1 2 2 ∈ past ∧ ReportedOnce past := by
  have apart : 2 ≠ blankThreads.cur ∧ 3 ≠ blankThreads.cur ∧ 3 ≠ 2 := by decide
  have played : ((Threads.play [.mainExit, .fork 4, .wait, .idle, .exit 258, .wait] ([], blankThreads.booted 2 3)).any
      fun state =>
      state.1.contains (.exited 2 258) && state.1.contains (.reported 1 2 2)) = true := by decide +kernel
  obtain ⟨state, run, events⟩ := (Option.any_eq_true _ _).mp played
  rw [Bool.and_eq_true, List.contains_iff_mem, List.contains_iff_mem] at events
  have history := Threads.play_history run .start
  exact ⟨_, state.1, state.2, threadInit_eq apart, history, events.1, events.2,
    (exits_reported_once blankThreads_blank apart (threadInit_eq apart) history).2.2.1⟩

namespace Kinship

def Prompt (k : Kinship) : Prop :=
  ∀ t task u child, k.task t = some task → task.status = .waiting → k.task u = some child → child.status = .hanging →
    child.parentPid ≠ some task.pid

variable {k k' : Kinship}

theorem Prompt.mono (prompt : k.Prompt) (same : ∀ t task, k'.task t = some task → task.status = .waiting ∨
    task.status = .hanging → k.task t = some task) :
    k'.Prompt :=
  fun t task u child here waits there hangs => prompt t task u child (same t task here (.inl waits)) waits
    (same u child there (.inr hangs)) hangs

theorem stops_of_update {u : Nat} {task' : TaskStruct} (here : update k.task t (some task) u = some task')
    (acts : task.status = .running ∨ task.status = .died) (stops : task'.status = .waiting ∨
    task'.status = .hanging) : k.task u = some task' := by grind

/-- An exit whose adopted children do not hang, or find `init` awake. -/
def Attended (k : Kinship) (task : TaskStruct) : Prop :=
  task.parentPid = some 1 ∨ (∀ r root, k.task r = some root → root.pid = 1 → root.status ≠ .waiting) ∨
    ∀ u child, k.task u = some child → child.parentPid = some task.pid → child.status ≠ .hanging

/-- An exit loses a wake-up exactly when `init` waits, is not the parent, and gets a child that hangs. -/
theorem Prompt.exit_iff (prompt : k.Prompt) (family : k.Family) {above : TaskStruct} {ppid : Nat} {status : Byte}
    (acts : k.Acts t task) (below : task.parentPid = some ppid) (live : k.Live parent above)
    (found : above.pid = ppid) :
    (k.exit t task status parent).Prompt ↔ k.Attended task := by
  have alive {u : Nat} {task' : TaskStruct} (here : k.task u = some task') (stops : task'.status = .waiting ∨
      task'.status = .hanging) : k.Live u task' := by
    refine ⟨here, ?_⟩
    rcases stops with is | is <;> rw [is] <;> exact TaskStatus.noConfusion
  constructor
  · intro after
    by_contra lost
    unfold Attended at lost
    push Not at lost
    obtain ⟨notInit, ⟨r, root, here, one, waits⟩, u, child, there, mine, hangs⟩ := lost
    have rootOther : r ≠ t := by
      rintro rfl
      obtain rfl := Option.some.inj (here.symm.trans acts.1)
      rw [acts.2] at waits
      cases waits
    have rootParent : r ≠ parent := by
      rintro rfl
      obtain rfl := Option.some.inj (here.symm.trans live.1)
      rw [below, ← found, one] at notInit
      exact notInit rfl
    have childOther : u ≠ t := by
      rintro rfl
      obtain rfl := Option.some.inj (there.symm.trans acts.1)
      rw [acts.2] at hangs
      cases hangs
    refine after r (k.survivor task.pid parent r root) u (k.survivor task.pid parent u child) ?_ ?_ ?_
      ((survivor_hanging _ _ _ _ _).mpr hangs) ?_
    · rw [task_exit_of_ne rootOther, here, Option.map_some]
    · rw [survivor_status, if_neg fun both => rootParent both.1, waits]
    · rw [task_exit_of_ne childOther, there, Option.map_some]
    grind [survivor_parentPid, family.mem, k.survivor_fields]
  · intro attended w waiter' u child' here waits there hangs up
    have other : w ≠ t := by grind [task_exit_self]
    rw [task_exit_of_ne other, Option.map_eq_some_iff] at here
    obtain ⟨waiter, before, rfl⟩ := here
    rw [(k.survivor_fields task.pid parent w waiter).1] at up
    rw [survivor_status] at waits
    split at waits
    · cases waits
    · next notWoken =>
      -- The waiter is not the parent, which has been woken.
      have notParent : w ≠ parent := fun same => notWoken ⟨same, waits⟩
      have waiterLive := alive before (.inl waits)
      by_cases this : u = t
      · grind [task_exit_self, family.distinct]
      · rw [task_exit_of_ne this, Option.map_eq_some_iff] at there
        obtain ⟨child, childBefore, rfl⟩ := there
        rw [survivor_hanging] at hangs
        rw [survivor_parentPid] at up
        split at up
        · next adopted =>
          have one : waiter.pid = 1 := (Option.some.inj up).symm
          rcases attended with toInit | awake | none
          · grind [family.distinct]
          · exact awake w waiter before one waits
          · exact none u child childBefore adopted.2 hangs
        · exact prompt w waiter u child before waits childBefore hangs up

theorem Step.prompt_other (prompt : k.Prompt) (step : k.Step event k')
    (other : ∀ pid status, event ≠ .exited pid status) : k'.Prompt := by
  cases step with
  | same => exact prompt
  | start new free => exact prompt.mono fun _ _ here stops => stops_of_update here (.inl rfl) stops
  | fork acts user new free => exact prompt.mono fun _ _ here stops => stops_of_update here (.inl acts.2) stops
  | exit status acts below live found => exact absurd rfl (other _ _)
  | @reap p child task below acts here hangs mine =>
    refine prompt.mono fun u task' here' _ => ?_
    change update k.task child none u = some task' at here'
    grind
  | @sleep p task acts none =>
    intro w waiter u child here waits there hangs up
    have childHere := hangs_of_update there TaskStatus.noConfusion hangs
    by_cases this : w = p
    · subst this
      change update k.task w _ w = some waiter at here
      rw [update_self] at here
      obtain rfl := Option.some.inj here
      exact none u child ⟨childHere, by rw [hangs]; exact TaskStatus.noConfusion⟩ up hangs
    · change update k.task p _ w = some waiter at here
      rw [update_of_ne this] at here
      exact prompt w waiter u child here waits childHere hangs up
  | mainExit acts => exact prompt.mono fun _ _ here stops => stops_of_update here (.inr rfl) stops

end Kinship

def Threads.Prompt (s : Threads) : Prop :=
  ∀ t task u child, s.pcb t = some task → task.status = .waiting → s.pcb u = some child → child.status = .hanging →
    child.parentPid ≠ some task.pid

theorem Threads.prompt_iff : s.Prompt ↔ s.kinship.Prompt := by
  constructor
  · intro prompt t kin u kin' here waits there hangs
    obtain ⟨task, here', rfl⟩ := Threads.task_of_kinship here
    obtain ⟨child, there', rfl⟩ := Threads.task_of_kinship there
    exact prompt t task u child here' (TaskStatus.settled_waiting.mp waits) there' (TaskStatus.settled_hanging.mp hangs)
  · intro prompt t task u child here waits there hangs
    exact prompt t task.settled u child.settled (Threads.kinship_task here) (TaskStatus.settled_waiting.mpr waits)
      (Threads.kinship_task there) (TaskStatus.settled_hanging.mpr hangs)

/-- An exit that hands no hanging child over to an `init` that waits and is not woken. -/
def Op.Attended (s : Threads) : Op → Prop
  | .exit _ => ∀ task, s.pcb s.cur = some task → task.parentPid = some 1 ∨
      (∀ r root, s.pcb r = some root → root.pid = 1 → root.status ≠ .waiting) ∨
      ∀ u child, s.pcb u = some child → child.parentPid = some task.pid → child.status ≠ .hanging
  | _ => True

theorem attended_exit (here : s.pcb s.cur = some task) (status : Word) :
    Op.Attended s (.exit status) ↔ s.kinship.Attended task.settled := by
  constructor
  · intro attended
    rcases attended task here with toInit | awake | none
    · exact .inl toInit
    · refine .inr (.inl fun r kin there one => ?_)
      obtain ⟨root, there', rfl⟩ := Threads.task_of_kinship there
      exact mt TaskStatus.settled_waiting.mp (awake r root there' one)
    · refine .inr (.inr fun u kin there mine => ?_)
      obtain ⟨child, there', rfl⟩ := Threads.task_of_kinship there
      exact mt TaskStatus.settled_hanging.mp (none u child there' mine)
  · intro attended task' here'
    obtain rfl := Option.some.inj (here.symm.trans here')
    rcases attended with toInit | awake | none
    · exact .inl toInit
    · exact .inr (.inl fun r root there one =>
        mt TaskStatus.settled_waiting.mpr (awake r _ (Threads.kinship_task there) one))
    · exact .inr (.inr fun u child there mine =>
        mt TaskStatus.settled_hanging.mpr (none u _ (Threads.kinship_task there) mine))

theorem Threads.Step.prompt_iff (sound : s.Sound) (family : s.kinship.Family) (prompt : s.Prompt) {op : Op}
    {answer : Answer}
    (step : s.Step op answer s') : s'.Prompt ↔ op.Attended s := by
  have kin := (step.keeps sound family).2
  have prompt' := Threads.prompt_iff.mp prompt
  have quiet (other : ∀ pid status, s.event op answer ≠ .exited pid status) : s'.Prompt :=
    Threads.prompt_iff.mpr (Kinship.Step.prompt_other prompt' kin other)
  cases op with
  | exit status =>
    obtain ⟨task, here, below⟩ := Op.asserted_of_run step.2
    obtain ⟨ppid, below⟩ := Option.ne_none_iff_exists'.mp below
    obtain ⟨s'', parent, above, run, -, live, found, same⟩ := sysExit_refines sound family here below step.1 status
    obtain ⟨_, t, exit, last⟩ := bind_eq_ok.mp step.2
    cases last
    cases exit.symm.trans run
    rw [Threads.prompt_iff, same, attended_exit here status]
    exact prompt'.exit_iff family (acts_cur sound here) below live found
  | wait =>
    refine iff_of_true (quiet fun pid status same => ?_) trivial
    cases answer with
    | waited result => cases result <;> cases same
    | nothing => cases same
    | forked _ => cases same
  | tick | yield | idle | start _ _ | semaDown _ | semaUp _ | ioqWait _ | wakeup _ | fork _ | mainExit =>
    exact iff_of_true (quiet fun _ _ same => by cases same) trivial

/-- In a run whose exits are all attended nobody waits while a child hangs, and the next step keeps it
so exactly when it is attended. -/
theorem waits_are_prompt {s₀ s₁ s : Threads} {init idle : Nat} (blank : s₀.Blank)
    (apart : init ≠ s₀.cur ∧ idle ≠ s₀.cur ∧ idle ≠ init)
    (boot : threadInit init idle s₀ = .ok ((), s₁))
    (steps : Relation.ReflTransGen (fun s s' => ∃ op answer, s.Step op answer s' ∧ op.Attended s) s₁ s) :
    s.Prompt ∧ ∀ op answer s', s.Step op answer s' → (s'.Prompt ↔ op.Attended s) := by
  cases (threadInit_eq apart).symm.trans boot
  have reach {s : Threads} (steps :
      Relation.ReflTransGen (fun s s' => ∃ op answer, s.Step op answer s' ∧ op.Attended s) (s₀.booted init idle) s) :
      (s₀.booted init idle).Reachable s :=
    Relation.ReflTransGen.mono (fun _ _ ⟨op, answer, step, _⟩ => ⟨op, answer, step⟩) _ _ steps
  have prompt : s.Prompt := by
    induction steps with
    | refl =>
      intro t task u child here waits
      rcases booted_cases blank here with ⟨-, rfl⟩ | ⟨-, rfl⟩ | ⟨-, rfl⟩ <;> cases waits
    | tail before step ih =>
      obtain ⟨op, answer, step, attended⟩ := step
      obtain ⟨sound, family⟩ := (reach before).keeps blank apart
      exact (step.prompt_iff sound family ih).mpr attended
  obtain ⟨sound, family⟩ := (reach steps).keeps blank apart
  exact ⟨prompt, fun op answer s' step => step.prompt_iff sound family prompt⟩

theorem waits_are_prompt_init : ∃ s₁ s, threadInit 2 3 blankThreads = .ok ((), s₁) ∧
    Relation.ReflTransGen (fun s s' => ∃ op answer, s.Step op answer s' ∧ op.Attended s) s₁ s ∧
      s.status 2 = some .waiting ∧ s.Prompt := by
  have apart : 2 ≠ blankThreads.cur ∧ 3 ≠ blankThreads.cur ∧ 3 ≠ 2 := by decide
  obtain ⟨_, s', run, passed⟩ := exists_of_yields (s := blankThreads.booted 2 3)
    (x := do
      let s ← get
      let a ← Op.run .mainExit
      let s₁ ← get
      let b ← Op.run (.fork 4)
      let s₂ ← get
      let c ← Op.run .wait
      return [decide (Op.Allowed s .mainExit), decide (Op.Allowed s₁ (.fork 4)), decide (Op.Allowed s₂ .wait)])
    (c := fun checks s' => checks.all id && s'.status 2 == some .waiting) (by decide +kernel)
  rw [get_bind] at run
  obtain ⟨a, s₁, first, run⟩ := bind_eq_ok.mp run
  rw [get_bind] at run
  obtain ⟨b, s₂, second, run⟩ := bind_eq_ok.mp run
  rw [get_bind] at run
  obtain ⟨c, s₃, third, last⟩ := bind_eq_ok.mp run
  cases last
  simp only [List.all_cons, List.all_nil, id, Bool.and_eq_true, Bool.and_true, decide_eq_true_eq, beq_iff_eq] at passed
  obtain ⟨⟨allowed, allowed', allowed''⟩, waits⟩ := passed
  have steps := ((Relation.ReflTransGen.single (r := fun s s' => ∃ op answer, Threads.Step s op answer s' ∧
    op.Attended s)
    ⟨.mainExit, a, ⟨allowed, first⟩, trivial⟩).tail ⟨.fork 4, b, ⟨allowed', second⟩, trivial⟩).tail
      ⟨.wait, c, ⟨allowed'', third⟩, trivial⟩
  exact ⟨_, s', threadInit_eq apart, steps, waits,
    (waits_are_prompt blankThreads_blank apart (threadInit_eq apart) steps).1⟩

/-- Three generations below `init`: the last one exits, then its parent, whose own parent is not
`init`. `init` goes on waiting. -/
theorem exit_loses_wakeup : ∃ s₁ s, blankThreads.Blank ∧ threadInit 2 3 blankThreads = .ok ((), s₁) ∧ s₁.Reachable s ∧
    ¬ s.Prompt := by
  have apart : 2 ≠ blankThreads.cur ∧ 3 ≠ blankThreads.cur ∧ 3 ≠ 2 := by decide
  have played : ((Threads.play ([.mainExit, .fork 4, .wait, .idle, .fork 5, .wait, .fork 6] ++
      List.replicate 32 .tick ++ [.exit 0, .exit 0, .wait])
      ([], blankThreads.booted 2 3)).any fun state =>
        state.2.pcb 2 == some { initTask with status := .waiting, priority := 31, ticks := 31 } &&
        (state.2.pcb 6).any fun task => task.status == .hanging && task.parentPid == some 1) = true := by decide +kernel
  obtain ⟨state, run, found⟩ := (Option.any_eq_true _ _).mp played
  rw [Bool.and_eq_true, beq_iff_eq] at found
  obtain ⟨waits, hangs⟩ := found
  obtain ⟨child, there, is⟩ := (Option.any_eq_true _ _).mp hangs
  rw [Bool.and_eq_true, beq_iff_eq, beq_iff_eq] at is
  refine ⟨_, state.2, blankThreads_blank, threadInit_eq apart, (Threads.play_history run .start).reachable,
    fun prompt => ?_⟩
  exact prompt 2 _ 6 child waits rfl there is.1 is.2

end LaiMiniOs
