import Mathlib.Logic.Relation
import LaiMiniOs.Userprog.Processes

/-! Whole runs from the start of the system.

`thread_init` leaves the queues in order and the tree of tasks with `init` as its root, and every
step keeps both. So in no run does the scheduler meet a failing assertion.
-/

set_option autoImplicit false

namespace LaiMiniOs
open Foundation Prog Function

def Threads.curPid (s : Threads) : Nat := ((s.pcb s.cur).map TaskStruct.pid).getD 0

def Threads.event (s : Threads) : Op → Answer → ExitEvent
  | .exit status, _ => .exited s.curPid status
  | .wait, .waited (.reaped childPid status) => .reported s.curPid childPid status
  | _, _ => .other

section

variable {s : Threads} {op : Op}

theorem Op.asserted_of_run {answer : Answer} {s' : Threads} (run : op.run s = .ok (answer, s')) : op.Asserted s := by
  cases op with
  | tick | yield | idle | semaDown _ | wait | mainExit => exact trivial
  | semaUp sema =>
    obtain ⟨_, _, run, -⟩ := bind_eq_ok.mp run
    unfold LaiMiniOs.semaUp at run
    rw [get_bind] at run
    exact (require_bind_eq_ok.mp run).1
  | ioqWait waiter =>
    obtain ⟨_, _, run, -⟩ := bind_eq_ok.mp run
    unfold LaiMiniOs.ioqWait at run
    rw [get_bind] at run
    exact (require_bind_eq_ok.mp run).1
  | wakeup waiter =>
    obtain ⟨_, _, run, -⟩ := bind_eq_ok.mp run
    unfold LaiMiniOs.wakeup at run
    rw [get_bind] at run
    intro empty
    rw [empty] at run
    cases run
  | start thread prio =>
    obtain ⟨_, _, run, -⟩ := bind_eq_ok.mp run
    obtain ⟨pid, _, allocate, -⟩ := bind_eq_ok.mp run
    exact allocatePid_eq_ok allocate
  | fork child =>
    obtain ⟨_, _, run, -⟩ := bind_eq_ok.mp run
    unfold sysFork at run
    rw [get_bind] at run
    obtain ⟨parent, t, read, run⟩ := bind_eq_ok.mp run
    obtain ⟨here, rfl⟩ := readTask_eq_ok read
    obtain ⟨user, run⟩ := require_bind_eq_ok.mp run
    obtain ⟨pid, _, allocate, -⟩ := bind_eq_ok.mp run
    exact ⟨⟨parent, here, user⟩, allocatePid_eq_ok allocate⟩
  | exit status =>
    obtain ⟨_, _, run, -⟩ := bind_eq_ok.mp run
    unfold sysExit at run
    rw [get_bind] at run
    obtain ⟨task, t, read, run⟩ := bind_eq_ok.mp run
    obtain ⟨here, rfl⟩ := readTask_eq_ok read
    rw [set_bind] at run
    exact ⟨task, here, (require_bind_eq_ok.mp run).1⟩

variable (sound : s.Sound) (family : s.kinship.Family)
include sound family

theorem Op.runs (allowed : op.Allowed s) (asserted : op.Asserted s) :
    ∃ answer s', op.run s = .ok (answer, s') ∧ s'.Sound ∧ s.kinship.Step (s.event op answer) s'.kinship := by
  obtain ⟨task, here, running⟩ := sound.live
  have acts := acts_cur sound here
  have pid : s.curPid = task.settled.pid := by
    rw [Threads.curPid, here]
    rfl
  cases op with
  | tick =>
    obtain ⟨s', run, sound', same⟩ := intrTimerHandler_sound sound
    exact ⟨.nothing, s', bind_of_ok run, sound', same.kinship ▸ .same⟩
  | yield =>
    obtain ⟨s', run, sound', same⟩ := threadYield_sound sound
    exact ⟨.nothing, s', bind_of_ok run, sound', same.kinship ▸ .same⟩
  | idle =>
    obtain ⟨s', run, sound', same⟩ := idle_sound sound
    exact ⟨.nothing, s', bind_of_ok run, sound', same.kinship ▸ .same⟩
  | start thread prio =>
    obtain ⟨s', run, after⟩ := threadStart_refines sound family allowed.2 prio asserted
    exact ⟨.nothing, s', bind_of_ok run, after⟩
  | semaDown sema =>
    obtain ⟨s', run, sound', same⟩ := semaDown_sound sound sema allowed
    exact ⟨.nothing, s', bind_of_ok run, sound', same.kinship ▸ .same⟩
  | semaUp sema =>
    obtain ⟨s', run, sound', same⟩ := semaUp_sound sound asserted
    exact ⟨.nothing, s', bind_of_ok run, sound', same.kinship ▸ .same⟩
  | ioqWait waiter =>
    obtain ⟨s', run, sound', same⟩ := ioqWait_sound sound asserted allowed
    exact ⟨.nothing, s', bind_of_ok run, sound', same.kinship ▸ .same⟩
  | wakeup waiter =>
    obtain ⟨t, there⟩ := Option.ne_none_iff_exists'.mp asserted
    obtain ⟨s', run, sound', same⟩ := wakeup_sound sound there
    exact ⟨.nothing, s', bind_of_ok run, sound', same.kinship ▸ .same⟩
  | fork child =>
    obtain ⟨⟨parent, here', user⟩, free⟩ := asserted
    obtain ⟨pid, s', run, after⟩ := sysFork_refines sound family allowed.2 here' user free
    exact ⟨.forked pid, s', bind_of_ok run, after⟩
  | exit status =>
    obtain ⟨task', here', below⟩ := asserted
    obtain rfl := Option.some.inj (here.symm.trans here')
    obtain ⟨ppid, below⟩ := Option.ne_none_iff_exists'.mp below
    obtain ⟨s', parent, above, run, sound', live, found, same⟩ := sysExit_refines sound family here below allowed status
    refine ⟨.nothing, s', bind_of_ok run, sound', ?_⟩
    rw [same, Threads.event, pid]
    exact .exit status acts below live found
  | wait =>
    obtain ⟨result, s', run, sound', ends⟩ := sysWait_refines sound family allowed here
    refine ⟨.waited result, s', bind_of_ok run, sound', ?_⟩
    rcases ends with ⟨child, below, there, hangs, mine, rfl, same, -⟩ | ⟨rfl, rfl⟩ | ⟨rfl, nobody, same⟩
    · have step : s.kinship.Step (.reported task.settled.pid below.settled.pid below.settled.exitStatus.toInt)
          (s.kinship.reap child below.settled.pid) :=
        .reap acts (Threads.kinship_task there) (TaskStatus.settled_hanging.mpr hangs) mine
      rw [same, Threads.event, pid]
      exact step
    · exact .same
    · rw [same]
      refine .sleep acts fun t below live mine hangs => ?_
      obtain ⟨old, there, rfl⟩ := Threads.task_of_kinship live.1
      have found := nobody t ((family.mem t).mpr ⟨_, live⟩)
      unfold Threads.findHangingChild at found
      rw [there, Option.any_some, show old.parentPid = some task.pid from mine, TaskStatus.settled_hanging.mp hangs,
        beq_self_eq_true, beq_self_eq_true] at found
      cases found
  | mainExit =>
    obtain ⟨s', run, after⟩ := mainExit_refines sound allowed.1 allowed.2
    exact ⟨.nothing, s', bind_of_ok run, after⟩

theorem Threads.Step.keeps {answer : Answer} {s' : Threads} (step : s.Step op answer s') :
    s'.Sound ∧ s.kinship.Step (s.event op answer) s'.kinship := by
  obtain ⟨answer', s'', run, after⟩ := Op.runs sound family step.1 (Op.asserted_of_run step.2)
  cases run.symm.trans step.2
  exact after

end

/-- Before `thread_init` there is no task, and the semaphores have nobody waiting. -/
structure Threads.Blank (s : Threads) : Prop where
  pcb : ∀ t, s.pcb t = none
  values : ∀ sema, s.value sema = 0 ∨ s.value sema = 1
  waiters : ∀ sema, s.waiters sema = []
  ioqWaiter : ∀ waiter, s.ioqWaiter waiter = none

def initTask : TaskStruct := ⟨1, .ready, 31, 31, none, 0, true⟩

def mainTask : TaskStruct := ⟨2, .running, 31, 31, none, 0, false⟩

def idleTask : TaskStruct := ⟨3, .ready, 10, 10, none, 0, false⟩

def Threads.booted (s : Threads) (init idle : Nat) : Threads :=
  { s with
    pcb := update (update (update s.pcb init (some initTask)) s.cur (some mainTask)) idle (some idleTask)
    mainThread := s.cur
    idleThread := idle
    threadReadyList := [init, idle]
    threadAllList := [init, s.cur, idle]
    pidBitmap := (((⟨128, fun _ => 0⟩ : Bitmap).set 0 true).set 1 true).set 2 true }

section Boot

variable {s : Threads} {init idle : Nat} (apart : init ≠ s.cur ∧ idle ≠ s.cur ∧ idle ≠ init)
include apart

theorem threadInit_eq : threadInit init idle s = .ok ((), s.booted init idle) := by
  obtain ⟨initMain, idleMain, idleInit⟩ := apart
  have noBit (i : Nat) : (⟨128, fun _ => 0⟩ : Bitmap).bit i = false := BitVec.getLsbD_zero
  let s₁ : Threads := { s with threadReadyList := [], threadAllList := [], pidBitmap := ⟨128, fun _ => 0⟩ }
  have free₁ : s₁.kinship.Free 0 := ⟨(by decide : 0 < 8 * 128), noBit 0, fun j low => absurd low (Nat.not_lt_zero j)⟩
  let s₂ : Threads := { s₁ with
    pcb := update s.pcb init (some initTask)
    threadReadyList := [init]
    threadAllList := [init]
    pidBitmap := s₁.pidBitmap.set 0 true }
  have free₂ : s₂.kinship.Free 1 := by
    refine ⟨(by decide : 1 < 8 * 128), ?_, fun j low => ?_⟩
    · change (s₁.pidBitmap.set 0 true).bit 1 = false
      rw [Bitmap.bit_set, if_neg (by decide), noBit]
    · change (s₁.pidBitmap.set 0 true).bit j = true
      rw [Bitmap.bit_set, if_pos (by omega)]
  have execute : processExecute init s₁ = .ok ((), s₂) := by
    unfold processExecute
    rw [bind_of_ok (allocatePid_eq free₁)]
    rfl
  let s₃ : Threads := { s₂ with
    pcb := update s₂.pcb s.cur (some mainTask)
    mainThread := s.cur
    threadAllList := [init, s.cur]
    pidBitmap := s₂.pidBitmap.set 1 true }
  have free₃ : s₃.kinship.Free 2 := by
    refine ⟨(by decide : 2 < 8 * 128), ?_, fun j low => ?_⟩
    · change ((s₁.pidBitmap.set 0 true).set 1 true).bit 2 = false
      rw [Bitmap.bit_set, if_neg (by decide), Bitmap.bit_set, if_neg (by decide), noBit]
    · change ((s₁.pidBitmap.set 0 true).set 1 true).bit j = true
      rw [Bitmap.bit_set, Bitmap.bit_set]
      split
      · rfl
      · rw [if_pos (by omega)]
  have mainOut : s.cur ∉ [init] := by
    rw [List.mem_singleton]
    exact initMain.symm
  have main : makeMainThread s₂ = .ok ((), s₃) := by
    unfold makeMainThread
    rw [bind_of_ok (allocatePid_eq free₂), get_bind]
    exact (require_bind mainOut).trans rfl
  have idleReady : idle ∉ [init] := by
    rw [List.mem_singleton]
    exact idleInit
  have idleAll : idle ∉ [init, s.cur] := by
    rw [List.mem_cons, List.mem_singleton]
    exact not_or.mpr ⟨idleInit, idleMain⟩
  let s₄ : Threads := { s₃ with
    pcb := update s₃.pcb idle (some idleTask)
    threadReadyList := [init, idle]
    threadAllList := [init, s.cur, idle]
    pidBitmap := s₃.pidBitmap.set 2 true }
  have start : threadStart idle 10 s₃ = .ok ((), s₄) := by
    unfold threadStart
    rw [bind_of_ok (allocatePid_eq free₃)]
    unfold enlist
    rw [get_bind]
    refine (require_bind idleReady).trans ?_
    exact (require_bind idleAll).trans rfl
  unfold threadInit
  rw [modify_bind, bind_of_ok execute, bind_of_ok main, bind_of_ok start]
  rfl

variable (blank : s.Blank)

theorem booted_init : (s.booted init idle).pcb init = some initTask := by
  obtain ⟨initMain, idleMain, idleInit⟩ := apart
  dsimp only [Threads.booted]
  rw [update_of_ne idleInit.symm, update_of_ne initMain, update_self]

theorem booted_main : (s.booted init idle).pcb s.cur = some mainTask := by
  dsimp only [Threads.booted]
  rw [update_of_ne apart.2.1.symm, update_self]

omit apart in
theorem booted_idle (s : Threads) (init idle : Nat) : (s.booted init idle).pcb idle = some idleTask := update_self _ _ _

include blank in
omit apart in
theorem booted_cases {t : Nat} {task : TaskStruct} (here : (s.booted init idle).pcb t = some task) :
    t = init ∧ task = initTask ∨ t = s.cur ∧ task = mainTask ∨ t = idle ∧ task = idleTask := by
  dsimp only [Threads.booted] at here
  grind [blank.pcb]

include blank

theorem booted_sound : (s.booted init idle).Sound := by
  have init_ := Threads.status_of_pcb (booted_init apart)
  have main_ := Threads.status_of_pcb (booted_main apart)
  have idle_ := Threads.status_of_pcb (booted_idle s init idle)
  have statusCases {t : Nat} {status : TaskStatus} (is : (s.booted init idle).status t = some status) :
      t = init ∧ status = .ready ∨ t = s.cur ∧ status = .running ∨ t = idle ∧ status = .ready := by
    obtain ⟨task, here, rfl⟩ := Option.map_eq_some_iff.mp is
    rcases booted_cases blank here with ⟨same, rfl⟩ | ⟨same, rfl⟩ | ⟨same, rfl⟩
    · exact .inl ⟨same, rfl⟩
    · exact .inr (.inl ⟨same, rfl⟩)
    · exact .inr (.inr ⟨same, rfl⟩)
  have others (q : Queue) (other : q ≠ .ready) : (s.booted init idle).queue q = [] := by
    cases q with
    | ready => exact absurd rfl other
    | sema sema => exact blank.waiters sema
    | ioq waiter =>
      change (s.ioqWaiter waiter).toList = []
      rw [blank.ioqWaiter]
      rfl
  refine ⟨⟨⟨⟨fun q => ?_, fun q q' t here there => ?_⟩, fun t => ?_, fun q t other here => ?_, .inr (.inl idle_)⟩,
    fun t => ?_⟩, blank.values⟩
  · by_cases same : q = .ready
    · subst same
      exact List.nodup_cons.mpr ⟨by rw [List.mem_singleton]; exact apart.2.2.symm, List.nodup_singleton idle⟩
    · rw [others q same]
      exact List.nodup_nil
  · by_cases same : q = .ready <;> by_cases same' : q' = .ready
    · rw [same, same']
    · rw [others q' same'] at there
      cases there
    · rw [others q same] at here
      cases here
    · rw [others q same] at here
      cases here
  · change t ∈ [init, idle] ↔ _
    grind
  · rw [others q other] at here
    cases here
  · constructor
    · intro is
      rcases statusCases is with ⟨-, same⟩ | ⟨rfl, -⟩ | ⟨-, same⟩
      · cases same
      · rfl
      · cases same
    · rintro rfl
      exact main_

theorem booted_family : (s.booted init idle).kinship.Family := by
  obtain ⟨initMain, idleMain, idleInit⟩ := apart
  have kin {t : Nat} {task : TaskStruct} (here : (s.booted init idle).kinship.task t = some task) :
      t = init ∧ task = initTask.settled ∨ t = s.cur ∧ task = mainTask.settled ∨ t = idle ∧ task = idleTask.settled :=
        by grind [Threads.task_of_kinship, booted_cases]
  have init_ := Threads.kinship_task (booted_init ⟨initMain, idleMain, idleInit⟩)
  have main_ := Threads.kinship_task (booted_main ⟨initMain, idleMain, idleInit⟩)
  have idle_ := Threads.kinship_task (booted_idle s init idle)
  refine ⟨?_, fun t => ⟨fun member => ?_, fun ⟨task, live⟩ => ?_⟩, fun t t' task task' live live' same =>
    ?_, fun t task live => ?_,
    ⟨init, _, ⟨init_, by decide⟩, rfl, rfl, rfl⟩, fun t task p live up => ?_, fun t task here hangs =>
      ?_, ⟨_, main_, rfl, rfl⟩⟩
  · change [init, s.cur, idle].Nodup
    simp [initMain, idleMain.symm, idleInit.symm]
  · change t ∈ [init, s.cur, idle] at member
    simp only [List.mem_cons, List.not_mem_nil, or_false] at member
    rcases member with rfl | rfl | rfl
    · exact ⟨_, init_, by decide⟩
    · exact ⟨_, main_, by decide⟩
    · exact ⟨_, idle_, by decide⟩
  · change t ∈ [init, s.cur, idle]
    simp only [List.mem_cons, List.not_mem_nil, or_false]
    rcases kin live.1 with ⟨rfl, -⟩ | ⟨rfl, -⟩ | ⟨rfl, -⟩
    · exact .inl rfl
    · exact .inr (.inl rfl)
    · exact .inr (.inr rfl)
  · rcases kin live.1 with ⟨rfl, rfl⟩ | ⟨rfl, rfl⟩ | ⟨rfl, rfl⟩ <;>
      rcases kin live'.1 with ⟨rfl, rfl⟩ | ⟨rfl, rfl⟩ | ⟨rfl, rfl⟩ <;>
      first | rfl | exact absurd same (by decide)
  · have bits (i : Nat) (low : i < 3) : (s.booted init idle).kinship.pids.bit i = true := by
      change ((((⟨128, fun _ => 0⟩ : Bitmap).set 0 true).set 1 true).set 2 true).bit i = true
      simp only [Bitmap.bit_set]
      split
      · rfl
      · split
        · rfl
        · rw [if_pos (by omega)]
    rcases kin live.1 with ⟨-, rfl⟩ | ⟨-, rfl⟩ | ⟨-, rfl⟩
    · exact ⟨by decide, bits 0 (by decide)⟩
    · exact ⟨by decide, bits 1 (by decide)⟩
    · exact ⟨by decide, bits 2 (by decide)⟩
  · rcases kin live.1 with ⟨-, rfl⟩ | ⟨-, rfl⟩ | ⟨-, rfl⟩ <;> cases up
  · rcases kin here with ⟨-, rfl⟩ | ⟨-, rfl⟩ | ⟨-, rfl⟩ <;> cases hangs

end Boot

def Threads.Reachable (s₀ s : Threads) : Prop :=
  Relation.ReflTransGen (fun s s' => ∃ op answer, s.Step op answer s') s₀ s

theorem Threads.Reachable.keeps {s₀ s : Threads} {init idle : Nat} (blank : s₀.Blank)
    (apart : init ≠ s₀.cur ∧ idle ≠ s₀.cur ∧ idle ≠ init)
    (reach : (s₀.booted init idle).Reachable s) : s.Sound ∧ s.kinship.Family := by
  induction reach with
  | refl => exact ⟨booted_sound apart blank, booted_family apart blank⟩
  | tail _ step ih =>
    obtain ⟨op, answer, step⟩ := step
    obtain ⟨sound, kin⟩ := step.keeps ih.1 ih.2
    exact ⟨sound, kin.family ih.2⟩

/-- The scheduler in every run: one task is running, the ready list holds the ready tasks, no task is
linked into two lists, and no step meets a failing assertion but one of its own caller. -/
theorem scheduler_in_order {s₀ s₁ s : Threads} {init idle : Nat} (blank : s₀.Blank)
    (apart : init ≠ s₀.cur ∧ idle ≠ s₀.cur ∧ idle ≠ init)
    (boot : threadInit init idle s₀ = .ok ((), s₁)) (reach : s₁.Reachable s) :
    (∃! t, s.status t = some .running) ∧
    (s.threadReadyList.Nodup ∧ ∀ t, t ∈ s.threadReadyList ↔ s.status t = some .ready) ∧
    (∀ sema, (s.waiters sema).Nodup ∧ ∀ t ∈ s.waiters sema, t ∉ s.threadReadyList ∧ ∀ sema', t ∈ s.waiters sema' →
    sema' = sema) ∧
    ∀ op : Op, op.Allowed s → op.Asserted s → ∃ answer s', op.run s = .ok (answer, s') := by
  cases (threadInit_eq apart).symm.trans boot
  obtain ⟨sound, family⟩ := reach.keeps blank apart
  refine ⟨⟨s.cur, (sound.runs s.cur).mpr rfl, fun t running => (sound.runs t).mp running⟩,
    ⟨sound.separate.nodup .ready, sound.ready⟩,
    fun sema => ⟨sound.separate.nodup (.sema sema), fun t here => ⟨fun ready => ?_, fun sema' there => ?_⟩⟩,
      fun op allowed asserted => ?_⟩
  · exact Queue.noConfusion (sound.separate.apart (.sema sema) .ready t here ready)
  · exact Queue.sema.inj (sound.separate.apart (.sema sema') (.sema sema) t there here)
  grind [Op.runs]

inductive Threads.History (s₀ : Threads) : List ExitEvent → Threads → Prop where
  | start : History s₀ [] s₀
  | step {past : List ExitEvent} {s s' : Threads} {op : Op} {answer : Answer} (before : History s₀ past s)
      (step : s.Step op answer s') :
      History s₀ (s.event op answer :: past) s'

theorem Threads.History.reachable {s₀ s : Threads} {past : List ExitEvent} (history : s₀.History past s) :
    s₀.Reachable s := by
  induction history with
  | start => exact .refl
  | step _ step ih => exact ih.tail ⟨_, _, step⟩

instance (s : Threads) : (op : Op) → Decidable (op.Allowed s)
  | .tick | .semaUp _ | .wakeup _ => inferInstanceAs (Decidable True)
  | .yield | .semaDown _ | .ioqWait _ | .exit _ | .wait => inferInstanceAs (Decidable (s.cur ≠ s.idleThread))
  | .idle => inferInstanceAs (Decidable (s.cur = s.idleThread))
  | .start thread _ | .fork thread => inferInstanceAs (Decidable (s.cur ≠ s.idleThread ∧ s.pcb thread = none))
  | .mainExit => inferInstanceAs (Decidable (s.cur = s.mainThread ∧ s.cur ≠ s.idleThread))

def Threads.play : List Op → List ExitEvent × Threads → Option (List ExitEvent × Threads)
  | [], state => some state
  | op :: ops, (past, s) =>
    if op.Allowed s then
      match op.run s with
      | .ok (answer, s') => play ops (s.event op answer :: past, s')
      | .error _ => none
    else none

theorem Threads.play_history {s₀ : Threads} {ops : List Op} {state state' : List ExitEvent × Threads}
    (played : play ops state = some state')
    (history : s₀.History state.1 state.2) : s₀.History state'.1 state'.2 := by
  induction ops generalizing state with
  | nil =>
    cases played
    exact history
  | cons op ops ih =>
    obtain ⟨past, s⟩ := state
    rw [play] at played
    split at played
    · next allowed =>
      split at played
      · next answer s' run => exact ih played (.step history ⟨allowed, run⟩)
      · cases played
    · cases played

def blankThreads : Threads := ⟨fun _ => none, 1, 0, 0, [], [], ⟨0, fun _ => 0⟩, fun _ => 0, fun _ => [], fun _ => none⟩

theorem blankThreads_blank : blankThreads.Blank := ⟨fun _ => rfl, fun _ => .inl rfl, fun _ => rfl, fun _ => rfl⟩

theorem scheduler_in_order_down : ∃ s₁ s, blankThreads.Blank ∧ threadInit 2 3 blankThreads = .ok ((), s₁) ∧
    s₁.Reachable s ∧ s.waiters 0 = [1] ∧
    (∃! t, s.status t = some .running) ∧ s.threadReadyList.Nodup := by
  have apart : 2 ≠ blankThreads.cur ∧ 3 ≠ blankThreads.cur ∧ 3 ≠ 2 := by decide
  have played : ((Threads.play [.semaDown 0] ([], blankThreads.booted 2 3)).any fun state =>
      state.2.waiters 0 == [1]) = true := by decide +kernel
  obtain ⟨state, run, waits⟩ := (Option.any_eq_true _ _).mp played
  have reach := (Threads.play_history run .start).reachable
  obtain ⟨running, ready, -⟩ := scheduler_in_order blankThreads_blank apart (threadInit_eq apart) reach
  exact ⟨_, state.2, blankThreads_blank, threadInit_eq apart, reach, eq_of_beq waits, running, ready.1⟩

end LaiMiniOs
