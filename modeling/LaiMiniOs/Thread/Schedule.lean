import LaiMiniOs.Foundation.Queues
import LaiMiniOs.Thread.Thread

/-! The queues and the status of the tasks agree.

`Threads.Orderly` is what holds of the lists and the status fields also while a function of
`thread.c` has taken the CPU from its task and not given it to another one yet. Every change below
moves one task from one queue to another, so one lemma about such a change carries all of them.
-/

set_option autoImplicit false

namespace LaiMiniOs
open Foundation Prog Function

/-- The places where a task can be linked: the ready list, the waiters of a semaphore, a pointer of
an I/O queue. -/
inductive Queue where
  | ready
  | sema (sema : Nat)
  | ioq (waiter : Nat)
  deriving DecidableEq

variable {t : Nat} {s s' : Threads} {task : TaskStruct} {q : Queue} {list : List Nat}

namespace Threads

def queue (s : Threads) : Queue → List Nat
  | .ready => s.threadReadyList
  | .sema sema => s.waiters sema
  | .ioq waiter => (s.ioqWaiter waiter).toList

theorem queue_ready (s : Threads) (list : List Nat) :
    queue { s with threadReadyList := list } = update s.queue .ready list := by
  funext q
  cases q with
  | ready => rw [update_self]; rfl
  | sema sema => rw [update_of_ne Queue.noConfusion]; rfl
  | ioq waiter => rw [update_of_ne Queue.noConfusion]; rfl

theorem queue_waiters (s : Threads) (sema : Nat) (list : List Nat) :
    queue { s with waiters := update s.waiters sema list } = update s.queue (.sema sema) list := by
  funext q
  cases q with
  | ready => rw [update_of_ne Queue.noConfusion]; rfl
  | sema sema' =>
    change update s.waiters sema list sema' = _
    by_cases same : sema' = sema
    · rw [same, update_self, update_self]
    · rw [update_of_ne same, update_of_ne (mt Queue.sema.inj same)]
      rfl
  | ioq waiter => rw [update_of_ne Queue.noConfusion]; rfl

theorem queue_ioqWaiter (s : Threads) (waiter : Nat) (entry : Option Nat) :
    queue { s with ioqWaiter := update s.ioqWaiter waiter entry } = update s.queue (.ioq waiter) entry.toList := by
  funext q
  cases q with
  | ready => rw [update_of_ne Queue.noConfusion]; rfl
  | sema sema => rw [update_of_ne Queue.noConfusion]; rfl
  | ioq waiter' =>
    change (update s.ioqWaiter waiter entry waiter').toList = _
    by_cases same : waiter' = waiter
    · rw [same, update_self, update_self]
    · rw [update_of_ne same, update_of_ne (mt Queue.ioq.inj same)]
      rfl

theorem pcb_setTask_self (s : Threads) (t : Nat) (task : TaskStruct) : (s.setTask t task).pcb t = some task :=
  update_self _ _ _

theorem pcb_setTask_of_ne (s : Threads) {t' : Nat} (other : t' ≠ t) (task : TaskStruct) :
    (s.setTask t task).pcb t' = s.pcb t' :=
  update_of_ne other _ _

theorem status_setTask_self (s : Threads) (t : Nat) (task : TaskStruct) :
    (s.setTask t task).status t = some task.status := by
  rw [status, pcb_setTask_self, Option.map_some]

theorem status_setTask_of_ne (s : Threads) {t' : Nat} (other : t' ≠ t) (task : TaskStruct) :
    (s.setTask t task).status t' = s.status t' := by
  rw [status, pcb_setTask_of_ne s other]
  rfl

theorem status_of_pcb (here : s.pcb t = some task) : s.status t = some task.status := by
  rw [status, here, Option.map_some]

/-- The lists agree with the status fields, and the idle thread sleeps in no queue. -/
structure Orderly (s : Threads) : Prop where
  separate : Separate s.queue
  ready : ∀ t, t ∈ s.threadReadyList ↔ s.status t = some .ready
  sleeps : ∀ q t, q ≠ .ready → t ∈ s.queue q → s.status t = some .blocked ∧ t ≠ s.idleThread
  idle : s.status s.idleThread = some .running ∨ s.status s.idleThread = some .ready ∨
    s.status s.idleThread = some .blocked

theorem Orderly.free (orderly : s.Orderly) (notReady : s.status t ≠ some .ready)
    (notBlocked : s.status t ≠ some .blocked)
    (q : Queue) : t ∉ s.queue q := by
  intro here
  by_cases same : q = .ready
  · subst same
    exact notReady ((orderly.ready t).mp here)
  · exact notBlocked (orderly.sleeps q t same here).1

theorem Orderly.change (orderly : s.Orderly) (t : Nat) (separate : Separate s'.queue)
    (idleThread : s'.idleThread = s.idleThread)
    (others : ∀ t', t' ≠ t → s'.status t' = s.status t' ∧ ∀ q, t' ∈ s'.queue q ↔ t' ∈ s.queue q)
    (ready : t ∈ s'.threadReadyList ↔ s'.status t = some .ready)
    (sleeps : ∀ q, q ≠ .ready → t ∈ s'.queue q → s'.status t = some .blocked ∧ t ≠ s.idleThread)
    (idle : t = s.idleThread → s'.status t = some .running ∨ s'.status t = some .ready ∨
    s'.status t = some .blocked) : s'.Orderly := by
  refine ⟨separate, fun t' => ?_, fun q t' other here => ?_, ?_⟩
  · by_cases same : t' = t
    · subst same
      exact ready
    · rw [(others t' same).1]
      exact ((others t' same).2 .ready).trans (orderly.ready t')
  · grind [orderly.sleeps]
  grind [orderly.idle]

theorem mem_update_iff (same : t ∈ list ↔ t ∈ s.queue q) (q' : Queue) :
    t ∈ update s.queue q list q' ↔ t ∈ s.queue q' := by
  by_cases here : q' = q
  · rw [here, update_self]
    exact same
  · rw [update_of_ne here]

theorem mem_update_of_not (free : ∀ q', t ∉ s.queue q') {q' : Queue}
    (here : t ∈ update s.queue q list q') : q' = q := by
  by_contra other
  rw [update_of_ne other] at here
  exact free q' here

end Threads

def TaskStatus.settled : TaskStatus → TaskStatus
  | .running | .ready | .blocked => .running
  | .waiting => .waiting
  | .hanging => .hanging
  | .died => .died

def TaskStruct.settled (task : TaskStruct) : TaskStruct :=
  { task with status := task.status.settled, priority := 0, ticks := 0 }

namespace Threads

structure SameFamily (s s' : Threads) : Prop where
  tasks : ∀ t, (s'.pcb t).map TaskStruct.settled = (s.pcb t).map TaskStruct.settled
  threadAllList : s'.threadAllList = s.threadAllList
  pidBitmap : s'.pidBitmap = s.pidBitmap
  mainThread : s'.mainThread = s.mainThread
  idleThread : s'.idleThread = s.idleThread

/-- A switch changes the ready list and the status of tasks that are running, ready or idle. -/
structure Switched (s s' : Threads) : Prop extends SameFamily s s' where
  value : s'.value = s.value
  waiters : s'.waiters = s.waiters
  ioqWaiter : s'.ioqWaiter = s.ioqWaiter

variable {s s' s'' : Threads}

theorem SameFamily.refl (s : Threads) : s.SameFamily s := ⟨fun _ => rfl, rfl, rfl, rfl, rfl⟩

theorem SameFamily.trans (first : s.SameFamily s') (second : s'.SameFamily s'') : s.SameFamily s'' :=
  ⟨fun t => (second.tasks t).trans (first.tasks t), second.threadAllList.trans first.threadAllList,
    second.pidBitmap.trans first.pidBitmap,
    second.mainThread.trans first.mainThread, second.idleThread.trans first.idleThread⟩

theorem Switched.refl (s : Threads) : s.Switched s := ⟨.refl s, rfl, rfl, rfl⟩

theorem Switched.trans (first : s.Switched s') (second : s'.Switched s'') : s.Switched s'' :=
  ⟨first.toSameFamily.trans second.toSameFamily, second.value.trans first.value, second.waiters.trans first.waiters,
    second.ioqWaiter.trans first.ioqWaiter⟩

theorem settled_update {task' : TaskStruct} (here : s.pcb t = some task) (same : task'.settled = task.settled)
    (t' : Nat) :
    (update s.pcb t (some task') t').map TaskStruct.settled = (s.pcb t').map TaskStruct.settled := by grind

end Threads

theorem readTask_eq (here : s.pcb t = some task) : readTask t s = .ok (task, s) := by
  unfold readTask
  rw [get_bind, here]
  rfl

theorem readTask_eq_ok (run : readTask t s = .ok (task, s')) : s.pcb t = some task ∧ s = s' := by
  unfold readTask at run
  rw [get_bind] at run
  split at run
  · next found =>
    cases run
    exact ⟨found, rfl⟩
  · cases run

def Threads.unblocked (s : Threads) (t : Nat) (task : TaskStruct) : Threads :=
  { s with threadReadyList := t :: s.threadReadyList }.setTask t { task with status := .ready }

theorem threadUnblock_eq (here : s.pcb t = some task)
    (asleep : task.status = .blocked ∨ task.status = .waiting ∨ task.status = .hanging) (out : t ∉ s.threadReadyList) :
    threadUnblock t s = .ok ((), s.unblocked t task) := by
  unfold threadUnblock
  rw [bind_of_ok (readTask_eq here), require_bind asleep, get_bind,
    require_bind out]
  rfl

namespace Threads

variable {s : Threads}

section
variable (orderly : s.Orderly) (free : ∀ q, t ∉ s.queue q) (task : TaskStruct)
include orderly free

theorem Orderly.enqueue (isReady : task.status = .ready) (nodup : list.Nodup) (mem : ∀ t', t' ∈ list ↔ t' = t ∨
    t' ∈ s.threadReadyList) :
    ({ s with threadReadyList := list }.setTask t task).Orderly := by
  have queues : ({ s with threadReadyList := list }.setTask t task).queue = update s.queue .ready list :=
    s.queue_ready list
  have isReady' : ({ s with threadReadyList := list }.setTask t task).status t = some .ready := by
    rw [status_setTask_self, isReady]
  refine orderly.change t ?_ rfl (fun t' other => ⟨status_setTask_of_ne _ other _, fun q => ?_⟩) ?_
    (fun q other here => ?_) fun _ => .inr (.inl isReady')
  · rw [queues]
    refine orderly.separate.update _ nodup fun t' here => ?_
    rcases (mem t').mp here with rfl | old
    · exact .inr free
    · exact .inl old
  · rw [queues]
    exact mem_update_iff ((mem t').trans (or_iff_right other)) q
  · exact iff_of_true ((mem t).mpr (.inl rfl)) isReady'
  · rw [queues] at here
    exact absurd (mem_update_of_not free here) other

theorem Orderly.unblock : (s.unblocked t task).Orderly := by
  refine orderly.enqueue free _ rfl (List.nodup_cons.mpr ⟨free .ready, orderly.separate.nodup .ready⟩) fun t' =>
    List.mem_cons

theorem Orderly.append (isReady : task.status = .ready) :
    ({ s with threadReadyList := s.threadReadyList ++ [t] }.setTask t task).Orderly := by
  refine orderly.enqueue free _ isReady ?_ fun t' => by rw [List.mem_append, List.mem_singleton, or_comm]
  exact (orderly.separate.nodup .ready).append (List.nodup_singleton t) fun t' here there => by
    rw [List.mem_singleton.mp there] at here
    exact free .ready here

end

theorem Orderly.dispatch (orderly : s.Orderly) {next : Nat} {rest : List Nat}
    (list : s.threadReadyList = next :: rest) (task : TaskStruct)
    (isRunning : task.status = .running) :
    ({ s with threadReadyList := rest, cur := next }.setTask next task).Orderly := by
  have queues : ({ s with threadReadyList := rest, cur := next }.setTask next task).queue =
      update s.queue .ready rest := s.queue_ready rest
  have nodup : (next :: rest).Nodup := list ▸ orderly.separate.nodup .ready
  have first : next ∈ s.queue .ready := by
    change next ∈ s.threadReadyList
    rw [list]
    exact List.mem_cons_self
  have isRunning' : ({ s with threadReadyList := rest, cur := next }.setTask next task).status next =
      some .running := by
    rw [status_setTask_self, isRunning]
  refine orderly.change next ?_ rfl (fun t' other => ⟨status_setTask_of_ne _ other _, fun q => ?_⟩) ?_
    (fun q other here => ?_) fun _ => .inl isRunning'
  · rw [queues]
    refine orderly.separate.update _ nodup.of_cons fun t' here => .inl ?_
    change t' ∈ s.threadReadyList
    rw [list]
    exact List.mem_cons_of_mem _ here
  · rw [queues]
    refine mem_update_iff ?_ q
    change t' ∈ rest ↔ t' ∈ s.threadReadyList
    rw [list, List.mem_cons, or_iff_right other]
  · rw [isRunning']
    exact iff_of_false (List.nodup_cons.mp nodup).1 (by simp)
  · rw [queues, update_of_ne other] at here
    exact absurd (orderly.separate.apart _ _ _ here first) other

section
variable (orderly : s.Orderly) (free : ∀ q, t ∉ s.queue q) (idleThread : s'.idleThread = s.idleThread)
  (others : ∀ t', t' ≠ t → s'.status t' = s.status t')
include orderly free idleThread others

theorem Orderly.leave (queues : s'.queue = s.queue) (notReady : s'.status t ≠ some .ready)
    (idle : t = s.idleThread → s'.status t = some .blocked) : s'.Orderly := by
  have out (q : Queue) : t ∉ s'.queue q := by
    rw [queues]
    exact free q
  refine orderly.change t (queues ▸ orderly.separate) idleThread
    (fun t' other => ⟨others t' other, fun q => by rw [queues]⟩)
    (iff_of_false (out .ready) notReady) (fun q _ here => absurd here (out q)) fun same => .inr (.inr (idle same))

theorem Orderly.sleep (other : q ≠ .ready)
    (queues : s'.queue = update s.queue q (s.queue q ++ [t])) (blocked : s'.status t = some .blocked)
    (notIdle : t ≠ s.idleThread) :
    s'.Orderly := by
  refine orderly.change t ?_ idleThread (fun t' ne => ⟨others t' ne, fun q' => ?_⟩) ?_
    (fun _ _ _ => ⟨blocked, notIdle⟩) fun same => absurd same notIdle
  · grind [orderly.separate.update, orderly.separate.nodup]
  · rw [queues]
    refine mem_update_iff ?_ q'
    rw [List.mem_append, List.mem_singleton, or_iff_left ne]
  · have same : s'.threadReadyList = s.threadReadyList := by
      have at_ : s'.queue .ready = _ := congrFun queues .ready
      rwa [update_of_ne other.symm] at at_
    rw [same, blocked]
    exact iff_of_false (free .ready) (by simp)

end

structure Scheduled (s : Threads) : Prop extends Orderly s where
  runs : ∀ t, s.status t = some .running ↔ t = s.cur

theorem Scheduled.live (scheduled : s.Scheduled) : ∃ task, s.pcb s.cur = some task ∧ task.status = .running := by
  have running := (scheduled.runs s.cur).mpr rfl
  unfold status at running
  exact Option.map_eq_some_iff.mp running

theorem Scheduled.curFree (scheduled : s.Scheduled) (q : Queue) : s.cur ∉ s.queue q := by
  have running := (scheduled.runs s.cur).mpr rfl
  exact scheduled.free (by rw [running]; simp) (by rw [running]; simp) q

end Threads

section

variable {s : Threads}

/-- The first part of `schedule`: a task that is still running goes to the end of the ready list. -/
theorem schedule_preempts (orderly : s.Orderly) (here : s.pcb s.cur = some task)
    (only : ∀ t, s.status t = some .running → t = s.cur) :
    ∃ s₁, (Prog.when (task.status = .running) do
        Prog.assert (s.cur ∉ s.threadReadyList)
        set ({ s with threadReadyList := s.threadReadyList ++ [s.cur] }.setTask s.cur { task with
          ticks := task.priority, status := .ready }) : ThreadM Unit) s =
          .ok ((), s₁) ∧ s₁.Orderly ∧ (∀ t, s₁.status t ≠ some .running) ∧ s.Switched s₁ := by
  by_cases running : task.status = .running
  · have status := Threads.status_of_pcb here
    rw [running] at status
    have free := orderly.free (by rw [status]; simp) (by rw [status]; simp)
    have out : s.cur ∉ s.threadReadyList := free .ready
    refine ⟨_, ?_, orderly.append free { task with ticks := task.priority, status := .ready } rfl, fun t isRunning =>
      ?_, ⟨?_, rfl, rfl, rfl, rfl⟩, rfl, rfl, rfl⟩
    · rw [run_when_of running, require_bind out]
      rfl
    · by_cases this : t = s.cur
      · rw [this, Threads.status_setTask_self] at isRunning
        cases isRunning
      · rw [Threads.status_setTask_of_ne _ this] at isRunning
        exact this (only t isRunning)
    · refine Threads.settled_update here ?_
      unfold TaskStruct.settled
      rw [running]
      rfl
  · refine ⟨s, run_when_of_not running _ s, orderly, fun t isRunning => ?_, .refl s⟩
    grind [Threads.status_of_pcb]

/-- The second part: with nobody ready, the idle thread sleeps and can be woken. -/
theorem schedule_wakes_idle (orderly : s.Orderly) (nobody : ∀ t, s.status t ≠ some .running) :
    ∃ s₂, Prog.when (s.threadReadyList = []) (threadUnblock s.idleThread) s = .ok ((), s₂) ∧ s₂.Orderly ∧
      (∀ t, s₂.status t ≠ some .running) ∧
      s₂.threadReadyList ≠ [] ∧ s.Switched s₂ := by
  by_cases empty : s.threadReadyList = []
  · have out : s.idleThread ∉ s.threadReadyList := by
      rw [empty]
      exact List.not_mem_nil
    have blocked : s.status s.idleThread = some .blocked := by grind [orderly.idle, orderly.ready]
    obtain ⟨task, here, status⟩ := Option.map_eq_some_iff.mp blocked
    have free (q : Queue) : s.idleThread ∉ s.queue q := by
      intro inside
      by_cases same : q = .ready
      · subst same
        exact out inside
      · exact (orderly.sleeps q _ same inside).2 rfl
    refine ⟨s.unblocked s.idleThread task, ?_, orderly.unblock free task, fun t isRunning => ?_, List.cons_ne_nil _ _,
      ⟨?_, rfl, rfl, rfl, rfl⟩, rfl, rfl, rfl⟩
    · rw [run_when_of empty, threadUnblock_eq here (.inl status) out]
    · unfold Threads.unblocked at isRunning
      by_cases this : t = s.idleThread
      · rw [this, Threads.status_setTask_self] at isRunning
        cases isRunning
      · rw [Threads.status_setTask_of_ne _ this] at isRunning
        exact nobody t isRunning
    · refine Threads.settled_update here ?_
      unfold TaskStruct.settled
      rw [status]
      rfl
  · exact ⟨s, run_when_of_not empty _ s, orderly, nobody, empty, .refl s⟩

theorem schedule_switches (orderly : s.Orderly) (here : s.pcb s.cur = some task)
    (only : ∀ t, s.status t = some .running → t = s.cur) :
    ∃ s', schedule s = .ok ((), s') ∧ s'.Scheduled ∧ s.Switched s' := by
  obtain ⟨s₁, preempt, orderly₁, nobody₁, switched₁⟩ := schedule_preempts orderly here only
  obtain ⟨s₂, wake, orderly₂, nobody₂, some₂, switched₂⟩ := schedule_wakes_idle orderly₁ nobody₁
  obtain ⟨next, rest, list⟩ := List.exists_cons_of_ne_nil some₂
  have isReady : s₂.status next = some .ready := (orderly₂.ready next).mp (by rw [list]; exact List.mem_cons_self)
  obtain ⟨task', here', ready⟩ := Option.map_eq_some_iff.mp isReady
  refine ⟨{ s₂ with threadReadyList := rest, cur := next }.setTask next { task' with status := .running }, ?_,
    ⟨orderly₂.dispatch list _ rfl, fun t => ?_⟩,
      (switched₁.trans switched₂).trans ⟨⟨?_, rfl, rfl, rfl, rfl⟩, rfl, rfl, rfl⟩⟩
  · unfold schedule
    rw [get_bind, bind_of_ok (readTask_eq here), bind_of_ok preempt, get_bind,
      bind_of_ok wake, get_bind, list]
    dsimp only
    rw [bind_of_ok (readTask_eq here')]
    rfl
  · by_cases this : t = next
    · rw [this, Threads.status_setTask_self]
      exact iff_of_true rfl rfl
    · rw [Threads.status_setTask_of_ne _ this]
      exact iff_of_false (nobody₂ t) this
  · refine Threads.settled_update here' ?_
    unfold TaskStruct.settled
    rw [ready]
    rfl

theorem threadBlock_switches {stat : TaskStatus} (allowed : stat = .blocked ∨ stat = .waiting ∨ stat = .hanging)
    (here : s.pcb s.cur = some task) (orderly : (s.setTask s.cur { task with status := stat }).Orderly)
    (only : ∀ t, s.status t = some .running → t = s.cur) :
    ∃ s', threadBlock stat s = .ok ((), s') ∧ s'.Scheduled ∧
      (s.setTask s.cur { task with status := stat }).Switched s' := by
  have here' : (s.setTask s.cur { task with status := stat }).pcb s.cur = some { task with status := stat } :=
    s.pcb_setTask_self _ _
  have only' (t : Nat) (running : (s.setTask s.cur { task with status := stat }).status t = some .running) :
      t = s.cur := by grind [Threads.status_setTask_of_ne]
  obtain ⟨s', run, after⟩ := schedule_switches orderly here' only'
  refine ⟨s', ?_, after⟩
  unfold threadBlock
  rw [require_bind allowed, get_bind, bind_of_ok (readTask_eq here)]
  exact run

end

end LaiMiniOs
