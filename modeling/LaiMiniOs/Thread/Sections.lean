import LaiMiniOs.Thread.Schedule

/-! The sections of the kernel that change the queues.

Each lemma says that a section, entered by the task that is running, meets no failing assertion of
the scheduler and leaves the queues in order; the assertions that are about its own caller stand in
front as hypotheses.
-/

set_option autoImplicit false

namespace LaiMiniOs
open Foundation Prog Function

variable {task : TaskStruct} {q : Queue} {t : Nat}

namespace Threads

/-- Between two steps, with semaphores that are only ever 0 or 1. -/
structure Sound (s : Threads) : Prop extends Scheduled s where
  values : ∀ sema, s.value sema = 0 ∨ s.value sema = 1

variable {s s' : Threads}

theorem Scheduled.congr (scheduled : s.Scheduled) (status : ∀ t, s'.status t = s.status t)
    (queue : s'.queue = s.queue) (cur : s'.cur = s.cur)
    (idleThread : s'.idleThread = s.idleThread) : s'.Scheduled := by
  refine ⟨⟨queue ▸ scheduled.separate, fun t => ?_, fun q t other here => ?_, ?_⟩, fun t => ?_⟩
  · have list : s'.threadReadyList = s.threadReadyList := congrFun queue .ready
    rw [list, status]
    exact scheduled.ready t
  · rw [queue] at here
    rw [status, idleThread]
    exact scheduled.sleeps q t other here
  · rw [idleThread, status]
    exact scheduled.idle
  · rw [status, cur]
    exact scheduled.runs t

theorem Scheduled.block {stat : TaskStatus} (allowed : stat = .blocked ∨ stat = .waiting ∨ stat = .hanging)
    {s₁ : Threads}
    (here : s₁.pcb s₁.cur = some task) (scheduled : s.Scheduled) (pcb : s₁.pcb = s.pcb) (cur : s₁.cur = s.cur)
    (orderly : (s₁.setTask s₁.cur { task with status := stat }).Orderly) :
    ∃ s', threadBlock stat s₁ = .ok ((), s') ∧ s'.Scheduled ∧
      (s₁.setTask s₁.cur { task with status := stat }).Switched s' := by
  refine threadBlock_switches allowed here orderly fun t running => ?_
  rw [cur]
  refine (scheduled.runs t).mp ?_
  unfold status at running ⊢
  rwa [pcb] at running

end Threads

section

variable {s : Threads} (sound : s.Sound)
include sound

theorem threadYield_sound : ∃ s', threadYield s = .ok ((), s') ∧ s'.Sound ∧ s.SameFamily s' := by
  obtain ⟨task, here, running⟩ := sound.live
  have out : s.cur ∉ s.threadReadyList := sound.curFree .ready
  have here' := Threads.pcb_setTask_self { s with threadReadyList := s.threadReadyList ++ [s.cur] } s.cur { task with
    status := .ready }
  obtain ⟨s', run, scheduled, switched⟩ :=
    schedule_switches (sound.append sound.curFree { task with status := .ready } rfl) here' fun t isRunning => by
    by_contra other
    have other : t ≠ s.cur := other
    rw [Threads.status_setTask_of_ne _ other] at isRunning
    exact other ((sound.runs t).mp isRunning)
  have before : s.SameFamily
      ({ s with threadReadyList := s.threadReadyList ++ [s.cur] }.setTask s.cur { task with status := .ready }) := by
    refine ⟨Threads.settled_update here ?_, rfl, rfl, rfl, rfl⟩
    unfold TaskStruct.settled
    rw [running]
    rfl
  refine ⟨s', ?_, ⟨scheduled, by rw [switched.value]; exact sound.values⟩, before.trans switched.toSameFamily⟩
  unfold threadYield
  rw [get_bind, bind_of_ok (readTask_eq here), require_bind out]
  exact run

theorem intrTimerHandler_sound : ∃ s', intrTimerHandler s = .ok ((), s') ∧ s'.Sound ∧ s.SameFamily s' := by
  obtain ⟨task, here, running⟩ := sound.live
  unfold intrTimerHandler
  rw [get_bind, bind_of_ok (readTask_eq here)]
  split
  · obtain ⟨s', run, scheduled, switched⟩ := schedule_switches sound.toOrderly here fun t => (sound.runs t).mp
    exact ⟨s', run, ⟨scheduled, by rw [switched.value]; exact sound.values⟩, switched.toSameFamily⟩
  · refine ⟨s.setTask s.cur { task with ticks := task.ticks - 1 }, rfl,
      ⟨sound.congr (fun t => ?_) rfl rfl rfl, sound.values⟩, ?_, rfl, rfl, rfl, rfl⟩
    · grind [Threads.status_setTask_self, Threads.status_of_pcb, Threads.status_setTask_of_ne]
    · exact Threads.settled_update here rfl

theorem sleep_sound (notIdle : s.cur ≠ s.idleThread) (other : q ≠ .ready) (s₁ : Threads) (pcb : s₁.pcb = s.pcb)
    (cur : s₁.cur = s.cur)
    (same : s₁.threadAllList = s.threadAllList ∧ s₁.pidBitmap = s.pidBitmap ∧ s₁.mainThread = s.mainThread ∧
    s₁.idleThread = s.idleThread ∧ s₁.value = s.value)
    (queues : s₁.queue = update s.queue q (s.queue q ++ [s.cur])) :
    ∃ s', threadBlock .blocked s₁ = .ok ((), s') ∧ s'.Sound ∧ s.SameFamily s' := by
  obtain ⟨task, here, running⟩ := sound.live
  obtain ⟨all, pids, main, idle, value⟩ := same
  have here₁ : s₁.pcb s₁.cur = some task := by rw [pcb, cur, here]
  have asleep : (s₁.setTask s₁.cur { task with status := .blocked }).Orderly := by
    refine sound.sleep sound.curFree idle (fun t ne => ?_) other queues ?_ notIdle
    · rw [cur, Threads.status_setTask_of_ne _ ne, Threads.status, Threads.status, pcb]
    · rw [cur, Threads.status_setTask_self]
  obtain ⟨s', run, scheduled, switched⟩ := sound.block (.inl rfl) here₁ pcb cur asleep
  have before : s.SameFamily (s₁.setTask s₁.cur { task with status := .blocked }) := by
    refine ⟨fun t => ?_, all, pids, main, idle⟩
    rw [← pcb]
    refine Threads.settled_update here₁ ?_ t
    unfold TaskStruct.settled
    rw [running]
    rfl
  refine ⟨s', run, ⟨scheduled, fun sema => ?_⟩, before.trans switched.toSameFamily⟩
  rw [switched.value, show (s₁.setTask s₁.cur { task with status := .blocked }).value = s.value from value]
  exact sound.values sema

theorem semaDown_sound (sema : Nat) (notIdle : s.cur ≠ s.idleThread) : ∃ s', semaDown sema s = .ok ((), s') ∧
    s'.Sound ∧ s.SameFamily s' := by
  unfold semaDown
  rw [get_bind]
  split
  · have out : s.cur ∉ s.waiters sema := sound.curFree (.sema sema)
    obtain ⟨s', run, after⟩ := sleep_sound sound notIdle (q := .sema sema) Queue.noConfusion
      { s with waiters := update s.waiters sema (s.waiters sema ++ [s.cur]) } rfl rfl ⟨rfl, rfl, rfl, rfl, rfl⟩
        (s.queue_waiters sema _)
    refine ⟨s', ?_, after⟩
    rw [require_bind out]
    exact run
  · next positive =>
    have one : s.value sema = 1 := (sound.values sema).resolve_left positive
    refine ⟨{ s with value := update s.value sema (s.value sema - 1) }, ?_,
      ⟨sound.congr (fun _ => rfl) rfl rfl rfl, fun sema' => ?_⟩,
      fun _ => rfl, rfl, rfl, rfl, rfl⟩
    · rw [one]
      rfl
    grind [sound.values]

theorem wake_sound (other : q ≠ .ready) {rest : List Nat} (list : s.queue q = t :: rest) {s' : Threads}
    (status : s'.status = (s.setTask t { task with status := .ready }).status) (cur : s'.cur = s.cur)
    (idle : s'.idleThread = s.idleThread)
    (queues : s'.queue = update (update s.queue q rest) .ready (t :: s.threadReadyList)) : s'.Scheduled := by
  have member : t ∈ s.queue q := by
    rw [list]
    exact List.mem_cons_self
  have asleep := (sound.sleeps q t other member).1
  have nodup : (t :: rest).Nodup := list ▸ sound.separate.nodup q
  -- Without the task its queue is `rest`, so that the task is free to be linked into the ready list.
  have taken : Separate (update s.queue q rest) :=
    sound.separate.update q nodup.of_cons fun t' here' => .inl (by rw [list]; exact List.mem_cons_of_mem _ here')
  have free (q' : Queue) : t ∉ update s.queue q rest q' := by grind [sound.separate.apart]
  have ready₀ : update s.queue q rest .ready = s.threadReadyList := update_of_ne other.symm _ _
  have isReady : s'.status t = some .ready := by rw [status, Threads.status_setTask_self]
  have mem (t' : Nat) (ne : t' ≠ t) (q' : Queue) : t' ∈ s'.queue q' ↔ t' ∈ s.queue q' := by
    rw [queues]
    by_cases same : q' = .ready
    · rw [same, update_self, List.mem_cons, or_iff_right ne]
      rfl
    · grind
  refine ⟨sound.change t ?_ idle (fun t' ne => ⟨?_, mem t' ne⟩) ?_ (fun q' other' inside => ?_) fun _ =>
    .inr (.inl isReady), fun t' => ?_⟩
  · grind [taken.update, sound.separate.nodup]
  · rw [status, Threads.status_setTask_of_ne _ ne]
  · have list' : s'.threadReadyList = t :: s.threadReadyList := by
      have at_ : s'.queue .ready = _ := congrFun queues .ready
      rwa [update_self] at at_
    rw [list', isReady]
    exact iff_of_true List.mem_cons_self rfl
  · rw [queues, update_of_ne other'] at inside
    exact absurd inside (free q')
  · rw [status, cur]
    grind [Threads.status_setTask_self, sound.runs, Threads.status_setTask_of_ne]

theorem sleeper (other : q ≠ .ready) {rest : List Nat} (list : s.queue q = t :: rest) :
    ∃ task, s.pcb t = some task ∧ task.status = .blocked ∧ t ∉ s.threadReadyList := by
  have member : t ∈ s.queue q := by
    rw [list]
    exact List.mem_cons_self
  obtain ⟨task, here, asleep⟩ := Option.map_eq_some_iff.mp (sound.sleeps q t other member).1
  exact ⟨task, here, asleep, fun ready => other (sound.separate.apart q .ready t member ready)⟩

theorem semaUp_sound {sema : Nat} (zero : s.value sema = 0) : ∃ s', semaUp sema s = .ok ((), s') ∧ s'.Sound ∧
    s.SameFamily s' := by
  have values (sema' : Nat) : update s.value sema (s.value sema + 1) sema' = 0 ∨
      update s.value sema (s.value sema + 1) sema' = 1 := by grind [sound.values]
  have last : s.value sema + 1 = 1 := by
    rw [zero]
    rfl
  unfold semaUp
  rw [get_bind, require_bind zero]
  cases list : s.waiters sema with
  | nil =>
    refine ⟨{ s with value := update s.value sema (s.value sema + 1) }, ?_,
      ⟨sound.congr (fun _ => rfl) rfl rfl rfl, values⟩,
      fun _ => rfl, rfl, rfl, rfl, rfl⟩
    exact run_require_of last _
  | cons first rest =>
    obtain ⟨task, here, asleep, out⟩ := sleeper sound (q := .sema sema) Queue.noConfusion list
    have unblock := threadUnblock_eq (s := { s with waiters := update s.waiters sema rest }) here (.inl asleep) out
    refine ⟨{ ({ s with waiters := update s.waiters sema rest } : Threads).unblocked first task with
        value := update s.value sema (s.value sema + 1) }, ?_, ⟨?_, values⟩, Threads.settled_update here ?_, rfl, rfl,
          rfl, rfl⟩
    · dsimp only
      rw [set_bind, bind_of_ok unblock]
      exact run_require_of last _
    · refine wake_sound sound (q := .sema sema) Queue.noConfusion list rfl rfl rfl ?_
      rw [← s.queue_waiters sema rest, ← Threads.queue_ready]
      rfl
    · unfold TaskStruct.settled
      rw [asleep]
      rfl

theorem ioqWait_sound {waiter : Nat} (empty : s.ioqWaiter waiter = none) (notIdle : s.cur ≠ s.idleThread) :
    ∃ s', ioqWait waiter s = .ok ((), s') ∧ s'.Sound ∧ s.SameFamily s' := by
  have queues := s.queue_ioqWaiter waiter (some s.cur)
  have before : s.queue (.ioq waiter) ++ [s.cur] = (some s.cur).toList := by
    change (s.ioqWaiter waiter).toList ++ [s.cur] = [s.cur]
    rw [empty]
    rfl
  rw [← before] at queues
  obtain ⟨s', run, after⟩ := sleep_sound sound notIdle (q := .ioq waiter) Queue.noConfusion
    { s with ioqWaiter := update s.ioqWaiter waiter (some s.cur) } rfl rfl ⟨rfl, rfl, rfl, rfl, rfl⟩ queues
  refine ⟨s', ?_, after⟩
  unfold ioqWait
  rw [get_bind, require_bind empty]
  exact run

theorem wakeup_sound {waiter : Nat} (here : s.ioqWaiter waiter = some t) : ∃ s', wakeup waiter s = .ok ((), s') ∧
    s'.Sound ∧ s.SameFamily s' := by
  have list : s.queue (.ioq waiter) = [t] := by
    change (s.ioqWaiter waiter).toList = [t]
    rw [here]
    rfl
  obtain ⟨task, pcb, asleep, out⟩ := sleeper sound (q := .ioq waiter) Queue.noConfusion list
  refine ⟨{ s.unblocked t task with ioqWaiter := update s.ioqWaiter waiter none }, ?_, ⟨?_, sound.values⟩,
    Threads.settled_update pcb ?_,
    rfl, rfl, rfl, rfl⟩
  · unfold wakeup
    rw [get_bind, here]
    exact bind_of_ok (threadUnblock_eq pcb (.inl asleep) out)
  · refine wake_sound sound (q := .ioq waiter) Queue.noConfusion list rfl rfl rfl ?_
    rw [update_comm (Queue.noConfusion : Queue.ioq waiter ≠ .ready), ← Threads.queue_ready]
    exact ({ s with threadReadyList := t :: s.threadReadyList } : Threads).queue_ioqWaiter waiter none
  · unfold TaskStruct.settled
    rw [asleep]
    rfl

theorem idle_sound : ∃ s', threadBlock .blocked s = .ok ((), s') ∧ s'.Sound ∧ s.SameFamily s' := by
  obtain ⟨task, here, running⟩ := sound.live
  have blocked : (s.setTask s.cur { task with status := .blocked }).status s.cur = some .blocked :=
    s.status_setTask_self _ _
  have asleep : (s.setTask s.cur { task with status := .blocked }).Orderly :=
    sound.leave sound.curFree rfl (fun t ne => Threads.status_setTask_of_ne _ ne _) rfl (by rw [blocked]; simp)
      fun _ => blocked
  obtain ⟨s', run, scheduled, switched⟩ := sound.block (.inl rfl) here rfl rfl asleep
  have before : s.SameFamily (s.setTask s.cur { task with status := .blocked }) := by
    refine ⟨Threads.settled_update here ?_, rfl, rfl, rfl, rfl⟩
    unfold TaskStruct.settled
    rw [running]
    rfl
  exact ⟨s', run, ⟨scheduled, by rw [switched.value]; exact sound.values⟩, before.trans switched.toSameFamily⟩

theorem threadBlock_sound {stat : TaskStatus} (stops : stat = .waiting ∨ stat = .hanging)
    (notIdle : s.cur ≠ s.idleThread)
    (here : s.pcb s.cur = some task) :
    ∃ s', threadBlock stat s = .ok ((), s') ∧ s'.Sound ∧
      (s.setTask s.cur { task with status := stat }).SameFamily s' := by
  have status : (s.setTask s.cur { task with status := stat }).status s.cur = some stat := s.status_setTask_self _ _
  have asleep : (s.setTask s.cur { task with status := stat }).Orderly := by
    refine sound.leave sound.curFree rfl (fun t ne => Threads.status_setTask_of_ne _ ne _) rfl ?_ fun same =>
      absurd same notIdle
    rw [status]
    rcases stops with rfl | rfl <;> simp
  obtain ⟨s', run, scheduled, switched⟩ := sound.block (.inr stops) here rfl rfl asleep
  exact ⟨s', run, ⟨scheduled, by rw [switched.value]; exact sound.values⟩, switched.toSameFamily⟩

theorem enlist_sound {thread : Nat} (new : s.pcb thread = none) (out : thread ∉ s.threadAllList)
    (isReady : task.status = .ready) :
    ∃ s', enlist thread task s = .ok ((), s') ∧ s'.Sound ∧
      s' = { s with threadReadyList := s.threadReadyList ++ [thread], threadAllList := s.threadAllList ++
        [thread] }.setTask thread task := by
  have absent : s.status thread = none := by
    rw [Threads.status, new]
    rfl
  have free := sound.free (t := thread) (by rw [absent]; simp) (by rw [absent]; simp)
  have notReady : thread ∉ s.threadReadyList := free .ready
  have orderly :
      ({ s with threadReadyList := s.threadReadyList ++ [thread], threadAllList := s.threadAllList ++
      [thread] }.setTask thread task).Orderly := by
    have appended := sound.append free task isReady
    exact ⟨appended.separate, appended.ready, appended.sleeps, appended.idle⟩
  refine ⟨_, ?_, ⟨⟨orderly, fun t => ?_⟩, sound.values⟩, rfl⟩
  · unfold enlist
    rw [get_bind, require_bind notReady, require_bind out]
    rfl
  · by_cases this : t = thread
    · rw [this, Threads.status_setTask_self, isReady]
      refine iff_of_false (fun same => by cases same) fun same => ?_
      have running := (sound.runs s.cur).mpr rfl
      rw [show thread = s.cur from same] at absent
      rw [absent] at running
      cases running
    · rw [Threads.status_setTask_of_ne _ this]
      exact sound.runs t

end

end LaiMiniOs
