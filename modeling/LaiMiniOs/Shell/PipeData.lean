import LaiMiniOs.Device.IoqueueRuns

/-! The bytes of a queue and of a pipe.

`pipe_read` and `pipe_write` of `shell/pipe.c` find the queue of the pipe through the descriptor and
then move bytes one call of the queue at a time. They are modelled on that queue.
-/

set_option autoImplicit false

namespace LaiMiniOs
open Foundation Prog

section Calls

variable {T : Type} [DecidableEq T]

/-- The loop of `pipe_read` with what is still to read; it ends early when the task goes to sleep. -/
def pipeReadLoop (t : T) : Nat → Nat → List Byte → IoqM T (Option (Nat × List Byte))
  | 0, bytesRead, buffer => return some (bytesRead, buffer)
  | n + 1, bytesRead, buffer => do
    match ← ioqGetchar t with
    | none => return none
    | some byte => pipeReadLoop t n (bytesRead + 1) (buffer ++ [byte])

def pipeRead (t : T) (count : Word) : IoqM T (Option (Nat × List Byte)) := do
  let s ← get
  let ioqLen := s.ioqLength
  let size := if ioqLen > count.toNat then count.toNat else ioqLen
  pipeReadLoop t size 0 []

def pipeWriteLoop (t : T) (buffer : Memory) : Nat → Nat → IoqM T (Option Nat)
  | 0, bytesWrite => return some bytesWrite
  | n + 1, bytesWrite => do
    match ← ioqPutchar t (buffer bytesWrite) with
    | none => return none
    | some _ => pipeWriteLoop t buffer n (bytesWrite + 1)

def pipeWrite (t : T) (buffer : Memory) (count : Word) : IoqM T (Option Nat) := do
  let s ← get
  let ioqLeft := bufsize - s.ioqLength
  let size := if ioqLeft > count.toNat then count.toNat else ioqLeft
  pipeWriteLoop t buffer size 0

end Calls

namespace IoqState

variable {T : Type} {s s' : IoqState T} {owner : Option T} {t : T} {side : IoqSide} {buf buffer : Memory}

def contents (s : IoqState T) : List Byte := ringSlice bufsize s.buf s.tail s.ioqLength

theorem length_contents : s.contents.length = s.ioqLength := length_ringSlice

section
variable (owned : s.Owned owner)
include owned

theorem Owned.ioqLength_lt : s.ioqLength < bufsize := by
  have head := owned.head
  unfold ioqLength
  split <;> omega

theorem Owned.head_eq : s.head = (s.tail + s.ioqLength) % bufsize := by
  have head := owned.head
  have tail := owned.tail
  unfold ioqLength bufsize at *
  split <;> omega

theorem Owned.empty_iff : s.IoqEmpty ↔ s.ioqLength = 0 := by
  have tail := owned.tail
  unfold IoqEmpty ioqLength
  split <;> omega

theorem Owned.full_iff : s.IoqFull ↔ s.ioqLength = 2047 := by
  grind [owned.head, owned.tail, IoqFull, nextPos, ioqLength, bufsize]

theorem Owned.ioqLength_get (some : ¬s.IoqEmpty) : (s.moved .get).ioqLength + 1 = s.ioqLength := by
  have head := owned.head
  have tail := owned.tail
  simp only [IoqEmpty, IoqState.moved, ioqLength, nextPos, bufsize] at *
  grind

theorem Owned.ioqLength_put {byte : Byte} (room : ¬s.IoqFull) :
    (s.moved (.put byte)).ioqLength = s.ioqLength + 1 := by
  have head := owned.head
  have tail := owned.tail
  simp only [IoqFull, IoqState.moved, ioqLength, nextPos, bufsize] at *
  grind

theorem Owned.contents_get (some : ¬s.IoqEmpty) : s.contents = s.buf s.tail :: (s.moved .get).contents := by
  rw [contents, ← owned.ioqLength_get some, ringSlice_succ, Nat.mod_eq_of_lt owned.tail]
  rfl

theorem Owned.contents_put {byte : Byte} (room : ¬s.IoqFull) :
    (s.moved (.put byte)).contents = s.contents ++ [byte] := by
  have short : s.ioqLength < bufsize := owned.ioqLength_lt
  rw [contents, owned.ioqLength_put room]
  simp only [IoqState.moved]
  rw [owned.head_eq, ringSlice_update short]
  rfl

end

structure Ready (s : IoqState T) (t : T) : Prop where
  owned : ∃ owner, s.Owned owner
  idle : s.point t = .outside

theorem Ready.empty_iff (ready : s.Ready t) : s.IoqEmpty ↔ s.contents.length = 0 := by
  obtain ⟨owner, owned⟩ := ready.owned
  rw [length_contents, owned.empty_iff]

theorem Ready.full_iff (ready : s.Ready t) : s.IoqFull ↔ s.contents.length = 2047 := by
  obtain ⟨owner, owned⟩ := ready.owned
  rw [length_contents, owned.full_iff]

theorem Ready.length_le (ready : s.Ready t) : s.contents.length ≤ 2047 := by
  obtain ⟨owner, owned⟩ := ready.owned
  have short := owned.ioqLength_lt
  rw [length_contents]
  exact Nat.le_of_lt_succ short

variable [DecidableEq T]

theorem contents_woke : (s.woke side).contents = s.contents := by
  unfold woke
  split <;> rfl

theorem Owned.point_woke (owned : s.Owned owner) (idle : s.point t = .outside) : (s.woke side).point t = .outside := by
  unfold IoqState.woke
  cases here : s.waiter side with
  | none => exact idle
  | some u =>
    obtain ⟨-, role, -, asleep⟩ := owned.eq_of_waiter here
    have other : t ≠ u := by
      rintro rfl
      exact nomatch idle.symm.trans asleep
    exact (Function.update_of_ne other ..).trans idle

section
variable (ready : s.Ready t)
include ready

theorem Ready.getchar (some : ¬s.IoqEmpty) :
    ∃ byte s', ioqGetchar t s = .ok (Option.some byte, s') ∧ s'.Ready t ∧ s.contents = byte :: s'.contents := by
  obtain ⟨owner, owned⟩ := ready.owned
  have owned' := owned.moved .get
  refine ⟨_, _, ioqTransfer_moves owned some, ⟨⟨owner, owned'.woke⟩, owned'.point_woke ready.idle⟩, ?_⟩
  rw [contents_woke]
  exact owned.contents_get some

theorem Ready.putchar (byte : Byte) (room : ¬s.IoqFull) :
    ∃ s', ioqPutchar t byte s = .ok (some byte, s') ∧ s'.Ready t ∧ s'.contents = s.contents ++ [byte] := by
  obtain ⟨owner, owned⟩ := ready.owned
  have owned' := owned.moved (.put byte)
  refine ⟨_, ioqTransfer_moves owned room, ⟨⟨owner, owned'.woke⟩, owned'.point_woke ready.idle⟩, ?_⟩
  rw [contents_woke]
  exact owned.contents_put room

theorem Ready.putchar_full (byte : Byte) (full : s.IoqFull) : ∃ s', ioqPutchar t byte s = .ok (none, s') := by
  obtain ⟨owner, owned⟩ := ready.owned
  exact ⟨_, ioqTransfer_blocked owned ready.idle full⟩

theorem Ready.pipeReadLoop {n bytesRead : Nat} {stored : List Byte} (enough : n ≤ s.contents.length) :
    ∃ s', pipeReadLoop t n bytesRead stored s = .ok (some (bytesRead + n, stored ++ s.contents.take n), s') ∧
      s'.Ready t ∧
      s'.contents = s.contents.drop n := by
  induction n generalizing s bytesRead stored with
  | zero => exact ⟨s, by simp [LaiMiniOs.pipeReadLoop], ready, rfl⟩
  | succ n ih =>
    obtain ⟨byte, mid, run, ready', contents⟩ := ready.getchar (mt ready.empty_iff.mp (by omega))
    obtain ⟨s', rest, ready'', contents'⟩ :=
      @ih mid ready' (bytesRead + 1) (stored ++ [byte]) (by simpa [contents] using enough)
    refine ⟨s', ?_, ready'', by simp [contents, contents']⟩
    rw [LaiMiniOs.pipeReadLoop, bind_of_ok run]
    grind

theorem Ready.pipeWriteLoop {n bytesWrite : Nat} (room : s.contents.length + n ≤ 2047) :
    ∃ s', pipeWriteLoop t buffer n bytesWrite s = .ok (some (bytesWrite + n), s') ∧ s'.Ready t ∧
      s'.contents = s.contents ++ (List.range n).map fun k => buffer (bytesWrite + k) := by
  induction n generalizing s bytesWrite with
  | zero => exact ⟨s, by simp [LaiMiniOs.pipeWriteLoop], ready, by simp⟩
  | succ n ih =>
    obtain ⟨mid, run, ready', contents⟩ := ready.putchar (buffer bytesWrite) (mt ready.full_iff.mp (by omega))
    obtain ⟨s', rest, ready'', contents'⟩ := @ih mid ready' (bytesWrite + 1) (by simp [contents]; omega)
    refine ⟨s', ?_, ready'', ?_⟩
    · rw [LaiMiniOs.pipeWriteLoop, bind_of_ok run]
      simp only [rest]
      congr 3
      omega
    grind [List.range_succ_eq_map, Function.comp_def]

theorem Ready.pipeWriteLoop_blocks {n bytesWrite : Nat} (fits : s.contents.length ≤ 2047)
    (long : 2047 < s.contents.length + n) : ∃ s', LaiMiniOs.pipeWriteLoop t buffer n bytesWrite s = .ok (none, s') := by
  induction n generalizing s bytesWrite with
  | zero => omega
  | succ n ih =>
    by_cases full : s.IoqFull
    · obtain ⟨s', run⟩ := ready.putchar_full (buffer bytesWrite) full
      exact ⟨s', by rw [LaiMiniOs.pipeWriteLoop, bind_of_ok run]; rfl⟩
    · have short : s.contents.length ≠ 2047 := mt ready.full_iff.mpr full
      obtain ⟨mid, run, ready', contents⟩ := ready.putchar (buffer bytesWrite) full
      obtain ⟨s', rest⟩ := @ih mid ready' (bytesWrite + 1) (by simp [contents]; omega) (by simp [contents]; omega)
      exact ⟨s', by rw [LaiMiniOs.pipeWriteLoop, bind_of_ok run, ← rest]⟩

theorem Ready.pipeRead (count : Word) :
    ∃ n s', LaiMiniOs.pipeRead t count s = .ok (some (n, s.contents.take n), s') ∧ s'.Ready t ∧ n ≤ s.contents.length ∧
      s'.contents = s.contents.drop n := by
  have enough : (if s.ioqLength > count.toNat then count.toNat else s.ioqLength) ≤ s.contents.length := by
    rw [length_contents]
    split <;> omega
  obtain ⟨s', run, ready', contents⟩ := @Ready.pipeReadLoop _ s t _ ready _ 0 [] enough
  exact ⟨_, s', by simpa [LaiMiniOs.pipeRead, run_bind] using run, ready', enough, contents⟩

theorem Ready.pipeWrite (buffer : Memory) {count : Word} (room : s.contents.length + count.toNat ≤ 2047) :
    ∃ s', LaiMiniOs.pipeWrite t buffer count s = .ok (some count.toNat, s') ∧ s'.Ready t ∧
      s'.contents = s.contents ++ (List.range count.toNat).map buffer := by
  have size : (if bufsize - s.ioqLength > count.toNat then count.toNat else bufsize - s.ioqLength) = count.toNat := by
    rw [← length_contents, if_pos (by unfold bufsize; omega)]
  obtain ⟨s', run, ready', contents⟩ := @Ready.pipeWriteLoop _ s t buffer _ ready _ 0 room
  refine ⟨s', ?_, ready', by simpa using contents⟩
  rw [LaiMiniOs.pipeWrite, get_bind]
  simpa [size] using run

theorem Ready.pipeWrite_blocks (buffer : Memory) {count : Word} (long : 2047 < s.contents.length + count.toNat) :
    ∃ s', LaiMiniOs.pipeWrite t buffer count s = .ok (none, s') := by
  have fits := ready.length_le
  refine ready.pipeWriteLoop_blocks fits ?_
  rw [← length_contents]
  unfold bufsize
  split <;> omega

end

/-- Calls of the queue that do not block, with the bytes that were put and those that were returned. -/
inductive IoqRun (buf : Memory) : List Byte → List Byte → IoqState T → Prop where
  | init : IoqRun buf [] [] (ioqueueInit buf)
  | putchar {puts gets : List Byte} {s s' : IoqState T} {t : T} {byte : Byte} {result : Option Byte}
      (before : IoqRun buf puts gets s)
      (idle : s.point t = .outside) (room : ¬s.IoqFull) (run : ioqPutchar t byte s = .ok (result, s')) :
        IoqRun buf (puts ++ [byte]) gets s'
  | getchar {puts gets : List Byte} {s s' : IoqState T} {t : T} {byte : Byte} (before : IoqRun buf puts gets s)
      (idle : s.point t = .outside) (some : ¬s.IoqEmpty) (run : ioqGetchar t s = .ok (.some byte, s')) :
        IoqRun buf puts (gets ++ [byte]) s'

/-- Calls on a pipe that do not block, with the bytes of the buffers that the writes reported as written
and the bytes that the reads stored. -/
inductive PipeRun (buf : Memory) : List Byte → List Byte → IoqState T → Prop where
  | init : PipeRun buf [] [] (ioqueueInit buf)
  | write {written read : List Byte} {s s' : IoqState T} {t : T} {buffer : Memory} {count : Word} {n : Nat}
      (before : PipeRun buf written read s)
      (idle : s.point t = .outside) (run : LaiMiniOs.pipeWrite t buffer count s = .ok (some n, s')) :
      PipeRun buf (written ++ (List.range n).map buffer) read s'
  | read {written read : List Byte} {s s' : IoqState T} {t : T} {count : Word} {n : Nat} {bytes : List Byte}
      (before : PipeRun buf written read s)
      (idle : s.point t = .outside) (run : LaiMiniOs.pipeRead t count s = .ok (some (n, bytes), s')) :
        PipeRun buf written (read ++ bytes) s'

theorem IoqRun.contents {puts gets : List Byte} (run : IoqRun buf puts gets s) : (∃ owner, s.Owned owner) ∧
    puts = gets ++ s.contents := by
  induction run with
  | init => exact ⟨⟨none, ioqueueInit_owned buf⟩, rfl⟩
  | putchar before idle room run ih =>
    obtain ⟨s', run', ready, contents⟩ := Ready.putchar ⟨ih.1, idle⟩ _ room
    cases run.symm.trans run'
    exact ⟨ready.owned, by rw [contents, ← List.append_assoc, ← ih.2]⟩
  | getchar before idle some run ih =>
    obtain ⟨byte, s', run', ready, contents⟩ := Ready.getchar ⟨ih.1, idle⟩ some
    grind [ready.owned]

theorem Ready.of_pipeWrite {count : Word} {n : Nat} (ready : s.Ready t)
    (run : LaiMiniOs.pipeWrite t buffer count s = .ok (some n, s')) :
    s'.Ready t ∧ s'.contents = s.contents ++ (List.range n).map buffer := by
  by_cases room : s.contents.length + count.toNat ≤ 2047
  · obtain ⟨s'', run', ready', contents⟩ := ready.pipeWrite buffer room
    cases run.symm.trans run'
    exact ⟨ready', contents⟩
  · obtain ⟨s'', run'⟩ := ready.pipeWrite_blocks buffer (Nat.lt_of_not_le room)
    exact nomatch run.symm.trans run'

theorem Ready.of_pipeRead {count : Word} {n : Nat} {bytes : List Byte} (ready : s.Ready t)
    (run : LaiMiniOs.pipeRead t count s = .ok (some (n, bytes), s')) : s'.Ready t ∧ bytes.length = n ∧
    s.contents = bytes ++ s'.contents := by
  obtain ⟨n, s'', run', ready', enough, contents⟩ := ready.pipeRead count
  grind [List.take_append_drop]

theorem PipeRun.contents {written read : List Byte} (run : PipeRun buf written read s) :
    (∃ owner, s.Owned owner) ∧ written = read ++ s.contents := by
  induction run with
  | init => exact ⟨⟨none, ioqueueInit_owned buf⟩, rfl⟩
  | write before idle run ih =>
    obtain ⟨ready, contents⟩ := Ready.of_pipeWrite ⟨ih.1, idle⟩ run
    exact ⟨ready.owned, by rw [contents, ← List.append_assoc, ← ih.2]⟩
  | read before idle run ih =>
    obtain ⟨ready, -, contents⟩ := Ready.of_pipeRead ⟨ih.1, idle⟩ run
    exact ⟨ready.owned, by rw [List.append_assoc, ← contents, ih.2]⟩

/-- The queue is a FIFO of 2047 bytes, whatever the order of the calls, and so is a pipe: reads return
what was written, in order, and every call reports the number of bytes it has moved. -/
theorem ioqueue_fifo (buf : Memory) :
    (∀ (puts gets : List Byte) (s : IoqState T), IoqRun buf puts gets s → s.head < 2048 ∧ s.tail < 2048 ∧
    gets <+: puts ∧
      s.ioqLength = puts.length - gets.length ∧ (s.IoqFull ↔ puts.length - gets.length = 2047) ∧
        (s.IoqEmpty ↔ puts.length - gets.length = 0) ∧
      ∀ t, s.point t = .outside → (¬s.IoqFull → ∀ byte, ∃ s', ioqPutchar t byte s = .ok (some byte, s')) ∧
        (¬s.IoqEmpty → ∃ byte s', ioqGetchar t s = .ok (some byte, s') ∧ puts[gets.length]? = some byte)) ∧
    ∀ (written read : List Byte) (s : IoqState T), PipeRun buf written read s → read <+: written ∧
      ∀ t, s.point t = .outside →
      (∀ buffer count n s', LaiMiniOs.pipeWrite t buffer count s = .ok (some n, s') →
      s'.contents = s.contents ++ (List.range n).map buffer) ∧
      ∀ count n bytes s', LaiMiniOs.pipeRead t count s = .ok (some (n, bytes), s') → bytes.length = n ∧
        s.contents = bytes ++ s'.contents := by
  constructor
  · intro puts gets s run
    obtain ⟨⟨owner, owned⟩, split⟩ := run.contents
    have length : s.ioqLength = puts.length - gets.length := by
      rw [split, List.length_append, length_contents, Nat.add_sub_cancel_left]
    refine ⟨owned.head, owned.tail, ⟨s.contents, split.symm⟩, length, length ▸ owned.full_iff,
      length ▸ owned.empty_iff, fun t idle => ⟨?_, ?_⟩⟩
    · intro room byte
      obtain ⟨s', run, -⟩ := Ready.putchar ⟨⟨owner, owned⟩, idle⟩ byte room
      exact ⟨s', run⟩
    · intro some
      obtain ⟨byte, s', run, -, contents⟩ := Ready.getchar ⟨⟨owner, owned⟩, idle⟩ some
      exact ⟨byte, s', run, by simp [split, contents]⟩
  · intro written read s run
    obtain ⟨owned, split⟩ := run.contents
    exact ⟨⟨s.contents, split.symm⟩, fun t idle =>
      ⟨fun buffer count n s' run => (Ready.of_pipeWrite ⟨owned, idle⟩ run).2,
      fun count n bytes s' run => (Ready.of_pipeRead ⟨owned, idle⟩ run).2⟩⟩

theorem ioqueue_fifo_byte : ∃ (byte : Byte) (s : IoqState Nat), IoqRun Memory.zero [97] [byte] s ∧
    [byte] <+: [(97 : Byte)] := by
  have start : (ioqueueInit Memory.zero : IoqState Nat).Ready 0 := ⟨⟨none, ioqueueInit_owned _⟩, rfl⟩
  obtain ⟨s, put, ready, contents⟩ := start.putchar 97 (by decide)
  obtain ⟨byte, s', got, -⟩ := ready.getchar (mt ready.empty_iff.mp (by simp [contents]))
  have run : IoqRun Memory.zero [97] [byte] s' :=
    .getchar (.putchar .init rfl (by decide) put) ready.idle (mt ready.empty_iff.mp (by simp [contents])) got
  exact ⟨byte, s', run, ((ioqueue_fifo Memory.zero).1 _ _ _ run).2.2.1⟩

/-- From every state that the tasks can bring the queue into, `pipe_read` returns; `pipe_write` returns
exactly when it is asked for no more than the free places but one. -/
theorem pipe_returns_iff (buf : Memory) (run : Relation.ReflTransGen AnyStep (ioqueueInit buf) s)
    (idle : s.point t = .outside) (buffer : Memory)
    (count : Word) : (∃ result s', LaiMiniOs.pipeRead t count s = .ok (some result, s')) ∧
      ((∃ n s', LaiMiniOs.pipeWrite t buffer count s = .ok (some n, s')) ↔ count.toNat ≤ 2047 - s.ioqLength) := by
  have ready : s.Ready t := ⟨owned_of_steps run, idle⟩
  constructor
  · obtain ⟨n, s', returns, -⟩ := ready.pipeRead count
    exact ⟨_, s', returns⟩
  · have fits := ready.length_le
    rw [← length_contents]
    constructor
    · rintro ⟨n, s', returns⟩
      by_contra more
      have long : 2047 < s.contents.length + count.toNat := by omega
      obtain ⟨s'', sleeps⟩ := ready.pipeWrite_blocks buffer long
      exact nomatch returns.symm.trans sleeps
    · intro room
      have short : s.contents.length + count.toNat ≤ 2047 := by omega
      obtain ⟨s', returns, -⟩ := ready.pipeWrite buffer short
      exact ⟨_, s', returns⟩

theorem pipe_returns_byte : ∃ n s', LaiMiniOs.pipeWrite 0 Memory.zero 1 (ioqueueInit Memory.zero : IoqState Nat) =
    .ok (some n, s') :=
  (pipe_returns_iff Memory.zero .refl rfl Memory.zero 1).2.mpr (by decide)

/-- A write of 2048 bytes to a new pipe fills the queue and goes to sleep. -/
theorem pipeWrite_sleeps : ∃ s', LaiMiniOs.pipeWrite 0 Memory.zero 2048 (ioqueueInit Memory.zero : IoqState Nat) =
    .ok (none, s') := by
  have start : (ioqueueInit Memory.zero : IoqState Nat).Ready 0 := ⟨⟨none, ioqueueInit_owned _⟩, rfl⟩
  exact start.pipeWrite_blocks Memory.zero (by decide)

end IoqState

end LaiMiniOs
