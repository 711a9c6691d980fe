import Mathlib.Data.List.Induction
import Mathlib.Data.List.Infix
import LaiMiniOs.Foundation.Memory

/-! `readline` of `shell/shell.c`: the line editor behind the prompt.

Each byte is stored at the cursor before it is looked at. Offsets are relative to `buf`, which is the
`cmd_line` of the shell, and are integers, so that a cursor below `buf` and a store outside it can be
told. -/

set_option autoImplicit false

namespace LaiMiniOs
open Foundation

/-- The memory around `buf`, the cursor `pos - buf`, and the offsets stored to. -/
structure Line where
  cell : Int → Byte
  pos : Int
  stores : List Int

namespace Line
variable {l : Line} {pending : List Byte} {b : Byte} {count : Nat}

def store (l : Line) (b : Byte) : Line := { l with cell := Function.update l.cell l.pos b, stores := l.pos :: l.stores }

def newline : Byte := 0x0a
def carriage : Byte := 0x0d
def backspace : Byte := 0x08
def ctrlL : Byte := 0x0b
def ctrlU : Byte := 0x14

/-- `while (buf != pos) *(pos--) = 0`, for a cursor `n` cells above `buf`. -/
def kill : Nat → Line → Line
  | 0, l => l
  | n + 1, l => kill n { l.store 0 with pos := l.pos - 1 }

inductive Reading where
  | waits (line : Line)
  | returned (line : Line)

def Reading.line : Reading → Line
  | waits l => l
  | returned l => l

def round (count : Nat) (l : Line) (b : Byte) : Reading :=
  let l := l.store b
  if ¬ l.pos < count then .returned l
  else if b = newline ∨ b = carriage then .returned (l.store 0)
  else if b = backspace then .waits (if l.cell 0 ≠ backspace then { l with pos := l.pos - 1 } else l)
  else if b = ctrlL then .waits (l.store 0)
  else if b = ctrlU then .waits (kill l.pos.toNat l)
  else .waits { l with pos := l.pos + 1 }

def readFrom (count : Nat) : Line → List Byte → Reading
  | l, [] => .waits l
  | l, b :: input => match round count l b with
    | .waits l => readFrom count l input
    | .returned l => .returned l

def readline (count : Nat) (cell : Int → Byte) (input : List Byte) : Reading := readFrom count ⟨cell, 0, []⟩ input

def edit (pending : List Byte) (b : Byte) : List Byte :=
  if b = backspace then pending.dropLast
  else if b = ctrlL then pending
  else if b = ctrlU then []
  else pending ++ [b]

def Ends (b : Byte) : Prop := b = newline ∨ b = carriage

/-- The cells below the cursor hold what is pending, and every store was inside `buf`. -/
structure Holds (l : Line) (count : Nat) (pending : List Byte) : Prop where
  pos : l.pos = pending.length
  cells : ∀ i, i < pending.length → l.cell i = pending.getD i 0
  plain : backspace ∉ pending
  inside : ∀ o ∈ l.stores, 0 ≤ o ∧ o < count

theorem kill_pos {n : Nat} (above : l.pos = n) : (kill n l).pos = 0 := by
  induction n generalizing l with
  | zero => exact above
  | succ n ih => exact ih (by dsimp only [store]; omega)

theorem kill_stores {n : Nat} (above : l.pos = n) (low : n < count) (inside : ∀ o ∈ l.stores, 0 ≤ o ∧ o < count) :
    ∀ o ∈ (kill n l).stores, 0 ≤ o ∧ o < count := by
  induction n generalizing l with
  | zero => exact inside
  | succ n ih => exact ih (by dsimp only [store]; omega) (by omega) (List.forall_mem_cons.mpr ⟨by omega, inside⟩)

theorem Holds.store (holds : l.Holds count pending) (room : pending.length < count) (b : Byte) :
    (l.store b).Holds count pending := by
  refine ⟨holds.pos, fun i low => ?_, holds.plain, List.forall_mem_cons.mpr ⟨?_, holds.inside⟩⟩
  · have apart : (i : Int) ≠ l.pos := by rw [holds.pos]; omega
    exact (Function.update_of_ne apart _ _).trans (holds.cells i low)
  · rw [holds.pos]
    omega

theorem Holds.round (holds : l.Holds count pending) (room : pending.length < count) (more : ¬ Ends b) :
    ∃ l', round count l b = .waits l' ∧ l'.Holds count (edit pending b) := by
  have stored := holds.store room b
  have below : (l.store b).pos < count := by rw [stored.pos]; omega
  have self : (l.store b).cell pending.length = b := by rw [← holds.pos]; exact Function.update_self _ _ _
  unfold Line.round edit
  rw [if_neg (not_not.mpr below), if_neg (show ¬ (b = newline ∨ b = carriage) from more)]
  by_cases back : b = backspace
  · rw [if_pos back, if_pos back]
    refine ⟨_, rfl, ?_⟩
    cases pending with
    | nil =>
      rw [if_neg (show ¬ (l.store b).cell 0 ≠ backspace from not_not.mpr (self.trans back))]
      exact stored
    | cons first rest =>
      have head : (l.store b).cell 0 = first := stored.cells 0 (Nat.zero_lt_succ _)
      rw [if_pos (by rw [head]; rintro rfl; exact stored.plain List.mem_cons_self)]
      refine ⟨?_, fun i low => ?_, fun member => stored.plain ((List.dropLast_sublist _).subset member), stored.inside⟩
      · simp [stored.pos]
      · rw [List.length_dropLast] at low
        grind [stored.cells i (by omega)]
  rw [if_neg back, if_neg back]
  by_cases clear : b = ctrlL
  · rw [if_pos clear, if_pos clear]
    exact ⟨_, rfl, stored.store room 0⟩
  rw [if_neg clear, if_neg clear]
  by_cases all : b = ctrlU
  · have zero : (l.store b).pos.toNat = pending.length := by rw [stored.pos]; rfl
    rw [if_pos all, if_pos all, zero]
    exact ⟨_, rfl, kill_pos stored.pos, by simp, by simp, kill_stores stored.pos room stored.inside⟩
  · rw [if_neg all, if_neg all]
    refine ⟨_, rfl, ?_, fun i low => ?_, ?_, stored.inside⟩
    · simp [stored.pos]
    · rw [List.length_append, List.length_singleton] at low
      rcases Nat.lt_or_eq_of_le (Nat.le_of_lt_succ low) with low | rfl
      · grind [stored.cells i low]
      · simpa using self
    · rw [List.mem_append, List.mem_singleton, not_or]
      exact ⟨stored.plain, Ne.symm back⟩

/-- The input leaves room: before each of its bytes fewer than `count` characters are pending. -/
def Room (count : Nat) (input : List Byte) : Prop :=
  ∀ before b, before ++ [b] <+: input → (∀ c ∈ before, ¬ Ends c) → (before.foldl edit []).length < count

theorem Room.mono {part input : List Byte} (room : Room count input) (le : part <+: input) : Room count part :=
  fun before b here => room before b (here.trans le)

theorem Holds.returns (holds : l.Holds count pending) (room : pending.length < count) (last : Ends b) :
    ∃ l', Line.round count l b = .returned l' ∧ l'.Holds count pending ∧ l'.cell pending.length = 0 := by
  have stored := holds.store room b
  refine ⟨(l.store b).store 0, ?_, stored.store room 0, ?_⟩
  · rw [Line.round, if_neg (not_not.mpr (by rw [stored.pos]; omega)),
      if_pos (show b = newline ∨ b = carriage from last)]
  · rw [← stored.pos]
    exact Function.update_self _ _ _

theorem readline_cases (cell : Int → Byte) {input : List Byte} (room : Room count input) :
    ((∀ b ∈ input, ¬ Ends b) ∧ ∃ l, (∀ later, readline count cell (input ++ later) = readFrom count l later) ∧
    l.Holds count (input.foldl edit [])) ∨
      (∃ b ∈ input, Ends b) ∧ ∃ l pending, (∀ later, readline count cell (input ++ later) = .returned l) ∧
      l.Holds count pending ∧
        pending.length < count ∧ l.cell pending.length = 0 := by
  induction input using List.reverseRecOn with
  | nil => exact .inl ⟨by simp, _, fun _ => rfl, rfl, by simp, by simp, by simp⟩
  | append_singleton input b ih =>
    rcases ih (room.mono (List.prefix_append _ _))
      with ⟨before, l, run, holds⟩ | ⟨⟨c, member, ends⟩, l, pending, run, holds⟩
    · have fits := room input b List.prefix_rfl before
      by_cases last : Ends b
      · obtain ⟨l', step, holds', zero⟩ := holds.returns fits last
        refine .inr ⟨⟨b, by simp, last⟩, l', _, fun later => ?_, holds', fits, zero⟩
        rw [List.append_assoc, run, List.singleton_append, readFrom, step]
      · obtain ⟨l', step, holds'⟩ := holds.round fits last
        refine .inl ⟨List.forall_mem_append.mpr ⟨before, by simpa using last⟩, l', fun later =>
          ?_, by rw [List.foldl_append]; exact holds'⟩
        rw [List.append_assoc, run, List.singleton_append, readFrom, step]
    · refine .inr ⟨⟨c, List.mem_append_left _ member, ends⟩, l, pending, fun later => ?_, holds⟩
      rw [List.append_assoc]
      exact run _

/-- Up to its end a line is edited as the reference editor does it, and `buf` holds the result with a
zero behind it. -/
theorem readline_edits {count : Nat} {input : List Byte} {last : Byte} (later : List Byte) (cell : Int → Byte)
    (more : ∀ b ∈ input, ¬ Ends b)
    (ends : Ends last) (room : ∀ before, before <+: input → (before.foldl edit []).length < count) :
    ∃ l, readline count cell (input ++ last :: later) = .returned l ∧
      (∀ i, i < (input.foldl edit []).length → l.cell i = (input.foldl edit []).getD i 0) ∧
      l.cell (input.foldl edit []).length = 0 := by
  have fits : Room count input := fun before b le _ => room before ((List.prefix_append _ _).trans le)
  rcases readline_cases cell fits with ⟨-, l, run, holds⟩ | ⟨⟨b, member, ends⟩, -⟩
  · obtain ⟨l', step, holds', zero⟩ := holds.returns (room input List.prefix_rfl) ends
    refine ⟨l', ?_, holds'.cells, zero⟩
    rw [run, readFrom, step]
  · exact absurd ends (more b member)

theorem readline_edits_ls : ∃ l, readline 512 (fun _ => 0) [0x6c, 0x78, 0x08, 0x73, 0x0d] = .returned l ∧
    l.cell 1 = 0x73 ∧ l.cell 2 = 0 := by
  have short : ∀ before ∈ List.inits [0x6c, 0x78, 0x08, 0x73], (before.foldl edit []).length < 512 := by decide
  obtain ⟨l, run, cells, zero⟩ :=
    @readline_edits 512 [0x6c, 0x78, 0x08, 0x73] 0x0d [] (fun _ => 0) (by unfold Ends; decide) (.inr rfl)
    fun before le => short before ((List.mem_inits _ _).mpr le)
  exact ⟨l, run, cells 1 (by decide), zero⟩

/-- On every part of the input the cursor is not below `buf`, all stores were inside, and what was
returned is a string in `buf`. -/
def Safe (count : Nat) (cell : Int → Byte) (input : List Byte) : Prop :=
  ∀ part, part <+: input → 0 ≤ (readline count cell part).line.pos ∧
    (∀ o ∈ (readline count cell part).line.stores, 0 ≤ o ∧ o < count) ∧
    ∀ l, readline count cell part = .returned l → ∃ i : Nat, i < count ∧ l.cell i = 0

theorem stores_kill {n : Nat} {o : Int} (member : o ∈ l.stores) : o ∈ (kill n l).stores := by
  induction n generalizing l with
  | zero => exact member
  | succ n ih => exact ih (List.mem_cons_of_mem _ member)

theorem pos_mem_round (count : Nat) (l : Line) (b : Byte) : l.pos ∈ (Line.round count l b).line.stores := by
  have stored : l.pos ∈ (l.store b).stores := List.mem_cons_self
  unfold Line.round
  dsimp only
  split_ifs
  all_goals first | exact stored | exact List.mem_cons_of_mem _ stored | exact stores_kill stored

theorem Safe.fits {cell : Int → Byte} {input before : List Byte} (safe : Safe count cell input)
    (le : before ++ [b] <+: input)
    (more : ∀ c ∈ before, ¬ Ends c) (room : Room count before) : (before.foldl edit []).length < count := by
  rcases readline_cases cell room with ⟨-, l, run, holds⟩ | ⟨⟨c, member, ends⟩, -⟩
  · have stored := (safe _ le).2.1 l.pos
    rw [run, readFrom] at stored
    have here := pos_mem_round count l b
    cases step : Line.round count l b <;> rw [step] at stored here
    all_goals
      have := stored here
      rw [holds.pos] at this
      omega
  · exact absurd ends (more c member)

theorem Safe.room {cell : Int → Byte} {input : List Byte} (safe : Safe count cell input) {before : List Byte}
    (le : before <+: input)
    (more : ∀ c ∈ before, ¬ Ends c) : Room count before := by
  induction before using List.reverseRecOn with
  | nil => exact fun p b le => absurd (List.prefix_nil.mp le) (by simp)
  | append_singleton before c ih =>
    have earlier : ∀ d ∈ before, ¬ Ends d := fun d member => more d (List.mem_append_left _ member)
    have room := ih ((List.prefix_append _ _).trans le) earlier
    intro p b here free
    rcases List.prefix_concat_iff.mp here with same | here
    · obtain ⟨rfl, -⟩ := List.append_inj' same rfl
      exact safe.fits le earlier room
    · exact room p b here free

/-- `readline` stays inside `buf` exactly when no byte is typed while `count` characters are pending. -/
theorem readline_safe_iff (count : Nat) (cell : Int → Byte) (input : List Byte) : Safe count cell input ↔
    Room count input := by
  constructor
  · intro safe before b le more
    exact safe.fits le more (safe.room ((List.prefix_append _ _).trans le) more)
  · intro room part le
    rcases readline_cases cell (room.mono le) with ⟨-, l, run, holds⟩ | ⟨-, l, pending, run, holds, fits, zero⟩
    · have run := run []
      rw [List.append_nil] at run
      rw [run]
      exact ⟨by rw [show (readFrom count l []).line.pos = l.pos from rfl, holds.pos]; omega, holds.inside,
        fun l returned => nomatch returned⟩
    · have run := run []
      rw [List.append_nil] at run
      rw [run]
      refine ⟨by rw [show (Reading.returned l).line.pos = l.pos from rfl, holds.pos]; omega, holds.inside,
        fun l' returned => ?_⟩
      cases returned
      exact ⟨_, fits, zero⟩

/-- Two characters and a return fill a buffer of two. -/
theorem readline_overruns : ¬ Safe 2 (fun _ => 0) [0x61, 0x62, 0x0d] ∧
    (2 : Int) ∈ (readline 2 (fun _ => 0) [0x61, 0x62, 0x0d]).line.stores := by
  have far : (2 : Int) ∈ (readline 2 (fun _ => 0) [0x61, 0x62, 0x0d]).line.stores := by decide
  exact ⟨fun safe => absurd ((safe _ List.prefix_rfl).2.1 2 far).2 (by decide), far⟩

end Line
end LaiMiniOs
