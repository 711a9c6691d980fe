import Mathlib.Logic.Basic

/-! Byte-addressed memory, block copies and little-endian words. -/

set_option autoImplicit false

namespace Foundation

abbrev Byte := BitVec 8

abbrev Word := BitVec 32

/-- Bytes by address. A buffer and a disk are both memories. -/
abbrev Memory := Nat → Byte

namespace Memory

def zero : Memory := fun _ => 0

/-- The memory seen from address `start` on. -/
def window (m : Memory) (start : Nat) : Memory := fun i => m (start + i)

def splice (dst : Memory) (start : Nat) (src : Memory) (count : Nat) : Memory :=
  fun a => if start ≤ a ∧ a < start + count then src (a - start) else dst a

def clip (m : Memory) (count : Nat) : Memory := zero.splice 0 m count

def AgreeOn (start count : Nat) (m m' : Memory) : Prop :=
  ∀ a, start ≤ a → a < start + count → m a = m' a

theorem AgreeOn.mono {start count start' count' : Nat} {m m' : Memory}
    (h : AgreeOn start count m m') (low : start ≤ start')
    (high : start' + count' ≤ start + count) : AgreeOn start' count' m m' :=
  fun a la ha => h a (by omega) (by omega)

theorem splice_inside {dst src : Memory} {start count a : Nat} (low : start ≤ a)
    (high : a < start + count) : splice dst start src count a = src (a - start) := by
  simp [splice, low, high]

theorem splice_outside {dst src : Memory} {start count a : Nat} (h : a < start ∨ start + count ≤ a) :
    splice dst start src count a = dst a := by
  simp only [splice, ite_eq_right_iff]
  intro inside
  omega

theorem clip_apply {m : Memory} {count i : Nat} (h : i < count) : m.clip count i = m i := by
  rw [clip, splice_inside (Nat.zero_le i) (by omega), Nat.sub_zero]

theorem clip_outside {m : Memory} {count i : Nat} (h : count ≤ i) : m.clip count i = 0 := by
  rw [clip, splice_outside (by omega)]
  rfl

theorem clip_congr {m m' : Memory} {count : Nat} (h : ∀ i, i < count → m i = m' i) :
    m.clip count = m'.clip count := by
  funext i
  by_cases inside : i < count
  · rw [clip_apply inside, clip_apply inside, h i inside]
  · rw [clip_outside (by omega), clip_outside (by omega)]

def word (m : Memory) (a : Nat) : Word := m (a + 3) ++ m (a + 2) ++ m (a + 1) ++ m a

theorem word_congr {m m' : Memory} {a : Nat} (h : AgreeOn a 4 m m') : m.word a = m'.word a := by
  simp only [word, h a (by omega) (by omega), h (a + 1) (by omega) (by omega),
    h (a + 2) (by omega) (by omega), h (a + 3) (by omega) (by omega)]

@[simp] theorem word_zero (a : Nat) : zero.word a = 0 := by
  have bytes : (0 : Byte) ++ (0 : Byte) ++ (0 : Byte) ++ (0 : Byte) = (0 : Word) := by decide
  exact bytes

def wordByte (w : Word) (k : Nat) : Byte := w.extractLsb' (8 * k) 8

theorem word_of_bytes (w : Word) :
    wordByte w 3 ++ wordByte w 2 ++ wordByte w 1 ++ wordByte w 0 = w := by
  apply BitVec.eq_of_getLsbD_eq
  intro i hi
  simp only [wordByte, BitVec.getLsbD_append, BitVec.getLsbD_extractLsb']
  split
  next first => simp [first]
  next first =>
    split
    next second => simp only [second, decide_true, Bool.true_and]; exact congrArg _ (by omega)
    next second =>
      split
      next third => simp only [third, decide_true, Bool.true_and]; exact congrArg _ (by omega)
      next third =>
        have fourth : i - 8 - 8 - 8 < 8 := by omega
        simp only [fourth, decide_true, Bool.true_and]
        exact congrArg _ (by omega)

def ofWords (ws : Nat → Word) : Memory := fun a => wordByte (ws (a / 4)) (a % 4)

@[simp] theorem word_ofWords (ws : Nat → Word) (k : Nat) : (ofWords ws).word (4 * k) = ws k := by
  have quotient (j : Nat) (h : j < 4) : (4 * k + j) / 4 = k := by omega
  have remainder (j : Nat) (h : j < 4) : (4 * k + j) % 4 = j := by omega
  have base : 4 * k / 4 = k ∧ 4 * k % 4 = 0 := by omega
  simp only [word, ofWords, quotient 3 (by decide), quotient 2 (by decide), quotient 1 (by decide),
    remainder 3 (by decide), remainder 2 (by decide), remainder 1 (by decide), base, word_of_bytes]

theorem word_splice_inside {dst src : Memory} {start count a : Nat} (low : start ≤ a)
    (high : a + 4 ≤ start + count) : (splice dst start src count).word a = src.word (a - start) := by
  have shift (j : Nat) : a + j - start = a - start + j := by omega
  simp only [word, splice_inside low (show a < start + count by omega),
    splice_inside (show start ≤ a + 1 by omega) (show a + 1 < start + count by omega),
    splice_inside (show start ≤ a + 2 by omega) (show a + 2 < start + count by omega),
    splice_inside (show start ≤ a + 3 by omega) (show a + 3 < start + count by omega), shift]

end Memory

end Foundation
