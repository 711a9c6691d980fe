import Mathlib.Data.List.Basic
import Mathlib.Data.Nat.Find
import LaiMiniOs.Foundation.Program
import LaiMiniOs.Foundation.Memory
import LaiMiniOs.Foundation.Search

/-! The allocation bitmaps of `kernel/bitmap.c`.

Bit `i` of a map lives in byte `i / 8` at position `i % 8`. The memory of a map
goes on behind its last byte, because `bitmap_scan` looks at one byte past the
end before it checks its index.
-/

set_option autoImplicit false

namespace LaiMiniOs
open Foundation

structure Bitmap where
  btmpBytesLen : Nat
  bits : Memory

variable {btmp : Bitmap} {cnt i : Nat}

namespace Bitmap

def mask (bitOdd : Nat) : Byte := 1#8 <<< bitOdd

def scanTest (btmp : Bitmap) (bitIdx : Nat) : Bool :=
  btmp.bits (bitIdx / 8) &&& mask (bitIdx % 8) != 0

def fullByte (btmp : Bitmap) (idxByte : Nat) : Bool := btmp.bits idxByte == 0xff

def setBit (byte : Byte) (idxBit : Nat) : Bool := mask idxBit &&& byte != 0

def scanRun (btmp : Bitmap) (cnt : Nat) : Nat → Nat → Nat → Option Nat
  | 0, _, _ => none
  | bitLeft + 1, nextBit, count =>
    let count := if btmp.scanTest nextBit then 0 else count + 1
    if count = cnt then some (nextBit + 1 - cnt) else scanRun btmp cnt bitLeft (nextBit + 1) count

/-- `bitmap_scan`: the start of `cnt` free bits in a row, `none` for `-1`. A full map
fails the assertion before the test that would return `-1`. -/
def scan (btmp : Bitmap) (cnt : Nat) : Except Fault (Option Nat) :=
  let idxByte := skipWhile btmp.fullByte btmp.btmpBytesLen 0
  if idxByte < btmp.btmpBytesLen then
    let bitIdxStart := idxByte * 8 + skipWhile (setBit (btmp.bits idxByte)) 8 0
    if cnt = 1 then .ok (some bitIdxStart)
    else .ok (btmp.scanRun cnt (btmp.btmpBytesLen * 8 - bitIdxStart) (bitIdxStart + 1) 1)
  else .error .assertion

def set (btmp : Bitmap) (bitIdx : Nat) (value : Bool) : Bitmap :=
  { btmp with bits := fun i =>
      if i = bitIdx / 8 then
        if value then btmp.bits i ||| mask (bitIdx % 8) else btmp.bits i &&& ~~~(mask (bitIdx % 8))
      else btmp.bits i }

def bit (btmp : Bitmap) (i : Nat) : Bool := (btmp.bits (i / 8)).getLsbD (i % 8)

theorem mask_eq (k : Nat) : mask k = BitVec.twoPow 8 k := by
  simp [mask, BitVec.twoPow]

theorem and_mask (b : Byte) (k : Nat) (h : k < 8) : b &&& mask k = 0 ↔ b.getLsbD k = false := by
  rw [mask_eq, BitVec.and_twoPow]
  split
  next isSet =>
    simp only [isSet, Bool.true_eq_false, iff_false]
    intro zero
    have bitZero := congrArg (fun v => v.getLsbD k) zero
    simp [h] at bitZero
  next clear => simp [clear]

theorem scanTest_eq (btmp : Bitmap) (i : Nat) : btmp.scanTest i = btmp.bit i := by
  have test := and_mask (btmp.bits (i / 8)) (i % 8) (by omega)
  rw [Bool.eq_iff_iff]
  simp only [scanTest, bit, bne_iff_ne, ne_eq, test, Bool.not_eq_false]

theorem setBit_eq (byte : Byte) (k : Nat) (h : k < 8) : setBit byte k = byte.getLsbD k := by
  rw [Bool.eq_iff_iff]
  simp only [setBit, BitVec.and_comm (mask k), bne_iff_ne, ne_eq, and_mask byte k h, Bool.not_eq_false]

@[simp] theorem bit_set (btmp : Bitmap) (i j : Nat) (v : Bool) :
    (btmp.set i v).bit j = if j = i then v else btmp.bit j := by
  have hm : j % 8 < 8 := by omega
  by_cases h : j / 8 = i / 8
  · by_cases same : j = i
    · subst same
      cases v <;> simp [bit, set, mask_eq, hm]
    · have apart : j % 8 ≠ i % 8 := by omega
      cases v <;> simp [bit, set, mask_eq, hm, h, same, apart]
  · have apart : j ≠ i := by rintro rfl; exact h rfl
    simp [bit, set, h, apart]

@[simp] theorem btmpBytesLen_set (btmp : Bitmap) (i : Nat) (v : Bool) :
    (btmp.set i v).btmpBytesLen = btmp.btmpBytesLen := rfl

theorem bits_set_of_ne (btmp : Bitmap) {a : Nat} (v : Bool) (h : a ≠ i / 8) :
    (btmp.set i v).bits a = btmp.bits a := by
  simp [set, h]

theorem set_back (clear : btmp.bit i = false) : (btmp.set i true).set i false = btmp := by
  have bits : ((btmp.set i true).set i false).bits = btmp.bits := by
    funext a
    by_cases here : a = i / 8
    · subst here
      refine BitVec.eq_of_getLsbD_eq fun j low => ?_
      by_cases same : j = i % 8
      · subst same
        have zero : (btmp.bits (i / 8)).getLsbD (i % 8) = false := clear
        rw [zero]
        simp [set, mask_eq, low]
      · simp [set, mask_eq, low, same]
    · rw [bits_set_of_ne _ _ here, bits_set_of_ne _ _ here]
  cases btmp
  exact congrArg (Bitmap.mk _) bits

theorem fullByte_iff (btmp : Bitmap) (a : Nat) :
    btmp.fullByte a = true ↔ ∀ k, k < 8 → btmp.bit (8 * a + k) = true := by
  have index (k : Nat) (h : k < 8) : btmp.bit (8 * a + k) = (btmp.bits a).getLsbD k := by
    simp only [bit, show (8 * a + k) / 8 = a by omega, show (8 * a + k) % 8 = k by omega]
  have ones : (0xff : Byte) = BitVec.allOnes 8 := by decide
  simp only [fullByte, beq_iff_eq]
  constructor
  · intro full k h
    rw [index k h, full, ones, BitVec.getLsbD_allOnes, decide_eq_true h]
  · intro all
    apply BitVec.eq_of_getLsbD_eq
    intro k h
    rw [← index k h, all k h, ones, BitVec.getLsbD_allOnes, decide_eq_true h]

theorem scan_one_eq_ok {r : Option Nat} :
    btmp.scan 1 = .ok r ↔ ∃ i, r = some i ∧ i < 8 * btmp.btmpBytesLen ∧ btmp.bit i = false ∧
      ∀ j, j < i → btmp.bit j = true := by
  have answer (a k : Nat) (ha : a < btmp.btmpBytesLen) (hk : k < 8)
      (bytes : ∀ b, b < a → btmp.fullByte b = true) (low : ∀ l, l < k → btmp.bit (8 * a + l) = true)
      (free : btmp.bit (8 * a + k) = false) : btmp.scan 1 = .ok (some (8 * a + k)) := by
    have index (l : Nat) (h : l < 8) : setBit (btmp.bits a) l = btmp.bit (8 * a + l) := by grind [setBit_eq, bit]
    have notFull : btmp.fullByte a = false := by
      rw [Bool.eq_false_iff, ne_eq, fullByte_iff]
      intro all
      simp [all k hk] at free
    have atByte : skipWhile btmp.fullByte btmp.btmpBytesLen 0 = a :=
      skipWhile_eq (by omega) (by omega) (fun b _ h => bytes b h) notFull
    have atBit : skipWhile (setBit (btmp.bits a)) 8 0 = k :=
      skipWhile_eq (by omega) (by omega) (fun l _ h => (index l (by omega)).trans (low l h))
        ((index k hk).trans free)
    simp only [scan, atByte, ha, atBit, ite_true]
    congr 2
    omega
  constructor
  · intro run
    have short : skipWhile btmp.fullByte btmp.btmpBytesLen 0 < btmp.btmpBytesLen := by
      by_contra full
      simp only [scan, full, ite_false] at run
      cases run
    have notFull := skipWhile_stop (p := btmp.fullByte) (n := btmp.btmpBytesLen) (i := 0) (by omega)
    generalize place : skipWhile btmp.fullByte btmp.btmpBytesLen 0 = a at short notFull
    have bytes (b : Nat) (h : b < a) : btmp.fullByte b = true :=
      skipWhile_before (Nat.zero_le b) (place ▸ h)
    -- The byte has a free bit, so the search for it stops before bit eight.
    have index (l : Nat) (h : l < 8) : setBit (btmp.bits a) l = btmp.bit (8 * a + l) := by grind [setBit_eq, bit]
    have hk : skipWhile (setBit (btmp.bits a)) 8 0 < 8 := by
      by_contra none
      rw [Bool.eq_false_iff, ne_eq, fullByte_iff] at notFull
      exact notFull fun l hl => by
        rw [← index l hl]
        exact skipWhile_before (n := 8) (Nat.zero_le l) (by omega)
    generalize position : skipWhile (setBit (btmp.bits a)) 8 0 = k at hk
    have low (l : Nat) (h : l < k) : btmp.bit (8 * a + l) = true := by
      rw [← index l (by omega)]
      exact skipWhile_before (Nat.zero_le l) (position ▸ h)
    have free : btmp.bit (8 * a + k) = false := by
      rw [← index k hk, ← position]
      exact skipWhile_stop (by omega)
    rw [answer a k short hk bytes low free] at run
    refine ⟨8 * a + k, by simpa using run.symm, by omega, free, ?_⟩
    intro j hj
    by_cases same : j / 8 = a
    · rw [show j = 8 * a + j % 8 by omega]
      exact low _ (by omega)
    · rw [show j = 8 * (j / 8) + j % 8 by omega]
      exact (btmp.fullByte_iff _).mp (bytes _ (by omega)) _ (by omega)
  · rintro ⟨i, rfl, high, free, low⟩
    have shape : i = 8 * (i / 8) + i % 8 := by omega
    grind [btmp.fullByte_iff]

/-- The search for a run from a state in which the `count` bits before `nextBit` are free and the one
before them is not. -/
theorem scanRun_cases (bitLeft : Nat) {nextBit count : Nat} (fits : count ≤ nextBit) (small : count < cnt)
    (free : ∀ j, nextBit ≤ j + count → j < nextBit → btmp.bit j = false) (stop : ∀ j, j + 1 + count = nextBit →
    btmp.bit j = true) :
    (∃ i, btmp.scanRun cnt bitLeft nextBit count = some i ∧ i + cnt ≤ nextBit + bitLeft ∧
    (∀ j, j < cnt → btmp.bit (i + j) = false) ∧
      ∀ i', nextBit < i' + cnt → i' < i → ∃ j, j < cnt ∧ btmp.bit (i' + j) = true) ∨
    (btmp.scanRun cnt bitLeft nextBit count = none ∧
      ∀ i, nextBit < i + cnt → i + cnt ≤ nextBit + bitLeft → ∃ j, j < cnt ∧ btmp.bit (i + j) = true) := by
  induction bitLeft generalizing nextBit count with
  | zero => exact .inr ⟨rfl, fun i low high => absurd high (by omega)⟩
  | succ bitLeft ih =>
    rw [scanRun, scanTest_eq]
    cases here : btmp.bit nextBit with
    | true =>
      rw [if_pos rfl, if_neg (show ¬0 = cnt by omega)]
      -- The window that ends with the set bit contains it.
      have contains (i : Nat) (ends : i + cnt = nextBit + 1) : ∃ j, j < cnt ∧ btmp.bit (i + j) = true :=
        ⟨nextBit - i, by omega, by rwa [show i + (nextBit - i) = nextBit by omega]⟩
      grind [Nat.lt_of_le_of_lt]
    | false =>
      have longer : ∀ j, nextBit + 1 ≤ j + (count + 1) → j < nextBit + 1 → btmp.bit j = false :=
        fun j low high => by grind
      rw [if_neg Bool.false_ne_true]
      by_cases enough : count + 1 = cnt
      · rw [if_pos enough]
        grind
      · rw [if_neg enough]
        -- A window that ends here starts before the free bits.
        have contains (i : Nat) (ends : i + cnt = nextBit + 1) : ∃ j, j < cnt ∧ btmp.bit (i + j) = true :=
          ⟨nextBit - count - 1 - i, by omega, stop _ (by omega)⟩
        grind

/-- There is a free bit but no run of `cnt` free bits; the search also looks at the bit behind the
map. -/
def Fragmented (btmp : Bitmap) (cnt : Nat) : Prop :=
  (∃ i, i < 8 * btmp.btmpBytesLen ∧ btmp.bit i = false) ∧
    ∀ i, i + cnt ≤ 8 * btmp.btmpBytesLen + 1 → ∃ j, j < cnt ∧ btmp.bit (i + j) = true

theorem scan_eq_of_free {start : Nat} (run : btmp.scan 1 = .ok (some start)) (many : cnt ≠ 1) :
    btmp.scan cnt = .ok (btmp.scanRun cnt (8 * btmp.btmpBytesLen - start) (start + 1) 1) := by
  by_cases short : skipWhile btmp.fullByte btmp.btmpBytesLen 0 < btmp.btmpBytesLen
  · simp only [scan, short, if_true] at run
    simp only [scan, short, if_true, many, if_false, Option.some.inj (Except.ok.inj run), Nat.mul_comm 8]
  · simp only [scan, short, if_false] at run
    cases run

theorem scan_full (full : ∀ i, i < 8 * btmp.btmpBytesLen → btmp.bit i = true) (cnt : Nat) :
    btmp.scan cnt = .error .assertion := by
  have bytes : skipWhile btmp.fullByte btmp.btmpBytesLen 0 = 0 + btmp.btmpBytesLen :=
    skipWhile_end fun a _ high => (btmp.fullByte_iff a).mpr fun k hk => full _ (by omega)
  simp [scan, bytes]

theorem scan_cases (btmp : Bitmap) (pos : 0 < cnt) :
    ((∀ i, i < 8 * btmp.btmpBytesLen → btmp.bit i = true) ∧ btmp.scan cnt = .error .assertion) ∨
    (btmp.Fragmented cnt ∧ btmp.scan cnt = .ok none) ∨
    (¬btmp.Fragmented cnt ∧ ∃ i, btmp.scan cnt = .ok (some i) ∧ ∀ j, j < cnt → btmp.bit (i + j) = false) := by
  by_cases full : ∀ i, i < 8 * btmp.btmpBytesLen → btmp.bit i = true
  · exact .inl ⟨full, scan_full full cnt⟩
  right
  have free : ∃ i, i < 8 * btmp.btmpBytesLen ∧ btmp.bit i = false := by simpa using full
  -- The lowest free bit, where both searches start.
  have lowest := Nat.find_spec free
  have before (j : Nat) (hj : j < Nat.find free) : btmp.bit j = true := by grind [Nat.find_min]
  have first : btmp.scan 1 = .ok (some (Nat.find free)) := scan_one_eq_ok.mpr ⟨_, rfl, lowest.1, lowest.2, before⟩
  generalize Nat.find free = start at lowest before first
  by_cases one : cnt = 1
  · subst one
    refine .inr ⟨fun fragmented => ?_, start, first, fun j hj => ?_⟩
    · obtain ⟨j, hj, isSet⟩ := fragmented.2 start (by omega)
      obtain rfl : j = 0 := by omega
      simp [lowest.2] at isSet
    · obtain rfl : j = 0 := by omega
      exact lowest.2
  rw [scan_eq_of_free first one]
  rcases scanRun_cases (8 * btmp.btmpBytesLen - start) (show 1 ≤ start + 1 by omega) (show 1 < cnt by omega)
    (fun j low high => by
    obtain rfl : j = start := by omega
    exact lowest.2) (fun j before' => before j (by omega)) with ⟨i, run, inside, clear, -⟩ | ⟨none, blocked⟩
  · refine .inr ⟨fun fragmented => ?_, i, congrArg Except.ok run, clear⟩
    obtain ⟨j, hj, isSet⟩ := fragmented.2 i (by omega)
    simp [clear j hj] at isSet
  · refine .inl ⟨⟨⟨start, lowest⟩, fun i high => ?_⟩, congrArg Except.ok none⟩
    by_cases low : i < start
    · exact ⟨0, pos, before i low⟩
    · exact blocked i (by omega) (by omega)

theorem clear_of_scan (pos : 0 < cnt) (scan : btmp.scan cnt = .ok (some i)) (j : Nat) (hj : j < cnt) :
    btmp.bit (i + j) = false := by
  rcases btmp.scan_cases pos with ⟨-, error⟩ | ⟨-, none⟩ | ⟨-, i', found, clear⟩
  · cases error.symm.trans scan
  · cases none.symm.trans scan
  · cases found.symm.trans scan
    exact clear j hj

end Bitmap

end LaiMiniOs
