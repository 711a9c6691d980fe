import Mathlib.Data.List.Range
import LaiMiniOs.Kernel.Bitmap

/-! What `bitmap_scan` looks at.

The run search starts behind the lowest free bit and makes as many rounds as there are bits from
that one on, so its last round tests the bit behind the map.
-/

set_option autoImplicit false

namespace LaiMiniOs
open Foundation

namespace Bitmap

def runTests (btmp : Bitmap) (cnt : Nat) : Nat → Nat → Nat → List Nat
  | 0, _, _ => []
  | bitLeft + 1, nextBit, count =>
    let count := if btmp.scanTest nextBit then 0 else count + 1
    nextBit :: if count = cnt then [] else runTests btmp cnt bitLeft (nextBit + 1) count

def scanTests (btmp : Bitmap) (cnt : Nat) : List Nat :=
  let idxByte := skipWhile btmp.fullByte btmp.btmpBytesLen 0
  if idxByte < btmp.btmpBytesLen then
    let bitIdxStart := idxByte * 8 + skipWhile (setBit (btmp.bits idxByte)) 8 0
    if cnt = 1 then [] else btmp.runTests cnt (btmp.btmpBytesLen * 8 - bitIdxStart) (bitIdxStart + 1) 1
  else []

def FreeRun (btmp : Bitmap) (cnt i : Nat) : Prop :=
  i + cnt ≤ 8 * btmp.btmpBytesLen ∧ ∀ j, j < cnt → btmp.bit (i + j) = false

/-- What a search for `cnt` free bits should return, with `none` for `-1`. -/
def LeastRun (btmp : Bitmap) (cnt : Nat) : Option Nat → Prop
  | some i => btmp.FreeRun cnt i ∧ ∀ i', i' < i → ¬btmp.FreeRun cnt i'
  | none => ∀ i, ¬btmp.FreeRun cnt i

variable {btmp : Bitmap}

theorem not_freeRun {cnt i : Nat} (blocked : ∃ j, j < cnt ∧ btmp.bit (i + j) = true) : ¬btmp.FreeRun cnt i := by
  rintro ⟨-, clear⟩
  obtain ⟨j, inside, taken⟩ := blocked
  rw [clear j inside] at taken
  cases taken

theorem runTests_eq (cnt bitLeft : Nat) {nextBit count : Nat} (fits : count ≤ nextBit) :
    ∃ n, btmp.runTests cnt bitLeft nextBit count = List.range' nextBit n ∧
      (∀ i, btmp.scanRun cnt bitLeft nextBit count = some i → i + cnt = nextBit + n) ∧
      (btmp.scanRun cnt bitLeft nextBit count = none → n = bitLeft) := by
  induction bitLeft generalizing nextBit count with
  | zero =>
    refine ⟨0, rfl, fun i found => ?_, fun _ => rfl⟩
    cases found
  | succ bitLeft ih =>
    rw [runTests, scanRun]
    generalize counted : (if btmp.scanTest nextBit = true then 0 else count + 1) = count'
    have bound : count' ≤ nextBit + 1 := by
      rw [← counted]
      split <;> omega
    by_cases enough : count' = cnt
    · simp only [if_pos enough]
      refine ⟨1, rfl, fun i found => ?_, fun none => ?_⟩
      · cases found
        omega
      · cases none
    · simp only [if_neg enough]
      obtain ⟨n, tests, found, none⟩ := ih bound
      refine ⟨n + 1, ?_, fun i run => ?_, fun empty => ?_⟩
      · rw [tests, List.range'_succ]
      · have ends := found i run
        omega
      · rw [none empty]

theorem scanTests_one : btmp.scanTests 1 = [] := by
  simp [scanTests]

theorem scanTests_of_free {start : Nat} (run : btmp.scan 1 = .ok (some start)) {cnt : Nat} (many : cnt ≠ 1) :
    btmp.scanTests cnt = btmp.runTests cnt (8 * btmp.btmpBytesLen - start) (start + 1) 1 := by
  by_cases short : skipWhile btmp.fullByte btmp.btmpBytesLen 0 < btmp.btmpBytesLen
  · simp only [scan, short, if_true] at run
    simp only [scanTests, short, if_true, many, if_false, Option.some.inj (Except.ok.inj run), Nat.mul_comm 8]
  · simp only [scan, short, if_false] at run
    cases run

theorem exists_lowest (free : ∃ i, i < 8 * btmp.btmpBytesLen ∧ btmp.bit i = false) :
    ∃ start, btmp.scan 1 = .ok (some start) ∧ start < 8 * btmp.btmpBytesLen ∧ btmp.bit start = false ∧
      ∀ j, j < start → btmp.bit j = true := by
  rcases btmp.scan_cases Nat.one_pos with ⟨full, -⟩ | ⟨-, none⟩ | ⟨-, start, found, -⟩
  · obtain ⟨i, inside, clear⟩ := free
    rw [full i inside] at clear
    cases clear
  · obtain ⟨i, same, -⟩ := scan_one_eq_ok.mp none
    cases same
  · obtain ⟨i, same, lowest⟩ := scan_one_eq_ok.mp found
    cases same
    exact ⟨start, found, lowest⟩

/-- The search for a run of more than one bit ends at the least window that is free, if the bit behind
the map is counted, and has then tested the bits up to its end. -/
theorem scan_run {cnt : Nat} (many : 1 < cnt) (free : ∃ i, i < 8 * btmp.btmpBytesLen ∧ btmp.bit i = false) :
    (∃ i, btmp.scan cnt = .ok (some i) ∧ i + cnt ≤ 8 * btmp.btmpBytesLen + 1 ∧
    (∀ j, j < cnt → btmp.bit (i + j) = false) ∧
        (∀ i', i' < i → ¬btmp.FreeRun cnt i') ∧ ∃ start n, start + 1 + n = i + cnt ∧
        btmp.scanTests cnt = List.range' (start + 1) n) ∨
      (btmp.scan cnt = .ok none ∧ (∀ i, ¬btmp.FreeRun cnt i) ∧ 8 * btmp.btmpBytesLen ∈ btmp.scanTests cnt) := by
  obtain ⟨start, first, inside, clear, below⟩ := exists_lowest free
  -- A window that starts below the lowest free bit is not free.
  have early (i : Nat) (low : i < start) : ¬btmp.FreeRun cnt i := not_freeRun ⟨0, by omega, below i low⟩
  rw [scan_eq_of_free first (by omega), scanTests_of_free first (by omega)]
  obtain ⟨n, tests, ends, all⟩ := btmp.runTests_eq cnt (8 * btmp.btmpBytesLen - start) (show 1 ≤ start + 1 by omega)
  rw [tests]
  rcases scanRun_cases (8 * btmp.btmpBytesLen - start) (show 1 ≤ start + 1 by omega) many (fun j low high => by
    obtain rfl : j = start := by omega
    exact clear) (fun j before => below j (by omega)) with ⟨i, found, high, free, earlier⟩ | ⟨none, blocked⟩
  · grind [not_freeRun]
  · refine .inr ⟨by rw [none], fun i run => ?_, ?_⟩
    · by_cases low : i < start
      · exact early i low run
      · exact not_freeRun (blocked i (by omega) (by have := run.1; omega)) run
    · rw [all none, List.mem_range'_1]
      omega

/-- `bitmap_scan` stays inside the map and returns the least run exactly when one bit is asked for
or there is a run. -/
theorem scan_inside_iff {cnt : Nat} (pos : 0 < cnt) (free : ∃ i, i < 8 * btmp.btmpBytesLen ∧ btmp.bit i = false) :
    ((∀ i ∈ btmp.scanTests cnt, i < 8 * btmp.btmpBytesLen) ∧ ∃ r, btmp.scan cnt = .ok r ∧ btmp.LeastRun cnt r) ↔
      cnt = 1 ∨ ∃ i, btmp.FreeRun cnt i := by
  by_cases one : cnt = 1
  · subst one
    obtain ⟨start, first, inside, clear, below⟩ := exists_lowest free
    refine iff_of_true ⟨fun i member => ?_, some start, first, ⟨by omega, fun j hj => ?_⟩, fun i low => ?_⟩ (.inl rfl)
    · rw [scanTests_one] at member
      cases member
    · obtain rfl : j = 0 := by omega
      exact clear
    · exact not_freeRun ⟨0, pos, below i low⟩
  · rcases scan_run (show 1 < cnt by omega) free with ⟨i, found, high, clear, least, start, n, ends, tests⟩ | ⟨none,
      blocked, behind⟩
    · constructor
      · rintro ⟨-, r, run, right⟩
        obtain rfl : some i = r := Except.ok.inj (found.symm.trans run)
        exact .inr ⟨i, right.1⟩
      · rintro (same | ⟨i', run⟩)
        · exact absurd same one
        -- The run that was found is not behind another, so it fits as well.
        have order : i ≤ i' := Nat.le_of_not_lt fun before => least i' before run
        have fits : i + cnt ≤ 8 * btmp.btmpBytesLen := by
          have := run.1
          omega
        refine ⟨fun k member => ?_, some i, found, ⟨fits, clear⟩, least⟩
        rw [tests, List.mem_range'_1] at member
        omega
    grind

def pairMap : Bitmap := ⟨1, fun _ => 0xf3⟩

theorem scan_inside_pair : (∀ i ∈ pairMap.scanTests 2, i < 8 * pairMap.btmpBytesLen) ∧ ∃ r, pairMap.scan 2 = .ok r ∧
    pairMap.LeastRun 2 r :=
  (scan_inside_iff (by decide) ⟨2, by decide, by decide⟩).mpr (.inr ⟨2, by decide, by decide⟩)

def edgeMap : Bitmap := ⟨1, fun i => if i = 0 then 0x7f else 0⟩

/-- Two bits are asked for, and the second one that is handed out lies behind the map. -/
theorem scan_leaves_map : (∃ i, i < 8 * edgeMap.btmpBytesLen ∧ edgeMap.bit i = false) ∧
    8 * edgeMap.btmpBytesLen ∈ edgeMap.scanTests 2 ∧
    edgeMap.scan 2 = .ok (some 7) ∧ ¬edgeMap.LeastRun 2 (some 7) :=
  ⟨⟨7, by decide, by decide⟩, by decide, by decide, fun run => absurd run.1.1 (by decide)⟩

end Bitmap

end LaiMiniOs
