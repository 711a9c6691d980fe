import Mathlib.Data.Finset.Card
import LaiMiniOs.Fs.Volume

/-! Allocation of inodes and blocks: the bitmap functions of `fs/file.c`.

An allocation returns a `int32_t`, with `-1` (all bits set) for failure. Access to a
bitmap behind its end is undefined behaviour.
-/

set_option autoImplicit false

namespace LaiMiniOs
open Foundation Prog

variable {s : Fs} {i : Nat} {t : BitmapType}

/-- `bitmap_scan` for one bit and `bitmap_set` of it; `none` for `-1`. -/
def takeBit (t : BitmapType) : FsM (Option Nat) := do
  match ((← get).part.bitmap t).scan 1 with
  | .error fault => Prog.fail fault
  | .ok none => return none
  | .ok (some bitIdx) =>
    modify fun s => s.setBit t bitIdx true
    return some bitIdx

def inodeBitmapAlloc : FsM Word := do
  match ← takeBit .inode with
  | none => return -1
  | some bitIdx => return BitVec.ofNat 32 bitIdx

def blockBitmapAlloc : FsM Word := do
  match ← takeBit .block with
  | none => return -1
  | some bitIdx => return (← get).part.sb.dataStartLba + BitVec.ofNat 32 bitIdx

def bitmapSet (t : BitmapType) (bitIdx : Word) (value : Bool) : FsM Unit := do
  Prog.require (bitIdx.toNat < (← get).part.bitCount t) .undefined
  modify fun s => s.setBit t bitIdx.toNat value

def bitmapSync (bitIdx : Word) (t : BitmapType) : FsM Unit := do
  let part := (← get).part
  let offSec := bitIdx.toNat / 4096
  let offSize := offSec * 512
  Prog.require (offSize + 512 ≤ (part.bitmap t).btmpBytesLen) .undefined
  ideWriteShared (part.sb.bitmapLba t + BitVec.ofNat 32 offSec) (fun s => (s.part.bitmap t).bits.window offSize) 1

structure LowestFree (bit : Nat → Bool) (count i : Nat) : Prop where
  inside : i < count
  free : bit i = false
  below : ∀ j, j < i → bit j = true

theorem exists_lowestFree_iff {bit : Nat → Bool} {count : Nat} : (∃ i, LowestFree bit count i) ↔
    ∃ i < count, bit i = false := by
  constructor
  · rintro ⟨i, lowest⟩
    exact ⟨i, lowest.inside, lowest.free⟩
  · rintro ⟨m, inside, clear⟩
    have some : ∃ i, bit i = false := ⟨m, clear⟩
    have least : Nat.find some ≤ m := Nat.find_min' some clear
    exact ⟨Nat.find some, by omega, Nat.find_spec some, fun j below => by simpa using Nat.find_min some below⟩

abbrev Fs.FirstFree (s : Fs) (t : BitmapType) (i : Nat) : Prop := LowestFree (s.volume.bit t) (s.part.bitCount t) i

theorem takeBit_eq_ok {r : Option Nat × Fs} :
    takeBit t s = .ok r ↔ ∃ i, s.FirstFree t i ∧
      r = (some i, s.setBit t i true) := by
  unfold takeBit
  rw [get_bind]
  constructor
  · intro run
    cases scan : (s.part.bitmap t).scan 1 with
    | error fault => simp [scan] at run
    | ok found =>
      obtain ⟨i, rfl, inside, free, below⟩ := Bitmap.scan_one_eq_ok.mp scan
      simp only [scan] at run
      rw [modify_bind] at run
      cases run
      exact ⟨i, ⟨inside, free, below⟩, rfl⟩
  · rintro ⟨i, ⟨inside, free, below⟩, rfl⟩
    have scan := Bitmap.scan_one_eq_ok.mpr ⟨i, rfl, inside, free, below⟩
    simp only [scan]
    rw [modify_bind]
    rfl

theorem sb_setBit (s : Fs) (t : BitmapType) (i : Nat) (value : Bool) :
    (s.setBit t i value).part.sb = s.part.sb := by
  cases t <;> rfl

theorem bitCount_congr {p q : Partition} (same : q.geometry = p.geometry) (t : BitmapType) :
    q.bitCount t = p.bitCount t := by
  simp only [Partition.geometry, Prod.mk.injEq] at same
  obtain ⟨-, -, -, blocks, inodes⟩ := same
  cases t <;> simp only [Partition.bitCount, Partition.bitmap, blocks, inodes]

theorem inodeBitmapAlloc_eq_ok {r : Word × Fs} :
    inodeBitmapAlloc s = .ok r ↔ ∃ i, s.FirstFree .inode i ∧
      r = (BitVec.ofNat 32 i, s.setBit .inode i true) := by
  unfold inodeBitmapAlloc
  rw [bind_eq_ok]
  constructor
  · rintro ⟨found, s', take, last⟩
    obtain ⟨i, lowest, same⟩ := takeBit_eq_ok.mp take
    cases same
    cases last
    exact ⟨i, lowest, rfl⟩
  · rintro ⟨i, lowest, rfl⟩
    exact ⟨some i, _, takeBit_eq_ok.mpr ⟨i, lowest, rfl⟩, rfl⟩

theorem blockBitmapAlloc_eq_ok {r : Word × Fs} :
    blockBitmapAlloc s = .ok r ↔ ∃ i, s.FirstFree .block i ∧
      r = (s.part.sb.dataStartLba + BitVec.ofNat 32 i, s.setBit .block i true) := by
  unfold blockBitmapAlloc
  rw [bind_eq_ok]
  constructor
  · rintro ⟨found, s', take, last⟩
    obtain ⟨i, lowest, same⟩ := takeBit_eq_ok.mp take
    cases same
    cases last
    exact ⟨i, lowest, rfl⟩
  · rintro ⟨i, lowest, rfl⟩
    exact ⟨some i, _, takeBit_eq_ok.mpr ⟨i, lowest, rfl⟩, rfl⟩

theorem bitmapSet_eq_ok {bitIdx : Word} {value : Bool} {r : Unit × Fs} :
    bitmapSet t bitIdx value s = .ok r ↔
      bitIdx.toNat < s.part.bitCount t ∧ r = ((), s.setBit t bitIdx.toNat value) := by
  unfold bitmapSet
  rw [get_bind, require_bind_eq_ok, run_modify, Except.ok.injEq]
  exact and_congr_right fun _ => eq_comm

theorem bitmapSync_eq_ok {bitIdx : Word} (layout : Layout s.part) {r : Unit × Fs} :
    bitmapSync bitIdx t s = .ok r ↔
      bitIdx.toNat < s.part.bitCount t ∧ r = ((), s.syncBits t bitIdx.toNat) := by
  obtain ⟨-, whole, below⟩ := layout.bitmapArea t
  have data := layout.dataStart
  have disk := layout.onDisk
  simp only [maxLba] at disk
  have room : bitIdx.toNat / 4096 * 512 + 512 ≤ (s.part.bitmap t).btmpBytesLen ↔
      bitIdx.toNat < s.part.bitCount t := by
    unfold Partition.bitCount at whole ⊢
    omega
  have lba (inside : bitIdx.toNat < s.part.bitCount t) :
      (s.part.sb.bitmapLba t + BitVec.ofNat 32 (bitIdx.toNat / 4096)).toNat =
        (s.part.sb.bitmapLba t).toNat + bitIdx.toNat / 4096 := by
    rw [BitVec.toNat_add, BitVec.toNat_ofNat]
    omega
  unfold bitmapSync
  rw [get_bind, require_bind_eq_ok, room]
  refine and_congr_right fun inside => ?_
  have reachable : Addressable ((s.part.sb.bitmapLba t).toNat + bitIdx.toNat / 4096) 1 := by
    simp only [Addressable, maxLba]
    omega
  rw [ideWriteShared_eq_ok, lba inside, and_iff_right reachable]
  rfl

def Fs.lbaOf (s : Fs) (i : Nat) : Word := s.part.sb.dataStartLba + BitVec.ofNat 32 i

section
variable {s : Fs} (layout : Layout s.part) {i : Nat} (inside : i < s.part.bitCount .block)
include layout inside

theorem toNat_lbaOf : (s.lbaOf i).toNat = s.part.sb.dataStartLba.toNat + i := by
  have numbered := layout.numbered
  have bytes := layout.blockBytes
  simp only [Partition.bitCount, Partition.bitmap] at inside
  rw [Fs.lbaOf, BitVec.toNat_add, BitVec.toNat_ofNat]
  omega

theorem lbaOf_ne_fail : s.lbaOf i ≠ -1 := by
  have number := toNat_lbaOf layout inside
  have numbered := layout.numbered
  have bytes := layout.blockBytes
  simp only [Partition.bitCount, Partition.bitmap] at inside
  intro same
  have last : (-1 : Word).toNat = 2 ^ 32 - 1 := by decide
  rw [same, last] at number
  omega

theorem lbaOf_ne_zero : s.lbaOf i ≠ 0 := by
  have number := toNat_lbaOf layout inside
  have table := layout.dataStart
  intro same
  rw [same] at number
  have none : (0 : Word).toNat = 0 := rfl
  omega

omit layout in
theorem lbaOf_sub (bound : s.part.bitCount .block < 2 ^ 32) : (s.lbaOf i - s.part.sb.dataStartLba).toNat = i := by
  rw [Fs.lbaOf]
  bv_omega

end

/-- The bits of the block bitmap have sector numbers, so there are fewer than `2 ^ 32`. -/
theorem Layout.bitCount_lt {part : Partition} (layout : Layout part) : part.bitCount .block < 2 ^ 32 := by
  have numbered := layout.numbered
  have bytes := layout.blockBytes
  simp only [Partition.bitCount, Partition.bitmap]
  omega

theorem blockBitmapAlloc_ok (lowest : s.FirstFree .block i) :
    blockBitmapAlloc s = .ok (s.lbaOf i, s.setBit .block i true) :=
  blockBitmapAlloc_eq_ok.mpr ⟨i, lowest, rfl⟩

theorem of_blockBitmapAlloc {lba : Word} {u : Fs} (alloc : blockBitmapAlloc s = .ok (lba, u)) :
    ∃ i, s.FirstFree .block i ∧ lba = s.lbaOf i ∧ u = s.setBit .block i true := by
  obtain ⟨i, lowest, same⟩ := blockBitmapAlloc_eq_ok.mp alloc
  exact ⟨i, lowest, Prod.mk.inj same⟩

theorem sync_setBit (layout : Layout s.part) (h : i < s.part.bitCount .block) {t : Fs}
    (part : t.part = (s.setBit .block i true).part) :
    bitmapSync (s.lbaOf i - t.part.sb.dataStartLba) .block t = .ok ((), t.syncBits .block i) := by
  have geometry : t.part.geometry = s.part.geometry := by rw [part, geometry_setBit]
  have sb : t.part.sb = s.part.sb := by rw [part, sb_setBit]
  have index := lbaOf_sub (s := s) h layout.bitCount_lt
  refine (bitmapSync_eq_ok (layout.congr geometry)).mpr ⟨?_, ?_⟩
  · rw [sb, index, bitCount_congr geometry]
    exact h
  · rw [sb, index]

/-- The blocks that can be given out: those whose bit is clear and whose sector exists. -/
def Fs.free (s : Fs) : Finset Nat :=
  (Finset.range (s.part.bitCount .block)).filter fun i =>
    s.volume.bit .block i = false ∧ s.part.sb.dataStartLba.toNat + i ≤ maxLba

section
variable {s : Fs}

theorem mem_free : i ∈ s.free ↔ i < s.part.bitCount .block ∧ s.volume.bit .block i = false ∧
    s.part.sb.dataStartLba.toNat + i ≤ maxLba := by
  simp [Fs.free]

theorem exists_lowestFree (room : 0 < s.free.card) :
    ∃ i, s.FirstFree .block i ∧ i ∈ s.free := by
  obtain ⟨m, member⟩ := Finset.card_pos.mp room
  obtain ⟨inside, clear, onDisk⟩ := mem_free.mp member
  obtain ⟨i, lowest⟩ := exists_lowestFree_iff.mpr ⟨m, inside, clear⟩
  have least : i ≤ m := by
    by_contra below
    rw [lowest.below m (by omega)] at clear
    cases clear
  exact ⟨i, lowest, mem_free.mpr ⟨lowest.inside, lowest.free, by omega⟩⟩

theorem free_erase {s' : Fs} (geometry : s'.part.geometry = s.part.geometry)
    (bits : ∀ j, s'.volume.bit .block j = true ↔ s.volume.bit .block j = true ∨ j = i) : s'.free = s.free.erase i := by
  have sb : s'.part.sb = s.part.sb := congrArg (·.2.2.1) geometry
  grind [mem_free, bitCount_congr]

end

end LaiMiniOs
