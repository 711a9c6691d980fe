import LaiMiniOs.Fs.Inode

/-! Where the inode table keeps its records.

Record `n` is the 76 bytes at offset `76 * n` of the table, whichever sectors they
touch: reading and writing one or two whole sectors comes down to these bytes.
-/

set_option autoImplicit false

namespace LaiMiniOs
open Foundation Prog

variable {s : Fs} {n : Nat} {inodeNo : Word}

def recordAddr (part : Partition) (n : Nat) : Nat := 512 * part.sb.inodeTableLba.toNat + 76 * n

def inodeAt (s : Fs) (n : Nat) : Inode := Inode.read s.disk (recordAddr s.part n)

def putRecord (s : Fs) (n : Nat) (image : Memory) : Fs :=
  { s with disk := s.disk.splice (recordAddr s.part n) image inodeSize }

def positionOf (part : Partition) (n : Nat) : InodePosition where
  twoSec := 512 - n * inodeSize % 512 < inodeSize
  secLba := part.sb.inodeTableLba + BitVec.ofNat 32 (n * inodeSize / 512)
  offSize := n * inodeSize % 512

theorem inodeLocate_eq (h : inodeNo.toNat < 4096) :
    inodeLocate inodeNo s = .ok (positionOf s.part inodeNo.toNat, s) := by
  simp only [inodeLocate, require_bind h, get_bind]
  rfl

theorem inodeLocate_eq_ok {r : InodePosition × Fs} :
    inodeLocate inodeNo s = .ok r ↔
      inodeNo.toNat < 4096 ∧ r = (positionOf s.part inodeNo.toNat, s) := by
  constructor
  · intro run
    have bound : inodeNo.toNat < 4096 := by
      simp only [inodeLocate, bind_eq_ok, require_eq_ok] at run
      obtain ⟨_, _, ⟨bound, _⟩, _⟩ := run
      exact bound
    rw [inodeLocate_eq bound] at run
    cases run
    exact ⟨bound, rfl⟩
  · rintro ⟨bound, rfl⟩
    exact inodeLocate_eq bound

section
variable {part : Partition} (layout : Layout part)
include layout

theorem positionOf_secLba (h : n < 4096) :
    (positionOf part n).secLba.toNat = part.sb.inodeTableLba.toNat + n * 76 / 512 := by
  have table := layout.dataStart
  have disk := layout.onDisk
  simp only [maxLba] at disk
  simp only [positionOf, inodeSize, BitVec.toNat_add, BitVec.toNat_ofNat]
  omega

theorem positionOf_covers (h : n < 4096) :
    (positionOf part n).offSize + inodeSize ≤ 512 * (positionOf part n).sects ∧
      (positionOf part n).secLba.toNat + (positionOf part n).sects ≤ part.sb.dataStartLba.toNat := by
  have place := positionOf_secLba layout h
  have table := layout.dataStart
  simp only [InodePosition.sects, place]
  by_cases straddle : 512 - n * 76 % 512 < 76
  · simp only [positionOf, inodeSize, straddle, decide_true, ite_true]
    omega
  · simp only [positionOf, inodeSize, straddle, decide_false, Bool.false_eq_true, ite_false]
    omega

theorem positionOf_addr (h : n < 4096) :
    512 * (positionOf part n).secLba.toNat + (positionOf part n).offSize = recordAddr part n := by
  rw [positionOf_secLba layout h]
  simp only [positionOf, recordAddr, inodeSize]
  omega

theorem positionOf_addressable (h : n < 4096) :
    Addressable (positionOf part n).secLba.toNat (positionOf part n).sects := by
  have covers := (positionOf_covers layout h).2
  have disk := layout.onDisk
  have small : (positionOf part n).sects = 1 ∨ (positionOf part n).sects = 2 := by
    simp only [InodePosition.sects]
    split <;> simp
  exact ⟨by omega, by omega⟩

theorem positionOf_inside (h : n < 4096) :
    (positionOf part n).secLba.toNat ≤ (part.startLba + part.secCnt).toNat := by
  have covers := (positionOf_covers layout h).2
  have inside := layout.inside
  have ends := layout.ends
  rw [BitVec.toNat_add]
  omega

end

theorem storeSectors_splice {disk image : Memory} {lba secCnt off count : Nat}
    (h : off + count ≤ 512 * secCnt) :
    storeSectors disk lba ((sectors disk lba secCnt).splice off image count) secCnt =
      disk.splice (512 * lba + off) image count := by
  funext a
  by_cases inside : 512 * lba ≤ a ∧ a < 512 * lba + 512 * secCnt
  · rw [storeSectors, Memory.splice_inside inside.1 inside.2]
    grind [Memory.splice_inside, Memory.splice_outside, sectors_apply]
  · rw [storeSectors, Memory.splice_outside (by omega), Memory.splice_outside (by omega)]

theorem read_sectors (disk : Memory) (lba : Nat) {secCnt off : Nat} (h : off + inodeSize ≤ 512 * secCnt) :
    Inode.read (sectors disk lba secCnt) off = Inode.read disk (512 * lba + off) := by
  apply Inode.read_congr
  intro i hi
  simp only [inodeSize] at h
  rw [sectors_apply (by omega), Nat.add_assoc]

theorem inodeRead_eq (layout : Layout s.part) (h : inodeNo.toNat < 4096) :
    inodeRead inodeNo s = .ok (inodeAt s inodeNo.toNat, s) := by
  have record := read_sectors s.disk (positionOf s.part inodeNo.toNat).secLba.toNat
    (positionOf_covers layout h).1
  rw [positionOf_addr layout h] at record
  rw [inodeRead, bind_of_ok (inodeLocate_eq h),
    bind_of_ok (ideRead_eq (positionOf_addressable layout h)), run_pure, record]
  rfl

theorem updateRecord_eq (layout : Layout s.part) (h : n < 4096) (image : Memory) :
    (do let inodeBuf ← ideRead (positionOf s.part n).secLba (positionOf s.part n).sects
        ideWrite (positionOf s.part n).secLba (inodeBuf.splice (positionOf s.part n).offSize image inodeSize)
          (positionOf s.part n).sects : FsM Unit) s = .ok ((), putRecord s n image) := by
  have reachable := positionOf_addressable layout h
  rw [bind_of_ok (ideRead_eq reachable), ideWrite_eq reachable,
    storeSectors_splice (positionOf_covers layout h).1, positionOf_addr layout h]
  rfl

def syncSlot (inode : Inode) : Nat := inode.iNo.toNat % 256

theorem inodeSync_eq (layout : Layout s.part) (inode : Inode) :
    inodeSync inode s = .ok ((), putRecord s (syncSlot inode) inode.pureInode.image) := by
  have number : ((inode.iNo.setWidth 8).setWidth 32 : Word).toNat = syncSlot inode := by
    simp only [syncSlot, BitVec.toNat_setWidth]
    omega
  have h : ((inode.iNo.setWidth 8).setWidth 32 : Word).toNat < 4096 := by
    rw [number, syncSlot]
    omega
  rw [inodeSync, bind_of_ok (inodeLocate_eq h), get_bind,
    require_bind (positionOf_inside layout h), updateRecord_eq layout h, number]

theorem inodeDelete_eq (layout : Layout s.part) (h : inodeNo.toNat < 4096) :
    inodeDelete inodeNo s = .ok ((), putRecord s inodeNo.toNat Memory.zero) := by
  rw [inodeDelete, bind_of_ok (inodeLocate_eq h), get_bind,
    require_bind (positionOf_inside layout h), updateRecord_eq layout h]

@[simp] theorem part_putRecord (s : Fs) (n : Nat) (image : Memory) : (putRecord s n image).part = s.part := rfl

@[simp] theorem inodeAt_putRecord_self (s : Fs) (n : Nat) (inode : Inode) :
    inodeAt (putRecord s n inode.image) n = inode :=
  Inode.read_splice_image _ _ _

theorem inodeAt_putRecord_of_ne {j : Nat} {image : Memory} (h : j ≠ n) :
    inodeAt (putRecord s n image) j = inodeAt s j := by
  apply Inode.read_congr
  intro i hi
  exact Memory.splice_outside (by simp only [recordAddr, part_putRecord, inodeSize]; omega)

/-- After `inode_sync` the table holds the record of this inode, and every other record
is what it was. -/
def SyncKeeps (s : Fs) (inode : Inode) : Prop :=
  ∃ s', inodeSync inode s = .ok ((), s') ∧
    inodeRead inode.iNo s' = .ok (inode.pureInode, s') ∧
    ∀ j : Word, j.toNat < 4096 → j ≠ inode.iNo →
      ∃ record, inodeRead j s = .ok (record, s) ∧ inodeRead j s' = .ok (record, s')

theorem syncKeeps_iff (layout : Layout s.part) {inode : Inode} (h : inode.iNo.toNat < 4096) :
    SyncKeeps s inode ↔
      inodeAt (putRecord s (syncSlot inode) inode.pureInode.image) inode.iNo.toNat = inode.pureInode ∧
      ∀ j : Word, j.toNat < 4096 → j ≠ inode.iNo →
        inodeAt (putRecord s (syncSlot inode) inode.pureInode.image) j.toNat = inodeAt s j.toNat := by
  have after : Layout (putRecord s (syncSlot inode) inode.pureInode.image).part := layout
  simp only [SyncKeeps, inodeSync_eq layout, Except.ok.injEq, Prod.mk.injEq, true_and]
  grind [inodeRead_eq]

/-- `inode_sync` does its work exactly for the numbers that fit its 8-bit variable. A larger
number is stored over the record it is reduced to, which goes unnoticed only when the disk
already held the new record in both places. -/
theorem inodeSync_keeps_records_iff {s : Fs} (layout : Layout s.part) {inode : Inode}
    (h : inode.iNo.toNat < 4096) :
    SyncKeeps s inode ↔ inode.iNo.toNat < 256 ∨
      (inodeAt s inode.iNo.toNat = inode.pureInode ∧
        inodeAt s (inode.iNo.toNat % 256) = inode.pureInode) := by
  rw [syncKeeps_iff layout h]
  by_cases small : inode.iNo.toNat < 256
  · grind [syncSlot, inodeAt_putRecord_self, inodeAt_putRecord_of_ne, BitVec.eq_of_toNat_eq]
  · have apart : inode.iNo.toNat ≠ syncSlot inode := by simp only [syncSlot]; omega
    rw [inodeAt_putRecord_of_ne apart]
    simp only [small, false_or]
    refine and_congr_right fun _ => ?_
    -- The only other record that moves is the one the number is reduced to.
    have bound : syncSlot inode < 256 := Nat.mod_lt _ (by decide)
    have number : (BitVec.ofNat 32 (syncSlot inode)).toNat = syncSlot inode := by
      rw [BitVec.toNat_ofNat]
      omega
    grind [syncSlot, inodeAt_putRecord_self, inodeAt_putRecord_of_ne]

theorem inodeSync_keeps_records_small :
    Layout blankFs.part ∧ (inodeInit 7 (blankFs.heap 0)).iNo.toNat < 4096 ∧
      SyncKeeps blankFs (inodeInit 7 (blankFs.heap 0)) :=
  ⟨layout_smallPartition, by decide,
    (inodeSync_keeps_records_iff layout_smallPartition (by decide)).mpr (.inl (by decide))⟩

/-- Inode 256 is stored over inode 0: reading it back finds the blank record. -/
theorem inodeSync_loses_256 :
    Layout blankFs.part ∧ (inodeInit 256 (blankFs.heap 0)).iNo.toNat < 4096 ∧
      ¬ SyncKeeps blankFs (inodeInit 256 (blankFs.heap 0)) := by
  refine ⟨layout_smallPartition, by decide, fun keeps => ?_⟩
  have own := ((syncKeeps_iff layout_smallPartition (by decide)).mp keeps).1
  rw [inodeAt_putRecord_of_ne (by decide)] at own
  exact absurd (congrArg Inode.iNo own) (by decide)

/-! ### Clearing a record -/

def inodeTableSects : Nat := (inodeSize * 4096 + 511) / 512

theorem inodeTableSects_eq : inodeTableSects = 608 := by decide

def InRecord (s : Fs) (inodeNo : Word) (a : Nat) : Prop :=
  ∃ pos, inodeLocate inodeNo s = .ok (pos, s) ∧ 512 * pos.secLba.toNat + pos.offSize ≤ a ∧
    a < 512 * pos.secLba.toNat + pos.offSize + inodeSize

theorem inRecord_iff (layout : Layout s.part) {a : Nat} : InRecord s inodeNo a ↔
    inodeNo.toNat < 4096 ∧ recordAddr s.part inodeNo.toNat ≤ a ∧ a < recordAddr s.part inodeNo.toNat + inodeSize := by
  constructor
  · rintro ⟨pos, found, inside⟩
    obtain ⟨bound, same⟩ := inodeLocate_eq_ok.mp found
    obtain rfl := congrArg Prod.fst same
    rw [positionOf_addr layout bound] at inside
    exact ⟨bound, inside⟩
  · rintro ⟨bound, inside⟩
    refine ⟨_, inodeLocate_eq bound, ?_⟩
    rwa [positionOf_addr layout bound]

theorem exists_inRecord_iff (layout : Layout s.part) (a : Nat) : (∃ inodeNo, InRecord s inodeNo a) ↔
    512 * s.part.sb.inodeTableLba.toNat ≤ a ∧ a < 512 * (s.part.sb.inodeTableLba.toNat + inodeTableSects) := by
  rw [inodeTableSects_eq]
  simp only [inRecord_iff layout, recordAddr, inodeSize]
  constructor
  · rintro ⟨inodeNo, bound, low, high⟩
    omega
  · rintro ⟨low, high⟩
    -- the number of the record is the quotient of the offset
    refine ⟨BitVec.ofNat 32 ((a - 512 * s.part.sb.inodeTableLba.toNat) / 76), ?_⟩
    rw [BitVec.toNat_ofNat, Nat.mod_eq_of_lt (by omega)]
    omega

theorem InRecord.unique (layout : Layout s.part) {j : Word} {a : Nat} (inside : InRecord s inodeNo a)
    (inside' : InRecord s j a) : inodeNo = j := by
  simp only [inRecord_iff layout, recordAddr, inodeSize] at inside inside'
  exact BitVec.eq_of_toNat_eq (by omega)

theorem inodeAt_putRecord_zero (s : Fs) (n : Nat) :
    inodeAt (putRecord s n Memory.zero) n = ⟨0, 0, 0, 0, Vector.replicate 13 0, ⟨0, 0⟩⟩ := by
  have cleared : inodeAt (putRecord s n Memory.zero) n = Inode.read Memory.zero 0 := by
    apply Inode.read_congr
    intro i hi
    exact Memory.splice_inside (by rw [part_putRecord]; omega) (by rw [part_putRecord, inodeSize]; omega)
  rw [cleared]
  simp only [Inode.read, Memory.word_zero]
  rfl

/-- `inode_delete` clears the record of its inode and nothing else: a cache miss reads zeros for this
number and what it read before for every other one, the sectors outside the table stay, and the 4096
records are apart and make up the table. -/
theorem inodeDelete_clears {s : Fs} (layout : Layout s.part) {inodeNo : Word} (h : inodeNo.toNat < 4096) :
    (∃ disk, inodeDelete inodeNo s = .ok ((), { s with disk := disk }) ∧
      inodeRead inodeNo { s with disk := disk } =
        .ok (⟨0, 0, 0, 0, Vector.replicate 13 0, ⟨0, 0⟩⟩, { s with disk := disk }) ∧
      (∀ j : Word, j.toNat < 4096 → j ≠ inodeNo → ∃ record, inodeRead j s = .ok (record, s) ∧
        inodeRead j { s with disk := disk } = .ok (record, { s with disk := disk })) ∧
      ∀ lba, lba < s.part.sb.inodeTableLba.toNat ∨ s.part.sb.inodeTableLba.toNat + inodeTableSects ≤ lba →
        sectors disk lba 1 = sectors s.disk lba 1) ∧
    (∀ a i j, InRecord s i a → InRecord s j a → i = j) ∧
    ∀ a, (∃ j, InRecord s j a) ↔ 512 * s.part.sb.inodeTableLba.toNat ≤ a ∧
      a < 512 * (s.part.sb.inodeTableLba.toNat + inodeTableSects) := by
  have after : Layout (putRecord s inodeNo.toNat Memory.zero).part := layout
  refine ⟨⟨(putRecord s inodeNo.toNat Memory.zero).disk, inodeDelete_eq layout h, ?_, fun j hj other =>
    ?_, fun lba outside => ?_⟩,
    fun a i j => InRecord.unique layout, exists_inRecord_iff layout⟩
  · have own := inodeRead_eq after h
    rw [inodeAt_putRecord_zero] at own
    exact own
  · have same := inodeRead_eq after hj
    rw [inodeAt_putRecord_of_ne fun same => other (BitVec.eq_of_toNat_eq same)] at same
    exact ⟨inodeAt s j.toNat, inodeRead_eq layout hj, same⟩
  · rw [inodeTableSects_eq] at outside
    apply Memory.clip_congr
    intro i inside
    apply Memory.splice_outside
    simp only [recordAddr, inodeSize]
    omega

/-- On a disk of ones. -/
theorem inodeDelete_clears_7 : ∃ disk, inodeDelete 7 { blankFs with disk := fun _ => 1 } =
    .ok ((), { blankFs with disk := disk }) ∧
    inodeRead 7 { blankFs with disk := disk } =
      .ok (⟨0, 0, 0, 0, Vector.replicate 13 0, ⟨0, 0⟩⟩, { blankFs with disk := disk }) ∧
    ∃ record, inodeRead 8 { blankFs with disk := fun _ => 1 } = .ok (record, { blankFs with disk := fun _ => 1 }) ∧
      inodeRead 8 { blankFs with disk := disk } = .ok (record, { blankFs with disk := disk }) := by
  obtain ⟨⟨disk, run, own, others, -⟩, -⟩ :=
    inodeDelete_clears (s := { blankFs with disk := fun _ => 1 }) layout_smallPartition
    (show (7 : Word).toNat < 4096 by decide)
  exact ⟨disk, run, own, others 8 (by decide) (by decide)⟩

end LaiMiniOs
