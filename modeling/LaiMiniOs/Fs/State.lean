import Mathlib.Algebra.Group.Nat.Defs
import Mathlib.Logic.Function.Basic
import LaiMiniOs.Foundation.Faults
import LaiMiniOs.Kernel.Bitmap
import LaiMiniOs.Fs.Records

/-! The state that the file-system code reads and writes, and its disk accesses.

Inode structures live in the kernel heap and are named by address, so that a file
descriptor, a directory handle and `open_inodes` can share one. Heap memory never
runs out here, and an address is not handed out twice.
-/

set_option autoImplicit false

namespace LaiMiniOs
open Foundation Prog

structure Partition where
  startLba : Word
  secCnt : Word
  sb : SuperBlock
  blockBitmap : Bitmap
  inodeBitmap : Bitmap

structure File where
  fdPos : Word
  fdFlag : Word
  fdInode : Option Nat

def maxFileOpen : Nat := 32

def maxFilesOpenPerProc : Nat := 8

structure Kernel where
  /-- The inode structures by address. -/
  heap : Nat → Inode
  /-- The next address that `sys_malloc` returns. -/
  brk : Nat
  /-- `cur_part->open_inodes`, first element first. -/
  openInodes : List Nat
  /-- `root_dir.inode`. -/
  rootDir : Nat
  fileTable : Nat → File
  /-- The descriptors of the running task; `none` is `-1`. -/
  fdTable : Nat → Option Nat
  /-- The working directory of the running task. -/
  cwdInodeNr : Word
  /-- The pages that `mfree_page` has returned to the kernel pool, the last one first. -/
  freedPages : List Nat

structure Fs extends Kernel where
  disk : Memory
  part : Partition

variable {secCnt : Nat} {lba : Word} {s : Fs}

abbrev FsM (A : Type) := Prog Fs A

def Fs.setInode (s : Fs) (p : Nat) (inode : Inode) : Fs :=
  { s with heap := Function.update s.heap p inode }

def maxLba : Nat := 80 * 1024 * 1024 / 512 - 1

def sectors (disk : Memory) (lba secCnt : Nat) : Memory :=
  (disk.window (512 * lba)).clip (512 * secCnt)

def storeSectors (disk : Memory) (lba : Nat) (buf : Memory) (secCnt : Nat) : Memory :=
  disk.splice (512 * lba) buf (512 * secCnt)

/-- The assertions on the way to the disk: a transfer is not empty, and the first
sector of each of its commands of up to 256 sectors is on the disk. -/
def Addressable (lba secCnt : Nat) : Prop :=
  0 < secCnt ∧ lba + (secCnt - 1) / 256 * 256 ≤ maxLba

instance (lba secCnt : Nat) : Decidable (Addressable lba secCnt) :=
  inferInstanceAs (Decidable (_ ∧ _))

theorem addressable_one {lba : Nat} : Addressable lba 1 ↔ lba ≤ maxLba := by
  simp [Addressable]

/-- `ide_read` into a fresh buffer. The task sleeps until the disk has the data. -/
def ideRead (lba : Word) (secCnt : Nat) : FsM Memory := do
  Prog.assert (Addressable lba.toNat secCnt)
  Prog.pause
  return sectors (← get).disk lba.toNat secCnt

/-- `ide_write` from memory that other tasks share. The task may wait for the channel before the
transfer, and sleeps after it until the disk is done. -/
def ideWriteShared (lba : Word) (buf : Fs → Memory) (secCnt : Nat) : FsM Unit := do
  Prog.assert (Addressable lba.toNat secCnt)
  Prog.pause
  modify fun s => { s with disk := storeSectors s.disk lba.toNat (buf s) secCnt }
  Prog.pause

def ideWrite (lba : Word) (buf : Memory) (secCnt : Nat) : FsM Unit := ideWriteShared lba (fun _ => buf) secCnt

theorem ideRead_avoids {fault : Fault} (other : .assertion ≠ fault) (lba : Word) (secCnt : Nat) :
    Prog.Avoids fault (ideRead lba secCnt) :=
  .bind (.check _ other) fun _ => .bind .rest fun _ => .bind .look fun _ => .ret _

theorem ideWriteShared_avoids {fault : Fault} (other : .assertion ≠ fault) (lba : Word) (buf : Fs → Memory)
    (secCnt : Nat) :
    Prog.Avoids fault (ideWriteShared lba buf secCnt) :=
  .bind (.check _ other) fun _ => .bind .rest fun _ => .bind (.change _) fun _ => .rest

theorem ideRead_eq (h : Addressable lba.toNat secCnt) :
    ideRead lba secCnt s = .ok (sectors s.disk lba.toNat secCnt, s) := by
  simp only [ideRead, require_bind h, bind_of_ok (run_pause s),
    get_bind]
  rfl

theorem ideRead_eq_ok {r : Memory × Fs} :
    ideRead lba secCnt s = .ok r ↔
      Addressable lba.toNat secCnt ∧ r = (sectors s.disk lba.toNat secCnt, s) := by
  constructor
  · intro run
    obtain ⟨_, _, check, -⟩ := bind_eq_ok.mp run
    grind [require_eq_ok, ideRead_eq]
  · rintro ⟨h, rfl⟩
    exact ideRead_eq h

theorem ideWriteShared_eq {buf : Fs → Memory}
    (h : Addressable lba.toNat secCnt) :
    ideWriteShared lba buf secCnt s = .ok ((), { s with disk := storeSectors s.disk lba.toNat (buf s) secCnt }) := by
  simp only [ideWriteShared, require_bind h, bind_of_ok (run_pause s),
    modify_bind]
  rfl

theorem ideWriteShared_eq_ok {buf : Fs → Memory} {r : Unit × Fs} :
    ideWriteShared lba buf secCnt s = .ok r ↔ Addressable lba.toNat secCnt ∧
      r = ((), { s with disk := storeSectors s.disk lba.toNat (buf s) secCnt }) := by
  constructor
  · intro run
    obtain ⟨_, _, check, -⟩ := bind_eq_ok.mp run
    grind [require_eq_ok, ideWriteShared_eq]
  · rintro ⟨h, rfl⟩
    exact ideWriteShared_eq h

theorem ideWrite_eq {buf : Memory}
    (h : Addressable lba.toNat secCnt) :
    ideWrite lba buf secCnt s = .ok ((), { s with disk := storeSectors s.disk lba.toNat buf secCnt }) :=
  ideWriteShared_eq h

theorem ideWrite_eq_ok {buf : Memory} {r : Unit × Fs} :
    ideWrite lba buf secCnt s = .ok r ↔ Addressable lba.toNat secCnt ∧
      r = ((), { s with disk := storeSectors s.disk lba.toNat buf secCnt }) :=
  ideWriteShared_eq_ok

theorem sectors_apply {disk : Memory} {lba i : Nat} (h : i < 512 * secCnt) :
    sectors disk lba secCnt i = disk (512 * lba + i) := by
  rw [sectors, Memory.clip_apply h]
  rfl

theorem sectors_storeSectors_self (disk buf : Memory) (lba secCnt : Nat) :
    sectors (storeSectors disk lba buf secCnt) lba secCnt = buf.clip (512 * secCnt) := by
  apply Memory.clip_congr
  intro i inside
  rw [Memory.window, storeSectors, Memory.splice_inside (by omega) (by omega), Nat.add_sub_cancel_left]

theorem sectors_storeSectors_of_apart (disk buf : Memory) {lba lba' secCnt' : Nat}
    (apart : lba' + secCnt' ≤ lba ∨ lba + secCnt ≤ lba') :
    sectors (storeSectors disk lba buf secCnt) lba' secCnt' = sectors disk lba' secCnt' := by
  apply Memory.clip_congr
  intro i inside
  rw [Memory.window, Memory.window, storeSectors, Memory.splice_outside (by omega)]

/-- How `partition_format` lays a partition out, with a data area that starts on the disk. -/
structure Layout (part : Partition) : Prop where
  blockBitmap : part.sb.blockBitmapLba.toNat = part.startLba.toNat + 2
  inodeBitmap : part.sb.inodeBitmapLba.toNat =
    part.sb.blockBitmapLba.toNat + part.sb.blockBitmapSects.toNat
  inodeTable : part.sb.inodeTableLba.toNat = part.sb.inodeBitmapLba.toNat + 1
  dataStart : part.sb.dataStartLba.toNat = part.sb.inodeTableLba.toNat + 608
  blockBytes : part.blockBitmap.btmpBytesLen = 512 * part.sb.blockBitmapSects.toNat
  inodeBytes : part.inodeBitmap.btmpBytesLen = 512
  entrySize : part.sb.dirEntrySize = 24
  rootNo : part.sb.rootInodeNo = 0
  /-- The partition ends before the last sector number. -/
  ends : part.startLba.toNat + part.secCnt.toNat < 2 ^ 32
  inside : part.sb.dataStartLba.toNat ≤ part.startLba.toNat + part.secCnt.toNat
  onDisk : part.sb.dataStartLba.toNat ≤ maxLba
  /-- Every bit of the block bitmap has a sector number. -/
  numbered : part.sb.dataStartLba.toNat + 4096 * part.sb.blockBitmapSects.toNat < 2 ^ 32

/-- A partition of 4709 sectors at the start of a disk, before its bitmaps are filled. -/
def smallPartition : Partition where
  startLba := 0
  secCnt := 4709
  sb := { magic := 0x19590318, secCnt := 4709, inodeCnt := 4096, partLbaBase := 0, blockBitmapLba := 2,
          blockBitmapSects := 1, inodeBitmapLba := 3, inodeBitmapSects := 1, inodeTableLba := 4,
          inodeTableSects := 608, dataStartLba := 612, rootInodeNo := 0, dirEntrySize := 24 }
  blockBitmap := ⟨512, Memory.zero⟩
  inodeBitmap := ⟨512, Memory.zero⟩

theorem layout_smallPartition : Layout smallPartition := by
  constructor <;> decide

def blankFs : Fs where
  disk := Memory.zero
  part := smallPartition
  heap := fun _ => ⟨0, 0, 0, 0, Vector.replicate 13 0, ⟨0, 0⟩⟩
  brk := 0
  openInodes := []
  rootDir := 0
  fileTable := fun _ => ⟨0, 0, none⟩
  fdTable := fun _ => none
  cwdInodeNr := 0
  freedPages := []

end LaiMiniOs
