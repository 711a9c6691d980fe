import LaiMiniOs.Fs.InodeTable

/-! Formatting and mounting a partition: `partition_format` and `mount_partition` of `fs/fs.c`.

Sector numbers and counts are `uint32_t` in the source, so they wrap here too. The
buffer of `partition_format` is as large as the largest of the structures it builds;
a `memset` that runs past its end is undefined behaviour.
-/

set_option autoImplicit false

namespace LaiMiniOs
open Foundation Function

def divRoundUp (x step : Word) : Word := (x + step - 1) / step

def freeSects (secCnt : Word) : Word := secCnt - 611

def blockBitmapBitLen (secCnt : Word) : Word := freeSects secCnt - divRoundUp (freeSects secCnt) 4096

def blockBitmapSects (secCnt : Word) : Word := divRoundUp (blockBitmapBitLen secCnt) 4096

def formatSuperBlock (startLba secCnt : Word) : SuperBlock where
  magic := 0x19590318
  secCnt := secCnt
  inodeCnt := 4096
  partLbaBase := startLba
  blockBitmapLba := startLba + 2
  blockBitmapSects := blockBitmapSects secCnt
  inodeBitmapLba := startLba + 2 + blockBitmapSects secCnt
  inodeBitmapSects := 1
  inodeTableLba := startLba + 2 + blockBitmapSects secCnt + 1
  inodeTableSects := 608
  dataStartLba := startLba + 2 + blockBitmapSects secCnt + 1 + 608
  rootInodeNo := 0
  dirEntrySize := 24

/-- The loop that clears the bits `0 .. n - 1` of the byte that holds the end of the map. -/
def clearBits : Nat → Byte → Byte
  | 0, byte => byte
  | n + 1, byte => clearBits n byte &&& ~~~(Bitmap.mask n)

/-- The buffer with the initial block bitmap: bit 0 is the root directory's, and the bits
from the last byte on to the end of its sector are set and then partly cleared again. -/
def blockBitmapBuf (bitLen : Nat) : Memory :=
  let lastByte := bitLen / 8
  let lastBit := bitLen % 8
  let buf : Memory := update Memory.zero 0 (Memory.zero 0 ||| 0x01)
  let buf := buf.splice lastByte (fun _ => 0xff) (512 - lastByte % 512)
  update buf lastByte (clearBits (lastBit + 1) (buf lastByte))

def inodeBitmapBuf : Memory := update Memory.zero 0 (Memory.zero 0 ||| 0x1)

def rootInode (dataStartLba : Word) : Inode where
  iNo := 0
  iSize := 24 * 2
  iOpenCnts := 0
  writeDeny := 0
  iSectors := (Vector.replicate 13 0).set 0 dataStartLba Inode.zero_lt_sectors
  inodeTag := ⟨0, 0⟩

def dot : List Byte := [0x2e]

def dotDot : List Byte := [0x2e, 0x2e]

def DirEntry.make (filename : List Byte) (iNo : Word) (fType : FileType) : DirEntry where
  filename := Vector.ofFn fun k => filename.getD k.val 0
  iNo := iNo
  fType := fType.code

def DirEntry.empty : DirEntry := DirEntry.make [] 0 .unknown

def newDirBuf (self parent : Word) : Memory :=
  (Memory.zero.splice 0 (DirEntry.make dot self .directory).image dirEntrySize).splice dirEntrySize
    (DirEntry.make dotDot parent .directory).image dirEntrySize

theorem read_zero (a : Nat) : DirEntry.read Memory.zero a = DirEntry.empty := by
  have name : Vector.ofFn (fun k : Fin 16 => Memory.zero (a + k.val)) =
      Vector.ofFn (fun k : Fin 16 => ([] : List Byte).getD k.val 0) := by
    congr 1
  simp only [DirEntry.read, DirEntry.empty, DirEntry.make, name, Memory.word_zero]
  rfl

theorem read_newDirBuf (self parent : Word) (k : Nat) :
    DirEntry.read (newDirBuf self parent) (24 * k) =
      if k = 0 then DirEntry.make dot self .directory
      else if k = 1 then DirEntry.make dotDot parent .directory
      else DirEntry.empty := by
  unfold newDirBuf dirEntrySize
  split
  next first =>
    subst first
    rw [DirEntry.read_congr fun i hi => Memory.splice_outside (by omega)]
    exact DirEntry.read_splice_image _ _ _
  next first =>
    split
    next second =>
      subst second
      exact DirEntry.read_splice_image _ _ _
    next second =>
      rw [← read_zero (24 * k)]
      grind [DirEntry.read_congr, Memory.splice_outside]

def partitionFormat (pad : Memory) : FsM Unit := do
  let part := (← get).part
  let sb := formatSuperBlock part.startLba part.secCnt
  ideWrite (part.startLba + 1) (sb.image pad) 1
  let bitLen := (blockBitmapBitLen part.secCnt).toNat
  let bufSize := max (max sb.blockBitmapSects.toNat sb.inodeBitmapSects.toNat) sb.inodeTableSects.toNat * 512
  Prog.require (bitLen / 8 + (512 - bitLen / 8 % 512) ≤ bufSize) .undefined
  ideWrite sb.blockBitmapLba (blockBitmapBuf bitLen) sb.blockBitmapSects.toNat
  ideWrite sb.inodeBitmapLba inodeBitmapBuf sb.inodeBitmapSects.toNat
  ideWrite sb.inodeTableLba (Memory.zero.splice 0 (rootInode sb.dataStartLba).image inodeSize)
    sb.inodeTableSects.toNat
  ideWrite sb.dataStartLba (newDirBuf 0 0) 1

def mountPartition : FsM Unit := do
  let s ← get
  let sb := SuperBlock.read (← ideRead (s.part.startLba + 1) 1)
  let blockBits ← ideRead sb.blockBitmapLba sb.blockBitmapSects.toNat
  let inodeBits ← ideRead sb.inodeBitmapLba sb.inodeBitmapSects.toNat
  set { s with
    part := { s.part with
      sb := sb
      blockBitmap := ⟨(sb.blockBitmapSects * 512).toNat, blockBits⟩
      inodeBitmap := ⟨(sb.inodeBitmapSects * 512).toNat, inodeBits⟩ }
    openInodes := [] }

/-- What formatting and mounting is to give: the areas of the partition follow each other,
the free blocks are the data sectors behind the root directory's, and the root directory
holds its two entries and nothing else. -/
structure Formatted (startLba secCnt : Word) (s : Fs) : Prop where
  blockBitmap : s.part.sb.blockBitmapLba.toNat = startLba.toNat + 2
  inodeBitmap : s.part.sb.inodeBitmapLba.toNat =
    s.part.sb.blockBitmapLba.toNat + s.part.sb.blockBitmapSects.toNat
  inodeTable : s.part.sb.inodeTableLba.toNat =
    s.part.sb.inodeBitmapLba.toNat + s.part.sb.inodeBitmapSects.toNat
  dataStart : s.part.sb.dataStartLba.toNat = s.part.sb.inodeTableLba.toNat + s.part.sb.inodeTableSects.toNat
  inside : s.part.sb.dataStartLba.toNat + (blockBitmapBitLen secCnt).toNat ≤ startLba.toNat + secCnt.toNat
  inodesFit : 4096 * inodeSize ≤ 512 * s.part.sb.inodeTableSects.toNat
  blockBytes : s.part.blockBitmap.btmpBytesLen = 512 * s.part.sb.blockBitmapSects.toNat
  blocksFit : (blockBitmapBitLen secCnt).toNat ≤ 8 * s.part.blockBitmap.btmpBytesLen
  freeBits : ∀ i, i < 8 * s.part.blockBitmap.btmpBytesLen →
    (s.part.blockBitmap.bit i = false ↔ 1 ≤ i ∧ i < (blockBitmapBitLen secCnt).toNat)
  handedOut : ∀ i, i < 8 * s.part.blockBitmap.btmpBytesLen → s.part.blockBitmap.bit i = false →
    s.part.sb.dataStartLba.toNat < s.part.sb.dataStartLba.toNat + i ∧
      s.part.sb.dataStartLba.toNat + i < startLba.toNat + secCnt.toNat
  inodeBytes : s.part.inodeBitmap.btmpBytesLen = 512
  inodeBits : ∀ i, i < 4096 → (s.part.inodeBitmap.bit i = true ↔ i = 0)
  root : inodeAt s 0 = rootInode s.part.sb.dataStartLba
  rootEntries : ∀ k, k < 21 → DirEntry.read (sectors s.disk s.part.sb.dataStartLba.toNat 1) (24 * k) =
    if k = 0 then DirEntry.make dot 0 .directory
    else if k = 1 then DirEntry.make dotDot 0 .directory
    else DirEntry.empty

/-- `partition_format` followed by `mount_partition` gives a formatted partition. -/
def FormatsAndMounts (pad : Memory) (s : Fs) : Prop :=
  ∃ s₁ s₂, partitionFormat pad s = .ok ((), s₁) ∧ mountPartition s₁ = .ok ((), s₂) ∧
    Formatted s.part.startLba s.part.secCnt s₂

end LaiMiniOs
