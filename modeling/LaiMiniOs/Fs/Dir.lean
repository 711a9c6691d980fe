import Mathlib.Logic.Function.Iterate
import LaiMiniOs.Fs.Blocks
import LaiMiniOs.Fs.Format

/-! Directories: `fs/dir.c`.

A directory is named by the address of its inode structure. Its blocks hold entries at a
stride of 24 bytes, 21 to a sector, and an entry is in use when its type is not
`FT_UNKNOWN`.
-/

set_option autoImplicit false

namespace LaiMiniOs
open Foundation Function

inductive Dir where
  | root
  | opened (inode : Nat)
  deriving DecidableEq

def Dir.inode (s : Fs) : Dir → Nat
  | .root => s.rootDir
  | .opened p => p

def dirOpen (inodeNo : Word) : FsM Dir := do
  return .opened (← inodeOpen inodeNo)

def dirClose : Dir → FsM Unit
  | .root => return
  | .opened p => inodeClose p

def strcmpEq (m : Memory) (a : Nat) : List Byte → Bool
  | [] => m a == 0
  | c :: rest => m a == c && strcmpEq m (a + 1) rest

def entriesPerSec (sb : SuperBlock) : Nat := 512 / sb.dirEntrySize.toNat

def searchBlocks (blocks : Nat → Word) (name : List Byte) : Nat → FsM (Option DirEntry)
  | 0 => return none
  | left + 1 => do
    let lba := blocks (140 - (left + 1))
    if lba = 0 then searchBlocks blocks name left
    else do
      let per := entriesPerSec (← get).part.sb
      let buf ← ideRead lba 1
      let dirEntryIdx := skipWhile (fun k => !strcmpEq buf (24 * k) name) per 0
      if dirEntryIdx < per then return some (DirEntry.read buf (24 * dirEntryIdx))
      else searchBlocks blocks name left

def searchDirEntry (dirInode : Nat) (name : List Byte) : FsM (Option DirEntry) := do
  let inode := (← get).heap dirInode
  let table ← readTable inode
  searchBlocks (allBlocks inode table) name 140

def createDirEntry (filename : List Byte) (inodeNo : Word) (fileType : FileType) : FsM DirEntry := do
  Prog.assert (filename.length ≤ 16)
  return DirEntry.make filename inodeNo fileType

def growDir (dirInode : Nat) : FsM Unit :=
  modify fun s => s.setInode dirInode { s.heap dirInode with
    iSize := (s.heap dirInode).iSize + s.part.sb.dirEntrySize }

def allocSynced : FsM (Option Word) := do
  let blockLba ← blockBitmapAlloc
  if blockLba = -1 then return none
  else do
    let blockBitmapIdx := blockLba - (← get).part.sb.dataStartLba
    Prog.assert (blockBitmapIdx ≠ -1)
    bitmapSync blockBitmapIdx .block
    return some blockLba

/-- A cleared block with the new entry at its start goes to the disk, and the directory grows. -/
def putNewEntry (dirInode : Nat) (entry : DirEntry) (lba : Word) : FsM Bool := do
  ideWrite lba (Memory.zero.splice 0 entry.image (← get).part.sb.dirEntrySize.toNat) 1
  growDir dirInode
  return true

/-- Make room for the entry in a block that was just allocated for position `blockIdx`. -/
def enterNewBlock (dirInode : Nat) (entry : DirEntry) (blocks : Nat → Word) (blockIdx : Nat) (lba : Word) : FsM Bool :=
  if blockIdx < 12 then do
    modify fun s => s.setInode dirInode ((s.heap dirInode).setSector blockIdx lba)
    putNewEntry dirInode entry lba
  else if blockIdx = 12 then do
    -- The block becomes the table, and a second one holds the entry.
    modify fun s => s.setInode dirInode ((s.heap dirInode).setSector 12 lba)
    match ← allocSynced with
    | none =>
      bitmapSet .block (lba - (← get).part.sb.dataStartLba) false
      modify fun s => s.setInode dirInode ((s.heap dirInode).setSector 12 0)
      return false
    | some first =>
      ideWrite lba (tableImage (update blocks 12 first)) 1
      putNewEntry dirInode entry first
  else do
    ideWrite (((← get).heap dirInode).sector 12) (tableImage (update blocks blockIdx lba)) 1
    putNewEntry dirInode entry lba

/-- The branch of `sync_dir_entry` for a block that does not exist yet. -/
def syncNewBlock (dirInode : Nat) (entry : DirEntry) (blocks : Nat → Word) (blockIdx : Nat) : FsM Bool := do
  match ← allocSynced with
  | none => return false
  | some lba => enterNewBlock dirInode entry blocks blockIdx lba

def syncBlocks (dirInode : Nat) (entry : DirEntry) (blocks : Nat → Word) : Nat → FsM Bool
  | 0 => return false
  | left + 1 => do
    let lba := blocks (140 - (left + 1))
    if lba = 0 then syncNewBlock dirInode entry blocks (140 - (left + 1))
    else do
      let sb := (← get).part.sb
      let buf ← ideRead lba 1
      let dirEntryIdx := skipWhile (fun k => (DirEntry.read buf (24 * k)).fType != 0) (entriesPerSec sb) 0
      if dirEntryIdx < entriesPerSec sb then
        ideWrite lba (buf.splice (24 * dirEntryIdx) entry.image sb.dirEntrySize.toNat) 1
        growDir dirInode
        return true
      else syncBlocks dirInode entry blocks left

/-- `sync_dir_entry`. Only the direct blocks are collected; the rest of the array is clear. -/
def syncDirEntry (dirInode : Nat) (entry : DirEntry) : FsM Bool := do
  let s ← get
  Prog.assert ((s.heap dirInode).iSize.toNat % s.part.sb.dirEntrySize.toNat = 0)
  syncBlocks dirInode entry (allBlocks (s.heap dirInode) Memory.zero) 140

structure SectorScan where
  isDirFirstBlock : Bool
  dirEntryCnt : Nat
  dirEntryFound : Option Nat

def scanSector (buf : Memory) (inodeNo : Word) : Nat → FsM SectorScan
  | 0 => return ⟨false, 0, none⟩
  | k + 1 => do
    let scan ← scanSector buf inodeNo k
    let entry := DirEntry.read buf (24 * k)
    if entry.fType = 0 then return scan
    else if strcmpEq buf (24 * k) dot then return { scan with isDirFirstBlock := true }
    else if strcmpEq buf (24 * k) dotDot then return scan
    else if entry.iNo = inodeNo then do
      Prog.assert (scan.dirEntryFound = none)
      return { scan with dirEntryCnt := scan.dirEntryCnt + 1, dirEntryFound := some k }
    else return { scan with dirEntryCnt := scan.dirEntryCnt + 1 }

/-- One round of the loop that is to count the indirect blocks: the index and the count. -/
def countRound (blocks : Nat → Word) (round : Nat × Nat) : Nat × Nat :=
  if blocks round.1 ≠ 0 then (round.1, round.2 + 1) else round

theorem countRound_stuck (blocks : Nat → Word) (rounds : Nat) : ((countRound blocks)^[rounds] (12, 0)).1 < 140 := by
  have fixed : ((countRound blocks)^[rounds] (12, 0)).1 = 12 := by
    induction rounds with
    | zero => rfl
    | succ n ih =>
      rw [Function.iterate_succ_apply']
      unfold countRound at ih ⊢
      split <;> exact ih
  omega

/-- Clear entry `k` of a block, or give the block back when nothing else is in it. The branch
for an indirect block starts with the loop that never ends. -/
def deleteFound (dirInode : Nat) (lba : Word) (blockIdx : Nat) (buf : Memory) (scan : SectorScan) (k : Nat) :
    FsM Unit := do
  let sb := (← get).part.sb
  if scan.dirEntryCnt = 1 ∧ scan.isDirFirstBlock = false then
    bitmapSet .block (lba - sb.dataStartLba) false
    bitmapSync (lba - sb.dataStartLba) .block
    if blockIdx < 12 then
      modify fun s => s.setInode dirInode ((s.heap dirInode).setSector blockIdx 0)
    else Prog.fail .diverges
  else ideWrite lba (buf.splice (24 * k) Memory.zero sb.dirEntrySize.toNat) 1

def shrinkDir (dirInode : Nat) : FsM Unit := do
  let s ← get
  Prog.assert (s.part.sb.dirEntrySize.toNat ≤ (s.heap dirInode).iSize.toNat)
  set (s.setInode dirInode { s.heap dirInode with iSize := (s.heap dirInode).iSize - s.part.sb.dirEntrySize })
  inodeSync ((← get).heap dirInode)

def deleteBlocks (dirInode : Nat) (inodeNo : Word) (blocks : Nat → Word) : Nat → FsM Bool
  | 0 => return false
  | left + 1 => do
    let blockIdx := 140 - (left + 1)
    let lba := blocks blockIdx
    if lba = 0 then deleteBlocks dirInode inodeNo blocks left
    else do
      let per := entriesPerSec (← get).part.sb
      let buf ← ideRead lba 1
      let scan ← scanSector buf inodeNo per
      match scan.dirEntryFound with
      | none => deleteBlocks dirInode inodeNo blocks left
      | some k => do
        Prog.assert (1 ≤ scan.dirEntryCnt)
        deleteFound dirInode lba blockIdx buf scan k
        shrinkDir dirInode
        return true

def deleteDirEntry (dirInode : Nat) (inodeNo : Word) : FsM Bool := do
  let inode := (← get).heap dirInode
  let table ← readTable inode
  deleteBlocks dirInode inodeNo (allBlocks inode table) 140

def dirIsEmpty (dirInode : Nat) : FsM Bool := do
  let s ← get
  return (s.heap dirInode).iSize == s.part.sb.dirEntrySize * 2

def assertNoBlock (childInode : Nat) (k : Nat) : FsM Unit := do
  Prog.assert (((← get).heap childInode).sector (k + 1) = 0)

/-- The loop of assertions in `dir_remove`: an empty directory has only its first block. -/
def assertNoBlocks (childInode : Nat) : FsM Unit := Prog.forUpTo (assertNoBlock childInode) 12

/-- `dir_remove`: the result of `delete_dir_entry` is not looked at. -/
def dirRemove (parentInode childInode : Nat) : FsM Int := do
  assertNoBlocks childInode
  let _ ← deleteDirEntry parentInode ((← get).heap childInode).iNo
  inodeRelease ((← get).heap childInode).iNo
  return 0

def smallInode (inodeNo size lba : Word) : Inode :=
  ⟨inodeNo, size, 0, 0, (Vector.replicate 13 0).set 0 lba Inode.zero_lt_sectors, ⟨0, 0⟩⟩

def tableBlock (records : List Inode) : Memory :=
  fun a => ((records[a / inodeSize]?).getD Inode.blank).image (a % inodeSize)

def dirBlock (entries : List DirEntry) : Memory :=
  fun a => ((entries[a / dirEntrySize]?).getD .empty).image (a % dirEntrySize)

def smallTreeEntries (d : Word) : List DirEntry :=
  if d = 0 then [.make dot 0 .directory, .make dotDot 0 .directory, .make [0x61] 1 .directory,
    .make [0x66] 2 .regular, .make [0x62] 4 .directory]
  else if d = 1 then [.make dot 1 .directory, .make dotDot 0 .directory, .make [0x67] 3 .regular]
  else [.make dot 4 .directory, .make dotDot 0 .directory]

/-- A small tree on the partition of `blankFs`, of which only the root is cached:
the directories `/a` (1) and `/b` (4), and the empty files `/f` (2) and `/a/g` (3). -/
def smallTree : Fs where
  disk := fun a =>
    if a / 512 = 2 then (if a = 1024 then 0x07 else 0)
    else if a / 512 = 3 then (if a = 1536 then 0x1f else 0)
    else if a / 512 = 4 then tableBlock [smallInode 0 120 612, smallInode 1 72 613, smallInode 2 0 0,
      smallInode 3 0 0, smallInode 4 48 614] (a % 512)
    else if a / 512 = 612 then dirBlock (smallTreeEntries 0) (a % 512)
    else if a / 512 = 613 then dirBlock (smallTreeEntries 1) (a % 512)
    else if a / 512 = 614 then dirBlock (smallTreeEntries 4) (a % 512)
    else 0
  part := { smallPartition with
    blockBitmap := ⟨512, fun a => if a = 0 then 0x07 else 0⟩
    inodeBitmap := ⟨512, fun a => if a = 0 then 0x1f else 0⟩ }
  heap := fun p => if p = 0 then { smallInode 0 120 612 with iOpenCnts := 1 } else smallInode 0 0 0
  brk := 1
  openInodes := [0]
  rootDir := 0
  fileTable := fun _ => ⟨0, 0, none⟩
  fdTable := fun _ => none
  cwdInodeNr := 0
  freedPages := []

end LaiMiniOs
