import LaiMiniOs.Fs.Dir

/-! Open files: `fs/file.c`.

A file is named by its index in `file_table`. The buffers of `file_write` and `file_read`
are memories of the caller. The local array `all_blocks` has 140 words; reading behind its
end, or behind the end of `i_sectors`, is undefined behaviour.
-/

set_option autoImplicit false

namespace LaiMiniOs
open Foundation Function

def Fs.setFile (s : Fs) (fdIdx : Nat) (file : File) : Fs :=
  { s with fileTable := update s.fileTable fdIdx file }

/-- `get_free_slot_in_global`; `none` for `-1`. -/
def getFreeSlotInGlobal : FsM (Option Nat) := do
  let s ← get
  let fdIdx := skipWhile (fun i => (s.fileTable i).fdInode.isSome) (maxFileOpen - 3) 3
  if fdIdx = maxFileOpen then return none else return some fdIdx

def pcbFdInstall (globaFdIdx : Nat) : FsM Int := do
  let s ← get
  let localFdIdx := skipWhile (fun i => (s.fdTable i).isSome) (maxFilesOpenPerProc - 3) 3
  if localFdIdx < maxFilesOpenPerProc then
    set { s with fdTable := update s.fdTable localFdIdx (some globaFdIdx) }
    return localFdIdx
  else return -1

/-- `file_create`. The steps that can fail undo what was done before them. -/
def fileCreate (parentInode : Nat) (filename : List Byte) (flag : Word) : FsM Int := do
  let inodeNo ← inodeBitmapAlloc
  if inodeNo = -1 then return -1
  let newFileInode := (← get).brk
  modify fun s => { s.setInode newFileInode (inodeInit inodeNo (s.heap newFileInode)) with brk := newFileInode + 1 }
  match ← getFreeSlotInGlobal with
  | none =>
    bitmapSet .inode inodeNo false
    return -1
  | some fdIdx =>
    modify fun s => s.setFile fdIdx { fdInode := some newFileInode, fdPos := 0, fdFlag := flag }
    modify fun s => s.setInode newFileInode { s.heap newFileInode with writeDeny := 0 }
    let newDirEntry ← createDirEntry filename inodeNo .regular
    if ← syncDirEntry parentInode newDirEntry then
      inodeSync ((← get).heap parentInode)
      inodeSync ((← get).heap newFileInode)
      bitmapSync inodeNo .inode
      modify fun s => { s.setInode newFileInode { s.heap newFileInode with iOpenCnts := 1 } with
        openInodes := newFileInode :: s.openInodes }
      pcbFdInstall fdIdx
    else
      modify fun s => s.setFile fdIdx { fdInode := none, fdPos := 0, fdFlag := 0 }
      bitmapSet .inode inodeNo false
      return -1

/-- `file_open`. When another writer has the file, the slot and the inode stay taken. -/
def fileOpen (inodeNo : Word) (flag : Word) : FsM Int := do
  match ← getFreeSlotInGlobal with
  | none => return -1
  | some fdIdx =>
    let p ← inodeOpen inodeNo
    modify fun s => s.setFile fdIdx { fdInode := some p, fdPos := 0, fdFlag := flag }
    if flag = 1 ∨ flag = 2 then
      let s ← get
      if (s.heap p).writeDeny = 0 then
        set (s.setInode p { s.heap p with writeDeny := 1 })
        pcbFdInstall fdIdx
      else return -1
    else pcbFdInstall fdIdx

def fileClose (fdIdx : Nat) : FsM Int := do
  let s ← get
  match (s.fileTable fdIdx).fdInode with
  | none => Prog.fail .undefined
  | some p =>
    set (s.setInode p { s.heap p with writeDeny := 0 })
    inodeClose p
    modify fun s => s.setFile fdIdx { s.fileTable fdIdx with fdInode := none }
    return 0

/-- Enter a new block in the inode if its position is a direct one, which must be empty. -/
def enterBlock (p blockIdx : Nat) (blockLba : Word) : FsM Unit :=
  Prog.when (blockIdx < 12) do
    Prog.assert (((← get).heap p).sector blockIdx = 0)
    modify fun s => s.setInode p ((s.heap p).setSector blockIdx blockLba)

/-- Allocate the blocks `blockIdx, …, fileWillUseBlocks - 1` of a file. The three cases of
`file_write` do this alike: a direct block goes to the inode, every block to the array. -/
def growBlocks (p : Nat) (blocks : Nat → Word) (blockIdx : Nat) : Nat → FsM (Option (Nat → Word))
  | 0 => return some blocks
  | left + 1 => do
    let blockLba ← blockBitmapAlloc
    if blockLba = -1 then return none
    enterBlock p blockIdx blockLba
    bitmapSync (blockLba - (← get).part.sb.dataStartLba) .block
    growBlocks p (update blocks blockIdx blockLba) (blockIdx + 1) left

def lastBlock (inode : Inode) (has : Nat) : Nat → Word := update (fun _ => 0) (has - 1) (inode.sector (has - 1))

def tableBlocks (table : Memory) (b : Nat) : Word := if b < 12 then 0 else table.word (4 * (b - 12))

/-- Collect in `all_blocks` the blocks that a write will use; `none` when a block is missing. -/
def collectForWrite (p : Nat) (has will : Nat) : FsM (Option (Nat → Word)) := do
  let inode := (← get).heap p
  if will = has then
    if has ≤ 12 then return some (lastBlock inode has)
    else do
      Prog.assert (inode.sector 12 ≠ 0)
      let table ← ideRead (inode.sector 12) 1
      return some (tableBlocks table)
  else if will ≤ 12 then
    Prog.require (has - 1 < 13) .undefined
    Prog.assert (inode.sector (has - 1) ≠ 0)
    growBlocks p (lastBlock inode has) has (will - has)
  else if has ≤ 12 then do
    let blockLba ← blockBitmapAlloc
    if blockLba = -1 then return none
    Prog.assert (((← get).heap p).sector 12 = 0)
    modify fun s => s.setInode p ((s.heap p).setSector 12 blockLba)
    match ← growBlocks p (lastBlock inode has) has (will - has) with
    | none => return none
    | some blocks =>
      ideWrite blockLba (tableImage blocks) 1
      return some blocks
  else do
    Prog.assert (inode.sector 12 ≠ 0)
    let table ← ideRead (inode.sector 12) 1
    match ← growBlocks p (tableBlocks table) has (will - has) with
    | none => return none
    | some blocks =>
      ideWrite (inode.sector 12) (tableImage blocks) 1
      return some blocks

/-- The buffer for the next sector: only the first sector can hold data already. -/
def chunkBuf (firstWriteBlock : Bool) (secLba : Word) : FsM Memory :=
  if firstWriteBlock then ideRead secLba 1 else return Memory.zero

def writeLoop (fdIdx p : Nat) (blocks : Nat → Word) (src : Memory) (count bytesWritten : Nat)
    (firstWriteBlock : Bool) : FsM Unit :=
  if bytesWritten < count then do
    let iSize := ((← get).heap p).iSize.toNat
    Prog.require (iSize / 512 < 140) .undefined
    let secLba := blocks (iSize / 512)
    let secOffBytes := iSize % 512
    let chunkSize := min (count - bytesWritten) (512 - secOffBytes)
    let ioBuf ← chunkBuf firstWriteBlock secLba
    ideWrite secLba (ioBuf.splice secOffBytes (src.window bytesWritten) chunkSize) 1
    modify fun s => s.setInode p { s.heap p with iSize := (s.heap p).iSize + BitVec.ofNat 32 chunkSize }
    modify fun s => s.setFile fdIdx { s.fileTable fdIdx with
      fdPos := (s.fileTable fdIdx).fdPos + BitVec.ofNat 32 chunkSize }
    writeLoop fdIdx p blocks src count (bytesWritten + chunkSize) false
  else return
termination_by count - bytesWritten
decreasing_by omega

/-- The first write to a file allocates its first block; `false` when there is none. -/
def firstBlock (p : Nat) : FsM Bool := do
  if ((← get).heap p).sector 0 = 0 then
    let blockLba ← blockBitmapAlloc
    if blockLba = -1 then return false
    modify fun s => s.setInode p ((s.heap p).setSector 0 blockLba)
    let blockBitmapIdx := blockLba - (← get).part.sb.dataStartLba
    Prog.assert (blockBitmapIdx ≠ 0)
    bitmapSync blockBitmapIdx .block
    return true
  else return true

/-- `file_write`. The sum of size and count is a `uint32_t`. -/
def fileWrite (fdIdx : Nat) (src : Memory) (count : Word) : FsM Int := do
  match ((← get).fileTable fdIdx).fdInode with
  | none => Prog.fail .undefined
  | some p =>
    let iSize := ((← get).heap p).iSize
    if 512 * 140 < (iSize + count).toNat then return -1
    if !(← firstBlock p) then return -1
    let fileHasUsedBlocks := iSize.toNat / 512 + 1
    let fileWillUseBlocks := (iSize + count).toNat / 512 + 1
    Prog.assert (fileWillUseBlocks ≤ 140)
    match ← collectForWrite p fileHasUsedBlocks fileWillUseBlocks with
    | none => return -1
    | some blocks =>
      modify fun s => s.setFile fdIdx { s.fileTable fdIdx with fdPos := (s.heap p).iSize - 1 }
      writeLoop fdIdx p blocks src count.toNat 0 true
      inodeSync ((← get).heap p)
      return count.toNat

def collectForRead (inode : Inode) (start last : Nat) : FsM (Nat → Word) := do
  if last < 12 then return fun b => if start ≤ b ∧ b ≤ last then inode.sector b else 0
  else do
    -- Only the case of a single block reads the table without a check.
    Prog.when (start ≠ last) (Prog.assert (inode.sector 12 ≠ 0))
    let table ← ideRead (inode.sector 12) 1
    return fun b => if b < 12 then (if start ≤ b then inode.sector b else 0) else table.word (4 * (b - 12))

/-- The loop of `file_read` that moves the data: the bytes that go to the caller's buffer. -/
def readLoop (fdIdx : Nat) (blocks : Nat → Word) (size bytesRead : Nat) : FsM (List Byte) :=
  if bytesRead < size then do
    let fdPos := ((← get).fileTable fdIdx).fdPos.toNat
    Prog.require (fdPos / 512 < 140) .undefined
    let secOffBytes := fdPos % 512
    let chunkSize := min (size - bytesRead) (512 - secOffBytes)
    let ioBuf ← ideRead (blocks (fdPos / 512)) 1
    modify fun s => s.setFile fdIdx { s.fileTable fdIdx with
      fdPos := (s.fileTable fdIdx).fdPos + BitVec.ofNat 32 chunkSize }
    let rest ← readLoop fdIdx blocks size (bytesRead + chunkSize)
    return (List.range chunkSize).map (fun i => ioBuf (secOffBytes + i)) ++ rest
  else return []
termination_by size - bytesRead
decreasing_by omega

def readFrom (fdIdx : Nat) (inode : Inode) (fdPos size : Word) : FsM (Option (List Byte)) := do
  let blockReadStartIdx := fdPos.toNat / 512
  let blockReadEndIdx := (fdPos + size).toNat / 512
  Prog.assert (blockReadStartIdx < 139 ∧ blockReadEndIdx < 139)
  let blocks ← collectForRead inode blockReadStartIdx blockReadEndIdx
  return some (← readLoop fdIdx blocks size.toNat 0)

/-- `file_read`: the bytes it returns, `none` for `-1`. -/
def fileRead (fdIdx : Nat) (count : Word) : FsM (Option (List Byte)) := do
  match ((← get).fileTable fdIdx).fdInode with
  | none => Prog.fail .undefined
  | some p =>
    let inode := (← get).heap p
    let fdPos := ((← get).fileTable fdIdx).fdPos
    if inode.iSize.toNat < (fdPos + count).toNat then
      let size := inode.iSize - fdPos
      if size = 0 then return none else readFrom fdIdx inode fdPos size
    else readFrom fdIdx inode fdPos count

end LaiMiniOs
