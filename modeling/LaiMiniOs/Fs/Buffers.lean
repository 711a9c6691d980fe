import LaiMiniOs.Foundation.Tracing
import LaiMiniOs.Fs.FileAppend

/-! The buffers of `file_write` and `file_read`.

The two functions are run with a record of their accesses to the memory they get from `sys_malloc`
and to the buffer of their caller. Without the record they are the functions of the model.
-/

set_option autoImplicit false

namespace LaiMiniOs
open Foundation Prog

/-- `all_blocks` and `io_buf` come from `sys_malloc`, `user` is the argument `buf`. -/
inductive Buffer where
  | allBlocks
  | ioBuf
  | user
  deriving DecidableEq

/-- Bytes of a buffer: stored in `all_blocks` and `io_buf`, taken from the caller's buffer by
`file_write` and stored there by `file_read`. -/
structure Access where
  buffer : Buffer
  offset : Nat
  length : Nat
  deriving DecidableEq

def userBytes (log : List Access) : List Nat :=
  log.flatMap fun e => if e.buffer = .user then List.range' e.offset e.length else []

theorem userBytes_append (log log' : List Access) : userBytes (log ++ log') = userBytes log ++ userBytes log' :=
  List.flatMap_append

theorem userBytes_of_other {log : List Access} (other : ∀ e ∈ log, e.buffer ≠ .user) : userBytes log = [] := by
  rw [userBytes, List.flatMap_eq_nil_iff]
  exact fun e member => if_neg (other e member)

abbrev LogM (A : Type) := Prog (Traced Fs Access) A

def growBlocksLogged (p : Nat) (blocks : Nat → Word) (blockIdx : Nat) : Nat → LogM (Option (Nat → Word))
  | 0 => return some blocks
  | left + 1 => do
    let blockLba ← quiet blockBitmapAlloc
    if blockLba = -1 then return none
    quiet (enterBlock p blockIdx blockLba)
    note ⟨.allBlocks, 4 * blockIdx, 4⟩
    let s ← quiet get
    quiet (bitmapSync (blockLba - s.part.sb.dataStartLba) .block)
    growBlocksLogged p (Function.update blocks blockIdx blockLba) (blockIdx + 1) left

def readTableLogged (lba : Word) : LogM Memory := do
  let table ← quiet (ideRead lba 1)
  note ⟨.allBlocks, 4 * 12, 512⟩
  return table

def collectForWriteLogged (p : Nat) (has will : Nat) : LogM (Option (Nat → Word)) := do
  let inode := (← quiet get).heap p
  if will = has then
    if has ≤ 12 then do
      note ⟨.allBlocks, 4 * (has - 1), 4⟩
      return some (lastBlock inode has)
    else do
      quiet (Prog.assert (inode.sector 12 ≠ 0))
      let table ← readTableLogged (inode.sector 12)
      return some (tableBlocks table)
  else if will ≤ 12 then
    quiet (Prog.require (has - 1 < 13) .undefined)
    quiet (Prog.assert (inode.sector (has - 1) ≠ 0))
    note ⟨.allBlocks, 4 * (has - 1), 4⟩
    growBlocksLogged p (lastBlock inode has) has (will - has)
  else if has ≤ 12 then do
    note ⟨.allBlocks, 4 * (has - 1), 4⟩
    let blockLba ← quiet blockBitmapAlloc
    if blockLba = -1 then return none
    let s ← quiet get
    quiet (Prog.assert ((s.heap p).sector 12 = 0))
    quiet (modify fun s => s.setInode p ((s.heap p).setSector 12 blockLba))
    match ← growBlocksLogged p (lastBlock inode has) has (will - has) with
    | none => return none
    | some blocks =>
      quiet (ideWrite blockLba (tableImage blocks) 1)
      return some blocks
  else do
    quiet (Prog.assert (inode.sector 12 ≠ 0))
    let table ← readTableLogged (inode.sector 12)
    match ← growBlocksLogged p (tableBlocks table) has (will - has) with
    | none => return none
    | some blocks =>
      quiet (ideWrite (inode.sector 12) (tableImage blocks) 1)
      return some blocks

def chunkBufLogged (firstWriteBlock : Bool) (secLba : Word) : LogM Memory := do
  note ⟨.ioBuf, 0, 512⟩
  if firstWriteBlock then do
    let ioBuf ← quiet (ideRead secLba 1)
    note ⟨.ioBuf, 0, 512⟩
    return ioBuf
  else return Memory.zero

def writeLoopLogged (fdIdx p : Nat) (blocks : Nat → Word) (src : Memory) (count bytesWritten : Nat)
    (firstWriteBlock : Bool) : LogM Unit :=
  if bytesWritten < count then do
    let iSize := ((← quiet get).heap p).iSize.toNat
    quiet (Prog.require (iSize / 512 < 140) .undefined)
    let secLba := blocks (iSize / 512)
    let secOffBytes := iSize % 512
    let chunkSize := min (count - bytesWritten) (512 - secOffBytes)
    let ioBuf ← chunkBufLogged firstWriteBlock secLba
    note ⟨.user, bytesWritten, chunkSize⟩
    note ⟨.ioBuf, secOffBytes, chunkSize⟩
    quiet (ideWrite secLba (ioBuf.splice secOffBytes (src.window bytesWritten) chunkSize) 1)
    quiet (modify fun s => s.setInode p { s.heap p with iSize := (s.heap p).iSize + BitVec.ofNat 32 chunkSize })
    quiet (modify fun s => s.setFile fdIdx { s.fileTable fdIdx with
      fdPos := (s.fileTable fdIdx).fdPos + BitVec.ofNat 32 chunkSize })
    writeLoopLogged fdIdx p blocks src count (bytesWritten + chunkSize) false
  else return
termination_by count - bytesWritten
decreasing_by omega

/-- The read of a record's sectors into `io_buf`, the change of the record there, and the write. -/
def updateRecordLogged (inodeNo : Word) (image : Memory) : LogM Unit := do
  let pos ← quiet (inodeLocate inodeNo)
  let part := (← quiet get).part
  quiet (Prog.assert (pos.secLba.toNat ≤ (part.startLba + part.secCnt).toNat))
  let inodeBuf ← quiet (ideRead pos.secLba pos.sects)
  note ⟨.ioBuf, 0, 512 * pos.sects⟩
  note ⟨.ioBuf, pos.offSize, inodeSize⟩
  quiet (ideWrite pos.secLba (inodeBuf.splice pos.offSize image inodeSize) pos.sects)

def inodeSyncLogged (inode : Inode) : LogM Unit :=
  updateRecordLogged ((inode.iNo.setWidth 8).setWidth 32) inode.pureInode.image

def inodeDeleteLogged (inodeNo : Word) : LogM Unit := updateRecordLogged inodeNo Memory.zero

/-- `file_write` up to the call of `inode_sync`; `none` where it returns `-1`. -/
def writeDataLogged (fdIdx : Nat) (src : Memory) (count : Word) : LogM (Option Nat) := do
  match ((← quiet get).fileTable fdIdx).fdInode with
  | none => Prog.fail .undefined
  | some p =>
    let iSize := ((← quiet get).heap p).iSize
    if 512 * 140 < (iSize + count).toNat then return none
    if !(← quiet (firstBlock p)) then return none
    let fileHasUsedBlocks := iSize.toNat / 512 + 1
    let fileWillUseBlocks := (iSize + count).toNat / 512 + 1
    quiet (Prog.assert (fileWillUseBlocks ≤ 140))
    match ← collectForWriteLogged p fileHasUsedBlocks fileWillUseBlocks with
    | none => return none
    | some blocks =>
      quiet (modify fun s => s.setFile fdIdx { s.fileTable fdIdx with fdPos := (s.heap p).iSize - 1 })
      writeLoopLogged fdIdx p blocks src count.toNat 0 true
      return some p

def fileWriteLogged (fdIdx : Nat) (src : Memory) (count : Word) : LogM Int := do
  match ← writeDataLogged fdIdx src count with
  | none => return -1
  | some p =>
    let s ← quiet get
    inodeSyncLogged (s.heap p)
    return count.toNat

def readLoopLogged (fdIdx : Nat) (blocks : Nat → Word) (size bytesRead : Nat) : LogM (List Byte) :=
  if bytesRead < size then do
    let fdPos := ((← quiet get).fileTable fdIdx).fdPos.toNat
    quiet (Prog.require (fdPos / 512 < 140) .undefined)
    let secOffBytes := fdPos % 512
    let chunkSize := min (size - bytesRead) (512 - secOffBytes)
    let ioBuf ← quiet (ideRead (blocks (fdPos / 512)) 1)
    note ⟨.user, bytesRead, chunkSize⟩
    quiet (modify fun s => s.setFile fdIdx { s.fileTable fdIdx with
      fdPos := (s.fileTable fdIdx).fdPos + BitVec.ofNat 32 chunkSize })
    let rest ← readLoopLogged fdIdx blocks size (bytesRead + chunkSize)
    return (List.range chunkSize).map (fun i => ioBuf (secOffBytes + i)) ++ rest
  else return []
termination_by size - bytesRead
decreasing_by omega

def readFromLogged (fdIdx : Nat) (inode : Inode) (fdPos size : Word) : LogM (Option (List Byte)) := do
  let blockReadStartIdx := fdPos.toNat / 512
  let blockReadEndIdx := (fdPos + size).toNat / 512
  quiet (Prog.assert (blockReadStartIdx < 139 ∧ blockReadEndIdx < 139))
  let blocks ← quiet (collectForRead inode blockReadStartIdx blockReadEndIdx)
  return some (← readLoopLogged fdIdx blocks size.toNat 0)

def fileReadLogged (fdIdx : Nat) (count : Word) : LogM (Option (List Byte)) := do
  match ((← quiet get).fileTable fdIdx).fdInode with
  | none => Prog.fail .undefined
  | some p =>
    let inode := (← quiet get).heap p
    let fdPos := ((← quiet get).fileTable fdIdx).fdPos
    if inode.iSize.toNat < (fdPos + count).toNat then
      let size := inode.iSize - fdPos
      if size = 0 then return none else readFromLogged fdIdx inode fdPos size
    else readFromLogged fdIdx inode fdPos count

section

theorem growBlocks_traces (p : Nat) (blocks : Nat → Word) (b left : Nat) :
    Traces (growBlocksLogged p blocks b left) (growBlocks p blocks b left) := by
  induction left generalizing blocks b with
  | zero => exact .ret _
  | succ left ih =>
    refine .bind (.quiet _) fun lba => .ite (.ret _) ?_
    refine .bind (.quiet _) fun _ => .note ?_
    exact .bind (.quiet _) fun s => .bind (.quiet _) fun _ => ih _ _

theorem readTable_traces (lba : Word) : Traces (readTableLogged lba) (ideRead lba 1) := .noteAfter (.quiet _)

theorem putTable_traces (lba : Word) (blocks : Option (Nat → Word)) :
    Traces (match blocks with
      | none => return none
      | some blocks => do
        quiet (ideWrite lba (tableImage blocks) 1)
        return some blocks : LogM (Option (Nat → Word)))
      (match blocks with
      | none => return none
      | some blocks => do
        ideWrite lba (tableImage blocks) 1
        return some blocks) := by
  cases blocks with
  | none => exact .ret _
  | some blocks => exact .bind (.quiet _) fun _ => .ret _

theorem collectForWrite_traces (p has will : Nat) :
    Traces (collectForWriteLogged p has will) (collectForWrite p has will) := by
  refine .bind (.quiet _) fun s => .ite (.ite (.note (.ret _)) ?_) (.ite ?_ (.ite (.note ?_) ?_))
  · exact .bind (.quiet _) fun _ => .bind (readTable_traces _) fun _ => .ret _
  · exact .bind (.quiet _) fun _ => .bind (.quiet _) fun _ => .note (growBlocks_traces _ _ _ _)
  · refine .bind (.quiet _) fun lba => .ite (.ret _) ?_
    refine .bind (.quiet _) fun _ => .bind (.quiet _) fun _ => .bind (.quiet _) fun _ => ?_
    exact .bind (growBlocks_traces _ _ _ _) fun blocks => putTable_traces lba blocks
  · refine .bind (.quiet _) fun _ => .bind (readTable_traces _) fun _ => ?_
    exact .bind (growBlocks_traces _ _ _ _) fun blocks => putTable_traces _ blocks

theorem chunkBuf_traces (first : Bool) (lba : Word) : Traces (chunkBufLogged first lba) (chunkBuf first lba) :=
  .note (.ite (.noteAfter (.quiet _)) (.ret _))

theorem writeLoop_traces (fdIdx p : Nat) (blocks : Nat → Word) (src : Memory) (count from_ : Nat) (first : Bool) :
    Traces (writeLoopLogged fdIdx p blocks src count from_ first) (writeLoop fdIdx p blocks src count from_ first) := by
  generalize left : count - from_ = n
  induction n using Nat.strongRecOn generalizing from_ first with
  | ind n ih =>
    unfold writeLoopLogged writeLoop
    by_cases more : from_ < count
    · rw [if_pos more, if_pos more]
      refine .bind (.quiet _) fun s => .bind (.quiet _) fun _ => .bind (chunkBuf_traces _ _) fun buf => .note (.note ?_)
      refine .bind (.quiet _) fun _ => .bind (.quiet _) fun _ => .bind (.quiet _) fun _ => ?_
      exact ih _ (by omega) _ _ rfl
    · rw [if_neg more, if_neg more]
      exact .ret _

theorem inodeSync_traces (inode : Inode) : Traces (inodeSyncLogged inode) (inodeSync inode) :=
  .bind (.quiet _) fun _ => .bind (.quiet _) fun _ => .bind (.quiet _) fun _ => .bind (.quiet _) fun _ =>
    .note (.note (.quiet _))

theorem inodeDelete_traces (inodeNo : Word) : Traces (inodeDeleteLogged inodeNo) (inodeDelete inodeNo) :=
  .bind (.quiet _) fun _ => .bind (.quiet _) fun _ => .bind (.quiet _) fun _ => .bind (.quiet _) fun _ =>
    .note (.note (.quiet _))

theorem fileWrite_traces (fdIdx : Nat) (src : Memory) (count : Word) :
    Traces (fileWriteLogged fdIdx src count) (fileWrite fdIdx src count) := by
  refine .assoc (.bind (.quiet _) fun s => ?_)
  cases (s.fileTable fdIdx).fdInode with
  | none => exact .stop _
  | some p =>
    refine .assoc (.bind (.quiet _) fun s => .iteBind (.ret _) ?_)
    refine .assoc (.bind (.quiet _) fun first => .iteBind (.ret _) ?_)
    refine .assoc (.bind (.quiet _) fun _ => .assoc (.bind (collectForWrite_traces _ _ _) fun blocks => ?_))
    cases blocks with
    | none => exact .ret _
    | some blocks =>
      refine .assoc (.bind (.quiet _) fun _ => .assoc (.bind (writeLoop_traces _ _ _ _ _ _ _) fun _ => ?_))
      exact .bind (.quiet _) fun s => .bind (inodeSync_traces _) fun _ => .ret _

theorem readLoop_traces (fdIdx : Nat) (blocks : Nat → Word) (size from_ : Nat) :
    Traces (readLoopLogged fdIdx blocks size from_) (readLoop fdIdx blocks size from_) := by
  generalize left : size - from_ = n
  induction n using Nat.strongRecOn generalizing from_ with
  | ind n ih =>
    unfold readLoopLogged readLoop
    by_cases more : from_ < size
    · rw [if_pos more, if_pos more]
      refine .bind (.quiet _) fun s => .bind (.quiet _) fun _ => .bind (.quiet _) fun buf => .note ?_
      exact .bind (.quiet _) fun _ => .bind (ih _ (by omega) _ rfl) fun _ => .ret _
    · rw [if_neg more, if_neg more]
      exact .ret _

theorem readFrom_traces (fdIdx : Nat) (inode : Inode) (fdPos size : Word) :
    Traces (readFromLogged fdIdx inode fdPos size) (readFrom fdIdx inode fdPos size) :=
  .bind (.quiet _) fun _ => .bind (.quiet _) fun _ => .bind (readLoop_traces _ _ _ _) fun _ => .ret _

theorem fileRead_traces (fdIdx : Nat) (count : Word) : Traces (fileReadLogged fdIdx count) (fileRead fdIdx count) := by
  refine .bind (.quiet _) fun s => ?_
  cases (s.fileTable fdIdx).fdInode with
  | none => exact .stop _
  | some p =>
    refine .bind (.quiet _) fun s => .bind (.quiet _) fun s' => .ite ?_ (readFrom_traces _ _ _ _)
    exact .ite (.ret _) (readFrom_traces _ _ _ _)

end

end LaiMiniOs
