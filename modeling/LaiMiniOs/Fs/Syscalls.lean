import LaiMiniOs.Fs.DirSlots
import LaiMiniOs.Fs.File
import LaiMiniOs.Fs.Path

/-! The system calls on paths and descriptors: `fs/fs.c`.

A path is the string without its final 0. Two local variables are read before anything is
stored in them, so a call takes what the stack holds there as an argument. Output to the
screen, input from the keyboard and the ring buffer of a pipe are outside the development.
-/

set_option autoImplicit false

namespace LaiMiniOs
open Foundation

/-- What the stack of a call holds in the variables that are read uninitialised. -/
structure Stack where
  /-- `dir_e.i_no` in `search_file`. -/
  entryNo : Word
  /-- `name[0]` in the two calls of `path_depth_cnt`. -/
  pathChar : Byte
  searchedChar : Byte

structure PathSearchRecord where
  searchedPath : List Byte
  parentDir : Dir
  fileType : FileType

structure SearchState where
  name : List Byte
  subPath : Option (List Byte)
  parentDir : Dir
  parentInodeNo : Word
  /-- `dir_e.i_no`. -/
  iNo : Word
  searchedPath : List Byte

def maxPathLen : Nat := 512

/-- The loop of `search_file`. A name of 16 characters has no end in its array. -/
def searchLoop : Nat → SearchState → FsM (Word × PathSearchRecord)
  | 0, _ => Prog.fail .diverges
  | fuel + 1, w =>
    if w.name = [] then do
      dirClose w.parentDir
      let parentDir ← dirOpen w.parentInodeNo
      return (w.iNo, ⟨w.searchedPath, parentDir, .directory⟩)
    else do
      Prog.assert (w.searchedPath.length < maxPathLen)
      let searchedPath := w.searchedPath ++ slash :: w.name
      Prog.require (searchedPath.length < maxPathLen ∧ w.name.length < 16) .undefined
      match ← searchDirEntry (w.parentDir.inode (← get)) w.name with
      | none => return (-1, ⟨searchedPath, w.parentDir, .unknown⟩)
      | some entry =>
        let (name, subPath) ← parseNext w.subPath
        if entry.fType = FileType.directory.code then do
          let s ← get
          let parentInodeNo := (s.heap (w.parentDir.inode s)).iNo
          dirClose w.parentDir
          let parentDir ← dirOpen entry.iNo
          searchLoop fuel ⟨name, subPath, parentDir, parentInodeNo, entry.iNo, searchedPath⟩
        else if entry.fType = FileType.regular.code then
          return (entry.iNo, ⟨searchedPath, w.parentDir, .regular⟩)
        else
          searchLoop fuel ⟨name, subPath, w.parentDir, w.parentInodeNo, entry.iNo, searchedPath⟩

/-- The spellings of the root directory that are not searched for. -/
def isRootPath (pathname : List Byte) : Bool :=
  pathname == [slash] || pathname == slash :: dot || pathname == slash :: dotDot

/-- `search_file`: the inode number, `-1` for none, and the record of the search. -/
def searchFile (stack : Stack) (pathname : List Byte) : FsM (Word × PathSearchRecord) :=
  if isRootPath pathname then return (0, ⟨[], .root, .directory⟩)
  else do
    Prog.assert (pathname.head? = some slash ∧ 1 < pathname.length ∧ pathname.length < maxPathLen)
    let (name, subPath) ← parseName pathname
    searchLoop (pathname.length + 2) ⟨name, subPath, .root, 0, stack.entryNo, []⟩

def refuse (record : PathSearchRecord) : FsM Int := do
  dirClose record.parentDir
  return -1

def creates (flags : Word) : Bool := flags &&& 4 ≠ 0

def openFound (pathname : List Byte) (flags inodeNo : Word) (record : PathSearchRecord) : FsM Int :=
  if creates flags then
    match afterLastSlash pathname with
    | none => Prog.fail .undefined
    | some filename => do
      let fd ← fileCreate (record.parentDir.inode (← get)) filename flags
      dirClose record.parentDir
      return fd
  else fileOpen inodeNo flags

def dropSearch (record : PathSearchRecord) : FsM (Option (Word × PathSearchRecord)) := do
  dirClose record.parentDir
  return none

/-- The checks of `sys_open`: what was found, or `none` when the call returns `-1`. -/
def openChecks (stack : Stack) (pathname : List Byte) (flags : Word) : FsM (Option (Word × PathSearchRecord)) := do
  Prog.require (pathname ≠ []) .undefined
  if pathname.getLast? = some slash then return none
  else do
    Prog.assert (flags.toNat ≤ 7)
    let pathnameDepth ← pathDepthCnt stack.pathChar pathname
    let (inodeNo, record) ← searchFile stack pathname
    if record.fileType = .directory then dropSearch record
    else do
      let pathSearchedDepth ← pathDepthCnt stack.searchedChar record.searchedPath
      if pathnameDepth ≠ pathSearchedDepth then dropSearch record
      else if inodeNo = -1 ∧ !creates flags then dropSearch record
      else if inodeNo ≠ -1 ∧ creates flags then dropSearch record
      else return some (inodeNo, record)

def sysOpen (stack : Stack) (pathname : List Byte) (flags : Word) : FsM Int := do
  match ← openChecks stack pathname flags with
  | none => return -1
  | some (inodeNo, record) => openFound pathname flags inodeNo record

def fdLocal2Global (localFd : Nat) : FsM Nat := do
  Prog.require (localFd < maxFilesOpenPerProc) .undefined
  match (← get).fdTable localFd with
  | none => Prog.fail .assertion
  | some globalFd =>
    Prog.assert (globalFd < maxFileOpen)
    return globalFd

def pipeFlag : Word := 0xffff

def isPipe (localFd : Nat) : FsM Bool := do
  let globalFd ← fdLocal2Global localFd
  return ((← get).fileTable globalFd).fdFlag == pipeFlag

/-- One descriptor of a pipe less; the page of the pipe goes back with the last one. -/
def pipeClose (globalFd : Nat) : FsM Unit := do
  let s ← get
  let file := s.fileTable globalFd
  if file.fdPos - 1 = 0 then
    match file.fdInode with
    | none => Prog.fail .undefined
    | some page =>
      set { s.setFile globalFd { file with fdPos := 0, fdInode := none } with freedPages := page :: s.freedPages }
  else set (s.setFile globalFd { file with fdPos := file.fdPos - 1 })

def closeGlobal (localFd globalFd : Nat) : FsM Int := do
  if ← isPipe localFd then do
    pipeClose globalFd
    return 0
  else fileClose globalFd

def sysClose (fd : Int) : FsM Int := do
  if fd ≤ 2 then return -1
  else do
    let globalFd ← fdLocal2Global fd.toNat
    let ret ← closeGlobal fd.toNat globalFd
    modify fun s => { s with fdTable := Function.update s.fdTable fd.toNat none }
    return ret

def sysWrite (fd : Int) (buf : Memory) (count : Word) : FsM Int := do
  if fd < 0 then return -1
  -- `is_pipe` is asked for the standard output too, which is the console when it is not a pipe
  else if (← isPipe fd.toNat) ∨ fd = 1 then Prog.fail .external
  else do
    let globalFd ← fdLocal2Global fd.toNat
    if ((← get).fileTable globalFd).fdFlag &&& 3 ≠ 0 then fileWrite globalFd buf count else return -1

def sysRead (fd : Int) (count : Word) : FsM (Option (List Byte)) := do
  if fd < 0 ∨ fd = 1 ∨ fd = 2 then return none
  else if (← isPipe fd.toNat) ∨ fd = 0 then Prog.fail .external
  else fileRead (← fdLocal2Global fd.toNat) count

inductive Whence where
  | seekSet
  | seekCur
  | seekEnd
  deriving DecidableEq

def sysLseek (fd : Int) (offset : Word) (whence : Whence) : FsM Int := do
  if fd < 0 then return -1
  else do
    let globalFd ← fdLocal2Global fd.toNat
    let s ← get
    let file := s.fileTable globalFd
    match file.fdInode with
    | none => Prog.fail .undefined
    | some p =>
      let fileSize := (s.heap p).iSize
      let newPos := match whence with
        | .seekSet => offset
        | .seekCur => file.fdPos + offset
        | .seekEnd => fileSize + offset
      if newPos.toInt < 0 ∨ (fileSize - 1).toInt < newPos.toInt then return -1
      else do
        set (s.setFile globalFd { file with fdPos := newPos })
        return newPos.toInt

def Kernel.inUse (k : Kernel) (inodeNo : Word) : Bool :=
  (List.range maxFileOpen).any fun i => (k.fileTable i).fdInode.any fun p => (k.heap p).iNo == inodeNo

/-- `sys_unlink`: the result of `delete_dir_entry` is not looked at. -/
def sysUnlink (stack : Stack) (pathname : List Byte) : FsM Int := do
  Prog.assert (pathname.length < maxPathLen)
  let (inodeNo, record) ← searchFile stack pathname
  Prog.assert (inodeNo ≠ 0)
  if inodeNo = -1 ∨ record.fileType = .directory then refuse record
  else if (← get).inUse inodeNo then refuse record
  else do
    let _ ← deleteDirEntry (record.parentDir.inode (← get)) inodeNo
    inodeRelease inodeNo
    dirClose record.parentDir
    return 0

def mkdirInode (inodeNo blockLba size : Word) : Inode :=
  { (inodeInit inodeNo Inode.blank).setSector 0 blockLba with iSize := size }

/-- The part of `sys_mkdir` after the search; the steps that can fail undo some of what was done. -/
def makeDir (parentDir : Dir) (dirname : List Byte) : FsM Int := do
  let inodeNo ← inodeBitmapAlloc
  if inodeNo = -1 then do
    dirClose parentDir
    return -1
  else do
    let blockLba ← blockBitmapAlloc
    if blockLba = -1 then do
      bitmapSet .inode inodeNo false
      dirClose parentDir
      return -1
    else do
      let sb := (← get).part.sb
      Prog.assert (blockLba - sb.dataStartLba ≠ 0)
      bitmapSync (blockLba - sb.dataStartLba) .block
      let s ← get
      ideWrite blockLba (newDirBuf inodeNo (s.heap (parentDir.inode s)).iNo) 1
      let newDirEntry ← createDirEntry dirname inodeNo .directory
      if ← syncDirEntry (parentDir.inode s) newDirEntry then do
        inodeSync ((← get).heap (parentDir.inode s))
        inodeSync (mkdirInode inodeNo blockLba (2 * sb.dirEntrySize))
        bitmapSync inodeNo .inode
        dirClose parentDir
        return 0
      else do
        bitmapSet .inode inodeNo false
        dirClose parentDir
        return -1

def sysMkdir (stack : Stack) (pathname : List Byte) : FsM Int := do
  let (inodeNo, record) ← searchFile stack pathname
  if inodeNo ≠ -1 then refuse record
  else do
    let pathnameDepth ← pathDepthCnt stack.pathChar pathname
    let pathSearchedDepth ← pathDepthCnt stack.searchedChar record.searchedPath
    if pathnameDepth ≠ pathSearchedDepth then refuse record
    else match afterLastSlash record.searchedPath with
      | none => Prog.fail .undefined
      | some dirname => makeDir record.parentDir dirname

/-- `sys_opendir`; `none` for `NULL`. -/
def sysOpendir (stack : Stack) (name : List Byte) : FsM (Option Dir) := do
  Prog.assert (name.length < maxPathLen)
  if name = [slash] then return some .root
  else do
    let (inodeNo, record) ← searchFile stack name
    if inodeNo ≠ -1 ∧ record.fileType = .directory then do
      let dir ← dirOpen inodeNo
      dirClose record.parentDir
      return some dir
    else do
      dirClose record.parentDir
      return none

def sysClosedir : Option Dir → FsM Int
  | none => return -1
  | some dir => do
    dirClose dir
    return 0

def removeIfEmpty (parentDir dir : Dir) : FsM Int := do
  let s ← get
  if ← dirIsEmpty (dir.inode s) then dirRemove (parentDir.inode s) (dir.inode s) else return -1

def sysRmdir (stack : Stack) (pathname : List Byte) : FsM Int := do
  let (inodeNo, record) ← searchFile stack pathname
  Prog.assert (inodeNo ≠ 0)
  if inodeNo = -1 ∨ record.fileType = .regular then refuse record
  else do
    let dir ← dirOpen inodeNo
    let retval ← removeIfEmpty record.parentDir dir
    dirClose dir
    dirClose record.parentDir
    return retval

/-- `get_parent_dir_inode_nr`: what the second entry of the first block says. -/
def getParentDirInodeNr (childInodeNr : Word) : FsM Word := do
  let p ← inodeOpen childInodeNr
  let s ← get
  let blockLba := (s.heap p).sector 0
  Prog.assert (s.part.sb.dataStartLba.toNat ≤ blockLba.toNat)
  inodeClose p
  let buf ← ideRead blockLba 1
  let entry := DirEntry.read buf 24
  Prog.assert (entry.iNo.toNat < 4096 ∧ entry.fType = FileType.directory.code)
  return entry.iNo

/-- The blocks `140 - left, …, 139` searched for an inode number; the name with it. -/
def childBlocks (blocks : Nat → Word) (inodeNr : Word) : Nat → FsM (Option DirEntry)
  | 0 => return none
  | left + 1 => do
    let lba := blocks (140 - (left + 1))
    if lba = 0 then childBlocks blocks inodeNr left
    else do
      let per := entriesPerSec (← get).part.sb
      let buf ← ideRead lba 1
      let dirEIdx := skipWhile (fun k => (DirEntry.read buf (24 * k)).iNo != inodeNr) per 0
      if dirEIdx < per then return some (DirEntry.read buf (24 * dirEIdx))
      else childBlocks blocks inodeNr left

/-- `get_child_dir_name`: the path with the name of the child appended, `none` for `-1`. The name
must end within its array. Without a table the blocks from 12 on are clear, so going over 140
blocks is going over 12. -/
def getChildDirName (pInodeNr cInodeNr : Word) (path : List Byte) : FsM (Option (List Byte)) := do
  let p ← inodeOpen pInodeNr
  let inode := (← get).heap p
  let table ← readTable inode
  inodeClose p
  match ← childBlocks (allBlocks inode table) cInodeNr 140 with
  | none => return none
  | some entry =>
    let path := path ++ slash :: entry.name
    Prog.require (entry.name.length < 16 ∧ path.length < maxPathLen) .undefined
    return some path

/-- The loop of `sys_getcwd` from a directory up to the root. Each round makes the path longer,
so that `full_path_reverse` would be full before the rounds are used up. -/
def climb : Nat → Word → List Byte → FsM (Option (List Byte))
  | 0, _, _ => Prog.fail .diverges
  | rounds + 1, childInodeNr, path =>
    if childInodeNr = 0 then return some path
    else do
      let parentInodeNr ← getParentDirInodeNr childInodeNr
      match ← getChildDirName parentInodeNr childInodeNr path with
      | none => return none
      | some path => climb rounds parentInodeNr path

/-- The loop that moves the last component of the path to the end of the buffer. -/
def reverseLoop : Nat → List Byte → List Byte → List Byte
  | 0, _, buf => buf
  | rounds + 1, path, buf =>
    match afterLastSlash path with
    | none => buf
    | some last => reverseLoop rounds (path.take (path.length - (last.length + 1))) (buf ++ slash :: last)

/-- `sys_getcwd` into a buffer of the given size; `none` for `NULL`. -/
def sysGetcwd (size : Nat) : FsM (Option (List Byte)) := do
  let childInodeNr := (← get).cwdInodeNr
  Prog.assert (childInodeNr.toNat < 4096)
  if childInodeNr = 0 then do
    Prog.require (2 ≤ size) .undefined
    return some [slash]
  else do
    match ← climb (maxPathLen + 1) childInodeNr [] with
    | none => return none
    | some path =>
      Prog.assert (path.length ≤ size)
      Prog.require (path.length < size) .undefined
      return some (reverseLoop path.length path [])

def sysChdir (stack : Stack) (path : List Byte) : FsM Int := do
  let (inodeNo, record) ← searchFile stack path
  if inodeNo ≠ -1 ∧ record.fileType = .directory then do
    modify fun s => { s with cwdInodeNr := inodeNo }
    dirClose record.parentDir
    return 0
  else refuse record

structure Stat where
  stIno : Word
  stSize : Word
  stFiletype : FileType

/-- `sys_stat`; `none` for `-1`. -/
def sysStat (stack : Stack) (path : List Byte) : FsM (Option Stat) := do
  if isRootPath path then do
    let s ← get
    return some ⟨0, (s.heap s.rootDir).iSize, .directory⟩
  else do
    let (inodeNo, record) ← searchFile stack path
    if inodeNo ≠ -1 then do
      let p ← inodeOpen inodeNo
      let size := ((← get).heap p).iSize
      inodeClose p
      dirClose record.parentDir
      return some ⟨inodeNo, size, record.fileType⟩
    else do
      dirClose record.parentDir
      return none

end LaiMiniOs
