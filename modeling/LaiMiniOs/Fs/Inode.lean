import LaiMiniOs.Fs.State

/-! The inode table and the inode cache: `fs/inode.c`. -/

set_option autoImplicit false

namespace LaiMiniOs
open Foundation

structure InodePosition where
  twoSec : Bool
  secLba : Word
  offSize : Nat

/-- `inode_locate`. The products stay below `2 ^ 32` once the number is below 4096. -/
def inodeLocate (inodeNo : Word) : FsM InodePosition := do
  Prog.assert (inodeNo.toNat < 4096)
  let inodeTableLba := (← get).part.sb.inodeTableLba
  let offSize := inodeNo.toNat * inodeSize
  let offSec := offSize / 512
  let offSizeInSec := offSize % 512
  let leftInSec := 512 - offSizeInSec
  return { twoSec := leftInSec < inodeSize, secLba := inodeTableLba + BitVec.ofNat 32 offSec,
           offSize := offSizeInSec }

def InodePosition.sects (pos : InodePosition) : Nat := if pos.twoSec then 2 else 1

/-- `inode_sync`. The number goes through a `uint8_t`. -/
def inodeSync (inode : Inode) : FsM Unit := do
  let inodeNo : Word := (inode.iNo.setWidth 8).setWidth 32
  let pos ← inodeLocate inodeNo
  let part := (← get).part
  Prog.assert (pos.secLba.toNat ≤ (part.startLba + part.secCnt).toNat)
  let inodeBuf ← ideRead pos.secLba pos.sects
  ideWrite pos.secLba (inodeBuf.splice pos.offSize inode.pureInode.image inodeSize) pos.sects

/-- What `inode_open` does when the inode is not cached: find the record and copy it. -/
def inodeRead (inodeNo : Word) : FsM Inode := do
  let pos ← inodeLocate inodeNo
  let inodeBuf ← ideRead pos.secLba pos.sects
  return Inode.read inodeBuf pos.offSize

def inodeOpen (inodeNo : Word) : FsM Nat := do
  let s ← get
  match s.openInodes.find? fun p => (s.heap p).iNo == inodeNo with
  | some p =>
    set (s.setInode p { s.heap p with iOpenCnts := (s.heap p).iOpenCnts + 1 })
    return p
  | none =>
    set { s with brk := s.brk + 1 }
    let inode ← inodeRead inodeNo
    -- Other tasks have run during the read.
    modify fun s' => { s'.setInode s.brk { inode with iOpenCnts := 1 } with openInodes := s.brk :: s'.openInodes }
    return s.brk

def inodeClose (p : Nat) : FsM Unit := do
  let s ← get
  let cnts := (s.heap p).iOpenCnts - 1
  set { s.setInode p { s.heap p with iOpenCnts := cnts } with
    openInodes := if cnts = 0 then s.openInodes.erase p else s.openInodes }

def inodeDelete (inodeNo : Word) : FsM Unit := do
  let pos ← inodeLocate inodeNo
  let part := (← get).part
  Prog.assert (pos.secLba.toNat ≤ (part.startLba + part.secCnt).toNat)
  let inodeBuf ← ideRead pos.secLba pos.sects
  ideWrite pos.secLba (inodeBuf.splice pos.offSize Memory.zero inodeSize) pos.sects

/-- `inode_init`; the list links and the fields that are not set come from the heap. -/
def inodeInit (inodeNo : Word) (inode : Inode) : Inode :=
  { inode with iNo := inodeNo, iSize := 0, iOpenCnts := 0, writeDeny := 0, iSectors := Vector.replicate 13 0 }

end LaiMiniOs
