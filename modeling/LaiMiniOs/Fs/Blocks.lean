import LaiMiniOs.Fs.Alloc

/-! The blocks of an inode, and how `inode_release` gives them back.

An inode names twelve blocks directly; its thirteenth sector number, when it is not zero,
is that of a table with 128 more.
-/

set_option autoImplicit false

namespace LaiMiniOs
open Foundation

def allBlocks (inode : Inode) (table : Memory) (blockIdx : Nat) : Word :=
  if blockIdx < 12 then inode.sector blockIdx else table.word (4 * (blockIdx - 12))

def tableImage (blocks : Nat → Word) : Memory := Memory.ofWords fun k => blocks (12 + k)

def readTable (inode : Inode) : FsM Memory := do
  if inode.sector 12 ≠ 0 then ideRead (inode.sector 12) 1 else return Memory.zero

def releaseBlock (lba : Word) : FsM Unit := do
  let blockBitmapIdx := lba - (← get).part.sb.dataStartLba
  Prog.assert (0 < blockBitmapIdx.toNat)
  bitmapSet .block blockBitmapIdx false
  bitmapSync blockBitmapIdx .block

def releaseBlocks (inode : Inode) (table : Memory) : FsM Unit := do
  Prog.when (inode.sector 12 ≠ 0) (releaseBlock (inode.sector 12))
  let blockCnt := if inode.sector 12 ≠ 0 then 140 else 12
  Prog.forUpTo (fun blockIdx =>
    Prog.when (allBlocks inode table blockIdx ≠ 0) (releaseBlock (allBlocks inode table blockIdx))) blockCnt

def inodeRelease (inodeNo : Word) : FsM Unit := do
  let p ← inodeOpen inodeNo
  let inode := (← get).heap p
  Prog.assert (inode.iNo = inodeNo)
  let table ← readTable inode
  releaseBlocks inode table
  bitmapSet .inode inodeNo false
  bitmapSync inodeNo .inode
  inodeDelete inodeNo
  inodeClose p

end LaiMiniOs
