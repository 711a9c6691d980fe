import LaiMiniOs.Foundation.Steps
import LaiMiniOs.Fs.Syscalls

/-! What the functions below the system calls leave alone.

Searching, entering and deleting directory entries, allocation and the transfers to the disk
change the disk, the bitmaps and the size and sectors of inodes. They do not open or close
anything: the cache, its counts and the tables of open files stay as they are.
-/

set_option autoImplicit false

namespace LaiMiniOs
open Foundation

structure Inode.SameId (inode inode' : Inode) : Prop where
  iNo : inode'.iNo = inode.iNo
  iOpenCnts : inode'.iOpenCnts = inode.iOpenCnts
  writeDeny : inode'.writeDeny = inode.writeDeny

structure Fs.Steady (s s' : Fs) : Prop where
  geometry : s'.part.geometry = s.part.geometry
  heap : ∀ p, (s.heap p).SameId (s'.heap p)
  brk : s'.brk = s.brk
  openInodes : s'.openInodes = s.openInodes
  rootDir : s'.rootDir = s.rootDir
  fileTable : s'.fileTable = s.fileTable
  fdTable : s'.fdTable = s.fdTable
  cwdInodeNr : s'.cwdInodeNr = s.cwdInodeNr
  freedPages : s'.freedPages = s.freedPages

theorem Inode.SameId.refl (inode : Inode) : inode.SameId inode := ⟨rfl, rfl, rfl⟩

theorem Inode.SameId.trans {a b c : Inode} (first : a.SameId b) (second : b.SameId c) : a.SameId c :=
  ⟨second.iNo.trans first.iNo, second.iOpenCnts.trans first.iOpenCnts, second.writeDeny.trans first.writeDeny⟩

theorem Inode.SameId.setSector (inode : Inode) (k : Nat) (lba : Word) : inode.SameId (inode.setSector k lba) :=
  ⟨rfl, rfl, rfl⟩

namespace Fs.Steady

theorem refl (s : Fs) : s.Steady s := ⟨rfl, fun _ => .refl _, rfl, rfl, rfl, rfl, rfl, rfl, rfl⟩

theorem trans {s t u : Fs} (first : s.Steady t) (second : t.Steady u) : s.Steady u where
  geometry := second.geometry.trans first.geometry
  heap p := (first.heap p).trans (second.heap p)
  brk := second.brk.trans first.brk
  openInodes := second.openInodes.trans first.openInodes
  rootDir := second.rootDir.trans first.rootDir
  fileTable := second.fileTable.trans first.fileTable
  fdTable := second.fdTable.trans first.fdTable
  cwdInodeNr := second.cwdInodeNr.trans first.cwdInodeNr
  freedPages := second.freedPages.trans first.freedPages

theorem of_kernel {s s' : Fs} (geometry : s'.part.geometry = s.part.geometry) (kernel : s'.toKernel = s.toKernel) :
    s.Steady s' := by
  refine ⟨geometry, fun p => ?_, ?_, ?_, ?_, ?_, ?_, ?_, ?_⟩ <;> rw [kernel]
  exact .refl _

theorem setInode (s : Fs) (p : Nat) {inode : Inode} (same : (s.heap p).SameId inode) :
    s.Steady (s.setInode p inode) := by
  refine ⟨rfl, fun q => ?_, rfl, rfl, rfl, rfl, rfl, rfl, rfl⟩
  by_cases here : q = p
  · subst here
    rw [toKernel_setInode, Kernel.heap_setInode_self]
    exact same
  · rw [toKernel_setInode, Kernel.heap_setInode_of_ne _ _ here]
    exact .refl _

end Fs.Steady

/-- A relation that the functions below the system calls stay in: it does not look at the disk, at
the blocks that are free, or at the size and the sectors of an inode. -/
structure Fs.Tolerant (R : Fs → Fs → Prop) : Prop where
  disk : ∀ (s : Fs) (disk : Memory), R s { s with disk := disk }
  blockBit : ∀ (s : Fs) (i : Nat) (value : Bool), R s (s.setBit .block i value)
  inode : ∀ (s : Fs) (p : Nat) (inode : Inode), (s.heap p).SameId inode → R s (s.setInode p inode)

theorem Fs.Tolerant.steady : Fs.Tolerant Fs.Steady where
  disk _ _ := .of_kernel rfl rfl
  blockBit s i value := .of_kernel (geometry_setBit s .block i value) rfl
  inode s p _ same := .setInode s p same

theorem Fs.Steady.setBit (t : BitmapType) (i : Nat) (value : Bool) (s : Fs) : s.Steady (s.setBit t i value) :=
  .of_kernel (geometry_setBit s t i value) rfl

theorem Fs.Steady.run {A : Type} {x : FsM A} (keeps : Prog.Keeps Fs.Steady x) {s t : Fs} {a : A}
    (returns : x s = .ok (a, t)) :
    s.Steady t :=
  (keeps.within s).run Fs.Steady.refl (fun _ _ _ => Fs.Steady.trans) returns

section
open Prog

/-! Functions that store nothing stay in every relation. -/

variable {R : Fs → Fs → Prop}

theorem ideRead_keeps (lba : Word) (secCnt : Nat) : Keeps R (ideRead lba secCnt) :=
  (Keeps.check _ _).bind fun _ => Keeps.rest.bind fun _ => Keeps.look.bind fun _ => .ret _

theorem inodeLocate_keeps (n : Word) : Keeps R (inodeLocate n) :=
  (Keeps.check _ _).bind fun _ => Keeps.look.bind fun _ => .ret _

theorem readTable_keeps (inode : Inode) : Keeps R (readTable inode) :=
  .ite (ideRead_keeps _ _) (.ret _)

theorem searchBlocks_keeps (blocks : Nat → Word) (name : List Byte) (left : Nat) :
    Keeps R (searchBlocks blocks name left) := by
  induction left with
  | zero => exact .ret _
  | succ left ih =>
    exact .ite ih (Keeps.look.bind fun _ => (ideRead_keeps _ _).bind fun _ => .ite (.ret _) ih)

theorem searchDirEntry_keeps (p : Nat) (name : List Byte) : Keeps R (searchDirEntry p name) :=
  Keeps.look.bind fun _ => (readTable_keeps _).bind fun _ => searchBlocks_keeps _ _ _

theorem scanSector_keeps (buf : Memory) (n : Word) (k : Nat) : Keeps R (scanSector buf n k) := by
  induction k with
  | zero => exact .ret _
  | succ k ih =>
    exact ih.bind fun _ =>
      .ite (.ret _) (.ite (.ret _) (.ite (.ret _) (.ite ((Keeps.check _ _).bind fun _ => .ret _) (.ret _))))

theorem assertNoBlocks_keeps (p : Nat) : Keeps R (assertNoBlocks p) := by
  rw [assertNoBlocks]
  exact .loop (fun _ => Keeps.look.bind fun _ => .check _ _) 12

theorem dirIsEmpty_keeps (p : Nat) : Keeps R (dirIsEmpty p) := Keeps.look.bind fun _ => .ret _

theorem parseName_keeps (path : List Byte) : Keeps R (parseName path) := (Keeps.check _ _).bind fun _ => .ret _

theorem parseNext_keeps (sub : Option (List Byte)) : Keeps R (parseNext sub) := by
  cases sub with
  | none => exact .ret _
  | some path => exact parseName_keeps path

theorem pathDepthCnt_keeps (junk : Byte) (path : List Byte) : Keeps R (pathDepthCnt junk path) := by
  have loop (fuel : Nat) (name : List Byte) (sub : Option (List Byte)) (depth : Nat) :
      Keeps R (depthLoop fuel name sub depth) := by
    induction fuel generalizing name sub depth with
    | zero => exact .stop _
    | succ fuel ih => exact .ite (.ret _) ((parseNext_keeps _).bind fun _ => ih _ _ _)
  exact (parseName_keeps path).bind fun _ => loop _ _ _ _

theorem takeBit_keeps {t : BitmapType} (bit : ∀ (s : Fs) (i : Nat), R s (s.setBit t i true)) : Keeps R (takeBit t) := by
  refine Keeps.read fun s => ?_
  cases (s.part.bitmap t).scan 1 with
  | error fault => trivial
  | ok found =>
    cases found with
    | none => trivial
    | some i => exact ⟨bit s i, trivial⟩

theorem bitmapSet_keeps {t : BitmapType} {i : Word} {value : Bool} (bit : ∀ s : Fs, R s (s.setBit t i.toNat value)) :
    Keeps R (bitmapSet t i value) :=
  Keeps.look.bind fun _ => (Keeps.check _ _).bind fun _ => .change bit

variable (tol : Fs.Tolerant R)
include tol

theorem ideWriteShared_keeps (lba : Word) (buf : Fs → Memory) (secCnt : Nat) :
    Keeps R (ideWriteShared lba buf secCnt) := by
  refine (Keeps.check _ _).bind fun _ => Keeps.rest.bind fun _ => Keeps.bind ?_ fun _ => .rest
  exact .change fun s => tol.disk s _

theorem ideWrite_keeps (lba : Word) (buf : Memory) (secCnt : Nat) : Keeps R (ideWrite lba buf secCnt) :=
  ideWriteShared_keeps tol lba _ secCnt

theorem blockBitmapAlloc_keeps : Keeps R blockBitmapAlloc :=
  (takeBit_keeps fun s i => tol.blockBit s i true).bind fun found => by
    cases found
    · exact .ret _
    · exact Keeps.look.bind fun _ => .ret _

theorem blockBitSet_keeps (i : Word) (value : Bool) : Keeps R (bitmapSet .block i value) :=
  bitmapSet_keeps fun s => tol.blockBit s _ value

theorem bitmapSync_keeps (i : Word) (t : BitmapType) : Keeps R (bitmapSync i t) :=
  Keeps.look.bind fun _ => (Keeps.check _ _).bind fun _ => ideWriteShared_keeps tol _ _ _

theorem inodeSync_keeps (inode : Inode) : Keeps R (inodeSync inode) :=
  (inodeLocate_keeps _).bind fun _ => Keeps.look.bind fun _ => (Keeps.check _ _).bind fun _ =>
    (ideRead_keeps _ _).bind fun _ => ideWrite_keeps tol _ _ _

theorem inodeDelete_keeps (n : Word) : Keeps R (inodeDelete n) :=
  (inodeLocate_keeps _).bind fun _ => Keeps.look.bind fun _ => (Keeps.check _ _).bind fun _ =>
    (ideRead_keeps _ _).bind fun _ => ideWrite_keeps tol _ _ _

theorem releaseBlock_keeps (lba : Word) : Keeps R (releaseBlock lba) :=
  Keeps.look.bind fun _ => (Keeps.check _ _).bind fun _ => (blockBitSet_keeps tol _ _).bind fun _ =>
    bitmapSync_keeps tol _ _

theorem releaseBlocks_keeps (inode : Inode) (table : Memory) : Keeps R (releaseBlocks inode table) :=
  (Keeps.when (releaseBlock_keeps tol _)).bind fun _ => .loop (fun _ => .when (releaseBlock_keeps tol _)) _

theorem setInode_keeps {p : Nat} {f : Fs → Inode} (same : ∀ s : Fs, (s.heap p).SameId (f s)) :
    Keeps R (modify fun s => s.setInode p (f s) : FsM PUnit) :=
  .change fun s => tol.inode s p _ (same s)

theorem growDir_keeps (p : Nat) : Keeps R (growDir p) := setInode_keeps tol fun _ => ⟨rfl, rfl, rfl⟩

theorem setSector_keeps (p k : Nat) (lba : Word) :
    Keeps R (modify fun s => s.setInode p ((s.heap p).setSector k lba) : FsM PUnit) :=
  setInode_keeps tol fun _ => .setSector _ _ _

theorem allocSynced_keeps : Keeps R allocSynced :=
  (blockBitmapAlloc_keeps tol).bind fun _ => .ite (.ret _) (Keeps.look.bind fun _ => (Keeps.check _ _).bind fun _ =>
    (bitmapSync_keeps tol _ _).bind fun _ => .ret _)

theorem putNewEntry_keeps (p : Nat) (entry : DirEntry) (lba : Word) : Keeps R (putNewEntry p entry lba) :=
  Keeps.look.bind fun _ => (ideWrite_keeps tol _ _ _).bind fun _ => (growDir_keeps tol p).bind fun _ => .ret _

theorem enterNewBlock_keeps (p : Nat) (entry : DirEntry) (blocks : Nat → Word) (k : Nat) (lba : Word) :
    Keeps R (enterNewBlock p entry blocks k lba) := by
  refine .ite ((setSector_keeps tol p k lba).bind fun _ => putNewEntry_keeps tol p entry lba) (.ite ?_ ?_)
  · refine (setSector_keeps tol p 12 lba).bind fun _ => (allocSynced_keeps tol).bind fun found => ?_
    cases found with
    | none =>
      exact Keeps.look.bind fun _ => (blockBitSet_keeps tol _ _).bind fun _ =>
        (setSector_keeps tol p 12 0).bind fun _ => .ret _
    | some first => exact (ideWrite_keeps tol _ _ _).bind fun _ => putNewEntry_keeps tol p entry first
  · exact Keeps.look.bind fun _ => (ideWrite_keeps tol _ _ _).bind fun _ => putNewEntry_keeps tol p entry lba

theorem syncNewBlock_keeps (p : Nat) (entry : DirEntry) (blocks : Nat → Word) (k : Nat) :
    Keeps R (syncNewBlock p entry blocks k) :=
  (allocSynced_keeps tol).bind fun found => by
    cases found
    · exact .ret _
    · exact enterNewBlock_keeps tol _ _ _ _ _

theorem syncBlocks_keeps (p : Nat) (entry : DirEntry) (blocks : Nat → Word) (left : Nat) :
    Keeps R (syncBlocks p entry blocks left) := by
  induction left with
  | zero => exact .ret _
  | succ left ih =>
    exact .ite (syncNewBlock_keeps tol _ _ _ _) (Keeps.look.bind fun _ => (ideRead_keeps _ _).bind fun _ =>
      .ite ((ideWrite_keeps tol _ _ _).bind fun _ => (growDir_keeps tol p).bind fun _ => .ret _) ih)

theorem syncDirEntry_keeps (p : Nat) (entry : DirEntry) : Keeps R (syncDirEntry p entry) :=
  Keeps.look.bind fun _ => (Keeps.check _ _).bind fun _ => syncBlocks_keeps tol _ _ _ _

theorem deleteFound_keeps (p : Nat) (lba : Word) (k : Nat) (buf : Memory) (scan : SectorScan) (j : Nat) :
    Keeps R (deleteFound p lba k buf scan j) :=
  Keeps.look.bind fun _ => .ite ((blockBitSet_keeps tol _ _).bind fun _ => (bitmapSync_keeps tol _ _).bind fun _ =>
    .ite (setSector_keeps tol _ _ _) (.stop _)) (ideWrite_keeps tol _ _ _)

theorem shrinkDir_keeps (p : Nat) : Keeps R (shrinkDir p) :=
  Keeps.read fun s => within_require_bind fun _ =>
    within_bind (within_set (tol.inode s p _ ⟨rfl, rfl, rfl⟩)) fun _ =>
      (Keeps.look.bind fun _ => inodeSync_keeps tol _).within

theorem deleteBlocks_keeps (p : Nat) (n : Word) (blocks : Nat → Word) (left : Nat) :
    Keeps R (deleteBlocks p n blocks left) := by
  induction left with
  | zero => exact .ret _
  | succ left ih =>
    refine .ite ih (Keeps.look.bind fun _ => (ideRead_keeps _ _).bind fun _ =>
      (scanSector_keeps _ _ _).bind fun scan => ?_)
    cases scan.dirEntryFound with
    | none => exact ih
    | some k =>
      exact (Keeps.check _ _).bind fun _ => (deleteFound_keeps tol _ _ _ _ _ _).bind fun _ =>
        (shrinkDir_keeps tol p).bind fun _ => .ret _

theorem deleteDirEntry_keeps (p : Nat) (n : Word) : Keeps R (deleteDirEntry p n) :=
  Keeps.look.bind fun _ => (readTable_keeps _).bind fun _ => deleteBlocks_keeps tol _ _ _ _

end

end LaiMiniOs
