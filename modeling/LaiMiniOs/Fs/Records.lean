import Mathlib.Data.List.Basic
import LaiMiniOs.Foundation.Memory
import Mathlib.Tactic.ByContra

/-! The records that the file system keeps in memory and on disk, with their images.

Sizes are those of the 32-bit build: `bool` is `int`, so a `struct inode` is nineteen
words (76 bytes) and a `struct dir_entry` is sixteen characters and two words (24 bytes).
-/

set_option autoImplicit false

namespace LaiMiniOs
open Foundation

/-- `struct list_elem`; `0` is `NULL`. -/
structure ListElem where
  prev : Word
  next : Word
  deriving DecidableEq

structure Inode where
  iNo : Word
  iSize : Word
  iOpenCnts : Word
  writeDeny : Word
  iSectors : Vector Word 13
  inodeTag : ListElem
  deriving DecidableEq

def inodeSize : Nat := 76

namespace Inode

theorem zero_lt_sectors : 0 < 13 := by decide

def sector (inode : Inode) (k : Nat) : Word := if h : k < 13 then inode.iSectors[k] else 0

def setSector (inode : Inode) (k : Nat) (lba : Word) : Inode :=
  { inode with iSectors := inode.iSectors.setIfInBounds k lba }

theorem sector_setSector (inode : Inode) (k j : Nat) (lba : Word) :
    (inode.setSector k lba).sector j = if j = k ∧ k < 13 then lba else inode.sector j := by
  by_cases hj : j < 13
  · by_cases same : j = k
    · subst same
      simp [sector, setSector, hj]
    · simp [sector, setSector, hj, same, Ne.symm same]
  · have outside : ¬ (j = k ∧ k < 13) := by rintro ⟨rfl, h⟩; exact hj h
    simp [sector, hj, outside]

def withSectors (inode : Inode) (sectors : Vector Word 13) : Inode := { inode with iSectors := sectors }

@[simp] theorem withSectors_withSectors (inode : Inode) (sectors sectors' : Vector Word 13) :
    (inode.withSectors sectors).withSectors sectors' = inode.withSectors sectors' := rfl

@[simp] theorem withSectors_self (inode : Inode) : inode.withSectors inode.iSectors = inode := rfl

def words (inode : Inode) (k : Nat) : Word :=
  if k = 0 then inode.iNo else if k = 1 then inode.iSize else if k = 2 then inode.iOpenCnts
  else if k = 3 then inode.writeDeny else if k < 17 then inode.sector (k - 4)
  else if k = 17 then inode.inodeTag.prev else inode.inodeTag.next

def image (inode : Inode) : Memory := Memory.ofWords inode.words

def read (m : Memory) (a : Nat) : Inode where
  iNo := m.word a
  iSize := m.word (a + 4)
  iOpenCnts := m.word (a + 8)
  writeDeny := m.word (a + 12)
  iSectors := Vector.ofFn fun k => m.word (a + 16 + 4 * k.val)
  inodeTag := ⟨m.word (a + 68), m.word (a + 72)⟩

theorem read_congr {m m' : Memory} {a a' : Nat} (h : ∀ i, i < 76 → m (a + i) = m' (a' + i)) :
    read m a = read m' a' := by
  have same (o : Nat) (ho : o + 4 ≤ 76) : m.word (a + o) = m'.word (a' + o) := by
    simp only [Memory.word, Nat.add_assoc, h o (by omega), h (o + 1) (by omega), h (o + 2) (by omega),
      h (o + 3) (by omega)]
  have first := same 0 (by omega)
  have sectors (k : Fin 13) : m.word (a + 16 + 4 * k.val) = m'.word (a' + 16 + 4 * k.val) := by
    have := same (16 + 4 * k.val) (by omega)
    simpa only [Nat.add_assoc] using this
  grind [read]

theorem read_splice_image (d : Memory) (a : Nat) (inode : Inode) :
    read (d.splice a inode.image inodeSize) a = inode := by
  have stored (k : Nat) (hk : k < 19) :
      (d.splice a inode.image inodeSize).word (a + 4 * k) = inode.words k := by
    rw [Memory.word_splice_inside (by omega) (by simp only [inodeSize]; omega), Nat.add_sub_cancel_left]
    exact Memory.word_ofWords _ _
  have first := stored 0 (by omega)
  simp only [Nat.mul_zero, Nat.add_zero] at first
  have sectors : Vector.ofFn (fun k : Fin 13 => (d.splice a inode.image inodeSize).word (a + 16 + 4 * k.val)) =
      inode.iSectors := by
    apply Vector.ext
    intro k hk
    have entry := stored (4 + k) (by omega)
    rw [show a + 4 * (4 + k) = a + 16 + 4 * k by omega] at entry
    simp only [Vector.getElem_ofFn, entry, words, sector]
    simp [hk, show 4 + k ≠ 1 by omega, show 4 + k ≠ 2 by omega,
      show 4 + k ≠ 3 by omega, show 4 + k < 17 by omega]
  have tail := stored 17 (by omega)
  have last := stored 18 (by omega)
  have size := stored 1 (by omega)
  have count := stored 2 (by omega)
  have deny := stored 3 (by omega)
  simp only [read, first, sectors, tail, last, size, count, deny]
  rfl

/-- What `inode_sync` stores: the members that only live in memory are cleared. -/
def pureInode (inode : Inode) : Inode :=
  { inode with iOpenCnts := 0, writeDeny := 0, inodeTag := ⟨0, 0⟩ }

@[simp] theorem sector_pureInode (inode : Inode) (k : Nat) : inode.pureInode.sector k = inode.sector k := rfl

end Inode

inductive FileType where
  | unknown
  | regular
  | directory
  deriving DecidableEq, Repr

def FileType.code : FileType → Word
  | .unknown => 0
  | .regular => 1
  | .directory => 2

structure DirEntry where
  filename : Vector Byte 16
  iNo : Word
  fType : Word
  deriving DecidableEq

def dirEntrySize : Nat := 24

namespace DirEntry

def image (entry : DirEntry) : Memory := fun i =>
  if h : i < 16 then entry.filename[i]
  else Memory.wordByte (if i < 20 then entry.iNo else entry.fType) (i % 4)

def read (m : Memory) (a : Nat) : DirEntry where
  filename := Vector.ofFn fun k => m (a + k.val)
  iNo := m.word (a + 16)
  fType := m.word (a + 20)

theorem read_congr {m m' : Memory} {a a' : Nat} (h : ∀ i, i < 24 → m (a + i) = m' (a' + i)) :
    read m a = read m' a' := by
  have same (o : Nat) (ho : o + 4 ≤ 24) : m.word (a + o) = m'.word (a' + o) := by
    simp only [Memory.word, Nat.add_assoc, h o (by omega), h (o + 1) (by omega), h (o + 2) (by omega),
      h (o + 3) (by omega)]
  have name (k : Fin 16) : m (a + k.val) = m' (a' + k.val) := h k.val (by omega)
  simp only [read, same 16 (by omega), same 20 (by omega), name]

theorem word_image_iNo (entry : DirEntry) : entry.image.word 16 = entry.iNo := by
  simpa [Memory.word, image] using Memory.word_of_bytes entry.iNo

theorem word_image_fType (entry : DirEntry) : entry.image.word 20 = entry.fType := by
  simpa [Memory.word, image] using Memory.word_of_bytes entry.fType

theorem read_splice_image (d : Memory) (a : Nat) (entry : DirEntry) :
    read (d.splice a entry.image dirEntrySize) a = entry := by
  have number : (d.splice a entry.image dirEntrySize).word (a + 16) = entry.iNo := by
    grind [Memory.word_splice_inside, dirEntrySize, word_image_iNo]
  have kind : (d.splice a entry.image dirEntrySize).word (a + 20) = entry.fType := by
    grind [Memory.word_splice_inside, dirEntrySize, word_image_fType]
  have name : Vector.ofFn (fun k : Fin 16 => d.splice a entry.image dirEntrySize (a + k.val)) =
      entry.filename := by grind [Memory.splice_inside, dirEntrySize, image]
  simp only [read, number, kind, name]

end DirEntry

structure SuperBlock where
  magic : Word
  secCnt : Word
  inodeCnt : Word
  partLbaBase : Word
  blockBitmapLba : Word
  blockBitmapSects : Word
  inodeBitmapLba : Word
  inodeBitmapSects : Word
  inodeTableLba : Word
  inodeTableSects : Word
  dataStartLba : Word
  rootInodeNo : Word
  dirEntrySize : Word
  deriving DecidableEq

namespace SuperBlock

def words (sb : SuperBlock) : Vector Word 13 :=
  #v[sb.magic, sb.secCnt, sb.inodeCnt, sb.partLbaBase, sb.blockBitmapLba, sb.blockBitmapSects, sb.inodeBitmapLba,
    sb.inodeBitmapSects, sb.inodeTableLba, sb.inodeTableSects, sb.dataStartLba, sb.rootInodeNo, sb.dirEntrySize]

/-- The sector that holds the record. Nothing sets the padding, so it comes from the stack. -/
def image (sb : SuperBlock) (pad : Memory) : Memory :=
  pad.splice 0 (Memory.ofWords fun k => if h : k < 13 then sb.words[k] else 0) 52

def read (m : Memory) : SuperBlock where
  magic := m.word (4 * 0)
  secCnt := m.word (4 * 1)
  inodeCnt := m.word (4 * 2)
  partLbaBase := m.word (4 * 3)
  blockBitmapLba := m.word (4 * 4)
  blockBitmapSects := m.word (4 * 5)
  inodeBitmapLba := m.word (4 * 6)
  inodeBitmapSects := m.word (4 * 7)
  inodeTableLba := m.word (4 * 8)
  inodeTableSects := m.word (4 * 9)
  dataStartLba := m.word (4 * 10)
  rootInodeNo := m.word (4 * 11)
  dirEntrySize := m.word (4 * 12)

theorem read_congr {m m' : Memory} (h : Memory.AgreeOn 0 52 m m') : read m = read m' := by
  have same (k : Nat) (hk : k < 13) : m.word (4 * k) = m'.word (4 * k) :=
    Memory.word_congr (h.mono (by omega) (by omega))
  simp only [read, same 0 (by decide), same 1 (by decide), same 2 (by decide), same 3 (by decide),
    same 4 (by decide), same 5 (by decide), same 6 (by decide), same 7 (by decide), same 8 (by decide),
    same 9 (by decide), same 10 (by decide), same 11 (by decide), same 12 (by decide)]

theorem read_image (sb : SuperBlock) (pad : Memory) : read (sb.image pad) = sb := by
  have stored (k : Nat) (hk : k < 13) : (sb.image pad).word (4 * k) = sb.words[k] := by
    grind [image, Memory.word_splice_inside, Memory.word_ofWords]
  simp only [read, stored 0 (by decide), stored 1 (by decide), stored 2 (by decide), stored 3 (by decide),
    stored 4 (by decide), stored 5 (by decide), stored 6 (by decide), stored 7 (by decide), stored 8 (by decide),
    stored 9 (by decide), stored 10 (by decide), stored 11 (by decide), stored 12 (by decide)]
  rfl

end SuperBlock

end LaiMiniOs
