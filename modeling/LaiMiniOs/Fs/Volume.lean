import LaiMiniOs.Fs.InodeTable

/-! What the sectors of a partition stand for.

A volume is the partition with its encoding taken away: the inode records, the blocks of
the data area, and the two bitmaps, each as it is in memory and as it is stored. The
areas of a partition are disjoint, so every write of the file-system code changes one
component of the volume at one place.
-/

set_option autoImplicit false

namespace LaiMiniOs
open Foundation Function

inductive BitmapType where
  | inode
  | block
  deriving DecidableEq

def Partition.bitmap (part : Partition) : BitmapType → Bitmap
  | .inode => part.inodeBitmap
  | .block => part.blockBitmap

def Partition.setBitmap (part : Partition) (t : BitmapType) (btmp : Bitmap) : Partition :=
  match t with
  | .inode => { part with inodeBitmap := btmp }
  | .block => { part with blockBitmap := btmp }

def SuperBlock.bitmapLba (sb : SuperBlock) : BitmapType → Word
  | .inode => sb.inodeBitmapLba
  | .block => sb.blockBitmapLba

def Partition.bitCount (part : Partition) (t : BitmapType) : Nat := 8 * (part.bitmap t).btmpBytesLen

def Partition.geometry (part : Partition) : Word × Word × SuperBlock × Nat × Nat :=
  (part.startLba, part.secCnt, part.sb, part.blockBitmap.btmpBytesLen, part.inodeBitmap.btmpBytesLen)

theorem Layout.congr {p q : Partition} (layout : Layout p) (same : q.geometry = p.geometry) : Layout q := by
  simp only [Partition.geometry, Prod.mk.injEq] at same
  obtain ⟨start, size, sb, blocks, inodes⟩ := same
  obtain ⟨h₁, h₂, h₃, h₄, h₅, h₆, h₇, h₈, h₉, h₁₀, h₁₁, h₁₂⟩ := layout
  constructor <;> simp only [start, size, sb, blocks, inodes] <;> assumption

theorem Layout.bitmapArea {part : Partition} (layout : Layout part) (t : BitmapType) :
    part.startLba.toNat + 2 ≤ (part.sb.bitmapLba t).toNat ∧ 4096 ∣ part.bitCount t ∧
      (part.sb.bitmapLba t).toNat + part.bitCount t / 4096 ≤ part.sb.inodeTableLba.toNat := by
  obtain ⟨h₁, h₂, h₃, h₄, h₅, h₆, h₇, h₈, h₉, h₁₀, h₁₁, h₁₂⟩ := layout
  cases t <;> simp only [SuperBlock.bitmapLba, Partition.bitCount, Partition.bitmap] <;> omega

theorem Layout.bitmapsApart {part : Partition} (layout : Layout part) {t t' : BitmapType} (apart : t ≠ t') :
    (part.sb.bitmapLba t).toNat + part.bitCount t / 4096 ≤ (part.sb.bitmapLba t').toNat ∨
      (part.sb.bitmapLba t').toNat + part.bitCount t' / 4096 ≤ (part.sb.bitmapLba t).toNat := by
  obtain ⟨h₁, h₂, h₃, h₄, h₅, h₆, h₇, h₈, h₉, h₁₀, h₁₁, h₁₂⟩ := layout
  cases t <;> cases t' <;>
    simp only [SuperBlock.bitmapLba, Partition.bitCount, Partition.bitmap, ne_eq, not_true_eq_false] at apart ⊢
      <;> omega

def Inode.blank : Inode := ⟨0, 0, 0, 0, Vector.replicate 13 0, ⟨0, 0⟩⟩

@[ext] structure Volume where
  record : Nat → Inode
  /-- The contents of the data area by sector number. -/
  block : Nat → Memory
  bit : BitmapType → Nat → Bool
  /-- The bitmaps on disk. -/
  stored : BitmapType → Nat → Bool

namespace Volume

def putRecord (v : Volume) (n : Nat) (inode : Inode) : Volume :=
  { v with record := update v.record n inode }

def putBlock (v : Volume) (lba : Nat) (buf : Memory) : Volume :=
  { v with block := update v.block lba (buf.clip 512) }

def setBit (v : Volume) (t : BitmapType) (i : Nat) (value : Bool) : Volume :=
  { v with bit := update v.bit t (update (v.bit t) i value) }

def sync (v : Volume) (t : BitmapType) (i : Nat) : Volume :=
  { v with stored := update v.stored t fun j => if j / 4096 = i / 4096 then v.bit t j else v.stored t j }

end Volume

def storedBit (s : Fs) (t : BitmapType) (i : Nat) : Bool :=
  if i < s.part.bitCount t then Bitmap.bit ⟨0, s.disk.window (512 * (s.part.sb.bitmapLba t).toNat)⟩ i else false

def Fs.volume (s : Fs) : Volume where
  record n := if n < 4096 then inodeAt s n else Inode.blank
  block lba := if s.part.sb.dataStartLba.toNat ≤ lba then sectors s.disk lba 1 else Memory.zero
  bit t := (s.part.bitmap t).bit
  stored := storedBit s

def Fs.putSector (s : Fs) (lba : Nat) (buf : Memory) : Fs :=
  { s with disk := storeSectors s.disk lba buf 1 }

theorem ideWrite_one {s : Fs} {lba : Word} (onDisk : lba.toNat ≤ maxLba) (buf : Memory) :
    ideWrite lba buf 1 s = .ok ((), s.putSector lba.toNat buf) :=
  ideWrite_eq (addressable_one.mpr onDisk)

def Fs.setBit (s : Fs) (t : BitmapType) (i : Nat) (value : Bool) : Fs :=
  { s with part := s.part.setBitmap t ((s.part.bitmap t).set i value) }

def Fs.syncBits (s : Fs) (t : BitmapType) (i : Nat) : Fs :=
  s.putSector ((s.part.sb.bitmapLba t).toNat + i / 4096) ((s.part.bitmap t).bits.window (i / 4096 * 512))

theorem sector_blank (k : Nat) : Inode.blank.sector k = 0 := by
  unfold Inode.sector Inode.blank
  split <;> simp

theorem image_blank : Inode.blank.image = Memory.zero := by
  have words (k : Nat) : Inode.blank.words k = 0 := by grind [Inode.words, sector_blank, Inode.blank]
  funext a
  rw [Inode.image, Memory.ofWords, words]
  simp [Memory.wordByte, Memory.zero]

section
variable {s s' : Fs}

theorem record_congr (same : s'.part.sb = s.part.sb)
    (agree : ∀ a, 512 * s.part.sb.inodeTableLba.toNat ≤ a → a < 512 * s.part.sb.inodeTableLba.toNat + 512 * 608 →
      s'.disk a = s.disk a) : s'.volume.record = s.volume.record := by
  funext n
  simp only [Fs.volume, inodeAt, recordAddr, same]
  split
  next h => exact Inode.read_congr fun i hi => agree _ (by omega) (by omega)
  next => rfl

theorem block_congr (same : s'.part.sb = s.part.sb)
    (agree : ∀ a, 512 * s.part.sb.dataStartLba.toNat ≤ a → s'.disk a = s.disk a) :
    s'.volume.block = s.volume.block := by
  funext lba
  simp only [Fs.volume, same]
  split
  next low => exact Memory.clip_congr fun i _ => agree _ (by omega)
  next => rfl

theorem stored_congr {t : BitmapType} (same : s'.part.geometry = s.part.geometry)
    (agree : ∀ a, 512 * (s.part.sb.bitmapLba t).toNat ≤ a →
      8 * a < 4096 * (s.part.sb.bitmapLba t).toNat + s.part.bitCount t → s'.disk a = s.disk a) :
    s'.volume.stored t = s.volume.stored t := by
  simp only [Partition.geometry, Prod.mk.injEq] at same
  obtain ⟨-, -, sb, blocks, inodes⟩ := same
  have count : s'.part.bitCount t = s.part.bitCount t := by
    cases t <;> simp only [Partition.bitCount, Partition.bitmap, blocks, inodes]
  funext i
  simp only [Fs.volume, storedBit, count, sb]
  split
  next inside =>
    simp only [Bitmap.bit, Memory.window]
    rw [agree _ (by omega) (by omega)]
  next outside => rfl

end

section
variable {s : Fs}

@[simp] theorem geometry_syncBits (s : Fs) (t : BitmapType) (i : Nat) :
    (s.syncBits t i).part.geometry = s.part.geometry := rfl

@[simp] theorem geometry_setBit (s : Fs) (t : BitmapType) (i : Nat) (value : Bool) :
    (s.setBit t i value).part.geometry = s.part.geometry := by
  cases t <;> rfl

theorem bitmap_setBitmap (part : Partition) (t t' : BitmapType) (btmp : Bitmap) :
    (part.setBitmap t btmp).bitmap t' = if t' = t then btmp else part.bitmap t' := by
  cases t <;> cases t' <;> rfl

theorem volume_setBit (s : Fs) (t : BitmapType) (i : Nat) (value : Bool) :
    (s.setBit t i value).volume = s.volume.setBit t i value := by
  have sb : (s.setBit t i value).part.sb = s.part.sb := by cases t <;> rfl
  have bits (t' : BitmapType) : ((s.setBit t i value).part.bitmap t').bit =
      update s.volume.bit t (update (s.volume.bit t) i value) t' := by
    unfold Fs.setBit
    rw [bitmap_setBitmap]
    by_cases same : t' = t
    · subst same
      rw [if_pos rfl, update_self]
      funext j
      rw [Bitmap.bit_set, update_apply]
      rfl
    · rw [if_neg same, update_of_ne same]
      rfl
  apply Volume.ext
  · exact record_congr sb fun _ _ _ => rfl
  · exact block_congr sb fun _ _ => rfl
  · exact funext bits
  · exact funext fun t' => stored_congr (geometry_setBit s t i value) fun _ _ _ => rfl

variable (layout : Layout s.part)
include layout

theorem volume_putRecord {n : Nat} (h : n < 4096) (inode : Inode) :
    (putRecord s n inode.image).volume = s.volume.putRecord n inode := by
  have data := layout.dataStart
  apply Volume.ext
  · funext j
    simp only [Volume.putRecord, update_apply]
    split
    next same =>
      subst same
      simp [Fs.volume, h]
    next apart => simp only [Fs.volume, inodeAt_putRecord_of_ne apart]
  · refine block_congr rfl fun a low => Memory.splice_outside ?_
    simp only [recordAddr, inodeSize]
    omega
  · rfl
  · funext t
    obtain ⟨-, whole, below⟩ := layout.bitmapArea t
    refine stored_congr rfl fun a _ high => Memory.splice_outside ?_
    simp only [recordAddr]
    omega

theorem volume_putSector {lba : Nat} (low : s.part.sb.dataStartLba.toNat ≤ lba) (buf : Memory) :
    (s.putSector lba buf).volume = s.volume.putBlock lba buf := by
  have data := layout.dataStart
  apply Volume.ext
  · exact record_congr rfl fun a _ _ => Memory.splice_outside (by omega)
  · funext lba'
    simp only [Volume.putBlock, update_apply]
    split
    next same =>
      subst same
      have inData : (s.putSector lba' buf).part.sb.dataStartLba.toNat ≤ lba' := low
      simp only [Fs.volume, inData, ite_true]
      exact sectors_storeSectors_self _ _ _ _
    next apart =>
      simp only [Fs.volume, Fs.putSector, sectors_storeSectors_of_apart s.disk buf
        (by omega : lba' + 1 ≤ lba ∨ lba + 1 ≤ lba')]
  · rfl
  · funext t
    obtain ⟨-, whole, below⟩ := layout.bitmapArea t
    exact stored_congr rfl fun a _ _ => Memory.splice_outside (by omega)

theorem volume_syncBits {t : BitmapType} {i : Nat} (h : i < s.part.bitCount t) :
    (s.syncBits t i).volume = s.volume.sync t i := by
  have data := layout.dataStart
  obtain ⟨-, whole, below⟩ := layout.bitmapArea t
  -- The sector that is written is one of the sectors of this map.
  have sector : i / 4096 < s.part.bitCount t / 4096 := by omega
  apply Volume.ext
  · exact record_congr rfl fun a _ _ => Memory.splice_outside (by omega)
  · exact block_congr rfl fun a _ => Memory.splice_outside (by omega)
  · rfl
  · funext t'
    simp only [Volume.sync, update_apply]
    split
    next same =>
      subst same
      funext j
      have count : (s.syncBits t' i).part.bitCount t' = s.part.bitCount t' := rfl
      simp only [Fs.volume, storedBit, count]
      by_cases inSector : j / 4096 = i / 4096
      · rw [if_pos (by omega), if_pos inSector]
        simp only [Bitmap.bit, Memory.window, Fs.syncBits, Fs.putSector, storeSectors]
        grind [Memory.splice_inside, Memory.window]
      · rw [if_neg inSector]
        split
        next inside =>
          simp only [Bitmap.bit, Memory.window, Fs.syncBits, Fs.putSector, storeSectors]
          rw [Memory.splice_outside (by omega)]
        next => rfl
    next apart =>
      obtain ⟨-, whole', below'⟩ := layout.bitmapArea t'
      have areas := layout.bitmapsApart apart
      exact stored_congr rfl fun a _ _ => Memory.splice_outside (by omega)

end

end LaiMiniOs
