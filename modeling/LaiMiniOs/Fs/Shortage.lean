import Mathlib.Order.Interval.Finset.Nat
import LaiMiniOs.Fs.RoundTrip

/-! Writes on a partition with too few free blocks.

`file_write` gives back `-1` when `block_bitmap_alloc` does, but `bitmap_scan` asserts that a map
which it searches has a free bit. So a write is refused for its size, or it stops the kernel.
-/

set_option autoImplicit false

namespace LaiMiniOs
open Foundation Prog

def Fs.freeBits (s : Fs) : Finset Nat := (Finset.range (s.part.bitCount .block)).filter fun i =>
  s.volume.bit .block i = false

/-- The positions that a file gets when it grows: those of its new blocks and that of a new table. -/
def newPositions (has will : Nat) : Finset Nat := Finset.Ico has will ∪ if has ≤ 12 ∧ 12 < will then {140} else ∅

section
variable {s : Fs}

theorem mem_newPositions {has will k : Nat} : k ∈ newPositions has will ↔ NewBlocks has will k := by
  unfold newPositions NewBlocks
  split <;> simp [*, or_comm]

theorem card_newPositions {has will : Nat} (less : has ≤ will) (small : will ≤ 140) :
    (newPositions has will).card + blocksOf has = blocksOf will := by
  unfold newPositions blocksOf
  by_cases crosses : has ≤ 12 ∧ 12 < will
  · have apart : Disjoint (Finset.Ico has will) {140} := by
      simp only [Finset.disjoint_singleton_right, Finset.mem_Ico]
      omega
    rw [if_pos crosses, Finset.card_union_of_disjoint apart, Nat.card_Ico, Finset.card_singleton]
    split <;> split <;> omega
  · rw [if_neg crosses, Finset.union_empty, Nat.card_Ico]
    split <;> split <;> omega

theorem FileWritten.blocks_le {fdIdx p has will : Nat} {src : Memory} {count : Word} {s' : Fs}
    (written : FileWritten fdIdx p has will src count s s') (less : has ≤ will) :
    blocksOf will ≤ s.freeBits.card + blocksOf has := by
  have small := written.small
  have inside (k : Nat) (new : k ∈ newPositions has will) : k ≤ 140 := by
    rcases mem_newPositions.mp new with ⟨-, below⟩ | ⟨rfl, -⟩ <;> omega
  have bound : (newPositions has will).card ≤ s.freeBits.card := by
    refine Finset.card_le_card_of_injOn
      (fun k => (s'.volume.pointer (s'.heap p) k).toNat - s.part.sb.dataStartLba.toNat) ?_ ?_
    · intro k new
      obtain ⟨i, ⟨below, sum⟩, clear⟩ := written.extended.free k (inside k new) (mem_newPositions.mp new)
      grind [Fs.freeBits]
    · intro k new k' new' same
      obtain ⟨i, ⟨-, sum⟩, -⟩ := written.extended.free k (inside k new) (mem_newPositions.mp new)
      obtain ⟨i', ⟨-, sum'⟩, -⟩ := written.extended.free k' (inside k' new') (mem_newPositions.mp new')
      grind [written.extended.apart, mem_newPositions, BitVec.eq_of_toNat_eq]
  have count := card_newPositions less small
  omega

theorem Fs.FileShape.has_le {inode : Inode} {has : Nat} (shape : s.FileShape inode has) (n : Nat) :
    has ≤ (inode.iSize.toNat + n) / 512 + 1 := by
  have := shape.size
  omega

/-- A write for which there are too few free blocks returns `-1`, and changes nothing so that a smaller
one still succeeds, exactly when the sum of size and count is over the limit. Otherwise it does not return.
That a write succeeds is said of its result; its stores stay in `io_buf` when the record is in one sector. -/
theorem fileWrite_short {fdIdx p has : Nat} {count : Word} (src : Memory) (layout : Layout s.part)
    (held : (s.fileTable fdIdx).fdInode = some p) (ready : s.FileReady (s.heap p) has)
    (root : s.volume.bit .block 0 = true)
    (short : s.freeBits.card + blocksOf has < blocksOf (((s.heap p).iSize.toNat + count.toNat) / 512 + 1)) :
    ((∃ s', fileWrite fdIdx src count s = .ok (-1, s') ∧ s' = s ∧
        ∀ (src' : Memory) (count' : Word), count'.toNat < count.toNat →
          (s.heap p).iSize.toNat + count'.toNat < 140 * 512 →
          blocksOf (((s.heap p).iSize.toNat + count'.toNat) / 512 + 1) ≤ s.free.card + blocksOf has →
          ∃ s'', fileWrite fdIdx src' count' s' = .ok ((count'.toNat : Int), s'')) ↔
      512 * 140 < ((s.heap p).iSize + count).toNat) ∧
    (((s.heap p).iSize + count).toNat ≤ 512 * 140 → ∃ fault, fileWrite fdIdx src count s = .error fault) := by
  have refused {r : Int × Fs} (run : fileWrite fdIdx src count s = .ok r) :
      512 * 140 < ((s.heap p).iSize + count).toNat := by
    rcases (fileWrite_returns layout held).mp run with ⟨limit, -⟩ | ⟨s₁, blocks, s₂, s₃, s', -, writes⟩
    · exact limit
    · have bound := (writes.written layout ready.owns ready.shape).1.blocks_le (ready.shape.has_le _)
      omega
  refine ⟨⟨fun ⟨s', run, _⟩ => refused run, fun limit => ?_⟩, fun fits => ?_⟩
  · refine ⟨s, (fileWrite_returns layout held).mpr (.inl ⟨limit, rfl⟩), rfl, fun src' count' _ inside room => ?_⟩
    obtain ⟨s'', run, -⟩ := fileWrite_of_room src' count' layout held ready root inside room
    exact ⟨s'', run⟩
  · cases run : fileWrite fdIdx src count s with
    | error fault => exact ⟨fault, rfl⟩
    | ok r =>
      have limit := refused run
      omega

theorem blockBitmapAlloc_full (full : ∀ i, i < s.part.bitCount .block → s.volume.bit .block i = true) :
    blockBitmapAlloc s = .error .assertion := by
  have scan : (s.part.bitmap .block).scan 1 = .error .assertion := Bitmap.scan_full full 1
  have take : takeBit .block s = .error .assertion := by
    rw [takeBit, get_bind]
    simp only [scan]
    rfl
  rw [blockBitmapAlloc, bind_of_error take]

theorem fileWrite_full {fdIdx p : Nat} (src : Memory) {count : Word} (held : (s.fileTable fdIdx).fdInode = some p)
    (full : ∀ i, i < s.part.bitCount .block → s.volume.bit .block i = true) (first : (s.heap p).sector 0 = 0)
    (fits : ((s.heap p).iSize + count).toNat ≤ 512 * 140) : fileWrite fdIdx src count s = .error .assertion := by
  have block : firstBlock p s = .error .assertion := by
    rw [firstBlock, get_bind, if_pos first, bind_of_error (blockBitmapAlloc_full full)]
  rw [fileWrite, get_bind]
  simp only [held]
  rw [get_bind, if_neg (by omega), bind_of_error block]

end

def fullFs : Fs := { newFileFs with
  disk := fun a => if a / 512 = 2 then 0xff else newFileFs.disk a
  part := { newFileFs.part with blockBitmap := ⟨512, fun _ => 0xff⟩ } }

theorem bit_fullFs (i : Nat) : fullFs.volume.bit .block i = true := by
  have ones : ∀ k, k < 8 → (0xff#8).getLsbD k = true := by decide
  exact ones (i % 8) (Nat.mod_lt _ (by decide))

theorem newFile_fullFs : fullFs.NewFile 3 0 where
  layout := newFile_newFileFs.layout.congr rfl
  root := bit_fullFs 0
  held := newFile_newFileFs.held
  size := rfl
  empty := newFile_newFileFs.empty

theorem freeBits_fullFs : fullFs.freeBits = ∅ := by
  simp [Fs.freeBits, bit_fullFs]

theorem fileWrite_short_limit : fileWrite 3 (bufferOf []) 71681 fullFs = .ok (-1, fullFs) := by
  have new := newFile_fullFs
  obtain ⟨s', run, same, -⟩ := (fileWrite_short (bufferOf []) new.layout new.held new.ready new.root
    (show fullFs.freeBits.card + blocksOf 0 <
      blocksOf (((fullFs.heap 0).iSize.toNat + (71681 : Word).toNat) / 512 + 1) by
      rw [freeBits_fullFs]
      decide)).1.mpr (by rw [new.size]; decide)
  rw [run, same]

/-- One byte, on a full partition: `bitmap_scan` fails its assertion. -/
theorem fileWrite_stops : fullFs.NewFile 3 0 ∧
    fullFs.freeBits.card + blocksOf 0 < blocksOf (((fullFs.heap 0).iSize.toNat + 1) / 512 + 1) ∧
    fileWrite 3 (bufferOf [7]) 1 fullFs = .error .assertion := by
  have new := newFile_fullFs
  refine ⟨new, by rw [freeBits_fullFs]; decide, fileWrite_full _ new.held (fun i _ => bit_fullFs i) (new.empty 0) ?_⟩
  rw [new.size]
  decide

end LaiMiniOs
