import LaiMiniOs.Fs.RoundTrip

/-! The block bitmap and the blocks of the inodes. -/

set_option autoImplicit false

namespace LaiMiniOs
open Foundation Function

/-- A write sets the bits of the blocks that the file gets, and a release clears those of the
blocks that the inode had. -/
theorem blocks_accounted {s : Fs} (layout : Layout s.part) :
    (∀ (fdIdx p has : Nat) (src : Memory) (count : Word) (s' : Fs), (s.fileTable fdIdx).fdInode = some p →
      s.Owns (s.heap p) → s.FileShape (s.heap p) has →
      fileWrite fdIdx src count s = .ok ((count.toNat : Int), s') →
      (∀ i, (s'.volume.bit .block i = true ∧ s.volume.bit .block i = false ↔
          s'.volume.Reaches (s'.heap p) (s.part.sb.dataStartLba.toNat + i) ∧
            ¬ s.volume.Reaches (s.heap p) (s.part.sb.dataStartLba.toNat + i)) ∧
        (s.volume.bit .block i = true → s'.volume.bit .block i = true)) ∧
      s'.Owns (s'.heap p) ∧ s'.volume.HasBlocks (s'.heap p) ((s'.heap p).iSize.toNat / 512 + 1)) ∧
    (∀ (n : Word) (inode : Inode), s.toKernel.Sound → s.toKernel.seen n (s.volume.record n.toNat) = inode →
      s.Owns inode →
      (∀ s', inodeRelease n s = .ok ((), s') →
        (∀ i, s'.volume.bit .block i = true ↔ s.volume.bit .block i = true ∧
          ¬ s.volume.Reaches inode (s.part.sb.dataStartLba.toNat + i)) ∧
        ∀ j, s'.volume.bit .inode j = true ↔ s.volume.bit .inode j = true ∧ j ≠ n.toNat) ∧
      (n.toNat < 4096 → inode.iNo = n → (inode.sector 12).toNat ≤ maxLba →
        ¬ s.volume.Reaches inode s.part.sb.dataStartLba.toNat → ∃ s', inodeRelease n s = .ok ((), s'))) := by
  constructor
  · intro fdIdx p has src count s' held owns shape run
    obtain ⟨_, _, _, _, writes⟩ := (fileWrite_eq_ok layout held).mp run
    obtain ⟨written, -⟩ := writes.written layout owns shape
    grind [written.extended.newly, written.extended.owns, written.inode, written.noWrap, written.hasBlocks]
  · intro n inode sound seen owns
    constructor
    · intro s' run
      obtain ⟨small, number, onDisk, away⟩ := inodeRelease_requires layout seen owns run
      obtain ⟨t, run', released⟩ := inodeRelease_eq layout sound small seen number (owns.inData away) onDisk
      rw [run, Except.ok.injEq, Prod.mk.injEq] at run'
      obtain ⟨-, rfl⟩ := run'
      refine ⟨released.blockBits, fun j => ?_⟩
      rw [released.inodeBits, update_apply]
      by_cases here : j = n.toNat
      · simp [here]
      · simp [here]
    grind [inodeRelease_eq, owns.inData]

theorem blocks_accounted_three_bytes : ∃ s' s'', fileWrite 3 (bufferOf [1, 2, 3]) 3 newFileFs = .ok (3, s') ∧
    inodeRelease 0 s' = .ok ((), s'') ∧ ∀ i, s''.volume.bit .block i = newFileFs.volume.bit .block i := by
  have new := newFile_newFileFs
  have length : (newFileFs.heap 0).iSize.toNat + (3 : Word).toNat = 3 := by simp [new.size]
  obtain ⟨s', run, written, ready, -⟩ := fileWrite_of_room (bufferOf [1, 2, 3]) 3 new.layout new.held new.ready new.root
    (by rw [length]; omega) (by rw [length]; exact Nat.le_trans (by decide) (Nat.le_add_right_of_le room_newFileFs))
  have returned : fileWrite 3 (bufferOf [1, 2, 3]) 3 newFileFs = .ok (3, s') := run
  obtain ⟨newly, owns, -⟩ := (blocks_accounted new.layout).1 3 0 0 (bufferOf [1, 2, 3]) 3 s' new.held new.ready.owns
    new.ready.shape run
  have layout' := new.layout.congr written.extended.geometry
  have none : s'.openInodes = [] := by
    rw [written.kernel]
    rfl
  have seen : s'.toKernel.seen 0 (s'.volume.record (0 : Word).toNat) = (s'.heap 0).pureInode := by
    have missing : s'.toKernel.cached 0 = .none := by rw [Kernel.cached, none]; rfl
    rw [Kernel.seen, missing, written.record]
    exact update_self _ _ _
  have sound : s'.toKernel.Sound := ⟨by simp [none], by simp [none], by simp [none]⟩
  have reaches (lba : Nat) : s'.volume.Reaches (s'.heap 0).pureInode lba ↔ s'.volume.Reaches (s'.heap 0) lba := by
    have pointer := Volume.pointer_congr (v := s'.volume) (Inode.sector_pureInode (s'.heap 0)) (fun _ => rfl)
    simp only [Volume.Reaches, pointer]
  have before (i : Nat) : ¬ newFileFs.volume.Reaches (newFileFs.heap 0) i := by
    rintro ⟨k, -, some, -⟩
    exact some (new.pointer k)
  -- The root directory's block was in use, so the file has got another one.
  have fresh (i : Nat) (used : newFileFs.volume.bit .block i = true) :
      ¬ s'.volume.Reaches (s'.heap 0) (newFileFs.part.sb.dataStartLba.toNat + i) := by grind
  obtain ⟨exact_, returns⟩ := (blocks_accounted layout').2 0 _ sound seen (owns.of_sectors fun _ => rfl)
  have sb := written.extended.sb
  obtain ⟨s'', release⟩ := returns (by decide) (by rw [written.inode]; rfl)
    (ready.onDisk 140 (Nat.le_refl _)) (by rw [reaches, sb]; exact fresh 0 new.root)
  grind

end LaiMiniOs
