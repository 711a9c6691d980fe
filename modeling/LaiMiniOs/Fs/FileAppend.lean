import LaiMiniOs.Fs.ReadPieces

/-! What a write leaves alone.

A write goes to the blocks of the file, to the map of the blocks and to the record of the inode.
What it writes in the data area is known from the blocks of the file; here the sectors before the
data area are followed through the steps of the write.
-/

set_option autoImplicit false

namespace LaiMiniOs
open Foundation

def Fs.Bookkeeping (s : Fs) (lba : Nat) : Prop :=
  (s.part.sb.blockBitmapLba.toNat ≤ lba ∧ lba < s.part.sb.blockBitmapLba.toNat + s.part.sb.blockBitmapSects.toNat) ∨
    (s.part.sb.inodeTableLba.toNat ≤ lba ∧ lba < s.part.sb.inodeTableLba.toNat + 608)

/-- Before the data area only the map of the blocks and the inode table differ. -/
structure KeepsHead (s s' : Fs) : Prop where
  geometry : s'.part.geometry = s.part.geometry
  disk : ∀ lba, lba < s.part.sb.dataStartLba.toNat → ¬ s.Bookkeeping lba → sectors s'.disk lba 1 = sectors s.disk lba 1

section
variable {s s' s'' : Fs}

theorem sb_congr (same : s'.part.geometry = s.part.geometry) : s'.part.sb = s.part.sb := by
  simp only [Partition.geometry, Prod.mk.injEq] at same
  exact same.2.2.1

theorem KeepsHead.of_disk (geometry : s'.part.geometry = s.part.geometry) (disk : s'.disk = s.disk) : KeepsHead s s' :=
  ⟨geometry, fun _ _ _ => by rw [disk]⟩

theorem KeepsHead.trans (first : KeepsHead s s') (second : KeepsHead s' s'') : KeepsHead s s'' where
  geometry := second.geometry.trans first.geometry
  disk lba low other := by grind [sb_congr, first.geometry, second.disk, Fs.Bookkeeping, first.disk]

theorem keepsHead_putSector {lba : Nat} (buf : Memory) (inData : s.part.sb.dataStartLba.toNat ≤ lba) :
    KeepsHead s (s.putSector lba buf) :=
  ⟨rfl, fun _ low _ => sectors_storeSectors_of_apart _ _ (.inl (by omega))⟩

theorem keepsHead_mark (layout : Layout s.part) {i : Nat} (inside : i < s.part.bitCount .block) (value : Bool) :
    KeepsHead s (s.mark .block i value) where
  geometry := geometry_mark s .block i value
  disk lba _ other := by
    have bytes := layout.blockBytes
    have sector : i / 4096 < s.part.sb.blockBitmapSects.toNat := by
      simp only [Partition.bitCount, Partition.bitmap] at inside
      omega
    refine sectors_storeSectors_of_apart _ _ ?_
    rw [sb_setBit, SuperBlock.bitmapLba]
    unfold Fs.Bookkeeping at other
    omega

theorem keepsHead_putRecord {n : Nat} (small : n < 4096) (image : Memory) : KeepsHead s (putRecord s n image) where
  geometry := rfl
  disk lba _ other := by
    apply Memory.clip_congr
    intro i inside
    refine Memory.splice_outside ?_
    unfold Fs.Bookkeeping at other
    rw [recordAddr, inodeSize]
    omega

theorem keepsHead_addBlock (layout : Layout s.part) (p b : Nat) {i : Nat} (inside : i < s.part.bitCount .block) :
    KeepsHead s (s.addBlock p b i) := by
  have given : KeepsHead s (s.giveSector p b (s.lbaOf i)) := .of_disk (by rw [part_giveSector]) (by
    unfold Fs.giveSector
    split <;> rfl)
  exact given.trans
    (keepsHead_mark (by rw [part_giveSector]; exact layout) (by rw [part_giveSector]; exact inside) true)

theorem Grown.keepsHead {p b left : Nat} {blocks blocks' : Nat → Word} (layout : Layout s.part)
    (grown : Grown p s blocks b left blocks' s') : KeepsHead s s' := by
  induction grown with
  | done => exact .of_disk rfl rfl
  | @next _ _ _ _ b _ _ lowest empty rest ih =>
    have first := keepsHead_addBlock layout p b lowest.inside
    exact first.trans (ih (layout.congr first.geometry))

theorem TakesFirst.keepsHead {p : Nat} (layout : Layout s.part) (takes : TakesFirst p s s') : KeepsHead s s' := by
  cases takes with
  | present => exact .of_disk rfl rfl
  | taken none lowest => exact keepsHead_addBlock layout p 0 lowest.inside

theorem Collects.keepsHead {p has will : Nat} {blocks : Nat → Word} (layout : Layout s.part)
    (inData : (s.heap p).sector 12 ≠ 0 → s.part.sb.dataStartLba.toNat ≤ ((s.heap p).sector 12).toNat)
    (collects : Collects p s has will blocks s') : KeepsHead s s' := by
  cases collects with
  | last => exact .of_disk rfl rfl
  | lastIndirect => exact .of_disk rfl rfl
  | direct more low inside present grown => exact grown.keepsHead layout
  | @newTable _ s₁ i low high lowest none grown onDisk =>
    have table : KeepsHead s (s.addTable p i) := .of_disk (geometry_setBit s .block i true) rfl
    have grows := table.trans (grown.keepsHead (layout_addTable layout p i))
    refine grows.trans (keepsHead_putSector _ ?_)
    rw [sb_congr grows.geometry, toNat_lbaOf layout lowest.inside]
    omega
  | indirect more low high present onDisk grown =>
    have grows := grown.keepsHead layout
    refine grows.trans (keepsHead_putSector _ ?_)
    rw [sb_congr grows.geometry]
    exact inData present

theorem keepsHead_writeChunk (fdIdx p : Nat) {lba : Word} (buf data : Memory) (left : Nat)
    (inData : s.part.sb.dataStartLba.toNat ≤ lba.toNat) : KeepsHead s (s.writeChunk fdIdx p lba buf data left) :=
  ⟨rfl, (keepsHead_putSector _ inData).disk⟩

theorem writeLoop_keepsHead {fdIdx p count from_ z : Nat} {blocks : Nat → Word} {src : Memory} {first : Bool}
    (size : (s.heap p).iSize.toNat = z)
    (inData : ∀ x, z ≤ x → x < z + (count - from_) → s.part.sb.dataStartLba.toNat ≤ (blocks (x / 512)).toNat)
    (run : writeLoop fdIdx p blocks src count from_ first s = .ok ((), s')) : KeepsHead s s' := by
  -- By the bytes that are left; each round writes one sector of the data area.
  generalize left : count - from_ = n at inData
  induction n using Nat.strongRecOn generalizing s from_ z first with
  | ind n ih =>
    by_cases more : from_ < count
    · obtain ⟨inside, -, run⟩ := (writeLoop_step more).mp run
      have grows := size_writeChunk s fdIdx p (blocks ((s.heap p).iSize.toNat / 512))
        (if first then sectors s.disk (blocks ((s.heap p).iSize.toNat / 512)).toNat 1 else Memory.zero)
        (src.window from_) (count - from_) inside
      rw [size, left] at run grows
      have ends := chunkSize_ends (z := z) (n := n) (by omega)
      have round := keepsHead_writeChunk fdIdx p
        (if first then sectors s.disk (blocks (z / 512)).toNat 1 else Memory.zero) (src.window from_) n
        (inData z (Nat.le_refl _) (by omega))
      have rest := ih (n - chunkSize z n) (by omega) grows run (by omega)
        (fun x low high => inData x (by omega) (by omega))
      exact round.trans rest
    · rw [writeLoop_done (by omega)] at run
      cases run
      exact .of_disk rfl rfl

theorem Fs.Owns.inArea {inode : Inode} (owns : s.Owns inode) {k : Nat} (low : k ≤ 140)
    (some : s.volume.pointer inode k ≠ 0) :
    s.part.sb.dataStartLba.toNat ≤ (s.volume.pointer inode k).toNat := by
  obtain ⟨i, ⟨-, sum⟩, -⟩ := owns.used k low some
  omega

theorem Writes.keepsHead {fdIdx p has : Nat} {src : Memory} {count : Word} {s₁ s₂ s₃ : Fs} {blocks : Nat → Word}
    (writes : Writes fdIdx p src count s s₁ blocks s₂ s₃ s') (layout : Layout s.part) (owns : s.Owns (s.heap p))
    (shape : s.FileShape (s.heap p) has) : KeepsHead s s' := by
  obtain ⟨written, given⟩ := writes.written layout owns shape
  have layout₁ := layout.congr writes.first.geometry
  have owns' := written.extended.owns owns
  have takes := writes.first.keepsHead layout
  have sector : (s₁.heap p).sector 12 = (s.heap p).sector 12 := by
    cases writes.first with
    | present => rfl
    | taken => rw [(heap_addBlock s p 0 _).2, if_neg (by decide)]
  have collects := writes.collects.keepsHead layout₁ (by
    rw [sector, sb_congr takes.geometry]
    exact owns.inArea (Nat.le_refl 140))
  have head := takes.trans collects
  have size : ((s₂.seekLast fdIdx p).heap p).iSize.toNat = (s.heap p).iSize.toNat :=
    congrArg BitVec.toNat ((writes.collects.iSize layout₁).trans (writes.first.iSize))
  have less : has ≤ (s.heap p).iSize.toNat / 512 + 1 := by
    have := shape.size
    omega
  have loop := writeLoop_keepsHead size (fun x low high => by
    have sb : (s₂.seekLast fdIdx p).part.sb = s'.part.sb := by
      rw [sb_congr written.extended.geometry]
      exact sb_congr head.geometry
    have small := written.small
    have some := (written.hasBlocks (x / 512) (by omega)).mpr (by omega)
    rw [sb, given (x / 512) (by omega) (by omega)]
    exact owns'.inArea (by omega) some) writes.moves
  have moves : KeepsHead s₂ s₃ := ⟨loop.geometry, loop.disk⟩
  have record : syncSlot (s₃.heap p) < 4096 := by
    unfold syncSlot
    omega
  rw [writes.last]
  exact (head.trans moves).trans (keepsHead_putRecord record _)

/-- A write that returns its count appends the buffer to the contents of the file, and changes no
sector but those of the file, of the inode table and of the map of the blocks. -/
theorem fileWrite_appends {fdIdx p has : Nat} {src : Memory} {count : Word} (layout : Layout s.part)
    (held : (s.fileTable fdIdx).fdInode = some p) (owns : s.Owns (s.heap p)) (shape : s.FileShape (s.heap p) has)
    (run : fileWrite fdIdx src count s = .ok ((count.toNat : Int), s')) :
    (s'.heap p).iSize.toNat = (s.heap p).iSize.toNat + count.toNat ∧
      s'.FileShape (s'.heap p) ((s'.heap p).iSize.toNat / 512 + 1) ∧
      s'.dataAt (s'.heap p) 0 (s'.heap p).iSize.toNat =
        s.dataAt (s.heap p) 0 (s.heap p).iSize.toNat ++ (List.range count.toNat).map src ∧
      ∀ lba, ¬ s'.volume.Reaches (s'.heap p) lba → ¬ s.Bookkeeping lba →
        sectors s'.disk lba 1 = sectors s.disk lba 1 := by
  obtain ⟨_, _, _, _, writes⟩ := (fileWrite_eq_ok layout held).mp run
  obtain ⟨written, -⟩ := writes.written layout owns shape
  have size : (s'.heap p).iSize.toNat = (s.heap p).iSize.toNat + count.toNat := by
    rw [written.inode, ← written.noWrap]
  refine ⟨size, ⟨by rw [size]; exact written.hasBlocks, .inr rfl⟩, ?_, ?_⟩
  · have old : s'.dataAt (s'.heap p) 0 (s.heap p).iSize.toNat = s.dataAt (s.heap p) 0 (s.heap p).iSize.toNat := by
      refine List.map_congr_left fun i member => ?_
      have below := List.mem_range.mp member
      rw [Nat.zero_add, written.content i (by omega), if_pos below]
    have new : s'.dataAt (s'.heap p) (s.heap p).iSize.toNat count.toNat = (List.range count.toNat).map src := by
      refine List.map_congr_left fun i member => ?_
      have below := List.mem_range.mp member
      rw [written.content _ (by omega), if_neg (by omega), Nat.add_sub_cancel_left]
    rw [size, dataAt_add, Nat.zero_add, old, new]
  · intro lba away other
    by_cases inData : s.part.sb.dataStartLba.toNat ≤ lba
    · -- The data area, where the blocks of the volume are the sectors.
      have inData' : s'.part.sb.dataStartLba.toNat ≤ lba := by
        rw [sb_congr written.extended.geometry]
        exact inData
      have same := written.other lba away
      simp only [Fs.volume, if_pos inData, if_pos inData'] at same
      exact same
    · exact (writes.keepsHead layout owns shape).disk lba (by omega) other

end

theorem fileWrite_appends_two : newFileFs.NewFile 3 0 ∧ ∃ s', fileWrite 3 (bufferOf [5, 6]) 2 newFileFs = .ok (2, s') ∧
    (s'.heap 0).iSize.toNat = 2 ∧ s'.dataAt (s'.heap 0) 0 2 = [5, 6] := by
  have new := newFile_newFileFs
  obtain ⟨s', run, -⟩ := fileWrite_of_room (bufferOf [5, 6]) 2 new.layout new.held new.ready new.root
    (by rw [new.size]; decide) (by
      have need : blocksOf (((0 : Word).toNat + (2 : Word).toNat) / 512 + 1) = 1 := by decide
      have room := room_newFileFs
      rw [new.size, need]
      omega)
  obtain ⟨size, -, content, -⟩ := fileWrite_appends new.layout new.held new.ready.owns new.ready.shape run
  have two : (s'.heap 0).iSize.toNat = 2 := by
    rw [size, new.size]
    rfl
  rw [two, new.size] at content
  exact ⟨new, s', run, two, content⟩

end LaiMiniOs
