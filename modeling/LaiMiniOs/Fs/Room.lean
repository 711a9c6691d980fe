import LaiMiniOs.Fs.FileWrite

/-! Writes on a partition with enough free blocks.

Every allocation takes a free block, so their number says how many allocations return.
-/

set_option autoImplicit false

namespace LaiMiniOs
open Foundation Function

section
variable {s : Fs}

theorem free_addBlock (layout : Layout s.part) (p b : Nat) {i : Nat} (inside : i < s.part.bitCount .block) :
    (s.addBlock p b i).free = s.free.erase i := by
  refine free_erase (geometry_addBlock s p b i) fun j => ?_
  rw [volume_addBlock layout p b inside, Volume.bit_mark]
  by_cases here : j = i
  · simp [here]
  · simp [here]

theorem free_addTable (s : Fs) (p i : Nat) : (s.addTable p i).free = s.free.erase i :=
  free_erase (geometry_setBit s .block i true) (bit_addTable s p i)

theorem grown_of_room {p b left : Nat} (blocks : Nat → Word) (layout : Layout s.part) (room : left ≤ s.free.card)
    (empty : ∀ j, b ≤ j → j < b + left → j < 12 → (s.heap p).sector j = 0) :
    ∃ blocks' s', Grown p s blocks b left blocks' s' ∧ s'.free.card + left = s.free.card ∧
      ∀ k, b ≤ k → k < b + left → (blocks' k).toNat ≤ maxLba := by
  induction left generalizing s b blocks with
  | zero => exact ⟨blocks, s, .done s blocks b, rfl, fun k low high => by omega⟩
  | succ left ih =>
    obtain ⟨i, lowest, member⟩ := exists_lowestFree (by omega : 0 < s.free.card)
    have card : (s.addBlock p b i).free.card + 1 = s.free.card := by
      rw [free_addBlock layout p b lowest.inside]
      exact Finset.card_erase_add_one member
    have geometry := geometry_addBlock s p b i
    obtain ⟨-, sectors⟩ := heap_addBlock s p b i
    obtain ⟨blocks', s', grown, count, onDisk⟩ := ih (b := b + 1) (update blocks b (s.lbaOf i))
      (layout.congr geometry) (by omega) (fun j low high direct => by
        rw [sectors, if_neg (by omega)]
        exact empty j (by omega) (by omega) direct)
    refine ⟨blocks', s', .next lowest (fun direct => empty b (by omega) (by omega) direct) grown, by omega, ?_⟩
    intro k low high
    by_cases here : k = b
    · subst here
      have kept := (grown.growth (layout.congr geometry)).outside k (by omega)
      rw [kept, update_self, toNat_lbaOf layout lowest.inside]
      exact (mem_free.mp member).2.2
    · exact onDisk k (by omega) (by omega)

/-- The blocks that a file with `n` data blocks takes, its table included. -/
def blocksOf (n : Nat) : Nat := if 12 < n then n + 1 else n

theorem le_blocksOf (n : Nat) : n ≤ blocksOf n := by
  unfold blocksOf
  split <;> omega

/-- A file whose blocks are all on the disk and which has a table only when it needs one. -/
structure Fs.FileReady (s : Fs) (inode : Inode) (has : Nat) : Prop where
  shape : s.FileShape inode has
  owns : s.Owns inode
  onDisk : ∀ k, k ≤ 140 → (s.volume.pointer inode k).toNat ≤ maxLba
  noTable : has ≤ 12 → inode.sector 12 = 0

theorem free_putSector (s : Fs) (lba : Nat) (buf : Memory) : (s.putSector lba buf).free = s.free := rfl

theorem collects_of_room {p has will : Nat} (layout : Layout s.part) (some : 1 ≤ has) (less : has ≤ will)
    (hasBlocks : s.volume.HasBlocks (s.heap p) has) (small : will ≤ 140)
    (onDisk : ((s.heap p).sector 12).toNat ≤ maxLba) (noTable : has ≤ 12 → (s.heap p).sector 12 = 0)
    (room : blocksOf will ≤ s.free.card + blocksOf has) :
    ∃ blocks s', Collects p s has will blocks s' ∧ s'.free.card + blocksOf will = s.free.card + blocksOf has ∧
      ∀ k, has ≤ k → k < will → (blocks k).toNat ≤ maxLba := by
  have table (high : 12 < has) : (s.heap p).sector 12 ≠ 0 := fun none =>
    (hasBlocks 12 (by decide)).mpr high (Volume.pointer_of_no_table none (by decide))
  have empty (j : Nat) (low : has ≤ j) (direct : j < 12) : (s.heap p).sector j = 0 := by
    rw [← Volume.pointer_direct s.volume _ direct]
    by_contra present
    exact absurd ((hasBlocks j (by omega)).mp present) (by omega)
  unfold blocksOf at room ⊢
  by_cases same : will = has
  · subst same
    by_cases low : will ≤ 12
    · exact ⟨_, s, .last rfl low, rfl, fun k from_ below => by omega⟩
    · exact ⟨_, s, .lastIndirect rfl (by omega) (table (by omega)) onDisk, rfl, fun k from_ below => by omega⟩
  · have sum : has + (will - has) = will := by omega
    by_cases direct : will ≤ 12
    · rw [if_neg (by omega), if_neg (by omega)] at room ⊢
      obtain ⟨blocks, s', grown, count, fits⟩ := grown_of_room (p := p) (b := has) (lastBlock (s.heap p) has) layout
        (by omega : will - has ≤ s.free.card) (fun j low high => empty j low)
      rw [sum] at fits
      have present : (s.heap p).sector (has - 1) ≠ 0 := by
        rw [← Volume.pointer_direct s.volume _ (by omega)]
        exact (hasBlocks _ (by omega)).mpr (by omega)
      exact ⟨blocks, s', .direct same direct (by omega) present grown, by omega, fits⟩
    · rw [if_pos (by omega : 12 < will)] at room ⊢
      by_cases low : has ≤ 12
      · -- One block goes to the new table before the data blocks are taken.
        rw [if_neg (by omega)] at room ⊢
        obtain ⟨i, lowest, member⟩ := exists_lowestFree (by omega : 0 < s.free.card)
        have card : (s.addTable p i).free.card + 1 = s.free.card := by
          rw [free_addTable]
          exact Finset.card_erase_add_one member
        obtain ⟨blocks, s', grown, count, fits⟩ := grown_of_room (p := p) (b := has) (lastBlock (s.heap p) has)
          (layout_addTable layout p i) (by omega : will - has ≤ (s.addTable p i).free.card)
          (fun j from_ high direct => by
            rw [sector_addTable, if_neg (by omega)]
            exact empty j from_ direct)
        rw [sum] at fits
        refine ⟨blocks, _, .newTable low (by omega) lowest (noTable low) grown ?_, ?_, fits⟩
        · rw [toNat_lbaOf layout lowest.inside]
          exact (mem_free.mp member).2.2
        · rw [free_putSector]
          omega
      · rw [if_pos (by omega)] at room ⊢
        obtain ⟨blocks, s', grown, count, fits⟩ := grown_of_room (p := p) (b := has)
          (tableBlocks (sectors s.disk ((s.heap p).sector 12).toNat 1)) layout
          (by omega : will - has ≤ s.free.card) (fun j from_ high => by omega)
        rw [sum] at fits
        refine ⟨blocks, _, .indirect same (by omega) (by omega) (table (by omega)) onDisk grown, ?_, fits⟩
        rw [free_putSector]
        omega

theorem takesFirst_of_room {p has : Nat} (layout : Layout s.part) (ready : s.FileReady (s.heap p) has)
    (root : s.volume.bit .block 0 = true) (room : 1 ≤ s.free.card + blocksOf has) :
    ∃ s₁, TakesFirst p s s₁ ∧ s₁.FileReady (s₁.heap p) ((s.heap p).iSize.toNat / 512 + 1) ∧
      s₁.free.card + blocksOf ((s.heap p).iSize.toNat / 512 + 1) = s.free.card + blocksOf has := by
  rcases ready.shape.size with ⟨rfl, zero⟩ | size
  · have none : (s.heap p).sector 0 = 0 := by
      by_contra some
      exact absurd ((ready.shape.blocks 0 (by decide)).mp some) (by decide)
    have size : (s.heap p).iSize.toNat / 512 + 1 = 1 := by rw [zero]; rfl
    obtain ⟨i, lowest, member⟩ := exists_lowestFree room
    have away : 0 < i := by grind [lowest.free]
    have takes := TakesFirst.taken none lowest away
    obtain ⟨_, first⟩ := takes.collected layout none
    have pointer (k : Nat) (hk : k ≤ 140) (other : k ≠ 0) := first.extended.kept k hk (by unfold NewBlocks; omega)
    have taken : (s.addBlock p 0 i).volume.pointer ((s.addBlock p 0 i).heap p) 0 = s.lbaOf i := by
      rw [Volume.pointer_direct _ _ (by decide), (heap_addBlock s p 0 i).2, if_pos (by decide)]
    refine ⟨_, takes, ?_, ?_⟩
    · rw [size]
      exact {
        shape := ⟨first.hasBlocks layout ready.shape.blocks (by decide),
          .inr (by rw [takes.iSize, size])⟩
        owns := first.extended.owns ready.owns
        onDisk := fun k hk => by
          by_cases here : k = 0
          · grind [toNat_lbaOf, mem_free]
          · rw [pointer k hk here]
            exact ready.onDisk k hk
        noTable := fun _ => by
          have table := pointer 140 (Nat.le_refl _) (by decide)
          grind [Volume.pointer_table, ready.noTable] }
    · rw [size, free_addBlock layout p 0 lowest.inside]
      exact Finset.card_erase_add_one member
  · have some : (s.heap p).sector 0 ≠ 0 := (ready.shape.blocks 0 (by decide)).mpr (by omega)
    rw [← size]
    exact ⟨s, .present some, ready, rfl⟩

theorem free_congr {s' : Fs} (part : s'.part = s.part) : s'.free = s.free := by
  ext i
  simp only [mem_free, Fs.volume, part]

theorem fileWrite_of_room {fdIdx p has : Nat} (src : Memory) (count : Word) (layout : Layout s.part)
    (held : (s.fileTable fdIdx).fdInode = some p) (ready : s.FileReady (s.heap p) has)
    (root : s.volume.bit .block 0 = true) (fits : (s.heap p).iSize.toNat + count.toNat < 140 * 512)
    (room : blocksOf (((s.heap p).iSize.toNat + count.toNat) / 512 + 1) ≤ s.free.card + blocksOf has) :
    ∃ s', fileWrite fdIdx src count s = .ok ((count.toNat : Int), s') ∧
      FileWritten fdIdx p has (((s.heap p).iSize.toNat + count.toNat) / 512 + 1) src count s s' ∧
      s'.FileReady (s'.heap p) (((s.heap p).iSize.toNat + count.toNat) / 512 + 1) ∧
      s'.free.card + blocksOf (((s.heap p).iSize.toNat + count.toNat) / 512 + 1) = s.free.card + blocksOf has := by
  have noWrap : ((s.heap p).iSize + count).toNat = (s.heap p).iSize.toNat + count.toNat := by
    rw [BitVec.toNat_add]
    omega
  obtain ⟨s₁, takes, ready₁, count₁⟩ := takesFirst_of_room layout ready root
    (by have := le_blocksOf (((s.heap p).iSize.toNat + count.toNat) / 512 + 1)
        omega)
  have layout₁ := layout.congr takes.geometry
  have less : (s.heap p).iSize.toNat / 512 + 1 ≤ ((s.heap p).iSize.toNat + count.toNat) / 512 + 1 := by omega
  obtain ⟨blocks, s₂, collects, count₂, fits₂⟩ := collects_of_room layout₁
    (by omega : 1 ≤ (s.heap p).iSize.toNat / 512 + 1) less
    ready₁.shape.blocks (by omega) (ready₁.onDisk 140 (Nat.le_refl _)) ready₁.noTable (by omega)
  have collected := collects.collected layout₁ ready₁.owns ready₁.shape.blocks less (by omega)
  -- The block that is written first was there, the others are new.
  have onDisk (k : Nat) (low : (s.heap p).iSize.toNat / 512 ≤ k)
      (below : k < ((s.heap p).iSize.toNat + count.toNat) / 512 + 1) : (blocks k).toNat ≤ maxLba := by
        grind [collected.given, collected.extended.kept, NewBlocks, ready₁.onDisk]
  have size₂ : ((s₂.seekLast fdIdx p).heap p).iSize.toNat = (s.heap p).iSize.toNat := by
    have same : (s₂.seekLast fdIdx p).heap p = s₂.heap p := rfl
    rw [same, collects.iSize layout₁, takes.iSize]
  obtain ⟨s₃, moves⟩ : ∃ s₃, writeLoop fdIdx p blocks src count.toNat 0 true (s₂.seekLast fdIdx p) = .ok ((), s₃) :=
    writeLoop_total size₂ (Nat.sub_zero count.toNat) (by omega)
      (fun x low high => onDisk (x / 512) (by omega) (by omega))
  have writes : Writes fdIdx p src count s s₁ blocks s₂ s₃ _ :=
    ⟨by rw [noWrap]; omega, takes, by rw [noWrap]; exact collects, moves, rfl⟩
  obtain ⟨written, given⟩ := writes.written layout ready.owns ready.shape
  have part : (putRecord s₃ (syncSlot (s₃.heap p)) (s₃.heap p).pureInode.image).part = s₂.part := by
    have same := part_writeLoop moves
    exact same
  generalize putRecord s₃ (syncSlot (s₃.heap p)) (s₃.heap p).pureInode.image = s' at writes written given part
  have size : has ≤ (s.heap p).iSize.toNat / 512 + 1 ∧ (s.heap p).iSize.toNat / 512 ≤ has := by grind [ready.shape.size]
  refine ⟨s', (fileWrite_eq_ok layout held).mpr ⟨_, _, _, _, writes⟩, written, ?_, ?_⟩
  · exact {
      shape := ⟨written.hasBlocks, .inr (by rw [written.inode, ← noWrap])⟩
      owns := written.extended.owns ready.owns
      onDisk := fun k hk => by
        by_cases new : NewBlocks has (((s.heap p).iSize.toNat + count.toNat) / 512 + 1) k
        · rcases new with ⟨from_, below⟩ | ⟨rfl, -, high⟩
          · rw [← given k (by omega) below]
            exact onDisk k (by omega) below
          · exact written.tableOnDisk high
        · rw [written.extended.kept k hk new]
          exact ready.onDisk k hk
      noTable := fun low => by grind [Volume.pointer_table, written.extended.kept, NewBlocks, ready.noTable] }
  · rw [free_congr part]
    omega

end

end LaiMiniOs
