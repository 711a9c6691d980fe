import LaiMiniOs.Fs.File
import LaiMiniOs.Fs.Release

/-! How a write makes a file grow.

The loop that allocates blocks is described by a relation with one rule for each round.
What the blocks have in common follows by induction on it: they were free, they are
different from each other, and nothing but their bits and their numbers is written.
-/

set_option autoImplicit false

namespace LaiMiniOs
open Foundation Prog Function

variable {p b left : Nat} {blocks : Nat → Word} {r : Option (Nat → Word) × Fs}

def Fs.giveSector (s : Fs) (p b : Nat) (lba : Word) : Fs :=
  if b < 12 then s.setInode p ((s.heap p).setSector b lba) else s

def Fs.addBlock (s : Fs) (p b i : Nat) : Fs := (s.giveSector p b (s.lbaOf i)).mark .block i true

section
variable {s : Fs}

@[simp] theorem part_giveSector (s : Fs) (p b : Nat) (lba : Word) : (s.giveSector p b lba).part = s.part := by
  unfold Fs.giveSector
  split <;> rfl

@[simp] theorem volume_giveSector (s : Fs) (p b : Nat) (lba : Word) : (s.giveSector p b lba).volume = s.volume := by
  unfold Fs.giveSector
  split <;> rfl

theorem toKernel_giveSector (s : Fs) (p b : Nat) (lba : Word) :
    (s.giveSector p b lba).toKernel =
      if b < 12 then s.toKernel.setInode p ((s.heap p).setSector b lba) else s.toKernel := by
  unfold Fs.giveSector
  split <;> rfl

theorem geometry_addBlock (s : Fs) (p b i : Nat) : (s.addBlock p b i).part.geometry = s.part.geometry := by
  rw [Fs.addBlock, geometry_mark, part_giveSector]

theorem volume_addBlock (layout : Layout s.part) (p b : Nat) {i : Nat} (h : i < s.part.bitCount .block) :
    (s.addBlock p b i).volume = s.volume.mark .block i true := by
  rw [Fs.addBlock, volume_mark (by rw [part_giveSector]; exact layout) (by rw [part_giveSector]; exact h),
    volume_giveSector]

theorem enterBlock_eq_ok {lba : Word} {r : Unit × Fs} :
    enterBlock p b lba s = .ok r ↔ (b < 12 → (s.heap p).sector b = 0) ∧ r = ((), s.giveSector p b lba) := by
  unfold enterBlock Fs.giveSector
  by_cases direct : b < 12
  · rw [run_when_of direct, get_bind, require_bind_eq_ok, run_modify, Except.ok.injEq]
    simp only [direct, true_implies, if_true]
    exact and_congr_right fun _ => eq_comm
  grind [run_when_of_not]

theorem growBlocks_succ (layout : Layout s.part) {i : Nat}
    (lowest : s.FirstFree .block i) :
    growBlocks p blocks b (left + 1) s = .ok r ↔ (b < 12 → (s.heap p).sector b = 0) ∧
      growBlocks p (update blocks b (s.lbaOf i)) (b + 1) left (s.addBlock p b i) = .ok r := by
  have after : (((s.setBit .block i true).giveSector p b (s.lbaOf i)).syncBits .block i) = s.addBlock p b i := by
    unfold Fs.addBlock Fs.mark Fs.giveSector
    split <;> rfl
  rw [growBlocks, bind_of_ok (blockBitmapAlloc_ok lowest)]
  simp only [lbaOf_ne_fail layout lowest.inside, if_false]
  constructor
  · intro run
    obtain ⟨_, t, enter, run⟩ := bind_eq_ok.mp run
    obtain ⟨empty, same⟩ := enterBlock_eq_ok.mp enter
    cases same
    rw [get_bind,
      bind_of_ok (sync_setBit layout lowest.inside (part_giveSector _ _ _ _)), after] at run
    exact ⟨empty, run⟩
  · rintro ⟨empty, run⟩
    rw [bind_of_ok ((enterBlock_eq_ok (s := s.setBit .block i true)).mpr ⟨empty, rfl⟩),
      get_bind,
      bind_of_ok (sync_setBit layout lowest.inside (part_giveSector _ _ _ _)), after]
    exact run

inductive Grown (p : Nat) : Fs → (Nat → Word) → Nat → Nat → (Nat → Word) → Fs → Prop where
  | done (s : Fs) (blocks : Nat → Word) (b : Nat) : Grown p s blocks b 0 blocks s
  | next {s s' : Fs} {blocks blocks' : Nat → Word} {b left i : Nat}
      (lowest : LowestFree (s.volume.bit .block) (s.part.bitCount .block) i)
      (empty : b < 12 → (s.heap p).sector b = 0)
      (rest : Grown p (s.addBlock p b i) (update blocks b (s.lbaOf i)) (b + 1) left blocks' s') :
      Grown p s blocks b (left + 1) blocks' s'

theorem growBlocks_eq_ok (layout : Layout s.part) :
    growBlocks p blocks b left s = .ok r ↔ ∃ blocks' s', r = (some blocks', s') ∧
      Grown p s blocks b left blocks' s' := by
  induction left generalizing s blocks b with
  | zero =>
    rw [growBlocks, run_pure, Except.ok.injEq]
    constructor
    · rintro rfl
      exact ⟨blocks, s, rfl, .done s blocks b⟩
    · rintro ⟨_, _, rfl, grown⟩
      cases grown
      rfl
  | succ left ih =>
    constructor
    · intro run
      have alloc : ∃ i, s.FirstFree .block i := by
        rw [growBlocks] at run
        obtain ⟨_, _, alloc, -⟩ := bind_eq_ok.mp run
        obtain ⟨i, lowest, -⟩ := blockBitmapAlloc_eq_ok.mp alloc
        exact ⟨i, lowest⟩
      obtain ⟨i, lowest⟩ := alloc
      obtain ⟨empty, run⟩ := (growBlocks_succ layout lowest).mp run
      obtain ⟨blocks', s', same, grown⟩ := (ih (layout.congr (geometry_addBlock s p b i))).mp run
      exact ⟨blocks', s', same, .next lowest empty grown⟩
    · rintro ⟨blocks', s', same, grown⟩
      cases grown with
      | next lowest empty rest =>
        grind [growBlocks_succ, layout.congr, geometry_addBlock]

/-- What the allocation of blocks for the positions `b, …, b + left - 1` amounts to. -/
structure Growth (p : Nat) (s : Fs) (blocks : Nat → Word) (b left : Nat) (blocks' : Nat → Word) (s' : Fs) : Prop where
  geometry : s'.part.geometry = s.part.geometry
  record : s'.volume.record = s.volume.record
  block : s'.volume.block = s.volume.block
  inodeBits : s'.volume.bit .inode = s.volume.bit .inode
  sync : s.volume.KeepsSync s'.volume
  kernel : s'.toKernel = s.toKernel.setInode p ((s.heap p).withSectors (s'.heap p).iSectors)
  sectors : ∀ j, (s'.heap p).sector j = if b ≤ j ∧ j < b + left ∧ j < 12 then blocks' j else (s.heap p).sector j
  empty : ∀ j, b ≤ j → j < b + left → j < 12 → (s.heap p).sector j = 0
  outside : ∀ k, k < b ∨ b + left ≤ k → blocks' k = blocks k
  fresh : ∀ k, b ≤ k → k < b + left → ∃ i, s.BlockNo (blocks' k) i ∧ s.volume.bit .block i = false
  apart : ∀ k k', b ≤ k → k < b + left → b ≤ k' → k' < b + left → blocks' k = blocks' k' → k = k'
  blockBits : ∀ i, s'.volume.bit .block i = true ↔ s.volume.bit .block i = true ∨
    ∃ k, b ≤ k ∧ k < b + left ∧ (blocks' k).toNat = s.part.sb.dataStartLba.toNat + i
  /-- The sectors of the bitmap with these bits are stored. -/
  stores : ∀ k, b ≤ k → k < b + left → ∀ i, s.BlockNo (blocks' k) i → ∀ j, j / 4096 = i / 4096 →
    s'.volume.stored .block j = s'.volume.bit .block j

theorem heap_addBlock (s : Fs) (p b i : Nat) :
    (s.addBlock p b i).toKernel =
        s.toKernel.setInode p ((s.heap p).withSectors ((s.addBlock p b i).heap p).iSectors) ∧
      ∀ j, ((s.addBlock p b i).heap p).sector j = if j = b ∧ b < 12 then s.lbaOf i else (s.heap p).sector j := by
  have kernel : (s.addBlock p b i).toKernel = (s.giveSector p b (s.lbaOf i)).toKernel := rfl
  by_cases direct : b < 12
  · have heap : (s.addBlock p b i).heap p = (s.heap p).setSector b (s.lbaOf i) := by
      rw [kernel, toKernel_giveSector, if_pos direct]
      exact update_self _ _ _
    refine ⟨?_, fun j => ?_⟩
    · rw [heap, kernel, toKernel_giveSector, if_pos direct]
      rfl
    grind [Inode.sector_setSector]
  grind [toKernel_giveSector, Inode.withSectors_self, Kernel.setInode_self]

theorem Grown.growth {s' : Fs} {blocks' : Nat → Word} (layout : Layout s.part)
    (grown : Grown p s blocks b left blocks' s') : Growth p s blocks b left blocks' s' := by
  induction grown with
  | done s blocks b =>
    exact {
      geometry := rfl
      record := rfl
      block := rfl
      inodeBits := rfl
      sync := .refl _
      kernel := (s.toKernel.setInode_self p).symm
      sectors := fun j => by rw [if_neg (by omega)]
      empty := fun j low high => by omega
      outside := fun k _ => rfl
      fresh := fun k low high => by omega
      apart := fun k k' low high => by omega
      blockBits := fun i => by grind
      stores := fun k low high => by omega }
  | @next s s' blocks blocks' b left i lowest empty rest ih =>
    have geometry := geometry_addBlock s p b i
    have volume := volume_addBlock layout p b lowest.inside
    have sb : (s.addBlock p b i).part.sb = s.part.sb := congrArg (·.2.2.1) geometry
    obtain ⟨kernel, sectors⟩ := heap_addBlock s p b i
    have after := ih (layout.congr geometry)
    -- The first position keeps the block of this round.
    have first : blocks' b = s.lbaOf i := by
      rw [after.outside b (by omega), update_self]
    have number : s.BlockNo (s.lbaOf i) i := ⟨lowest.inside, toNat_lbaOf layout lowest.inside⟩
    have bits (j : Nat) : (s.addBlock p b i).volume.bit .block j = true ↔ s.volume.bit .block j = true ∨ j = i := by
      grind [Volume.bit_mark]
    -- Later blocks were free after this round, so they are other blocks than this one.
    have later (k : Nat) (low : b < k) (high : k < b + (left + 1)) :
        ∃ j, s.BlockNo (blocks' k) j ∧ s.volume.bit .block j = false ∧ j ≠ i := by grind [after.fresh, BlockNo.congr]
    exact {
      geometry := after.geometry.trans geometry
      record := by rw [after.record, volume, Volume.record_mark]
      block := by rw [after.block, volume, Volume.block_mark]
      inodeBits := by rw [after.inodeBits, volume, Volume.bit_mark_other _ _ _ _ (by decide)]
      sync := by grind [Volume.KeepsSync, after.sync, Volume.keepsSync_mark]
      kernel := by
        have held : (s.addBlock p b i).heap p = (s.heap p).withSectors ((s.addBlock p b i).heap p).iSectors := by
          conv_lhs => rw [kernel]
          exact update_self _ _ _
        grind [after.kernel, Inode.withSectors_withSectors, Kernel.setInode_setInode]
      sectors := by grind [after.sectors]
      empty := by grind [after.empty]
      outside := by
        intro k away
        rw [after.outside k (by omega), update_of_ne (by omega)]
      fresh := by grind [lowest.free]
      apart := by
        -- The block of this round differs from the later ones; those differ by induction.
        have differs (k : Nat) (low : b < k) (high : k < b + (left + 1)) : blocks' b ≠ blocks' k := by
          intro same
          obtain ⟨j, place, -, other⟩ := later k low high
          have sum := place.2
          rw [← same, first, number.2] at sum
          omega
        grind [after.apart]
      blockBits := by
        intro j
        rw [after.blockBits, bits, sb]
        constructor
        · rintro ((used | rfl) | ⟨k, low, high, sum⟩)
          · exact .inl used
          · exact .inr ⟨b, by omega, by omega, by rw [first, number.2]⟩
          · exact .inr ⟨k, by omega, by omega, sum⟩
        · rintro (used | ⟨k, low, high, sum⟩)
          · exact .inl (.inl used)
          · by_cases here : k = b
            · subst here
              rw [first, number.2] at sum
              exact .inl (.inr (by omega))
            · exact .inr ⟨k, by omega, by omega, sum⟩
      stores := by
        intro k low high i' place j sector
        by_cases here : k = b
        · subst here
          have sum := place.2
          rw [first, number.2] at sum
          refine after.sync .block j ?_
          rw [volume]
          exact Volume.stored_mark_sector _ _ _ _ (by omega)
        · exact after.stores k (by omega) (by omega) i' (BlockNo.congr geometry place) j sector }

/-- The state after the block for the table was allocated and entered; its bit is not stored. -/
def Fs.addTable (s : Fs) (p i : Nat) : Fs := (s.setBit .block i true).setInode p ((s.heap p).setSector 12 (s.lbaOf i))

inductive Collects (p : Nat) (s : Fs) (has will : Nat) : (Nat → Word) → Fs → Prop where
  | last (same : will = has) (low : has ≤ 12) : Collects p s has will (lastBlock (s.heap p) has) s
  | lastIndirect (same : will = has) (high : 12 < has) (present : (s.heap p).sector 12 ≠ 0)
      (onDisk : ((s.heap p).sector 12).toNat ≤ maxLba) :
      Collects p s has will (tableBlocks (sectors s.disk ((s.heap p).sector 12).toNat 1)) s
  | direct {blocks : Nat → Word} {s' : Fs} (more : will ≠ has) (low : will ≤ 12) (inside : has - 1 < 13)
      (present : (s.heap p).sector (has - 1) ≠ 0)
      (grown : Grown p s (lastBlock (s.heap p) has) has (will - has) blocks s') : Collects p s has will blocks s'
  | newTable {blocks : Nat → Word} {s' : Fs} {i : Nat} (low : has ≤ 12) (high : 12 < will)
      (lowest : LowestFree (s.volume.bit .block) (s.part.bitCount .block) i) (none : (s.heap p).sector 12 = 0)
      (grown : Grown p (s.addTable p i) (lastBlock (s.heap p) has) has (will - has) blocks s')
      (onDisk : (s.lbaOf i).toNat ≤ maxLba) :
      Collects p s has will blocks (s'.putSector (s.lbaOf i).toNat (tableImage blocks))
  | indirect {blocks : Nat → Word} {s' : Fs} (more : will ≠ has) (low : 12 < has) (high : 12 < will)
      (present : (s.heap p).sector 12 ≠ 0) (onDisk : ((s.heap p).sector 12).toNat ≤ maxLba)
      (grown : Grown p s (tableBlocks (sectors s.disk ((s.heap p).sector 12).toNat 1)) has (will - has) blocks s') :
      Collects p s has will blocks (s'.putSector ((s.heap p).sector 12).toNat (tableImage blocks))

theorem layout_addTable (layout : Layout s.part) (p i : Nat) : Layout (s.addTable p i).part :=
  layout.congr (geometry_setBit s .block i true)

theorem Collects.run {has will : Nat} {s' : Fs} (layout : Layout s.part)
    (collects : Collects p s has will blocks s') : collectForWrite p has will s = .ok (some blocks, s') := by
  unfold collectForWrite
  rw [get_bind]
  cases collects with
  | last same low => simp only [same, low, if_true, run_pure]
  | lastIndirect same high present onDisk =>
    simp only [same, if_true, if_neg (by omega : ¬ has ≤ 12)]
    rw [require_bind present, bind_of_ok (ideRead_eq (addressable_one.mpr onDisk))]
    rfl
  | direct more low inside present grown =>
    grind [require_bind, growBlocks_eq_ok]
  | @newTable _ s₂ i low high lowest none grown onDisk =>
    have grow := (growBlocks_eq_ok (layout_addTable layout p i)).mpr ⟨_, _, rfl, grown⟩
    simp only [if_neg (by omega : ¬ will = has), if_neg (by omega : ¬ will ≤ 12), low, if_true]
    rw [bind_of_ok (blockBitmapAlloc_ok lowest)]
    simp only [lbaOf_ne_fail layout lowest.inside, if_false]
    rw [get_bind, require_bind (by exact none),
      modify_bind]
    refine (bind_of_ok grow).trans ?_
    dsimp only
    rw [bind_of_ok (ideWrite_eq (addressable_one.mpr onDisk))]
    rfl
  | @indirect _ s₂ more low high present onDisk grown =>
    have grow := (growBlocks_eq_ok layout).mpr ⟨_, _, rfl, grown⟩
    simp only [more, if_neg (by omega : ¬ will ≤ 12), if_neg (by omega : ¬ has ≤ 12), if_false]
    rw [require_bind present, bind_of_ok (ideRead_eq (addressable_one.mpr onDisk))]
    refine (bind_of_ok grow).trans ?_
    dsimp only
    rw [bind_of_ok (ideWrite_eq (addressable_one.mpr onDisk))]
    rfl

theorem collectForWrite_eq_ok {has will : Nat} (layout : Layout s.part) :
    collectForWrite p has will s = .ok r ↔ ∃ blocks s', r = (some blocks, s') ∧ Collects p s has will blocks s' := by
  refine ⟨fun run => ?_, fun ⟨_, _, same, collects⟩ => same ▸ collects.run layout⟩
  unfold collectForWrite at run
  rw [get_bind] at run
  by_cases same : will = has
  · by_cases low : has ≤ 12
    · simp only [same, low, if_true, run_pure, Except.ok.injEq] at run
      exact ⟨_, _, run.symm, .last same low⟩
    · simp only [same, low, if_true, if_false] at run
      obtain ⟨present, run⟩ := require_bind_eq_ok.mp run
      obtain ⟨_, _, read, run⟩ := bind_eq_ok.mp run
      obtain ⟨onDisk, here⟩ := ideRead_eq_ok.mp read
      cases here
      exact ⟨_, _, (Except.ok.inj run).symm, .lastIndirect same (by omega) present (addressable_one.mp onDisk)⟩
  · by_cases direct : will ≤ 12
    · simp only [same, direct, if_true, if_false] at run
      obtain ⟨inside, run⟩ := require_bind_eq_ok.mp run
      obtain ⟨present, run⟩ := require_bind_eq_ok.mp run
      obtain ⟨blocks, s', result, grown⟩ := (growBlocks_eq_ok layout).mp run
      exact ⟨blocks, s', result, .direct same direct inside present grown⟩
    · by_cases low : has ≤ 12
      · simp only [same, direct, low, if_true, if_false] at run
        obtain ⟨_, _, alloc, run⟩ := bind_eq_ok.mp run
        obtain ⟨i, lowest, rfl, rfl⟩ := of_blockBitmapAlloc alloc
        simp only [lbaOf_ne_fail layout lowest.inside, if_false] at run
        rw [get_bind] at run
        obtain ⟨none, run⟩ := require_bind_eq_ok.mp run
        rw [modify_bind] at run
        obtain ⟨_, _, grow, run⟩ := bind_eq_ok.mp run
        obtain ⟨blocks, s', here, grown⟩ := (growBlocks_eq_ok (layout_addTable layout p i)).mp grow
        cases here
        dsimp only at run
        obtain ⟨_, _, write, run⟩ := bind_eq_ok.mp run
        obtain ⟨onDisk, here⟩ := ideWrite_eq_ok.mp write
        cases here
        exact ⟨blocks, _, (Except.ok.inj run).symm,
          .newTable low (by omega) lowest none grown (addressable_one.mp onDisk)⟩
      · simp only [same, direct, low, if_false] at run
        obtain ⟨present, run⟩ := require_bind_eq_ok.mp run
        obtain ⟨_, _, read, run⟩ := bind_eq_ok.mp run
        obtain ⟨onDisk, here⟩ := ideRead_eq_ok.mp read
        cases here
        obtain ⟨_, _, grow, run⟩ := bind_eq_ok.mp run
        obtain ⟨blocks, s', here, grown⟩ := (growBlocks_eq_ok layout).mp grow
        cases here
        dsimp only at run
        obtain ⟨_, _, write, run⟩ := bind_eq_ok.mp run
        obtain ⟨onDisk, here⟩ := ideWrite_eq_ok.mp write
        cases here
        exact ⟨blocks, _, (Except.ok.inj run).symm,
          .indirect same (by omega) (by omega) present (addressable_one.mp onDisk) grown⟩

end

end LaiMiniOs
