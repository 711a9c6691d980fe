import LaiMiniOs.Fs.FileGrowth

/-! The blocks of a file after a write has made room for its data. -/

set_option autoImplicit false

namespace LaiMiniOs
open Foundation Prog Function

variable {p has will k : Nat} {blocks : Nat → Word} {s' s₂ : Fs}

def NewBlocks (has will k : Nat) : Prop := (has ≤ k ∧ k < will) ∨ (k = 140 ∧ has ≤ 12 ∧ 12 < will)

structure Collected (p : Nat) (s : Fs) (has will : Nat) (blocks : Nat → Word) (s' : Fs) : Prop where
  extended : Extended s s' (s.heap p) (s'.heap p) (NewBlocks has will)
  kernel : s'.toKernel = s.toKernel.setInode p ((s.heap p).withSectors (s'.heap p).iSectors)
  record : s'.volume.record = s.volume.record
  inodeBits : s'.volume.bit .inode = s.volume.bit .inode
  /-- Only the table can be written. -/
  block : ∀ lba, (12 < will → lba ≠ ((s'.heap p).sector 12).toNat) → s'.volume.block lba = s.volume.block lba
  /-- The blocks that are written to, from the last one in use on. -/
  given : ∀ k, has ≤ k + 1 → k < will → blocks k = s'.volume.pointer (s'.heap p) k
  onDisk : 12 < will → ((s'.heap p).sector 12).toNat ≤ maxLba
  /-- The bit of a new table is only stored together with that of a data block. -/
  sync : (has ≤ 12 → 12 < will → ∃ k i j, max has 1 ≤ k ∧ k < will ∧ s.BlockNo (s'.volume.pointer (s'.heap p) k) i ∧
    s.BlockNo (s'.volume.pointer (s'.heap p) 140) j ∧ j / 4096 = i / 4096) → s.volume.KeepsSync s'.volume

section
variable {s : Fs}

theorem tableBlocks_eq {inode : Inode} (present : inode.sector 12 ≠ 0)
    (low : s.part.sb.dataStartLba.toNat ≤ (inode.sector 12).toNat) (hk : 12 ≤ k) (high : k < 140) :
    tableBlocks (sectors s.disk (inode.sector 12).toNat 1) k = s.volume.pointer inode k := by
  have table : s.volume.table inode = sectors s.disk (inode.sector 12).toNat 1 := by
    rw [Volume.table, if_neg present]
    exact if_pos low
  rw [Volume.pointer_indirect _ _ hk high, table, tableBlocks, if_neg (by omega)]

theorem lastBlock_self (inode : Inode) (here : k = has - 1) : lastBlock inode has k = inode.sector k := by
  subst here
  exact update_self _ _ _

theorem lastBlock_other (inode : Inode) (other : k ≠ has - 1) : lastBlock inode has k = 0 :=
  update_of_ne other _ _

theorem Collected.last (low : has ≤ 12) : Collected p s has has (lastBlock (s.heap p) has) s where
  extended := .refl s _ (by unfold NewBlocks; omega)
  kernel := (s.toKernel.setInode_self p).symm
  record := rfl
  inodeBits := rfl
  block _ _ := rfl
  given k from_ below := by
    rw [lastBlock_self _ (by omega), Volume.pointer_direct _ _ (by omega)]
  onDisk := by omega
  sync _ := .refl _

theorem Collected.lastIndirect (small : has ≤ 140) (high : 12 < has) (present : (s.heap p).sector 12 ≠ 0)
    (low : s.part.sb.dataStartLba.toNat ≤ ((s.heap p).sector 12).toNat)
    (onDisk : ((s.heap p).sector 12).toNat ≤ maxLba) :
    Collected p s has has (tableBlocks (sectors s.disk ((s.heap p).sector 12).toNat 1)) s where
  extended := .refl s _ (by unfold NewBlocks; omega)
  kernel := (s.toKernel.setInode_self p).symm
  record := rfl
  inodeBits := rfl
  block _ _ := rfl
  given k from_ below := tableBlocks_eq present low (by omega) (by omega)
  onDisk _ := onDisk
  sync _ := .refl _

theorem Growth.sb {b left : Nat} {blocks' : Nat → Word} (growth : Growth p s blocks b left blocks' s') :
    s'.part.sb = s.part.sb := congrArg (·.2.2.1) growth.geometry

theorem Growth.extended {b left : Nat} {blocks₀ : Nat → Word} {inode inode' : Inode}
    (growth : Growth p s blocks₀ b left blocks s₂) (small : b + left ≤ 140)
    (geometry : s'.part.geometry = s.part.geometry) (bits : s'.volume.bit .block = s₂.volume.bit .block)
    (pointer : ∀ k, k ≤ 140 → s'.volume.pointer inode' k =
      if b ≤ k ∧ k < b + left then blocks k else s.volume.pointer inode k)
    (empty : ∀ k, b ≤ k → k < b + left → s.volume.pointer inode k = 0) {fresh : Nat → Prop}
    (new : ∀ k, fresh k ↔ b ≤ k ∧ k < b + left) : Extended s s' inode inode' fresh where
  geometry := geometry
  kept k hk old := by rw [pointer k hk, if_neg (by rwa [← new])]
  empty k _ fresh := empty k ((new k).mp fresh).1 ((new k).mp fresh).2
  free k hk fresh := by
    rw [new] at fresh
    rw [pointer k hk, if_pos fresh]
    exact growth.fresh k fresh.1 fresh.2
  apart k k' hk hk' fresh fresh' same := by grind [growth.apart]
  blockBits i := by
    rw [bits, growth.blockBits]
    grind

theorem Collected.direct (less : has < will) (low : will ≤ 12)
    (growth : Growth p s (lastBlock (s.heap p) has) has (will - has) blocks s') :
    Collected p s has will blocks s' := by
  have sum : has + (will - has) = will := by omega
  have table : (s'.heap p).sector 12 = (s.heap p).sector 12 := by rw [growth.sectors, if_neg (by omega)]
  have new (k : Nat) : NewBlocks has will k ↔ has ≤ k ∧ k < will := by
    unfold NewBlocks
    omega
  -- A direct position has the block that was entered, the others what they had.
  have pointer (k : Nat) : s'.volume.pointer (s'.heap p) k =
      if has ≤ k ∧ k < will then blocks k else s.volume.pointer (s.heap p) k := by
    have tables : s'.volume.table (s'.heap p) = s.volume.table (s.heap p) := by
      rw [Volume.table, Volume.table, table, growth.block]
    split
    next fresh =>
      rw [Volume.pointer_direct _ _ (by omega), growth.sectors, if_pos (by omega)]
    next old =>
      simp only [Volume.pointer, allBlocks, table, tables]
      split
      next => rfl
      next =>
        split
        next => rw [growth.sectors, if_neg (by omega)]
        next => rfl
  exact {
    extended := growth.extended (by omega) growth.geometry rfl (fun k _ => by rw [sum, pointer])
      (fun k from_ below => by
        rw [Volume.pointer_direct _ _ (by omega)]
        exact growth.empty k from_ below (by omega))
      (by rwa [sum])
    kernel := growth.kernel
    record := growth.record
    inodeBits := growth.inodeBits
    block := fun lba _ => by rw [growth.block]
    given := fun k from_ below => by
      rw [pointer]
      split
      next => rfl
      next old =>
        rw [growth.outside k (by omega), lastBlock_self _ (by omega), Volume.pointer_direct _ _ (by omega)]
    onDisk := by omega
    sync := fun _ => growth.sync }

theorem Collected.indirect (layout : Layout s.part)
    (low : 12 < has) (less : has < will) (small : will ≤ 140) (present : (s.heap p).sector 12 ≠ 0)
    (inData : s.part.sb.dataStartLba.toNat ≤ ((s.heap p).sector 12).toNat)
    (none : ∀ k, has ≤ k → k < 140 → s.volume.pointer (s.heap p) k = 0)
    (onDisk : ((s.heap p).sector 12).toNat ≤ maxLba)
    (growth : Growth p s (tableBlocks (sectors s.disk ((s.heap p).sector 12).toNat 1)) has (will - has) blocks s₂) :
    Collected p s has will blocks (s₂.putSector ((s.heap p).sector 12).toNat (tableImage blocks)) := by
  have sum : has + (will - has) = will := by omega
  have table : (s₂.heap p).sector 12 = (s.heap p).sector 12 := by rw [growth.sectors, if_neg (by omega)]
  have layout₂ := layout.congr growth.geometry
  have inData₂ : s₂.part.sb.dataStartLba.toNat ≤ ((s₂.heap p).sector 12).toNat := by
    rw [growth.sb, table]
    exact inData
  rw [← table]
  have volume := volume_putSector layout₂ inData₂ (tableImage blocks)
  have new (k : Nat) : NewBlocks has will k ↔ has ≤ k ∧ k < will := by
    unfold NewBlocks
    omega
  generalize final : s₂.putSector ((s₂.heap p).sector 12).toNat (tableImage blocks) = s' at volume ⊢
  have heap : s'.heap p = s₂.heap p := by rw [← final]; rfl
  have geometry : s'.part.geometry = s.part.geometry := by
    rw [← final]
    exact growth.geometry
  have pointer (k : Nat) (hk : k ≤ 140) : s'.volume.pointer (s'.heap p) k =
      if has ≤ k ∧ k < will then blocks k else s.volume.pointer (s.heap p) k := by
    rw [heap]
    by_cases last : k = 140
    · subst last
      rw [if_neg (by omega), Volume.pointer_table, Volume.pointer_table, table]
    · grind [pointer_putTable, Volume.pointer_direct, growth.sectors, growth.outside, tableBlocks_eq]
  exact {
    extended := growth.extended (by omega) geometry (by rw [volume]; rfl) (by rwa [sum])
      (fun k from_ below => none k from_ (by omega)) (by rwa [sum])
    kernel := by
      rw [heap, ← final]
      exact growth.kernel
    record := by
      rw [volume]
      exact growth.record
    inodeBits := by
      rw [volume]
      exact growth.inodeBits
    block := fun lba other => by
      rw [heap] at other
      rw [volume, ← growth.block]
      exact update_of_ne (other (by omega)) _ _
    given := fun k from_ below => by grind [growth.outside, tableBlocks_eq]
    onDisk := fun _ => by rw [heap, table]; exact onDisk
    sync := fun _ => by
      rw [volume]
      exact growth.sync.trans (.of_eq rfl rfl) }

theorem Volume.setBit_other (v : Volume) (value : Bool) {t t' : BitmapType} {i j : Nat} (other : ¬ (t' = t ∧ j = i)) :
    (v.setBit t i value).bit t' j = v.bit t' j := by
  unfold Volume.setBit
  by_cases same : t' = t
  · subst same
    simp only [update_self]
    exact update_of_ne (fun here => other ⟨rfl, here⟩) _ _
  · simp only [update_of_ne same]

theorem volume_addTable (s : Fs) (p i : Nat) : (s.addTable p i).volume = s.volume.setBit .block i true :=
  volume_setBit s .block i true

theorem bit_addTable (s : Fs) (p i j : Nat) :
    (s.addTable p i).volume.bit .block j = true ↔ s.volume.bit .block j = true ∨ j = i := by
  rw [volume_addTable]
  by_cases here : j = i
  · simp [Volume.setBit, here]
  · simp [Volume.setBit, here]

theorem sector_addTable (s : Fs) (p i j : Nat) :
    ((s.addTable p i).heap p).sector j = if j = 12 then s.lbaOf i else (s.heap p).sector j := by
  have heap : (s.addTable p i).heap p = (s.heap p).setSector 12 (s.lbaOf i) := update_self _ _ _
  rw [heap, Inode.sector_setSector]
  simp

theorem Collected.newTable {i : Nat} (layout : Layout s.part)
    (low : has ≤ 12) (high : 12 < will) (small : will ≤ 140) (none : (s.heap p).sector 12 = 0)
    (lowest : s.FirstFree .block i) (onDisk : (s.lbaOf i).toNat ≤ maxLba)
    (growth : Growth p (s.addTable p i) (lastBlock (s.heap p) has) has (will - has) blocks s₂) :
    Collected p s has will blocks (s₂.putSector (s.lbaOf i).toNat (tableImage blocks)) := by
  have sum : has + (will - has) = will := by omega
  have geometry₁ : (s.addTable p i).part.geometry = s.part.geometry := geometry_setBit s .block i true
  have geometry₂ := growth.geometry.trans geometry₁
  have sb₁ : (s.addTable p i).part.sb = s.part.sb := congrArg (·.2.2.1) geometry₁
  have number : s.BlockNo (s.lbaOf i) i := ⟨lowest.inside, toNat_lbaOf layout lowest.inside⟩
  have table : (s₂.heap p).sector 12 = s.lbaOf i := by
    rw [growth.sectors, if_neg (by omega), sector_addTable, if_pos rfl]
  have present : (s₂.heap p).sector 12 ≠ 0 := by
    rw [table]
    exact lbaOf_ne_zero layout lowest.inside
  have layout₂ := layout.congr geometry₂
  have inData : s₂.part.sb.dataStartLba.toNat ≤ ((s₂.heap p).sector 12).toNat := by
    rw [growth.sb, sb₁, table, number.2]
    omega
  rw [← table]
  have volume := volume_putSector layout₂ inData (tableImage blocks)
  generalize final : s₂.putSector ((s₂.heap p).sector 12).toNat (tableImage blocks) = s' at volume ⊢
  have heap : s'.heap p = s₂.heap p := by rw [← final]; rfl
  have pointer (k : Nat) (hk : k < 140) : s'.volume.pointer (s'.heap p) k =
      if has ≤ k ∧ k < will then blocks k else s.volume.pointer (s.heap p) k := by
    rw [heap, ← final, pointer_putTable layout₂ blocks present inData k hk]
    by_cases direct : k < 12
    · grind [growth.sectors, Volume.pointer_direct, sector_addTable]
    · -- The new table is clear where the file does not reach.
      grind [growth.outside, lastBlock_other, Volume.pointer_of_no_table]
  have pointer_last : s'.volume.pointer (s'.heap p) 140 = s.lbaOf i := by
    rw [Volume.pointer_table, heap, table]
  -- The data blocks were free when the table already had its block.
  have fresh (k : Nat) (from_ : has ≤ k) (below : k < will) :
      ∃ j, s.BlockNo (blocks k) j ∧ s.volume.bit .block j = false ∧ j ≠ i := by
        grind [growth.fresh, bit_addTable, BlockNo.congr]
  have differs (k : Nat) (from_ : has ≤ k) (below : k < will) : blocks k ≠ s.lbaOf i := by
    intro same
    obtain ⟨j, place, -, other⟩ := fresh k from_ below
    have first := place.2
    rw [same, number.2] at first
    omega
  have extended : Extended s s' (s.heap p) (s'.heap p) (NewBlocks has will) := {
    geometry := by
      rw [← final]
      exact geometry₂
    kept := by
      intro k hk old
      unfold NewBlocks at old
      rw [pointer k (by omega), if_neg (by omega)]
    empty := by
      rintro k - (⟨from_, below⟩ | ⟨rfl, -⟩)
      · by_cases direct : k < 12
        · have empty := growth.empty k from_ (by omega) direct
          rwa [sector_addTable, if_neg (by omega), ← Volume.pointer_direct s.volume _ direct] at empty
        · exact Volume.pointer_of_no_table none (by omega)
      · exact Volume.pointer_of_no_table none (by omega)
    free := by
      rintro k - (⟨from_, below⟩ | ⟨rfl, -⟩)
      · grind
      · rw [pointer_last]
        exact ⟨i, number, lowest.free⟩
    apart := by
      rintro k k' - - (⟨from_, below⟩ | ⟨rfl, -⟩) (⟨from', below'⟩ | ⟨rfl, -⟩) same
      · grind [growth.apart]
      · grind
      · grind
      · rfl
    blockBits := by
      intro j
      have bits : s'.volume.bit .block j = s₂.volume.bit .block j := by
        rw [volume]
        rfl
      rw [bits, growth.blockBits, bit_addTable, sum, sb₁]
      constructor
      · rintro ((used | rfl) | ⟨k, from_, below, place⟩)
        · exact .inl used
        · exact .inr ⟨140, by omega, .inr ⟨rfl, low, high⟩, by rw [pointer_last, number.2]⟩
        · refine .inr ⟨k, by omega, .inl ⟨from_, below⟩, ?_⟩
          rw [pointer k (by omega), if_pos ⟨from_, below⟩]
          exact place
      · rintro (used | ⟨k, hk, ⟨from_, below⟩ | ⟨rfl, -⟩, place⟩)
        · exact .inl (.inl used)
        · grind
        · rw [pointer_last, number.2] at place
          exact .inl (.inr (by omega)) }
  exact {
    extended := extended
    kernel := by
      have kernel₁ : (s.addTable p i).toKernel = s.toKernel.setInode p ((s.heap p).setSector 12 (s.lbaOf i)) := rfl
      have held : (s.addTable p i).heap p = (s.heap p).setSector 12 (s.lbaOf i) := update_self _ _ _
      have kernel : s'.toKernel = s₂.toKernel := by rw [← final]; rfl
      rw [kernel]
      refine growth.kernel.trans ?_
      rw [held, kernel₁, Kernel.setInode_setInode]
      rfl
    record := by
      rw [volume]
      refine growth.record.trans ?_
      rw [volume_addTable]
      rfl
    inodeBits := by
      rw [volume]
      refine growth.inodeBits.trans ?_
      rw [volume_addTable]
      simp [Volume.setBit]
    block := by
      intro lba other
      rw [heap] at other
      rw [volume]
      refine (update_of_ne (other high) _ _).trans ?_
      rw [growth.block, volume_addTable]
      rfl
    given := by grind [growth.outside, lastBlock_self, Volume.pointer_direct]
    onDisk := fun _ => by rw [heap, table]; exact onDisk
    sync := by
      intro masked
      obtain ⟨k, i', j, from_, below, place, place', sector⟩ := masked low high
      rw [pointer k (by omega), if_pos ⟨by omega, below⟩] at place
      have index : j = i := by
        have sum := place'.2
        rw [pointer_last, number.2] at sum
        omega
      subst index
      intro t x stored
      have last : s'.volume.stored t x = s₂.volume.stored t x ∧ s'.volume.bit t x = s₂.volume.bit t x := by
        rw [volume]
        exact ⟨rfl, rfl⟩
      rw [last.1, last.2]
      by_cases here : t = .block ∧ x = j
      · grind [growth.stores, BlockNo.congr]
      · refine growth.sync t x ?_
        rw [volume_addTable, Volume.setBit_other _ _ here]
        exact stored }

theorem Collects.collected (layout : Layout s.part)
    (owns : s.Owns (s.heap p)) (hasBlocks : s.volume.HasBlocks (s.heap p) has) (less : has ≤ will) (small : will ≤ 140)
    (collects : Collects p s has will blocks s') : Collected p s has will blocks s' := by
  have inData (present : (s.heap p).sector 12 ≠ 0) :
      s.part.sb.dataStartLba.toNat ≤ ((s.heap p).sector 12).toNat := by
    obtain ⟨i, ⟨-, sum⟩, -⟩ := owns.used 140 (Nat.le_refl _) present
    rw [Volume.pointer_table] at sum
    omega
  have none (k : Nat) (from_ : has ≤ k) (hk : k < 140) : s.volume.pointer (s.heap p) k = 0 := by
    by_contra some
    have := (hasBlocks k hk).mp some
    omega
  cases collects with
  | last same low =>
    subst same
    exact .last low
  | lastIndirect same high present onDisk =>
    subst same
    exact .lastIndirect small high present (inData present) onDisk
  | direct more low inside present grown => exact .direct (by omega) low (grown.growth layout)
  | newTable low high lowest none grown onDisk =>
    exact .newTable layout low high small none lowest onDisk (grown.growth (layout_addTable layout p _))
  | indirect more low high present onDisk grown =>
    exact .indirect layout low (by omega) small present (inData present) none onDisk (grown.growth layout)

theorem Collected.hasBlocks (layout : Layout s.part)
    (before : s.volume.HasBlocks (s.heap p) has) (less : has ≤ will) (collected : Collected p s has will blocks s') :
    s'.volume.HasBlocks (s'.heap p) will := by
  intro k hk
  by_cases fresh : has ≤ k ∧ k < will
  · exact iff_of_true (collected.extended.pointer_ne_zero layout (by omega) (.inl fresh)) fresh.2
  · rw [collected.extended.kept k (by omega) (by unfold NewBlocks; omega), before k hk]
    omega

inductive TakesFirst (p : Nat) (s : Fs) : Fs → Prop where
  | present (some : (s.heap p).sector 0 ≠ 0) : TakesFirst p s s
  | taken {i : Nat} (none : (s.heap p).sector 0 = 0)
      (lowest : LowestFree (s.volume.bit .block) (s.part.bitCount .block) i) (away : 0 < i) :
      TakesFirst p s (s.addBlock p 0 i)

theorem firstBlock_eq_ok (layout : Layout s.part) {r : Bool × Fs} :
    firstBlock p s = .ok r ↔ ∃ s', r = (true, s') ∧ TakesFirst p s s' := by
  unfold firstBlock
  rw [get_bind]
  by_cases none : (s.heap p).sector 0 = 0
  · rw [if_pos none]
    -- The steps after the allocation of block `i`.
    have steps {i : Nat} (lowest : s.FirstFree .block i) {r : Bool × Fs} :
        (do modify fun s' => s'.setInode p ((s'.heap p).setSector 0 (s.lbaOf i))
            let blockBitmapIdx := s.lbaOf i - (← get).part.sb.dataStartLba
            Prog.assert (blockBitmapIdx ≠ 0)
            bitmapSync blockBitmapIdx .block
            return true : FsM Bool) (s.setBit .block i true) = .ok r ↔ 0 < i ∧ r = (true, s.addBlock p 0 i) := by
      have index := lbaOf_sub (s := s) lowest.inside layout.bitCount_lt
      have sb := sb_setBit s .block i true
      have away : s.lbaOf i - (s.setBit .block i true).part.sb.dataStartLba ≠ 0 ↔ 0 < i := by
        rw [sb, ne_eq, ← BitVec.toNat_inj, index]
        exact Nat.pos_iff_ne_zero.symm
      have store := sync_setBit layout lowest.inside
        (t := (s.setBit .block i true).setInode p (((s.setBit .block i true).heap p).setSector 0 (s.lbaOf i))) rfl
      rw [modify_bind, get_bind, require_bind_eq_ok, bind_of_ok store, run_pure, Except.ok.injEq]
      exact and_congr away eq_comm
    constructor
    · intro run
      obtain ⟨_, _, alloc, run⟩ := bind_eq_ok.mp run
      obtain ⟨i, lowest, rfl, rfl⟩ := of_blockBitmapAlloc alloc
      rw [if_neg (lbaOf_ne_fail layout lowest.inside)] at run
      obtain ⟨positive, rfl⟩ := (steps lowest).mp run
      exact ⟨_, rfl, .taken none lowest positive⟩
    · rintro ⟨s', rfl, takes⟩
      cases takes with
      | present some => exact absurd none some
      | taken _ lowest away =>
        rw [bind_of_ok (blockBitmapAlloc_ok lowest), if_neg (lbaOf_ne_fail layout lowest.inside)]
        exact (steps lowest).mpr ⟨away, rfl⟩
  · rw [if_neg none, run_pure, Except.ok.injEq]
    constructor
    · rintro rfl
      exact ⟨s, rfl, .present none⟩
    · rintro ⟨s', rfl, takes⟩
      cases takes with
      | present => rfl
      | taken absent => exact absurd absent none

theorem TakesFirst.collected (layout : Layout s.part) (none : (s.heap p).sector 0 = 0)
    (takes : TakesFirst p s s') : ∃ blocks, Collected p s 0 1 blocks s' := by
  cases takes with
  | present some => exact absurd none some
  | @taken i _ lowest away =>
    exact ⟨_, .direct (by decide) (by decide) ((Grown.next lowest (fun _ => none) (.done _ _ _)).growth layout)⟩

theorem Collected.trans {blocks₁ : Nat → Word} {s₁ : Fs} (layout : Layout s.part)
    (first : Collected p s 0 1 blocks₁ s₁) (rest : Collected p s₁ 1 will blocks s₂) (less : 1 ≤ will) :
    Collected p s 0 will blocks s₂ where
  extended := first.extended.trans layout rest.extended fun k => by
    unfold NewBlocks
    omega
  kernel := by
    have held : s₁.heap p = (s.heap p).withSectors (s₁.heap p).iSectors := by
      conv_lhs => rw [first.kernel]
      exact update_self _ _ _
    grind [rest.kernel, Inode.withSectors_withSectors, first.kernel, Kernel.setInode_setInode]
  record := rest.record.trans first.record
  inodeBits := rest.inodeBits.trans first.inodeBits
  block lba other := (rest.block lba other).trans (first.block lba (by omega))
  given k _ below := rest.given k (by omega) below
  onDisk := rest.onDisk
  sync := by
    intro masked
    refine (first.sync (by omega)).trans (rest.sync fun _ high => ?_)
    grind [BlockNo.congr, first.extended.geometry]

end

end LaiMiniOs
