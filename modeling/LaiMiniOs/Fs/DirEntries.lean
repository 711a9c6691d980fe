import LaiMiniOs.Fs.DirInsert

/-! What `sync_dir_entry` does to the slots of a directory.

An insertion in a direct block changes one slot and nothing else. An insertion that makes a
table starts from the directory without the table it had.
-/

set_option autoImplicit false

namespace LaiMiniOs
open Foundation Function

variable {inode : Inode} {k p j i : Nat} {entry : DirEntry} {v : Volume}

theorem DirEntry.read_clip (m : Memory) (inside : j < 21) :
    DirEntry.read (m.clip 512) (24 * j) = DirEntry.read m (24 * j) :=
  DirEntry.read_congr fun i hi => Memory.clip_apply (by omega)

theorem DirEntry.read_splice_slot (m : Memory) (entry : DirEntry) (j j' : Nat) :
    DirEntry.read (m.splice (24 * j) entry.image 24) (24 * j') = if j' = j then entry else DirEntry.read m
      (24 * j') := by
  split
  next here =>
    subst here
    exact DirEntry.read_splice_image m (24 * j') entry
  next other => exact DirEntry.read_congr fun i hi => Memory.splice_outside (by omega)

theorem read_entryBlock (entry : DirEntry) (j : Nat) :
    DirEntry.read (entryBlock entry) (24 * j) = if j = 0 then entry else .empty := by
  rw [← read_zero (24 * j)]
  exact DirEntry.read_splice_slot Memory.zero entry 0 j

theorem Volume.slot_of_none (none : v.pointer inode k = 0) (j : Nat) :
    v.slot inode k j = .empty := if_pos none

theorem Volume.slot_of_some (present : v.pointer inode k ≠ 0) (j : Nat) :
    v.slot inode k j = DirEntry.read (v.block (v.pointer inode k).toNat) (24 * j) := if_neg present

theorem Volume.slot_congr {v' : Volume} {inode' : Inode} (pointer : v'.pointer inode' k = v.pointer inode k)
    (block : v.pointer inode k ≠ 0 → v'.block (v.pointer inode k).toNat = v.block (v.pointer inode k).toNat) (j : Nat) :
    v'.slot inode' k j = v.slot inode k j := by
  unfold Volume.slot
  rw [pointer]
  split
  next => rfl
  next present => rw [block present]

def Volume.entryBlocks (v : Volume) (inode : Inode) : Nat :=
  match (List.range 12).find? fun k => (List.range 21).any fun j => (v.slot inode k j).fType == 0 with
  | none => 2
  | some k => if inode.sector k = 0 then 1 else 0

theorem Volume.entryBlocks_le (v : Volume) (inode : Inode) : v.entryBlocks inode ≤ 2 := by
  unfold Volume.entryBlocks
  split
  · exact Nat.le_refl 2
  · split <;> omega

theorem Volume.entryBlocks_congr {v' : Volume} {inode' : Inode}
    (sectors : ∀ k, k < 12 → inode'.sector k = inode.sector k)
    (slots : ∀ k j, k < 12 → v'.slot inode' k j = v.slot inode k j) : v'.entryBlocks inode' = v.entryBlocks inode := by
  unfold Volume.entryBlocks
  rw [find?_congr (q := fun k => (List.range 21).any fun j => (v.slot inode k j).fType == 0) fun k member => by
    simp only [slots k _ (List.mem_range.mp member)]]
  split
  · rfl
  · next k found => rw [sectors k (List.mem_range.mp (List.mem_of_find?_eq_some found))]

/-- An entry was put in slot `j` of position `k`, starting from the positions of `inode`. -/
structure Inserted (p : Nat) (entry : DirEntry) (s : Fs) (inode : Inode) (k j : Nat) (fresh : Nat → Prop) (s' : Fs) :
    Prop where
  extended : Extended s s' inode (s'.heap p) fresh
  kernel : s'.toKernel = s.toKernel.setInode p ((s.heap p).withSectors (s'.heap p).iSectors).grown
  record : s'.volume.record = s.volume.record
  inodeBits : s'.volume.bit .inode = s.volume.bit .inode
  /-- Besides the block of the entry only a new table is written. -/
  block : ∀ lba, lba ≠ (s'.volume.pointer (s'.heap p) k).toNat →
    (fresh 140 → lba ≠ (s'.volume.pointer (s'.heap p) 140).toNat) → s'.volume.block lba = s.volume.block lba
  inside : k < 140 ∧ j < 21
  free : (s.volume.slot inode k j).fType = 0
  slot : ∀ k' j', k' < 140 → j' < 21 →
    s'.volume.slot (s'.heap p) k' j' = if k' = k ∧ j' = j then entry else s.volume.slot inode k' j'
  onDisk : ∀ k', k' ≤ 140 → fresh k' → (s'.volume.pointer (s'.heap p) k').toNat ≤ maxLba
  sync : s.volume.KeepsSync s'.volume

/-- The positions at which blocks are neither new nor written keep their slots. -/
theorem Extended.slot_other {s s' : Fs} {inode' : Inode} {fresh : Nat → Prop} (ext : Extended s s' inode inode' fresh)
    (owns : s.Owns inode) (hk : k < 140)
    (block : ∀ lba, lba ≠ (s'.volume.pointer inode' k).toNat →
      (fresh 140 → lba ≠ (s'.volume.pointer inode' 140).toNat) → s'.volume.block lba = s.volume.block lba)
    {k' : Nat} (hk' : k' < 140) (old : ¬ fresh k') (other : k' ≠ k) (j : Nat) :
    s'.volume.slot inode' k' j = s.volume.slot inode k' j := by
  have pointer := ext.kept k' (by omega) old
  refine Volume.slot_congr pointer (fun present => ?_) j
  rw [← pointer] at present ⊢
  have apart := (ext.owns owns).apart
  grind [BitVec.eq_of_toNat_eq]

section
variable {s : Fs}

theorem heap_growEntry (s : Fs) (p : Nat) : (s.growEntry p).heap p = (s.heap p).grown := update_self _ _ _

theorem toKernel_growEntry (s : Fs) (p : Nat) :
    (s.growEntry p).toKernel = s.toKernel.setInode p (s.heap p).grown := rfl

theorem Fs.Owns.low (owns : s.Owns inode) (hk : k ≤ 140)
    (present : s.volume.pointer inode k ≠ 0) :
    s.part.sb.dataStartLba.toNat ≤ (s.volume.pointer inode k).toNat := by
  obtain ⟨i, ⟨-, sum⟩, -⟩ := owns.used k hk present
  omega

/-- The last step of every insertion: the directory grows. What is left to know is the
block that the entry was written to. -/
theorem Inserted.of_content {fresh : Nat → Prop} {t : Fs}
    (owns : s.Owns inode) (extended : Extended s t inode (t.heap p) fresh)
    (kernel : t.toKernel = s.toKernel.setInode p ((s.heap p).withSectors (t.heap p).iSectors))
    (record : t.volume.record = s.volume.record) (inodeBits : t.volume.bit .inode = s.volume.bit .inode)
    (block : ∀ lba, lba ≠ (t.volume.pointer (t.heap p) k).toNat →
      (fresh 140 → lba ≠ (t.volume.pointer (t.heap p) 140).toNat) → t.volume.block lba = s.volume.block lba)
    (inside : k < 140 ∧ j < 21) (free : (s.volume.slot inode k j).fType = 0)
    (only : ∀ k', k' < 140 → fresh k' → k' = k) (present : t.volume.pointer (t.heap p) k ≠ 0)
    (content : ∀ j', j' < 21 → DirEntry.read (t.volume.block (t.volume.pointer (t.heap p) k).toNat) (24 * j') =
      if j' = j then entry else s.volume.slot inode k j')
    (onDisk : ∀ k', k' ≤ 140 → fresh k' → (t.volume.pointer (t.heap p) k').toNat ≤ maxLba)
    (sync : s.volume.KeepsSync t.volume) : Inserted p entry s inode k j fresh (t.growEntry p) := by
  have pointer (k' : Nat) : (t.growEntry p).volume.pointer ((t.growEntry p).heap p) k' =
      t.volume.pointer (t.heap p) k' := by
    rw [heap_growEntry]
    rfl
  have slots (k' j' : Nat) : (t.growEntry p).volume.slot ((t.growEntry p).heap p) k' j' =
      t.volume.slot (t.heap p) k' j' :=
    Volume.slot_congr (pointer k') (fun _ => rfl) j'
  exact {
    extended := extended.congr rfl rfl pointer
    kernel := by
      rw [heap_growEntry, toKernel_growEntry, kernel, Kernel.heap_setInode_self, Kernel.setInode_setInode]
      rfl
    record := record
    inodeBits := inodeBits
    block := by
      simp only [pointer]
      exact block
    inside := inside
    free := free
    slot := fun k' j' hk' hj' => by
      rw [slots]
      by_cases same : k' = k
      · subst same
        rw [Volume.slot_of_some present, content j' hj']
        simp only [true_and]
      grind [extended.slot_other]
    onDisk := by
      simp only [pointer]
      exact onDisk
    sync := sync }

theorem Inserted.inBlock (layout : Layout s.part) (owns : s.Owns (s.heap p))
    (direct : k < 12) (present : (s.heap p).sector k ≠ 0) (inside : j < 21)
    (free : (s.volume.slot (s.heap p) k j).fType = 0) :
    Inserted p entry s (s.heap p) k j (fun k' => k' = k ∧ s.volume.pointer (s.heap p) k = 0)
      ((s.putSector ((s.heap p).sector k).toNat
        ((sectors s.disk ((s.heap p).sector k).toNat 1).splice (24 * j) entry.image 24)).growEntry p) := by
  have here : s.volume.pointer (s.heap p) k = (s.heap p).sector k := Volume.pointer_direct _ _ direct
  have some : s.volume.pointer (s.heap p) k ≠ 0 := here ▸ present
  have low := owns.low (by omega) some
  rw [← here, owns.sectors_pointer (by omega) some]
  generalize final : s.putSector (s.volume.pointer (s.heap p) k).toNat
    ((s.volume.block (s.volume.pointer (s.heap p) k).toNat).splice (24 * j) entry.image 24) = t
  have volume : t.volume = s.volume.putBlock (s.volume.pointer (s.heap p) k).toNat
      ((s.volume.block (s.volume.pointer (s.heap p) k).toNat).splice (24 * j) entry.image 24) := by
    rw [← final, volume_putSector layout low]
  have kernel : t.toKernel = s.toKernel := by rw [← final]; rfl
  have heap : t.heap p = s.heap p := by rw [kernel]
  have old (k' : Nat) : ¬ (k' = k ∧ s.volume.pointer (s.heap p) k = 0) := fun new => some new.2
  have block (lba : Nat) (other : lba ≠ (s.volume.pointer (s.heap p) k).toNat) :
      t.volume.block lba = s.volume.block lba := by
    rw [volume]
    exact update_of_ne other _ _
  -- The table is another block, so the positions stay.
  have pointer (k' : Nat) : t.volume.pointer (t.heap p) k' = s.volume.pointer (s.heap p) k' := by
    rw [heap]
    refine Volume.pointer_congr (fun _ => rfl) (fun table => block _ fun same => ?_) k'
    rw [← Volume.pointer_table s.volume] at table same
    have := owns.apart 140 k (by omega) (by omega) table (BitVec.eq_of_toNat_eq same)
    omega
  have content : t.volume.block (s.volume.pointer (s.heap p) k).toNat =
      ((s.volume.block (s.volume.pointer (s.heap p) k).toNat).splice (24 * j) entry.image 24).clip 512 := by
    rw [volume]
    exact update_self _ _ _
  refine .of_content owns ?_ ?_ (by rw [volume]; rfl) (by rw [volume]; rfl) ?_ ⟨by omega, inside⟩ free
    (fun k' _ new => new.1) (by rw [pointer]; exact some) ?_ (fun k' _ new => absurd new (old k')) ?_
  · exact (Extended.refl s (s.heap p) old).congr (by rw [← final]; rfl) (by rw [volume]; rfl) pointer
  · rw [kernel, Inode.withSectors_self, Kernel.setInode_self]
  · intro lba other _
    rw [pointer] at other
    exact block lba other
  · grind [DirEntry.read_clip, DirEntry.read_splice_slot, Volume.slot_of_some]
  · exact .of_eq (by rw [volume]; rfl) (by rw [volume]; rfl)

theorem heap_takeBlock (s : Fs) (p k i : Nat) : (s.takeBlock p k i).heap p = (s.heap p).setSector k (s.lbaOf i) :=
  update_self _ _ _

theorem toKernel_takeBlock (s : Fs) (p k i : Nat) :
    (s.takeBlock p k i).toKernel = s.toKernel.setInode p ((s.heap p).setSector k (s.lbaOf i)) := rfl

theorem volume_takeBlock (layout : Layout s.part) (p k : Nat) (inside : i < s.part.bitCount .block) :
    (s.takeBlock p k i).volume = s.volume.mark .block i true :=
  volume_mark layout inside true

theorem Inserted.inNewBlock (layout : Layout s.part) (owns : s.Owns (s.heap p))
    (direct : k < 12) (none : (s.heap p).sector k = 0)
    (lowest : s.FirstFree .block i) (onDisk : (s.lbaOf i).toNat ≤ maxLba) :
    Inserted p entry s (s.heap p) k 0 (fun k' => k' = k ∧ s.volume.pointer (s.heap p) k = 0)
      (((s.takeBlock p k i).putSector (s.lbaOf i).toNat (entryBlock entry)).growEntry p) := by
  have empty : s.volume.pointer (s.heap p) k = 0 := (Volume.pointer_direct _ _ direct).trans none
  have new (k' : Nat) : (k' = k ∧ s.volume.pointer (s.heap p) k = 0) ↔ k' = k := and_iff_left empty
  have layout₁ := layout.congr (geometry_takeBlock s p k i)
  have low : (s.takeBlock p k i).part.sb.dataStartLba.toNat ≤ (s.lbaOf i).toNat := by
    rw [sb_takeBlock, toNat_lbaOf layout lowest.inside]
    omega
  generalize final : (s.takeBlock p k i).putSector (s.lbaOf i).toNat (entryBlock entry) = t
  have volume : t.volume = (s.volume.mark .block i true).putBlock (s.lbaOf i).toNat (entryBlock entry) := by
    rw [← final, volume_putSector layout₁ low, volume_takeBlock layout p k lowest.inside]
  have heap : t.heap p = (s.heap p).setSector k (s.lbaOf i) := by
    rw [← final]
    exact heap_takeBlock s p k i
  have block (lba : Nat) (other : lba ≠ (s.lbaOf i).toNat) : t.volume.block lba = s.volume.block lba := by
    rw [volume]
    exact update_of_ne other _ _
  have pointer (k' : Nat) : t.volume.pointer (t.heap p) k' = if k' = k then s.lbaOf i else s.volume.pointer
      (s.heap p) k' := by
    rw [heap]
    refine Volume.pointer_setSector _ direct _ (fun table => block _ ?_) k'
    rw [← Volume.pointer_table s.volume] at table ⊢
    exact owns.ne_free layout lowest.inside lowest.free (Nat.le_refl _) table
  have here : t.volume.pointer (t.heap p) k = s.lbaOf i := by rw [pointer, if_pos rfl]
  have content : t.volume.block (s.lbaOf i).toNat = (entryBlock entry).clip 512 := by
    rw [volume]
    exact update_self _ _ _
  have extended : Extended s t (s.heap p) (t.heap p) (fun k' => k' = k ∧ s.volume.pointer (s.heap p) k = 0) := by
    refine .of_indices (fun _ => i) layout ?_ ?_ ?_ ?_ (fun _ _ _ => lowest.inside) (fun _ _ _ => lowest.free) ?_ ?_
    · rw [← final]
      exact geometry_takeBlock s p k i
    · intro k' _ old
      rw [new] at old
      rw [pointer, if_neg old]
    · rintro k' _ ⟨rfl, -⟩
      exact empty
    · rintro k' _ ⟨rfl, -⟩
      exact here
    · rintro k' k'' _ _ ⟨rfl, -⟩ ⟨rfl, -⟩ _
      rfl
    · intro i'
      have bit : t.volume.bit .block i' = (s.volume.mark .block i true).bit .block i' := by rw [volume]; rfl
      rw [bit, Volume.bit_mark]
      by_cases same : i' = i
      · subst same
        rw [if_pos ⟨rfl, rfl⟩]
        exact ⟨fun _ => .inr ⟨k, by omega, ⟨rfl, empty⟩, rfl⟩, fun _ => rfl⟩
      grind
  refine .of_content owns extended ?_ (by rw [volume]; rfl) ?_ ?_ ⟨by omega, by omega⟩ ?_
    (fun k' _ fresh => fresh.1) ?_ ?_ ?_ ?_
  · rw [heap, ← final]
    exact toKernel_takeBlock s p k i
  · have other : BitmapType.inode ≠ .block := by decide
    rw [volume]
    exact Volume.bit_mark_other s.volume .block i true other
  · intro lba other _
    rw [here] at other
    exact block lba other
  · rw [Volume.slot_of_none empty]
    rfl
  · rw [here]
    exact lbaOf_ne_zero layout lowest.inside
  · grind [DirEntry.read_clip, read_entryBlock, Volume.slot_of_none]
  · rintro k' _ ⟨rfl, -⟩
    rw [here]
    exact onDisk
  · rw [volume]
    exact (Volume.keepsSync_mark _ _ _ _).trans (.of_eq rfl rfl)

def Inode.direct (inode : Inode) : Inode := inode.setSector 12 0

theorem Inode.sector_direct (inode : Inode) (k : Nat) :
    inode.direct.sector k = if k = 12 then 0 else inode.sector k := by
  unfold Inode.direct
  rw [Inode.sector_setSector]
  simp

theorem Volume.pointer_direct_inode (v : Volume) (inode : Inode) (k : Nat) :
    v.pointer inode.direct k = if k < 12 then inode.sector k else 0 := by
  by_cases low : k < 12
  · rw [if_pos low, Volume.pointer_direct _ _ low, Inode.sector_direct, if_neg (by omega)]
  · rw [if_neg low]
    exact Volume.pointer_of_no_table (by rw [Inode.sector_direct, if_pos rfl]) (by omega)

theorem Fs.Owns.direct (owns : s.Owns inode) : s.Owns inode.direct := by
  have some {k : Nat} (present : s.volume.pointer inode.direct k ≠ 0) :
      k < 12 ∧ s.volume.pointer inode.direct k = s.volume.pointer inode k := by
        grind [Volume.pointer_direct_inode, Volume.pointer_direct]
  constructor
  · grind [owns.used]
  grind [owns.apart]

theorem Inserted.inNewTable {i' : Nat} (layout : Layout s.part) (owns : s.Owns (s.heap p))
    (lowest : s.FirstFree .block i)
    (lowest' : LowestFree ((s.takeBlock p 12 i).volume.bit .block) (s.part.bitCount .block) i')
    (onDisk : (s.lbaOf i).toNat ≤ maxLba) (onDisk' : (s.lbaOf i').toNat ≤ maxLba) :
    Inserted p entry s (s.heap p).direct 12 0 (fun k => k = 12 ∨ k = 140)
      (((((s.takeBlock p 12 i).mark .block i' true).putSector (s.lbaOf i).toNat
        (tableImage (update (allBlocks (s.heap p) Memory.zero) 12 (s.lbaOf i')))).putSector
          (s.lbaOf i').toNat (entryBlock entry)).growEntry p) := by
  have number := toNat_lbaOf layout lowest.inside
  have number' := toNat_lbaOf layout lowest'.inside
  have bits := volume_takeBlock layout p 12 lowest.inside
  -- The second block was free after the first one was taken, so it is another block.
  have apart : i' ≠ i ∧ s.volume.bit .block i' = false := by grind [lowest'.free, Volume.bit_mark]
  have layout₁ := layout.congr (geometry_takeBlock s p 12 i)
  generalize second : (s.takeBlock p 12 i).mark .block i' true = t₁
  have geometry₁ : t₁.part.geometry = s.part.geometry := by
    rw [← second]
    exact (geometry_mark _ _ _ _).trans (geometry_takeBlock s p 12 i)
  have sb₁ : t₁.part.sb = s.part.sb := congrArg (·.2.2.1) geometry₁
  have layout₂ := layout.congr geometry₁
  have volume₁ : t₁.volume = (s.volume.mark .block i true).mark .block i' true := by
    grind [volume_mark, bitCount_takeBlock, lowest'.inside]
  have heap₁ : t₁.heap p = (s.heap p).setSector 12 (s.lbaOf i) := by
    rw [← second]
    exact heap_takeBlock s p 12 i
  have table₁ : (t₁.heap p).sector 12 = s.lbaOf i := by
    rw [heap₁, Inode.sector_setSector, if_pos ⟨rfl, by omega⟩]
  have kernel₁ : t₁.toKernel = s.toKernel.setInode p ((s.heap p).setSector 12 (s.lbaOf i)) := by
    rw [← second]
    exact toKernel_takeBlock s p 12 i
  generalize blocks : update (allBlocks (s.heap p) Memory.zero) 12 (s.lbaOf i') = B
  have low : t₁.part.sb.dataStartLba.toNat ≤ (s.lbaOf i).toNat := by
    rw [sb₁, number]
    omega
  have low' : (t₁.putSector (s.lbaOf i).toNat (tableImage B)).part.sb.dataStartLba.toNat ≤ (s.lbaOf i').toNat := by
    have same : (t₁.putSector (s.lbaOf i).toNat (tableImage B)).part.sb = s.part.sb := sb₁
    rw [same, number']
    omega
  have written := volume_putSector (s := t₁.putSector (s.lbaOf i).toNat (tableImage B)) layout₂ low' (entryBlock entry)
  have before := volume_putSector layout₂ low (tableImage B)
  -- The table is written before the block it points to, which is another one.
  have pointer₁ := pointer_putTable layout₂ B (table₁ ▸ lbaOf_ne_zero layout lowest.inside) (table₁ ▸ low)
  rw [table₁] at pointer₁
  generalize final : (t₁.putSector (s.lbaOf i).toNat (tableImage B)).putSector (s.lbaOf i').toNat (entryBlock entry) =
    t at written ⊢
  have heap : t.heap p = t₁.heap p := by rw [← final]; rfl
  have block (lba : Nat) (other : lba ≠ (s.lbaOf i').toNat) :
      t.volume.block lba = (t₁.putSector (s.lbaOf i).toNat (tableImage B)).volume.block lba := by
    rw [written]
    exact update_of_ne other _ _
  have pointer (k : Nat) (hk : k ≤ 140) : t.volume.pointer (t.heap p) k =
      if k = 12 then s.lbaOf i' else if k = 140 then s.lbaOf i else if k < 12 then (s.heap p).sector k else 0 := by
    by_cases last : k = 140
    · rw [if_neg (by omega), if_pos last, last, Volume.pointer_table, heap, table₁]
    · have same : t.volume.pointer (t.heap p) k =
          (t₁.putSector (s.lbaOf i).toNat (tableImage B)).volume.pointer (t₁.heap p) k := by
            grind [Volume.pointer_congr]
      rw [same, pointer₁ k (by omega), ← blocks, heap₁]
      grind [Inode.sector_setSector, allBlocks, Memory.word_zero]
  have here : t.volume.pointer (t.heap p) 12 = s.lbaOf i' := by rw [pointer 12 (by omega), if_pos rfl]
  have last : t.volume.pointer (t.heap p) 140 = s.lbaOf i := by
    rw [pointer 140 (by omega), if_neg (by omega), if_pos rfl]
  have content : t.volume.block (s.lbaOf i').toNat = (entryBlock entry).clip 512 := by
    rw [written]
    exact update_self _ _ _
  have marked : t.volume.bit = ((s.volume.mark .block i true).mark .block i' true).bit := by
    rw [written, before, volume₁]
    rfl
  have empty (k : Nat) (high : 12 ≤ k) : s.volume.pointer (s.heap p).direct k = 0 := by
    rw [Volume.pointer_direct_inode, if_neg (by omega)]
  have extended : Extended s t (s.heap p).direct (t.heap p) (fun k => k = 12 ∨ k = 140) := by
    refine .of_indices (fun k => if k = 12 then i' else i) layout ?_ ?_ ?_ ?_ ?_ ?_ ?_ ?_
    · rw [← final]
      exact geometry₁
    · grind [Volume.pointer_direct_inode]
    · rintro k _ (rfl | rfl) <;> exact empty _ (by omega)
    · rintro k _ (rfl | rfl)
      · exact here
      · exact last
    · rintro k _ (rfl | rfl)
      · exact lowest'.inside
      · exact lowest.inside
    · rintro k _ (rfl | rfl)
      · exact apart.2
      · exact lowest.free
    · grind
    · intro i''
      rw [marked, Volume.bit_mark, Volume.bit_mark]
      constructor
      · intro used
        split at used
        next both => exact .inr ⟨12, by omega, .inl rfl, both.2.symm⟩
        next =>
          split at used
          next both => exact .inr ⟨140, by omega, .inr rfl, both.2.symm⟩
          next => exact .inl used
      grind
  have other : BitmapType.inode ≠ .block := by decide
  refine .of_content owns.direct extended ?_ ?_ ?_ ?_ ⟨by omega, by omega⟩ ?_ ?_ ?_ ?_ ?_ ?_
  · rw [heap, heap₁, ← final]
    exact kernel₁
  · rw [written, before, volume₁]
    rfl
  · rw [marked, Volume.bit_mark_other _ _ _ _ other, Volume.bit_mark_other _ _ _ _ other]
  · intro lba away away'
    rw [here] at away
    rw [last] at away'
    rw [block lba away, before]
    refine (update_of_ne (away' (.inr rfl)) _ _).trans ?_
    rw [volume₁]
    rfl
  · rw [Volume.slot_of_none (empty 12 (by omega))]
    rfl
  · rintro k small (rfl | rfl)
    · rfl
    · omega
  · rw [here]
    exact lbaOf_ne_zero layout lowest'.inside
  · grind [DirEntry.read_clip, read_entryBlock, Volume.slot_of_none]
  · rintro k _ (rfl | rfl)
    · rw [here]
      exact onDisk'
    · rw [last]
      exact onDisk
  · have stored : t.volume.stored = ((s.volume.mark .block i true).mark .block i' true).stored := by
      rw [written, before, volume₁]
      rfl
    exact ((Volume.keepsSync_mark _ _ _ _).trans (Volume.keepsSync_mark _ _ _ _)).trans (.of_eq marked stored)

theorem Fs.Owns.slot_direct (owns : s.Owns inode) (direct : k < 12)
    (present : inode.sector k ≠ 0) (j : Nat) :
    s.volume.slot inode k j = DirEntry.read (sectors s.disk (inode.sector k).toNat 1) (24 * j) := by
  have here : s.volume.pointer inode k = inode.sector k := Volume.pointer_direct _ _ direct
  rw [Volume.slot_of_some (by rw [here]; exact present),
    ← owns.sectors_pointer (by omega) (by rw [here]; exact present), here]

theorem FullBetween.live (full : FullBetween s inode 0 k) (owns : s.Owns inode) (small : k ≤ 12)
    {k' : Nat} (below : k' < k) (inside : j < 21) : (s.volume.slot inode k' j).fType ≠ 0 := by
  obtain ⟨present, -, live⟩ := full k' (Nat.zero_le _) below
  rw [owns.slot_direct (by omega) present]
  exact live j inside

theorem free_takeBlock (layout : Layout s.part) (p k : Nat) (inside : i < s.part.bitCount .block) :
    (s.takeBlock p k i).free = s.free.erase i := by
  refine free_erase (geometry_takeBlock s p k i) fun j => ?_
  rw [volume_takeBlock layout p k inside, Volume.bit_mark]
  grind

theorem Fs.Owns.full_iff (owns : s.Owns inode) (onDisk : ∀ k, k ≤ 140 → (s.volume.pointer inode k).toNat ≤ maxLba)
    (small : k ≤ 12) : FullBetween s inode 0 k ↔ ∀ k' j, k' < k → j < 21 → (s.volume.slot inode k' j).fType ≠ 0 := by
  refine ⟨fun full k' j below inside => full.live owns small below inside, fun live k' _ below => ?_⟩
  have here := Volume.pointer_direct s.volume inode (by omega : k' < 12)
  have present : inode.sector k' ≠ 0 := fun none =>
    live k' 0 below (by omega) (by rw [Volume.slot_of_none (here.trans none)]; rfl)
  refine ⟨present, here ▸ onDisk k' (by omega), fun j inside => ?_⟩
  rw [← owns.slot_direct (by omega) present]
  exact live k' j below inside

theorem Fs.Owns.entryBlocks_eq (owns : s.Owns inode) (direct : k < 12) (full : FullBetween s inode 0 k)
    (inside : j < 21)
    (here : (s.volume.slot inode k j).fType = 0) :
    s.volume.entryBlocks inode = if inode.sector k = 0 then 1 else 0 := by
  have found : (List.range 12).find? (fun k => (List.range 21).any fun j => (s.volume.slot inode k j).fType == 0) =
      some k := by
    refine List.find?_range_eq_some.mpr ⟨?_, List.mem_range.mpr direct, fun k' below => ?_⟩
    · exact List.any_eq_true.mpr ⟨j, List.mem_range.mpr inside, beq_iff_eq.mpr here⟩
    · simpa using fun j inside => full.live owns (Nat.le_of_lt direct) below inside
  rw [Volume.entryBlocks, found]

/-- An entry finds a place exactly when there are the blocks for it. -/
theorem Fs.Owns.syncs_iff_room (layout : Layout s.part) (owns : s.Owns (s.heap p))
    (onDisk : ∀ k, k ≤ 140 → (s.volume.pointer (s.heap p) k).toNat ≤ maxLba) :
    (∃ s', Syncs p entry s 0 s') ↔ s.volume.entryBlocks (s.heap p) ≤ s.free.card := by
  have mem {i : Nat} (inside : i < s.part.bitCount .block) : i ∈ s.free ↔ s.volume.bit .block i = false ∧
      (s.lbaOf i).toNat ≤ maxLba := by
    rw [mem_free, toNat_lbaOf layout inside, and_iff_right inside]
  have other {i i' : Nat} (inside : i < s.part.bitCount .block) : (s.takeBlock p 12 i).volume.bit .block i' = false ↔
      i' ≠ i ∧ s.volume.bit .block i' = false := by
    rw [volume_takeBlock layout p 12 inside, Volume.bit_mark]
    grind
  constructor
  · rintro ⟨s', syncs⟩
    cases syncs with
    | @slot k j _ direct full present _ inside free _ =>
      rw [← owns.slot_direct direct present] at free
      rw [owns.entryBlocks_eq direct full inside free, if_neg present]
      exact Nat.zero_le _
    | @block k i _ direct full none lowest high =>
      have empty : (s.volume.slot (s.heap p) k 0).fType = 0 := by
        rw [Volume.slot_of_none ((Volume.pointer_direct _ _ direct).trans none)]
        rfl
      rw [owns.entryBlocks_eq direct full (by omega) empty, if_pos none]
      exact Finset.card_pos.mpr ⟨i, (mem lowest.inside).mpr ⟨lowest.free, high⟩⟩
    | @table i i' _ lowest lowest' high high' =>
      obtain ⟨apart, clear⟩ := (other lowest.inside).mp lowest'.free
      refine Nat.le_trans (Volume.entryBlocks_le _ _) (Finset.one_lt_card.mpr ?_)
      exact ⟨i, (mem lowest.inside).mpr ⟨lowest.free, high⟩, i', (mem lowest'.inside).mpr ⟨clear, high'⟩, apart.symm⟩
  · intro room
    unfold Volume.entryBlocks at room
    split at room
    · next none =>
      have full := (owns.full_iff onDisk (Nat.le_refl 12)).mpr fun k j direct inside => by
        have live := List.find?_eq_none.mp none k (List.mem_range.mpr direct)
        simp only [List.any_eq_true, List.mem_range, beq_iff_eq, not_exists, not_and] at live
        exact live j inside
      obtain ⟨i, lowest, member⟩ := exists_lowestFree (s := s) (by omega)
      have more : 0 < (s.takeBlock p 12 i).free.card := by
        rw [free_takeBlock layout p 12 lowest.inside, Finset.card_erase_of_mem member]
        omega
      obtain ⟨i', lowest', member'⟩ := exists_lowestFree more
      rw [free_takeBlock layout p 12 lowest.inside, Finset.mem_erase] at member'
      rw [Fs.FirstFree, bitCount_takeBlock] at lowest'
      exact ⟨_, .table full lowest lowest' ((mem lowest.inside).mp member).2 ((mem lowest'.inside).mp member'.2).2⟩
    · next k found =>
      obtain ⟨some, direct, before⟩ := List.find?_range_eq_some.mp found
      have full := (owns.full_iff onDisk (Nat.le_of_lt (List.mem_range.mp direct))).mpr fun k' j below inside => by
        have live := before k' below
        simp only [Bool.not_eq_true', List.any_eq_false, List.mem_range, beq_iff_eq] at live
        exact live j inside
      by_cases none : (s.heap p).sector k = 0
      · rw [if_pos none] at room
        obtain ⟨i, lowest, member⟩ := exists_lowestFree room
        exact ⟨_, .block (Nat.zero_le k) (List.mem_range.mp direct) full none lowest ((mem lowest.inside).mp member).2⟩
      · obtain ⟨j, inside, here⟩ := List.any_eq_true.mp some
        have slot (j : Nat) := owns.slot_direct (List.mem_range.mp direct) none j
        have free : ∃ j, (s.volume.slot (s.heap p) k j).fType = 0 := ⟨j, beq_iff_eq.mp here⟩
        obtain ⟨m, least, first, taken⟩ : ∃ m ≤ j, (s.volume.slot (s.heap p) k m).fType = 0 ∧
            ∀ j', j' < m → (s.volume.slot (s.heap p) k j').fType ≠ 0 :=
          ⟨_, Nat.find_min' free (beq_iff_eq.mp here), Nat.find_spec free, fun _ => Nat.find_min free⟩
        rw [slot] at first
        simp only [slot] at taken
        have high := onDisk k (by have := List.mem_range.mp direct; omega)
        rw [Volume.pointer_direct _ _ (List.mem_range.mp direct)] at high
        exact ⟨_, .slot (Nat.zero_le k) (List.mem_range.mp direct) full none high
          (Nat.lt_of_le_of_lt least (List.mem_range.mp inside)) first taken⟩
/-- Where an entry gets its place: in the direct blocks, or, when these are full, in a new table. -/
theorem Syncs.inserted {s' : Fs} (layout : Layout s.part) (owns : s.Owns (s.heap p))
    (syncs : Syncs p entry s 0 s') :
    (∃ k j, k < 12 ∧ (∀ k' j', k' < k → j' < 21 → (s.volume.slot (s.heap p) k' j').fType ≠ 0) ∧
      Inserted p entry s (s.heap p) k j (fun k' => k' = k ∧ s.volume.pointer (s.heap p) k = 0) s') ∨
    ((∀ k j, k < 12 → j < 21 → (s.volume.slot (s.heap p) k j).fType ≠ 0) ∧
      Inserted p entry s (s.heap p).direct 12 0 (fun k => k = 12 ∨ k = 140) s') := by
  cases syncs with
  | @slot k j _ direct full present onDisk inside free taken =>
    rw [← owns.slot_direct direct present] at free
    exact .inl ⟨k, j, direct, fun k' j' => full.live owns (by omega), .inBlock layout owns direct present inside free⟩
  | @block k i _ direct full none lowest onDisk =>
    exact .inl ⟨k, 0, direct, fun k' j' => full.live owns (by omega), .inNewBlock layout owns direct none lowest onDisk⟩
  | table full lowest lowest' onDisk onDisk' =>
    exact .inr ⟨fun k j => full.live owns (Nat.le_refl _), .inNewTable layout owns lowest lowest' onDisk onDisk'⟩

theorem Volume.slot_direct_inode (v : Volume) (inode : Inode) (k j : Nat) :
    v.slot inode.direct k j = if k < 12 then v.slot inode k j else .empty := by
  split
  next low =>
    refine Volume.slot_congr ?_ (fun _ => rfl) j
    rw [Volume.pointer_direct_inode, if_pos low, Volume.pointer_direct _ _ low]
  next high => exact Volume.slot_of_none (by rw [Volume.pointer_direct_inode, if_neg high]) j

theorem Fs.DirOk.direct (ok : s.DirOk inode) : s.DirOk inode.direct := by
  have live {k j : Nat} (some : (s.volume.slot inode.direct k j).fType ≠ 0) :
      s.volume.slot inode.direct k j = s.volume.slot inode k j := by
    rw [Volume.slot_direct_inode] at some ⊢
    split at some
    next low => rw [if_pos low]
    next => exact absurd rfl some
  refine ⟨ok.owns.direct, fun k hk => ?_, fun k j hk hj dead => ?_, fun k j hk hj some => ?_, ?_⟩
  · rw [Volume.pointer_direct_inode]
    split
    next low =>
      rw [← Volume.pointer_direct s.volume inode low]
      exact ok.onDisk k hk
    next => exact Nat.zero_le _
  · grind [Volume.slot_direct_inode, ok.dead]
  · have same := live some
    rw [same] at some ⊢
    exact ok.named k j hk hj some
  grind [ok.distinct]

section
variable {p k j : Nat} {entry : DirEntry} {inode : Inode} {fresh : Nat → Prop} {s' : Fs}
  (inserted : Inserted p entry s inode k j fresh s')
include inserted

theorem Inserted.slot_self : s'.volume.slot (s'.heap p) k j = entry := by
  rw [inserted.slot k j inserted.inside.1 inserted.inside.2, if_pos ⟨rfl, rfl⟩]

theorem Inserted.size : (s'.heap p).iSize = (s.heap p).iSize + 24 := by
  have heap := congrArg (fun kernel => (kernel.heap p).iSize) inserted.kernel
  rwa [Kernel.heap_setInode_self] at heap

theorem Inserted.hasEntry (live : entry.fType ≠ 0) (e : DirEntry) :
    s'.volume.HasEntry (s'.heap p) e ↔ e = entry ∨ s.volume.HasEntry inode e := by
  constructor
  · rintro ⟨some, k', j', hk', hj', rfl⟩
    rw [inserted.slot k' j' hk' hj'] at some ⊢
    split at some
    next here => exact .inl (if_pos here)
    next other =>
      rw [if_neg other]
      exact .inr ⟨some, k', j', hk', hj', rfl⟩
  · rintro (rfl | ⟨some, k', j', hk', hj', rfl⟩)
    · exact ⟨live, k, j, inserted.inside.1, inserted.inside.2, inserted.slot_self⟩
    · have other : ¬ (k' = k ∧ j' = j) := by
        rintro ⟨rfl, rfl⟩
        exact some inserted.free
      exact ⟨some, k', j', hk', hj', by rw [inserted.slot k' j' hk' hj', if_neg other]⟩

theorem Inserted.dirOk (ok : s.DirOk inode) (live : entry.fType ≠ 0) (named : entry.Named)
    (new : ∀ e, s.volume.HasEntry inode e → e.name ≠ entry.name) : s'.DirOk (s'.heap p) := by
  have slot := inserted.slot
  refine ⟨inserted.extended.owns ok.owns, fun k' hk' => ?_, fun k' j' hk' hj' dead =>
    ?_, fun k' j' hk' hj' some => ?_, ?_⟩
  · by_cases old : fresh k'
    · exact inserted.onDisk k' hk' old
    · rw [inserted.extended.kept k' hk' old]
      exact ok.onDisk k' hk'
  · grind [ok.dead]
  · grind [ok.named]
  · intro k₁ j₁ k₂ j₂ hk₁ hj₁ hk₂ hj₂ some₁ some₂ equal
    rw [slot k₁ j₁ hk₁ hj₁] at some₁ equal
    rw [slot k₂ j₂ hk₂ hj₂] at some₂ equal
    -- The name of the new entry is that of no other slot.
    by_cases here₁ : k₁ = k ∧ j₁ = j
    · by_cases here₂ : k₂ = k ∧ j₂ = j
      · exact ⟨here₁.1.trans here₂.1.symm, here₁.2.trans here₂.2.symm⟩
      · rw [if_neg here₂] at some₂
        rw [if_pos here₁, if_neg here₂] at equal
        exact absurd equal.symm (new _ ⟨some₂, k₂, j₂, hk₂, hj₂, rfl⟩)
    · rw [if_neg here₁] at some₁ equal
      by_cases here₂ : k₂ = k ∧ j₂ = j
      · rw [if_pos here₂] at equal
        exact absurd equal (new _ ⟨some₁, k₁, j₁, hk₁, hj₁, rfl⟩)
      grind [ok.distinct]

end

end

end LaiMiniOs
