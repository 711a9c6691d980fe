import LaiMiniOs.Fs.DirEntries

/-! `delete_dir_entry`: how a directory loses an entry.

The entry is looked for by its inode number. A block that held only this entry is given
back, unless it is the first block of the directory; otherwise the slot is cleared.
-/

set_option autoImplicit false

namespace LaiMiniOs
open Foundation Prog Function

variable {k p j : Nat} {inodeNo : Word}

def DirEntry.Counted (entry : DirEntry) : Prop := entry.fType ≠ 0 ∧ entry.name ≠ dot ∧ entry.name ≠ dotDot

instance (entry : DirEntry) : Decidable entry.Counted := inferInstanceAs (Decidable (_ ∧ _ ∧ _))

def DirEntry.Matches (entry : DirEntry) (inodeNo : Word) : Prop := entry.Counted ∧ entry.iNo = inodeNo

theorem DirEntry.not_counted_empty : ¬ DirEntry.empty.Counted := fun counted => counted.1 rfl

structure Scanned (slot : Nat → DirEntry) (inodeNo : Word) (m : Nat) (scan : SectorScan) : Prop where
  first : scan.isDirFirstBlock = true ↔ ∃ j, j < m ∧ (slot j).fType ≠ 0 ∧ (slot j).name = dot
  count : scan.dirEntryCnt = ((Finset.range m).filter fun j => (slot j).Counted).card
  found : ∀ j, scan.dirEntryFound = some j ↔ j < m ∧ (slot j).Matches inodeNo

section
variable {slot : Nat → DirEntry} {inodeNo : Word} {m : Nat} {scan : SectorScan} (scanned : Scanned slot inodeNo m scan)
include scanned

theorem Scanned.skip (not : ¬ (slot m).Counted) {b : Bool}
    (first : b = true ↔ scan.isDirFirstBlock = true ∨ ((slot m).fType ≠ 0 ∧ (slot m).name = dot)) :
    Scanned slot inodeNo (m + 1) { scan with isDirFirstBlock := b } where
  first := by grind [scanned.first]
  count := by rw [Finset.range_add_one, Finset.filter_insert, if_neg not, scanned.count]
  found j := by
    rw [scanned.found]
    refine ⟨fun ⟨below, here⟩ => ⟨by omega, here⟩, fun ⟨below, here⟩ => ⟨?_, here⟩⟩
    by_contra last
    have same : j = m := by omega
    subst same
    exact not here.1

theorem Scanned.counted (here : (slot m).Counted) {found : Option Nat}
    (finds : ∀ j, found = some j ↔ j < m + 1 ∧ (slot j).Matches inodeNo) :
    Scanned slot inodeNo (m + 1) ⟨scan.isDirFirstBlock, scan.dirEntryCnt + 1, found⟩ where
  first := by
    rw [scanned.first]
    refine ⟨fun ⟨j, below, named⟩ => ⟨j, by omega, named⟩, fun ⟨j, below, named⟩ => ⟨j, ?_, named⟩⟩
    by_contra last
    have same : j = m := by omega
    subst same
    exact here.2.1 named.2
  count := by grind [Finset.range_add_one, Finset.filter_insert, scanned.count]
  found := finds

end

/-- The pass fails its assertion when two slots have the number, and otherwise ends. -/
theorem scanSector_cases (buf : Memory) (inodeNo : Word) (m : Nat) (s : Fs) :
    (∃ scan, scanSector buf inodeNo m s = .ok (scan, s) ∧
    Scanned (fun j => DirEntry.read buf (24 * j)) inodeNo m scan) ∨
      (scanSector buf inodeNo m s = .error .assertion ∧ ∃ j j', j < j' ∧ j' < m ∧
      (DirEntry.read buf (24 * j)).Matches inodeNo ∧
        (DirEntry.read buf (24 * j')).Matches inodeNo) := by
  induction m with
  | zero => exact .inl ⟨⟨false, 0, none⟩, rfl, by simp, by simp, by simp⟩
  | succ m ih =>
    rw [scanSector]
    rcases ih with ⟨scan, run, scanned⟩ | ⟨stop, j, j', order, below, both⟩
    swap
    · exact .inr ⟨bind_of_error stop, j, j', order, by omega, both⟩
    rw [bind_of_ok run]
    by_cases dead : (DirEntry.read buf (24 * m)).fType = 0
    · rw [if_pos dead]
      exact .inl ⟨scan, rfl, scanned.skip (fun counted => counted.1 dead) (by simp [dead])⟩
    have isDot := strcmpEq_short (m := buf) (a := 24 * m) (show dot.length < 16 by decide)
      (show (0 : Byte) ∉ dot by decide)
    have isDotDot :=
      strcmpEq_short (m := buf) (a := 24 * m) (show dotDot.length < 16 by decide) (show (0 : Byte) ∉ dotDot by decide)
    rw [← DirEntry.name_read] at isDot isDotDot
    rw [if_neg dead]
    by_cases first : (DirEntry.read buf (24 * m)).name = dot
    · rw [if_pos (isDot.mpr first)]
      exact .inl ⟨{ scan with isDirFirstBlock := true }, rfl,
        scanned.skip (fun counted => counted.2.1 first) (iff_of_true rfl (.inr ⟨dead, first⟩))⟩
    rw [if_neg (mt isDot.mp first)]
    by_cases second : (DirEntry.read buf (24 * m)).name = dotDot
    · rw [if_pos (isDotDot.mpr second)]
      exact .inl ⟨scan, rfl, scanned.skip (fun counted => counted.2.2 second) (by simp [first])⟩
    rw [if_neg (mt isDotDot.mp second)]
    have counted : (DirEntry.read buf (24 * m)).Counted := ⟨dead, first, second⟩
    by_cases number : (DirEntry.read buf (24 * m)).iNo = inodeNo
    · rw [if_pos number]
      cases found : scan.dirEntryFound with
      | some j =>
        -- This is the second slot with the number.
        obtain ⟨below, before⟩ := (scanned.found j).mp found
        exact .inr ⟨bind_of_error rfl, j, m, below, by omega, before, counted, number⟩
      | none =>
        refine .inl ⟨_, require_bind rfl, scanned.counted counted fun j => ?_⟩
        rw [Option.some.injEq]
        constructor
        · rintro rfl
          exact ⟨by omega, counted, number⟩
        · rintro ⟨below, here⟩
          by_contra other
          have earlier := (scanned.found j).mpr ⟨by omega, here⟩
          rw [found] at earlier
          cases earlier
    · rw [if_neg number]
      refine .inl ⟨_, rfl, scanned.counted counted fun j => ?_⟩
      rw [scanned.found]
      refine ⟨fun ⟨below, found⟩ => ⟨by omega, found⟩, fun ⟨below, found⟩ => ⟨?_, found⟩⟩
      by_contra last
      have same : j = m := by omega
      subst same
      exact number found.2

def Inode.shrunk (inode : Inode) : Inode := { inode with iSize := inode.iSize - 24 }

def Fs.shrinkEntry (s : Fs) (p : Nat) : Fs :=
  putRecord (s.setInode p (s.heap p).shrunk) (syncSlot (s.heap p)) (s.heap p).shrunk.pureInode.image

def Fs.dropBlock (s : Fs) (p k i : Nat) : Fs :=
  (s.mark .block i false).setInode p ((s.heap p).setSector k 0)

section
variable {s : Fs}

theorem shrinkDir_eq (layout : Layout s.part) (big : 24 ≤ (s.heap p).iSize.toNat) :
    shrinkDir p s = .ok ((), s.shrinkEntry p) := by
  have size : s.part.sb.dirEntrySize = 24 := layout.entrySize
  have layout' : Layout (s.setInode p (s.heap p).shrunk).part := layout
  have heap : (s.setInode p (s.heap p).shrunk).heap p = (s.heap p).shrunk := update_self _ _ _
  have stored : inodeSync ((s.setInode p (s.heap p).shrunk).heap p) (s.setInode p (s.heap p).shrunk) =
      .ok ((), s.shrinkEntry p) := by
    rw [heap]
    exact inodeSync_eq layout' _
  unfold shrinkDir
  rw [get_bind, require_bind (by rw [size]; exact big), size,
    set_bind, get_bind]
  exact stored

theorem deleteFound_drop {i : Nat} {lba : Word} {buf : Memory} {scan : SectorScan} (layout : Layout s.part)
    (number : s.BlockNo lba i) (direct : k < 12) (only : scan.dirEntryCnt = 1 ∧ scan.isDirFirstBlock = false) :
    deleteFound p lba k buf scan j s = .ok ((), s.dropBlock p k i) := by
  have index := sub_dataStart number
  have clear : bitmapSet .block (lba - s.part.sb.dataStartLba) false s = .ok ((), s.setBit .block i false) := by
    refine bitmapSet_eq_ok.mpr ⟨?_, by rw [index]⟩
    rw [index]
    exact number.1
  have geometry := geometry_setBit s .block i false
  have store : bitmapSync (lba - s.part.sb.dataStartLba) .block (s.setBit .block i false) =
      .ok ((), s.mark .block i false) := by
    refine (bitmapSync_eq_ok (layout.congr geometry)).mpr ⟨?_, by rw [index]; rfl⟩
    rw [index, bitCount_congr geometry]
    exact number.1
  unfold deleteFound
  rw [get_bind, if_pos only, bind_of_ok clear, bind_of_ok store, if_pos direct]
  rfl

theorem deleteFound_clear {lba : Word} {buf : Memory} {scan : SectorScan} (layout : Layout s.part)
    (onDisk : lba.toNat ≤ maxLba) (more : ¬ (scan.dirEntryCnt = 1 ∧ scan.isDirFirstBlock = false)) :
    deleteFound p lba k buf scan j s = .ok ((), s.putSector lba.toNat (buf.splice (24 * j) Memory.zero 24)) := by
  have size : s.part.sb.dirEntrySize.toNat = 24 := by rw [layout.entrySize]; rfl
  unfold deleteFound
  rw [get_bind, if_neg more, size, ideWrite_one onDisk]

/-- A directory in direct blocks: `.` and `..` come first, no later block is without an entry,
and the inode numbers of its entries are different. -/
structure Fs.DirDirect (s : Fs) (inode : Inode) (no parentNo : Word) : Prop extends Fs.DirOk s inode where
  noTable : inode.sector 12 = 0
  own : s.volume.slot inode 0 0 = DirEntry.make dot no .directory
  parent : s.volume.slot inode 0 1 = DirEntry.make dotDot parentNo .directory
  inhabited : ∀ k, 1 ≤ k → k < 12 → inode.sector k ≠ 0 → ∃ j, j < 21 ∧ (s.volume.slot inode k j).fType ≠ 0
  numbers : ∀ k j k' j', k < 140 → j < 21 → k' < 140 → j' < 21 → (s.volume.slot inode k j).Counted →
    (s.volume.slot inode k' j').Counted → (s.volume.slot inode k j).iNo = (s.volume.slot inode k' j').iNo →
      k = k' ∧ j = j'

def Volume.Alone (v : Volume) (inode : Inode) (k j : Nat) : Prop :=
  ∀ j', j' < 21 → j' ≠ j → (v.slot inode k j').fType = 0

section
variable {inode : Inode} {no parentNo : Word} (dir : s.DirDirect inode no parentNo)
include dir

theorem Fs.DirDirect.name_dot : (s.volume.slot inode 0 0).name = dot := by
  rw [dir.own]
  exact DirEntry.name_make ⟨by decide, by decide, by decide⟩ _ _

theorem Fs.DirDirect.name_dotDot : (s.volume.slot inode 0 1).name = dotDot := by
  rw [dir.parent]
  exact DirEntry.name_make ⟨by decide, by decide, by decide⟩ _ _

theorem Fs.DirDirect.live_dot : (s.volume.slot inode 0 0).fType ≠ 0 := by
  rw [dir.own]
  exact DirEntry.live_make (by decide)

theorem Fs.DirDirect.live_dotDot : (s.volume.slot inode 0 1).fType ≠ 0 := by
  rw [dir.parent]
  exact DirEntry.live_make (by decide)

theorem Scanned.only_iff {scan : SectorScan} (hk : k < 140) (hj : j < 21)
    (counted : (s.volume.slot inode k j).Counted) (scanned : Scanned (s.volume.slot inode k) inodeNo 21 scan) :
    (scan.dirEntryCnt = 1 ∧ scan.isDirFirstBlock = false) ↔ s.volume.Alone inode k j := by
  have member : j ∈ (Finset.range 21).filter fun j' => (s.volume.slot inode k j').Counted := by
    simp [hj, counted]
  rw [← Bool.not_eq_true, scanned.first, scanned.count]
  constructor
  · rintro ⟨one, noDot⟩ j' hj' other
    obtain ⟨only, single⟩ := Finset.card_eq_one.mp one
    by_contra live
    have notCounted : ¬ (s.volume.slot inode k j').Counted := by
      intro counted'
      have member' : j' ∈ (Finset.range 21).filter fun j' => (s.volume.slot inode k j').Counted := by
        simp [hj', counted']
      rw [single, Finset.mem_singleton] at member member'
      omega
    have notDot : (s.volume.slot inode k j').name ≠ dot := fun named => noDot ⟨j', hj', live, named⟩
    have second : (s.volume.slot inode k j').name = dotDot := by
      by_contra notDotDot
      exact notCounted ⟨live, notDot, notDotDot⟩
    -- The block with `..` is the one with `.`.
    have place := dir.distinct k j' 0 1 hk hj' (by omega) (by omega) live dir.live_dotDot
      (second.trans dir.name_dotDot.symm)
    rw [place.1] at noDot
    exact noDot ⟨0, by omega, dir.live_dot, dir.name_dot⟩
  · intro alone
    refine ⟨Finset.card_eq_one.mpr ⟨j, ?_⟩, ?_⟩
    · refine Finset.eq_singleton_iff_unique_mem.mpr ⟨member, fun j' member' => ?_⟩
      rw [Finset.mem_filter, Finset.mem_range] at member'
      by_contra other
      exact member'.2.1 (alone j' member'.1 other)
    · rintro ⟨j', hj', live, named⟩
      by_cases same : j' = j
      · rw [same] at named
        exact counted.2.1 named
      · exact live (alone j' hj' same)

theorem Fs.DirDirect.scan (hk : k < 140) (present : s.volume.pointer inode k ≠ 0) (inodeNo : Word) :
    ∃ scan, scanSector (s.volume.block (s.volume.pointer inode k).toNat) inodeNo 21 s = .ok (scan, s) ∧
      Scanned (s.volume.slot inode k) inodeNo 21 scan := by
  have slots : s.volume.slot inode k = fun j => DirEntry.read (s.volume.block (s.volume.pointer inode k).toNat)
      (24 * j) :=
    funext (Volume.slot_of_some present)
  rw [slots]
  rcases scanSector_cases (s.volume.block (s.volume.pointer inode k).toNat) inodeNo 21 s
    with ok | ⟨-, j, j', order, below, here, here'⟩
  · exact ok
  · rw [← Volume.slot_of_some present] at here here'
    have := (dir.numbers k j k j' hk (by omega) hk below here.1 here'.1 (here.2.trans here'.2.symm)).2
    omega

theorem Fs.DirDirect.deleteBlocks_pass (layout : Layout s.part) {left : Nat} (index : 140 - (left + 1) = k)
    (hk : k < 140) (none : ∀ j, j < 21 → ¬ (s.volume.slot inode k j).Matches inodeNo) :
    deleteBlocks p inodeNo (s.volume.pointer inode) (left + 1) s =
      deleteBlocks p inodeNo (s.volume.pointer inode) left s := by
  rw [deleteBlocks, index]
  by_cases gap : s.volume.pointer inode k = 0
  · rw [if_pos gap]
  · obtain ⟨scan, run, scanned⟩ := dir.scan hk gap inodeNo
    have missing : scan.dirEntryFound = Option.none := by
      cases found : scan.dirEntryFound with
      | none => rfl
      | some j =>
        obtain ⟨hj, here⟩ := (scanned.found j).mp found
        exact absurd here (none j hj)
    rw [if_neg gap, get_bind, layout.entriesPerSec,
      bind_of_ok (ideRead_eq (addressable_one.mpr (dir.onDisk k (by omega)))),
      dir.owns.sectors_pointer (by omega) gap, bind_of_ok run]
    simp only [missing]

theorem Fs.DirDirect.deleteBlocks_stop (layout : Layout s.part) (p left : Nat)
    (index : 140 - (left + 1) = k) (hk : k < 140) (hj : j < 21) (here : (s.volume.slot inode k j).Matches inodeNo) :
    ∃ scan, Scanned (s.volume.slot inode k) inodeNo 21 scan ∧
      deleteBlocks p inodeNo (s.volume.pointer inode) (left + 1) s =
        (do deleteFound p (s.volume.pointer inode k) k (s.volume.block (s.volume.pointer inode k).toNat) scan j
            shrinkDir p
            return true : FsM Bool) s := by
  have present : s.volume.pointer inode k ≠ 0 := by
    intro gap
    rw [Volume.slot_of_none gap] at here
    exact DirEntry.not_counted_empty here.1
  obtain ⟨scan, run, scanned⟩ := dir.scan hk present inodeNo
  have found : scan.dirEntryFound = some j := (scanned.found j).mpr ⟨hj, here⟩
  have some : 1 ≤ scan.dirEntryCnt := by
    rw [scanned.count, Nat.one_le_iff_ne_zero, ← Nat.pos_iff_ne_zero, Finset.card_pos]
    exact ⟨j, by simp [hj, here.1]⟩
  refine ⟨scan, scanned, ?_⟩
  rw [deleteBlocks, index, if_neg present, get_bind, layout.entriesPerSec,
    bind_of_ok (ideRead_eq (addressable_one.mpr (dir.onDisk k (by omega)))),
    dir.owns.sectors_pointer (by omega) present, bind_of_ok run]
  simp only [found]
  rw [require_bind some]

theorem Fs.DirDirect.deleteBlocks_reach (layout : Layout s.part) (hk : k ≤ 140)
    (none : ∀ k' j, k' < k → j < 21 → ¬ (s.volume.slot inode k' j).Matches inodeNo) :
    deleteBlocks p inodeNo (s.volume.pointer inode) 140 s = deleteBlocks p inodeNo (s.volume.pointer inode)
      (140 - k) s := by
  induction k with
  | zero => rfl
  | succ k ih =>
    have left : 140 - k = (140 - (k + 1)) + 1 := by omega
    grind [dir.deleteBlocks_pass]

end

theorem deleteBlocks_congr {left : Nat} {blocks blocks' : Nat → Word} (small : left ≤ 140)
    (same : ∀ k, k < 140 → blocks k = blocks' k) :
    deleteBlocks p inodeNo blocks left = deleteBlocks p inodeNo blocks' left := by
  induction left with
  | zero => rfl
  | succ left ih =>
    grind [deleteBlocks]

section
variable {p : Nat} {no parentNo inodeNo : Word} (layout : Layout s.part) (dir : s.DirDirect (s.heap p) no parentNo)
include layout dir

omit layout in
theorem deleteDirEntry_blocks :
    deleteDirEntry p inodeNo s = deleteBlocks p inodeNo (s.volume.pointer (s.heap p)) 140 s := by
  unfold deleteDirEntry
  rw [get_bind, bind_of_ok dir.readTable]
  have same (k : Nat) (hk : k < 140) :
      allBlocks (s.heap p) (s.volume.table (s.heap p)) k = s.volume.pointer (s.heap p) k :=
    (if_neg (by omega)).symm
  rw [deleteBlocks_congr (Nat.le_refl _) same]

abbrev Fs.clearedSlot (s : Fs) (p k j : Nat) : Memory :=
  (s.volume.block (s.volume.pointer (s.heap p) k).toNat).splice (24 * j) Memory.zero 24

theorem deleteDirEntry_found (hk : k < 140) (hj : j < 21) (here : (s.volume.slot (s.heap p) k j).Matches inodeNo)
    (big : 24 ≤ (s.heap p).iSize.toNat) :
    (¬ s.volume.Alone (s.heap p) k j → deleteDirEntry p inodeNo s = .ok (true,
      (s.putSector (s.volume.pointer (s.heap p) k).toNat
        (s.clearedSlot p k j)).shrinkEntry p)) ∧
    (s.volume.Alone (s.heap p) k j → ∀ i, s.BlockNo (s.volume.pointer (s.heap p) k) i →
      deleteDirEntry p inodeNo s = .ok (true, (s.dropBlock p k i).shrinkEntry p)) := by
  have direct : k < 12 := by
    by_contra high
    rw [Volume.slot_of_none (Volume.pointer_of_no_table dir.noTable (by omega))] at here
    exact DirEntry.not_counted_empty here.1
  have before (k' j' : Nat) (below : k' < k) (hj' : j' < 21) : ¬ (s.volume.slot (s.heap p) k' j').Matches inodeNo := by
    intro there
    have := (dir.numbers k' j' k j (by omega) hj' hk hj there.1 here.1 (there.2.trans here.2.symm)).1
    omega
  have left : 140 - k = (140 - (k + 1)) + 1 := by omega
  obtain ⟨scan, scanned, stop⟩ := dir.deleteBlocks_stop layout p (140 - (k + 1)) (by omega) hk hj here
  have only := scanned.only_iff dir hk hj here.1
  rw [deleteDirEntry_blocks dir, dir.deleteBlocks_reach layout (by omega) before, left, stop]
  constructor
  · intro more
    rw [bind_of_ok (deleteFound_clear layout (dir.onDisk k (by omega)) (mt only.mp more)),
      bind_of_ok (shrinkDir_eq (s := s.putSector _ _) layout big)]
    rfl
  · intro alone i number
    have layout' := layout.congr (geometry_mark s .block i false)
    have size : ((s.dropBlock p k i).heap p).iSize = (s.heap p).iSize := by
      rw [Fs.dropBlock, toKernel_setInode, Kernel.heap_setInode_self]
      rfl
    rw [bind_of_ok (deleteFound_drop layout number direct (only.mpr alone)),
      bind_of_ok (shrinkDir_eq (s := s.dropBlock p k i) layout' (by rw [size]; exact big))]
    rfl

end

theorem volume_shrinkEntry (layout : Layout s.part) (p : Nat) :
    (s.shrinkEntry p).volume = s.volume.putRecord (syncSlot (s.heap p)) (s.heap p).shrunk.pureInode :=
  volume_putRecord (s := s.setInode p (s.heap p).shrunk) layout (by unfold syncSlot; omega) _

theorem heap_shrinkEntry (s : Fs) (p : Nat) : (s.shrinkEntry p).heap p = (s.heap p).shrunk := update_self _ _ _

theorem toKernel_shrinkEntry (s : Fs) (p : Nat) :
    (s.shrinkEntry p).toKernel = s.toKernel.setInode p (s.heap p).shrunk := rfl

structure Deleted (p : Nat) (s : Fs) (k j : Nat) (s' : Fs) : Prop where
  geometry : s'.part.geometry = s.part.geometry
  kernel : s'.toKernel = s.toKernel.setInode p ((s.heap p).withSectors (s'.heap p).iSectors).shrunk
  record : s'.volume.record = update s.volume.record (syncSlot (s.heap p)) (s'.heap p).pureInode
  inodeBits : s'.volume.bit .inode = s.volume.bit .inode
  pointer : ∀ k', (s.volume.Alone (s.heap p) k j ∧ k' = k → s'.volume.pointer (s'.heap p) k' = 0) ∧
    (¬ (s.volume.Alone (s.heap p) k j ∧ k' = k) → s'.volume.pointer (s'.heap p) k' = s.volume.pointer (s.heap p) k')
  blockBits : ∀ i, s'.volume.bit .block i = true ↔ s.volume.bit .block i = true ∧
    ¬ (s.volume.Alone (s.heap p) k j ∧ (s.volume.pointer (s.heap p) k).toNat = s.part.sb.dataStartLba.toNat + i)
  block : ∀ lba, lba ≠ (s.volume.pointer (s.heap p) k).toNat → s'.volume.block lba = s.volume.block lba
  slot : ∀ k' j', k' < 140 → j' < 21 →
    s'.volume.slot (s'.heap p) k' j' = if k' = k ∧ j' = j then .empty else s.volume.slot (s.heap p) k' j'
  sync : s.volume.KeepsSync s'.volume

theorem Deleted.of_content {t : Fs} (layout : Layout s.part) (geometry : t.part.geometry = s.part.geometry)
    (kernel : t.toKernel = s.toKernel.setInode p ((s.heap p).withSectors (t.heap p).iSectors))
    (record : t.volume.record = s.volume.record) (inodeBits : t.volume.bit .inode = s.volume.bit .inode)
    (pointer : ∀ k', (s.volume.Alone (s.heap p) k j ∧ k' = k → t.volume.pointer (t.heap p) k' = 0) ∧
      (¬ (s.volume.Alone (s.heap p) k j ∧ k' = k) → t.volume.pointer (t.heap p) k' = s.volume.pointer (s.heap p) k'))
    (blockBits : ∀ i, t.volume.bit .block i = true ↔ s.volume.bit .block i = true ∧
      ¬ (s.volume.Alone (s.heap p) k j ∧ (s.volume.pointer (s.heap p) k).toNat = s.part.sb.dataStartLba.toNat + i))
    (block : ∀ lba, lba ≠ (s.volume.pointer (s.heap p) k).toNat → t.volume.block lba = s.volume.block lba)
    (slot : ∀ k' j', k' < 140 → j' < 21 →
      t.volume.slot (t.heap p) k' j' = if k' = k ∧ j' = j then .empty else s.volume.slot (s.heap p) k' j')
    (sync : s.volume.KeepsSync t.volume) : Deleted p s k j (t.shrinkEntry p) := by
  have volume := volume_shrinkEntry (layout.congr geometry) p
  have heap := heap_shrinkEntry t p
  have number : syncSlot (t.heap p) = syncSlot (s.heap p) := by
    rw [kernel, Kernel.heap_setInode_self]
    rfl
  have pointers (k' : Nat) : (t.shrinkEntry p).volume.pointer ((t.shrinkEntry p).heap p) k' =
      t.volume.pointer (t.heap p) k' :=
    Volume.pointer_congr (fun _ => by rw [heap]; rfl) (fun _ => by rw [volume]; rfl) k'
  have slots (k' j' : Nat) : (t.shrinkEntry p).volume.slot ((t.shrinkEntry p).heap p) k' j' =
      t.volume.slot (t.heap p) k' j' :=
    Volume.slot_congr (pointers k') (fun _ => by rw [volume]; rfl) j'
  exact {
    geometry := geometry
    kernel := by
      rw [heap, toKernel_shrinkEntry, kernel, Kernel.heap_setInode_self, Kernel.setInode_setInode]
      rfl
    record := by
      rw [volume, heap, number, ← record]
      rfl
    inodeBits := by
      rw [volume]
      exact inodeBits
    pointer := by
      simp only [pointers]
      exact pointer
    blockBits := by
      rw [volume]
      exact blockBits
    block := by
      rw [volume]
      exact block
    slot := by
      simp only [slots]
      exact slot
    sync := by
      rw [volume]
      exact sync.trans (.of_eq rfl rfl) }

theorem DirEntry.read_clear_slot (m : Memory) (j j' : Nat) :
    DirEntry.read (m.splice (24 * j) Memory.zero 24) (24 * j') = if j' = j then .empty else DirEntry.read m
      (24 * j') := by
  split
  next here =>
    subst here
    rw [← read_zero 0]
    exact DirEntry.read_congr fun i hi => Memory.splice_inside (by omega) (by omega)
  next other => exact DirEntry.read_congr fun i hi => Memory.splice_outside (by omega)

theorem Deleted.clear (layout : Layout s.part) (owns : s.Owns (s.heap p)) (hk : k < 140)
    (present : s.volume.pointer (s.heap p) k ≠ 0) (more : ¬ s.volume.Alone (s.heap p) k j) :
    Deleted p s k j ((s.putSector (s.volume.pointer (s.heap p) k).toNat
      (s.clearedSlot p k j)).shrinkEntry p) := by
  generalize final : s.putSector (s.volume.pointer (s.heap p) k).toNat
    (s.clearedSlot p k j) = t
  have volume : t.volume = s.volume.putBlock (s.volume.pointer (s.heap p) k).toNat
      (s.clearedSlot p k j) := by
    rw [← final, volume_putSector layout (owns.low (by omega) present)]
  have kernel : t.toKernel = s.toKernel := by rw [← final]; rfl
  have heap : t.heap p = s.heap p := by rw [kernel]
  have block (lba : Nat) (other : lba ≠ (s.volume.pointer (s.heap p) k).toNat) :
      t.volume.block lba = s.volume.block lba := by
    rw [volume]
    exact update_of_ne other _ _
  have away {k' : Nat} (hk' : k' ≤ 140) (other : k' ≠ k) (some : s.volume.pointer (s.heap p) k' ≠ 0) :
      (s.volume.pointer (s.heap p) k').toNat ≠ (s.volume.pointer (s.heap p) k).toNat := fun same =>
    other (owns.apart k' k hk' (by omega) some (BitVec.eq_of_toNat_eq same))
  have pointer (k' : Nat) : t.volume.pointer (t.heap p) k' = s.volume.pointer (s.heap p) k' := by
    rw [heap]
    refine Volume.pointer_congr (fun _ => rfl) (fun table => block _ ?_) k'
    rw [← Volume.pointer_table s.volume] at table ⊢
    exact away (Nat.le_refl _) (by omega) table
  have content : t.volume.block (s.volume.pointer (s.heap p) k).toNat =
      (s.clearedSlot p k j).clip 512 := by
    rw [volume]
    exact update_self _ _ _
  refine .of_content layout (by rw [← final]; rfl) ?_ (by rw [volume]; rfl) (by rw [volume]; rfl)
    (fun k' => ⟨fun both => absurd both.1 more, fun _ => pointer k'⟩) (fun i => ?_) block (fun k' j' hk' hj' => ?_) ?_
  · rw [kernel, Inode.withSectors_self, Kernel.setInode_self]
  · have bits : t.volume.bit = s.volume.bit := by rw [volume]; rfl
    rw [bits]
    exact ⟨fun used => ⟨used, fun both => more both.1⟩, fun both => both.1⟩
  · grind [Volume.slot_of_some, DirEntry.read_clip, DirEntry.read_clear_slot, Volume.slot_congr]
  · exact .of_eq (by rw [volume]; rfl) (by rw [volume]; rfl)

theorem Deleted.drop {i : Nat} (layout : Layout s.part) (ok : s.DirOk (s.heap p)) (direct : k < 12)
    (number : s.BlockNo (s.volume.pointer (s.heap p) k) i) (alone : s.volume.Alone (s.heap p) k j) :
    Deleted p s k j ((s.dropBlock p k i).shrinkEntry p) := by
  have volume : (s.dropBlock p k i).volume = s.volume.mark .block i false := volume_mark layout number.1 false
  have heap : (s.dropBlock p k i).heap p = (s.heap p).setSector k 0 := update_self _ _ _
  have pointer (k' : Nat) : (s.dropBlock p k i).volume.pointer ((s.dropBlock p k i).heap p) k' =
      if k' = k then 0 else s.volume.pointer (s.heap p) k' := by
    rw [heap]
    exact Volume.pointer_setSector _ direct 0 (fun _ => by rw [volume]; rfl) k'
  have block (lba : Nat) : (s.dropBlock p k i).volume.block lba = s.volume.block lba := by
    rw [volume]
    rfl
  have other : BitmapType.inode ≠ .block := by decide
  refine .of_content layout (geometry_mark s .block i false) ?_ (by rw [volume]; rfl) ?_ (fun k' => ⟨?_, ?_⟩)
    (fun i' => ?_)
    (fun lba _ => block lba) (fun k' j' hk' hj' => ?_) ?_
  · rw [heap]
    rfl
  · rw [volume]
    exact Volume.bit_mark_other s.volume .block i false other
  · rintro ⟨-, here⟩
    rw [pointer, if_pos here]
  · intro away
    rw [pointer, if_neg fun here => away ⟨alone, here⟩]
  · rw [volume, Volume.bit_mark]
    have sum := number.2
    grind
  · by_cases same : k' = k
    · subst same
      rw [Volume.slot_of_none (by rw [pointer, if_pos rfl])]
      split
      next => rfl
      next away => exact (ok.dead k' j' hk' hj' (alone j' hj' fun here => away ⟨rfl, here⟩)).symm
    grind [Volume.slot_congr]
  · rw [volume]
    exact Volume.keepsSync_mark _ _ _ _

theorem deleteDirEntry_eq {no parentNo : Word} (layout : Layout s.part)
    (dir : s.DirDirect (s.heap p) no parentNo) (hk : k < 140) (hj : j < 21)
    (here : (s.volume.slot (s.heap p) k j).Matches inodeNo) (big : 24 ≤ (s.heap p).iSize.toNat) :
    ∃ s', deleteDirEntry p inodeNo s = .ok (true, s') ∧ Deleted p s k j s' := by
  obtain ⟨clear, drop⟩ := deleteDirEntry_found layout dir hk hj here big
  have present : s.volume.pointer (s.heap p) k ≠ 0 := by
    intro gap
    rw [Volume.slot_of_none gap] at here
    exact DirEntry.not_counted_empty here.1
  by_cases alone : s.volume.Alone (s.heap p) k j
  · have direct : k < 12 := by
      by_contra high
      exact present (Volume.pointer_of_no_table dir.noTable (by omega))
    obtain ⟨i, number, -⟩ := dir.owns.used k (by omega) present
    exact ⟨_, drop alone i number, .drop layout dir.toDirOk direct number alone⟩
  · exact ⟨_, clear alone, .clear layout dir.owns hk present alone⟩

end

end LaiMiniOs
