import LaiMiniOs.Fs.DirSlots

/-! `sync_dir_entry`: how a directory gets a new entry.

The entry goes to the first free slot of the direct blocks, to a new block at the first gap
among them, or, when all twelve are full, to a new indirect block. Indirect blocks that exist
already are not looked at.
-/

set_option autoImplicit false

namespace LaiMiniOs
open Foundation Prog Function

variable {p b i k : Nat} {entry : DirEntry} {r : Bool × Fs} {blocks : Nat → Word}

def Inode.grown (inode : Inode) : Inode := { inode with iSize := inode.iSize + 24 }

def Fs.growEntry (s : Fs) (p : Nat) : Fs := s.setInode p (s.heap p).grown

def entryBlock (entry : DirEntry) : Memory := Memory.zero.splice 0 entry.image 24

def Fs.takeBlock (s : Fs) (p k i : Nat) : Fs :=
  (s.mark .block i true).setInode p ((s.heap p).setSector k (s.lbaOf i))

/-- The direct blocks from `b` up to `k` exist, and every slot in them is taken. -/
def FullBetween (s : Fs) (inode : Inode) (b k : Nat) : Prop :=
  ∀ k', b ≤ k' → k' < k → inode.sector k' ≠ 0 ∧ (inode.sector k').toNat ≤ maxLba ∧
    ∀ j, j < 21 → (DirEntry.read (sectors s.disk (inode.sector k').toNat 1) (24 * j)).fType ≠ 0

/-- The ways in which an entry gets its place, when the search for one starts at block `b`. -/
inductive Syncs (p : Nat) (entry : DirEntry) (s : Fs) (b : Nat) : Fs → Prop where
  | slot {k j : Nat} (from_ : b ≤ k) (direct : k < 12) (full : FullBetween s (s.heap p) b k)
      (present : (s.heap p).sector k ≠ 0) (onDisk : ((s.heap p).sector k).toNat ≤ maxLba) (inside : j < 21)
      (free : (DirEntry.read (sectors s.disk ((s.heap p).sector k).toNat 1) (24 * j)).fType = 0)
      (taken : ∀ j', j' < j → (DirEntry.read (sectors s.disk ((s.heap p).sector k).toNat 1) (24 * j')).fType ≠ 0) :
      Syncs p entry s b ((s.putSector ((s.heap p).sector k).toNat
        ((sectors s.disk ((s.heap p).sector k).toNat 1).splice (24 * j) entry.image 24)).growEntry p)
  | block {k i : Nat} (from_ : b ≤ k) (direct : k < 12) (full : FullBetween s (s.heap p) b k)
      (none : (s.heap p).sector k = 0) (lowest : LowestFree (s.volume.bit .block) (s.part.bitCount .block) i)
      (onDisk : (s.lbaOf i).toNat ≤ maxLba) :
      Syncs p entry s b (((s.takeBlock p k i).putSector (s.lbaOf i).toNat (entryBlock entry)).growEntry p)
  | table {i i' : Nat} (full : FullBetween s (s.heap p) b 12)
      (lowest : LowestFree (s.volume.bit .block) (s.part.bitCount .block) i)
      (lowest' : LowestFree ((s.takeBlock p 12 i).volume.bit .block) (s.part.bitCount .block) i')
      (onDisk : (s.lbaOf i).toNat ≤ maxLba) (onDisk' : (s.lbaOf i').toNat ≤ maxLba) :
      Syncs p entry s b (((((s.takeBlock p 12 i).mark .block i' true).putSector (s.lbaOf i).toNat
        (tableImage (update (allBlocks (s.heap p) Memory.zero) 12 (s.lbaOf i')))).putSector
          (s.lbaOf i').toNat (entryBlock entry)).growEntry p)

section
variable {s : Fs}

theorem geometry_takeBlock (s : Fs) (p k i : Nat) : (s.takeBlock p k i).part.geometry = s.part.geometry :=
  geometry_mark s .block i true

theorem sb_takeBlock (s : Fs) (p k i : Nat) : (s.takeBlock p k i).part.sb = s.part.sb :=
  congrArg (·.2.2.1) (geometry_takeBlock s p k i)

theorem lbaOf_takeBlock (s : Fs) (p k i i' : Nat) : (s.takeBlock p k i).lbaOf i' = s.lbaOf i' := by
  rw [Fs.lbaOf, Fs.lbaOf, sb_takeBlock]

theorem bitCount_takeBlock (s : Fs) (p k i : Nat) (t : BitmapType) :
    (s.takeBlock p k i).part.bitCount t = s.part.bitCount t :=
  bitCount_congr (geometry_takeBlock s p k i) t

section
variable (layout : Layout s.part)
include layout

theorem index_ne_fail (inside : i < s.part.bitCount .block) :
    s.lbaOf i - s.part.sb.dataStartLba ≠ -1 := by
  have index := lbaOf_sub inside layout.bitCount_lt
  have number := toNat_lbaOf layout inside
  have bound := (s.lbaOf i).isLt
  grind [layout.dataStart]

theorem growDir_eq (p : Nat) : growDir p s = .ok ((), s.growEntry p) := by
  rw [growDir, run_modify, layout.entrySize]
  rfl

theorem allocSynced_eq_ok {r : Option Word × Fs} :
    allocSynced s = .ok r ↔ ∃ i, s.FirstFree .block i ∧
      r = (some (s.lbaOf i), s.mark .block i true) := by
  unfold allocSynced
  constructor
  · intro run
    obtain ⟨_, _, alloc, run⟩ := bind_eq_ok.mp run
    obtain ⟨i, lowest, rfl, rfl⟩ := of_blockBitmapAlloc alloc
    rw [if_neg (lbaOf_ne_fail layout lowest.inside), get_bind] at run
    obtain ⟨-, run⟩ := require_bind_eq_ok.mp run
    rw [bind_of_ok (sync_setBit layout lowest.inside rfl)] at run
    exact ⟨i, lowest, (Except.ok.inj run).symm⟩
  · rintro ⟨i, lowest, rfl⟩
    have fine : s.lbaOf i - (s.setBit .block i true).part.sb.dataStartLba ≠ -1 := by
      rw [sb_setBit]
      exact index_ne_fail layout lowest.inside
    rw [bind_of_ok (blockBitmapAlloc_ok lowest), if_neg (lbaOf_ne_fail layout lowest.inside),
      get_bind, require_bind fine,
      bind_of_ok (sync_setBit layout lowest.inside rfl)]
    rfl

theorem putNewEntry_eq_ok {lba : Word} :
    putNewEntry p entry lba s = .ok r ↔ lba.toNat ≤ maxLba ∧
      r = (true, (s.putSector lba.toNat (entryBlock entry)).growEntry p) := by
  have size : s.part.sb.dirEntrySize.toNat = 24 := by rw [layout.entrySize]; rfl
  have layout' : Layout (s.putSector lba.toNat (entryBlock entry)).part := layout
  unfold putNewEntry
  rw [get_bind, size]
  constructor
  · intro run
    obtain ⟨_, _, write, run⟩ := bind_eq_ok.mp run
    obtain ⟨onDisk, here⟩ := ideWrite_eq_ok.mp write
    obtain ⟨-, rfl⟩ := Prod.mk.inj here
    refine ⟨addressable_one.mp onDisk, ?_⟩
    refine (Except.ok.inj ((bind_of_ok (growDir_eq layout' p)).symm.trans run)).symm
  · rintro ⟨onDisk, rfl⟩
    rw [bind_of_ok (ideWrite_one onDisk _)]
    exact bind_of_ok (growDir_eq layout' p)

theorem syncNewBlock_eq_ok :
    syncNewBlock p entry blocks k s = .ok r ↔ ∃ i, s.FirstFree .block i ∧
      enterNewBlock p entry blocks k (s.lbaOf i) (s.mark .block i true) = .ok r := by
  unfold syncNewBlock
  constructor
  · intro run
    obtain ⟨_, _, alloc, run⟩ := bind_eq_ok.mp run
    grind [allocSynced_eq_ok]
  · rintro ⟨i, lowest, run⟩
    rw [bind_of_ok ((allocSynced_eq_ok layout).mpr ⟨i, lowest, rfl⟩)]
    exact run

theorem enterNewBlock_direct
    (direct : k < 12) :
    enterNewBlock p entry blocks k (s.lbaOf i) (s.mark .block i true) = .ok r ↔ (s.lbaOf i).toNat ≤ maxLba ∧
      r = (true, ((s.takeBlock p k i).putSector (s.lbaOf i).toNat (entryBlock entry)).growEntry p) := by
  unfold enterNewBlock
  rw [if_pos direct, modify_bind]
  exact putNewEntry_eq_ok (s := s.takeBlock p k i) (layout.congr (geometry_takeBlock s p k i))

theorem enterNewBlock_table :
    enterNewBlock p entry blocks 12 (s.lbaOf i) (s.mark .block i true) = .ok r ↔
      ∃ i', LowestFree ((s.takeBlock p 12 i).volume.bit .block) (s.part.bitCount .block) i' ∧
        (s.lbaOf i).toNat ≤ maxLba ∧ (s.lbaOf i').toNat ≤ maxLba ∧
        r = (true, ((((s.takeBlock p 12 i).mark .block i' true).putSector (s.lbaOf i).toNat
          (tableImage (update blocks 12 (s.lbaOf i')))).putSector
            (s.lbaOf i').toNat (entryBlock entry)).growEntry p) := by
  have layout₁ := layout.congr (geometry_takeBlock s p 12 i)
  have layout₂ (i' : Nat) : Layout (((s.takeBlock p 12 i).mark .block i' true).putSector (s.lbaOf i).toNat
      (tableImage (update blocks 12 (s.lbaOf i')))).part :=
    layout₁.congr (geometry_mark (s.takeBlock p 12 i) .block i' true)
  unfold enterNewBlock
  rw [if_neg (by decide), if_pos rfl, modify_bind]
  constructor
  · intro run
    obtain ⟨_, _, alloc, run⟩ := bind_eq_ok.mp run
    obtain ⟨i', lowest, here⟩ := (allocSynced_eq_ok (s := s.takeBlock p 12 i) layout₁).mp alloc
    obtain ⟨rfl, rfl⟩ := Prod.mk.inj here
    rw [lbaOf_takeBlock] at run
    obtain ⟨_, _, write, run⟩ := bind_eq_ok.mp run
    obtain ⟨onDisk, here⟩ := ideWrite_eq_ok.mp write
    obtain ⟨-, rfl⟩ := Prod.mk.inj here
    obtain ⟨onDisk', same⟩ := (putNewEntry_eq_ok (layout₂ i')).mp run
    grind [bitCount_takeBlock, addressable_one]
  · rintro ⟨i', lowest, onDisk, onDisk', rfl⟩
    rw [← bitCount_takeBlock s p 12 i] at lowest
    have alloc := (allocSynced_eq_ok layout₁).mpr ⟨i', lowest, rfl⟩
    rw [lbaOf_takeBlock] at alloc
    refine (bind_of_ok alloc).trans ?_
    dsimp only
    rw [bind_of_ok (ideWrite_one onDisk _)]
    exact (putNewEntry_eq_ok (layout₂ i')).mpr ⟨onDisk', rfl⟩

end

theorem FullBetween.cons {inode : Inode} (here : FullBetween s inode b (b + 1))
    (later : FullBetween s inode (b + 1) k) : FullBetween s inode b k := by
  intro k' low high
  by_cases first : k' = b
  · exact here k' low (by omega)
  · exact later k' (by omega) high

theorem syncs_iff {s' : Fs} (direct : b < 12) :
    Syncs p entry s b s' ↔
      ((s.heap p).sector b = 0 ∧ ∃ i, s.FirstFree .block i ∧
        (s.lbaOf i).toNat ≤ maxLba ∧
        s' = ((s.takeBlock p b i).putSector (s.lbaOf i).toNat (entryBlock entry)).growEntry p) ∨
      ((s.heap p).sector b ≠ 0 ∧ ((s.heap p).sector b).toNat ≤ maxLba ∧ ∃ j, j < 21 ∧
        (DirEntry.read (sectors s.disk ((s.heap p).sector b).toNat 1) (24 * j)).fType = 0 ∧
        (∀ j', j' < j → (DirEntry.read (sectors s.disk ((s.heap p).sector b).toNat 1) (24 * j')).fType ≠ 0) ∧
        s' = (s.putSector ((s.heap p).sector b).toNat
          ((sectors s.disk ((s.heap p).sector b).toNat 1).splice (24 * j) entry.image 24)).growEntry p) ∨
      (FullBetween s (s.heap p) b (b + 1) ∧ Syncs p entry s (b + 1) s') := by
  have shorter {k : Nat} (full : FullBetween s (s.heap p) b k) (more : b < k) :
      FullBetween s (s.heap p) b (b + 1) ∧ FullBetween s (s.heap p) (b + 1) k :=
    ⟨fun k' low high => full k' low (by omega), fun k' low high => full k' (by omega) high⟩
  have nothing : FullBetween s (s.heap p) b b := fun k' low high => by omega
  constructor
  · intro syncs
    cases syncs with
    | @slot k j from_ low full present onDisk inside free taken =>
      by_cases here : k = b
      · subst here
        exact .inr (.inl ⟨present, onDisk, j, inside, free, taken, rfl⟩)
      · have later := shorter full (by omega)
        exact .inr (.inr ⟨later.1, .slot (by omega) low later.2 present onDisk inside free taken⟩)
    | @block k i from_ low full none lowest onDisk =>
      by_cases here : k = b
      · subst here
        exact .inl ⟨none, i, lowest, onDisk, rfl⟩
      · have later := shorter full (by omega)
        exact .inr (.inr ⟨later.1, .block (by omega) low later.2 none lowest onDisk⟩)
    | table full lowest lowest' onDisk onDisk' =>
      have later := shorter full direct
      exact .inr (.inr ⟨later.1, .table later.2 lowest lowest' onDisk onDisk'⟩)
  · rintro (⟨none, i, lowest, onDisk, rfl⟩ | ⟨present, onDisk, j, inside, free, taken, rfl⟩ | ⟨here, syncs⟩)
    · exact .block (Nat.le_refl b) direct nothing none lowest onDisk
    · exact .slot (Nat.le_refl b) direct nothing present onDisk inside free taken
    · cases syncs with
      | slot from_ low full present onDisk inside free taken =>
        exact .slot (by omega) low (here.cons full) present onDisk inside free taken
      | block from_ low full none lowest onDisk => exact .block (by omega) low (here.cons full) none lowest onDisk
      | table full lowest lowest' onDisk onDisk' => exact .table (here.cons full) lowest lowest' onDisk onDisk'

theorem syncs_table_iff {s' : Fs} :
    Syncs p entry s 12 s' ↔ ∃ i, s.FirstFree .block i ∧
      ∃ i', LowestFree ((s.takeBlock p 12 i).volume.bit .block) (s.part.bitCount .block) i' ∧
        (s.lbaOf i).toNat ≤ maxLba ∧ (s.lbaOf i').toNat ≤ maxLba ∧
        s' = ((((s.takeBlock p 12 i).mark .block i' true).putSector (s.lbaOf i).toNat
          (tableImage (update (allBlocks (s.heap p) Memory.zero) 12 (s.lbaOf i')))).putSector
            (s.lbaOf i').toNat (entryBlock entry)).growEntry p := by
  constructor
  · intro syncs
    cases syncs with
    | slot from_ low => omega
    | block from_ low => omega
    | @table i i' full lowest lowest' onDisk onDisk' => exact ⟨i, lowest, i', lowest', onDisk, onDisk', rfl⟩
  · rintro ⟨i, lowest, i', lowest', onDisk, onDisk', rfl⟩
    exact .table (fun k' low high => by omega) lowest lowest' onDisk onDisk'

theorem syncBlocks_present {left : Nat} (layout : Layout s.part)
    (index : 140 - (left + 1) = b) (present : blocks b ≠ 0) :
    syncBlocks p entry blocks (left + 1) s = .ok r ↔ (blocks b).toNat ≤ maxLba ∧
      ((∃ j, j < 21 ∧ (DirEntry.read (sectors s.disk (blocks b).toNat 1) (24 * j)).fType = 0 ∧
          (∀ j', j' < j → (DirEntry.read (sectors s.disk (blocks b).toNat 1) (24 * j')).fType ≠ 0) ∧
          r = (true, (s.putSector (blocks b).toNat
            ((sectors s.disk (blocks b).toNat 1).splice (24 * j) entry.image 24)).growEntry p)) ∨
        ((∀ j, j < 21 → (DirEntry.read (sectors s.disk (blocks b).toNat 1) (24 * j)).fType ≠ 0) ∧
          syncBlocks p entry blocks left s = .ok r)) := by
  have size : s.part.sb.dirEntrySize.toNat = 24 := by rw [layout.entrySize]; rfl
  rw [syncBlocks, index, if_neg present, get_bind]
  dsimp only
  rw [layout.entriesPerSec, size]
  by_cases onDisk : (blocks b).toNat ≤ maxLba
  · rw [bind_of_ok (ideRead_eq (addressable_one.mpr onDisk)), and_iff_right onDisk]
    generalize sectors s.disk (blocks b).toNat 1 = buf
    have before (j : Nat) (below : j < skipWhile (fun k => (DirEntry.read buf (24 * k)).fType != 0) 21 0) :
        (DirEntry.read buf (24 * j)).fType ≠ 0 := by
      simpa using skipWhile_before (Nat.zero_le j) below
    by_cases stop : skipWhile (fun k => (DirEntry.read buf (24 * k)).fType != 0) 21 0 < 21
    · have free := skipWhile_stop (p := fun k => (DirEntry.read buf (24 * k)).fType != 0) (n := 21) (i := 0) stop
      rw [bne_eq_false_iff_eq] at free
      rw [if_pos stop, bind_of_ok (ideWrite_one onDisk _),
        bind_of_ok (growDir_eq (s := s.putSector (blocks b).toNat _) layout p)]
      constructor
      · intro same
        exact .inl ⟨_, stop, free, before, (Except.ok.inj same).symm⟩
      · rintro (⟨j, inside, free', taken, rfl⟩ | ⟨full, -⟩)
        · have here : skipWhile (fun k => (DirEntry.read buf (24 * k)).fType != 0) 21 0 = j :=
            skipWhile_eq (Nat.zero_le j) (by omega) (fun j' _ below => by simpa using taken j' below)
              (by simpa using free')
          rw [here]
          rfl
        · exact absurd free (full _ stop)
    grind
  · refine iff_of_false (fun run => ?_) (fun both => onDisk both.1)
    obtain ⟨_, _, read, -⟩ := bind_eq_ok.mp run
    exact onDisk (addressable_one.mp (ideRead_eq_ok.mp read).1)

theorem syncBlocks_eq_ok (layout : Layout s.part) {left : Nat} (index : left + b = 140)
    (low : b ≤ 12) :
    syncBlocks p entry (allBlocks (s.heap p) Memory.zero) left s = .ok r ↔
      ∃ s', r = (true, s') ∧ Syncs p entry s b s' := by
  induction left generalizing b with
  | zero => omega
  | succ left ih =>
    have here : 140 - (left + 1) = b := by omega
    by_cases direct : b < 12
    · have block : allBlocks (s.heap p) Memory.zero b = (s.heap p).sector b := if_pos direct
      simp only [syncs_iff direct]
      by_cases none : (s.heap p).sector b = 0
      · rw [syncBlocks, here, block, if_pos none, syncNewBlock_eq_ok layout]
        simp only [enterNewBlock_direct layout direct, none, ne_eq, not_true_eq_false, false_and, true_and, false_or]
        constructor
        · rintro ⟨i, lowest, onDisk, rfl⟩
          exact ⟨_, rfl, .inl ⟨i, lowest, onDisk, rfl⟩⟩
        · rintro ⟨s', rfl, ⟨i, lowest, onDisk, rfl⟩ | ⟨full, -⟩⟩
          · exact ⟨i, lowest, onDisk, rfl⟩
          · exact absurd none (full b (Nat.le_refl b) (by omega)).1
      · rw [syncBlocks_present layout here (by rw [block]; exact none), block, ih (b := b + 1) (by omega) (by omega)]
        constructor
        · rintro ⟨onDisk, ⟨j, inside, free, taken, rfl⟩ | ⟨full, s', rfl, syncs⟩⟩
          · exact ⟨_, rfl, .inr (.inl ⟨none, onDisk, j, inside, free, taken, rfl⟩)⟩
          · refine ⟨s', rfl, .inr (.inr ⟨fun k' low' high => ?_, syncs⟩)⟩
            have same : k' = b := by omega
            subst same
            exact ⟨none, onDisk, full⟩
        · rintro ⟨s', rfl, ⟨none', -⟩ | ⟨-, onDisk, j, inside, free, taken, rfl⟩ | ⟨full, syncs⟩⟩
          · exact absurd none' none
          · exact ⟨onDisk, .inl ⟨j, inside, free, taken, rfl⟩⟩
          · obtain ⟨-, onDisk, live⟩ := full b (Nat.le_refl b) (by omega)
            exact ⟨onDisk, .inr ⟨live, s', rfl, syncs⟩⟩
    grind [allBlocks, Memory.word_zero, syncBlocks, syncNewBlock_eq_ok, enterNewBlock_table, syncs_table_iff]

theorem syncDirEntry_eq_ok (layout : Layout s.part) :
    syncDirEntry p entry s = .ok r ↔ (s.heap p).iSize.toNat % 24 = 0 ∧ ∃ s', r = (true, s') ∧ Syncs p entry s 0 s' := by
  have size : s.part.sb.dirEntrySize.toNat = 24 := by rw [layout.entrySize]; rfl
  unfold syncDirEntry
  rw [get_bind, require_bind_eq_ok, size]
  exact and_congr_right fun _ => syncBlocks_eq_ok layout (b := 0) rfl (by omega)

end

end LaiMiniOs
