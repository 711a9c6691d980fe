import Mathlib.Tactic.IntervalCases
import LaiMiniOs.Fs.DirEntries

/-! Insertion in a directory whose direct blocks are full.

`sync_dir_entry` does not read the table of the directory. It makes a new one, so whatever
was in the old indirect blocks is lost.
-/

set_option autoImplicit false

namespace LaiMiniOs
open Foundation

/-- What is expected of an insertion: the entries that were found are still found, the new
one is found too, and the new blocks belong to the directory. -/
structure KeepsDirectory (p : Nat) (entry : DirEntry) (s s' : Fs) : Prop where
  kept : ∀ name e, name ≠ [] → (0 : Byte) ∉ name → searchDirEntry p name s = .ok (some e, s) →
    ∃ e', searchDirEntry p name s' = .ok (some e', s') ∧ e'.iNo = e.iNo ∧ e'.fType = e.fType
  added : ∃ e', searchDirEntry p entry.name s' = .ok (some e', s') ∧ e'.iNo = entry.iNo ∧ e'.fType = entry.fType
  reached : ∀ i, s'.volume.bit .block i = true → s.volume.bit .block i = false →
    s'.volume.Reaches (s'.heap p) (s.part.sb.dataStartLba.toNat + i)

def Fs.DirectFull (s : Fs) (inode : Inode) : Prop := ∀ k j, k < 12 → j < 21 → (s.volume.slot inode k j).fType ≠ 0

def Fs.IndirectEmpty (s : Fs) (inode : Inode) : Prop :=
  ∀ k j, 12 ≤ k → k < 140 → j < 21 → (s.volume.slot inode k j).fType = 0

section
variable {s s' : Fs} {p : Nat} {entry : DirEntry}

theorem hasEntry_direct (v : Volume) (inode : Inode) (e : DirEntry) :
    v.HasEntry inode.direct e ↔ e.fType ≠ 0 ∧ ∃ k j, k < 12 ∧ j < 21 ∧ v.slot inode k j = e := by
  constructor
  · rintro ⟨some, k, j, hk, hj, rfl⟩
    rw [Volume.slot_direct_inode] at some ⊢
    split at some
    next low => exact ⟨by rw [if_pos low]; exact some, k, j, low, hj, by rw [if_pos low]⟩
    next => exact absurd rfl some
  · rintro ⟨some, k, j, low, hj, rfl⟩
    exact ⟨some, k, j, by omega, hj, by rw [Volume.slot_direct_inode, if_pos low]⟩

theorem hasEntry_of_direct {v : Volume} {inode : Inode} {e : DirEntry} (has : v.HasEntry inode.direct e) :
    v.HasEntry inode e := by
  obtain ⟨some, k, j, low, hj, rfl⟩ := (hasEntry_direct v inode e).mp has
  exact ⟨some, k, j, by omega, hj, rfl⟩

theorem inserted_of_full (layout : Layout s.part) (owns : s.Owns (s.heap p)) (full : s.DirectFull (s.heap p))
    (run : syncDirEntry p entry s = .ok (true, s')) :
    Inserted p entry s (s.heap p).direct 12 0 (fun k => k = 12 ∨ k = 140) s' := by
  obtain ⟨-, _, same, syncs⟩ := (syncDirEntry_eq_ok layout).mp run
  obtain ⟨-, rfl⟩ := Prod.mk.inj same
  rcases syncs.inserted layout owns with ⟨k, j, direct, -, inserted⟩ | ⟨-, inserted⟩
  · exact absurd inserted.free (full k j direct inserted.inside.2)
  · exact inserted

theorem Inserted.keeps_iff (layout : Layout s.part) (ok : s.DirOk (s.heap p)) (live : entry.fType ≠ 0)
    (named : entry.Named) (new : ∀ e, s.volume.HasEntry (s.heap p) e → e.name ≠ entry.name)
    (inserted : Inserted p entry s (s.heap p).direct 12 0 (fun k => k = 12 ∨ k = 140) s') :
    KeepsDirectory p entry s s' ↔ s.IndirectEmpty (s.heap p) := by
  have layout' := layout.congr inserted.extended.geometry
  have ok' := inserted.dirOk ok.direct live named fun e has => new e (hasEntry_of_direct has)
  constructor
  · intro keeps k j low high inside
    by_contra some
    have has : s.volume.HasEntry (s.heap p) (s.volume.slot (s.heap p) k j) := ⟨some, k, j, high, inside, rfl⟩
    have named' := ok.named k j high inside some
    have plain' := DirEntry.plain_name (s.volume.slot (s.heap p) k j)
    obtain ⟨e', found, -⟩ := keeps.kept _ _ named'.some plain'
      ((searchDirEntry_some layout ok named'.some plain').mpr ⟨has, rfl⟩)
    obtain ⟨has', name⟩ := (searchDirEntry_some layout' ok' named'.some plain').mp found
    -- What is found now is the new entry or one of a direct block, and neither has this name.
    rcases (inserted.hasEntry live e').mp has' with rfl | old
    · exact new _ has name.symm
    · obtain ⟨some', k', j', direct, inside', rfl⟩ := (hasEntry_direct _ _ _).mp old
      have := (ok.distinct k' j' k j (by omega) inside' high inside some' some name).1
      omega
  · intro empty
    refine ⟨fun name e some plain' found => ?_, ?_, fun i now before => ?_⟩
    · obtain ⟨⟨live', k, j, hk, hj, rfl⟩, name'⟩ := (searchDirEntry_some layout ok some plain').mp found
      have direct : k < 12 := by
        by_contra high
        exact live' (empty k j (by omega) hk hj)
      grind [hasEntry_direct, searchDirEntry_some, inserted.hasEntry]
    · grind [searchDirEntry_some, named.some, entry.plain_name, inserted.hasEntry]
    · exact ((inserted.extended.newly layout ok.direct.owns i).1.mp ⟨now, before⟩).1

theorem syncDirEntry_of_room (entry : DirEntry) (layout : Layout s.part) (ok : s.DirOk (s.heap p))
    (size : (s.heap p).iSize.toNat % 24 = 0) (room : 2 ≤ s.free.card) :
    ∃ s', syncDirEntry p entry s = .ok (true, s') := by
  obtain ⟨s', syncs⟩ := (ok.owns.syncs_iff_room layout ok.onDisk).mpr (Nat.le_trans (Volume.entryBlocks_le _ _) room)
  exact ⟨s', (syncDirEntry_eq_ok layout).mpr ⟨size, s', rfl, syncs⟩⟩

/-- An insertion in a directory with full direct blocks keeps the directory exactly when its
indirect blocks hold no entry. -/
theorem syncDirEntry_keeps_iff {name : List Byte} {iNo : Word} {fType : FileType} (layout : Layout s.part)
    (ok : s.DirOk (s.heap p)) (full : s.DirectFull (s.heap p)) (valid : ValidName name) (kind : fType ≠ .unknown)
    (new : searchDirEntry p name s = .ok (none, s))
    (run : syncDirEntry p (DirEntry.make name iNo fType) s = .ok (true, s')) :
    KeepsDirectory p (DirEntry.make name iNo fType) s s' ↔ s.IndirectEmpty (s.heap p) := by
  refine (inserted_of_full layout ok.owns full run).keeps_iff layout ok (DirEntry.live_make kind)
    (DirEntry.named_make valid _ _) ?_
  rw [DirEntry.name_make valid]
  exact (searchDirEntry_none layout ok valid.some valid.plain).mp new

end

def packed (entries : Nat → DirEntry) : Memory := fun a => (entries (a / 24)).image (a % 24)

theorem read_packed (entries : Nat → DirEntry) (j : Nat) : DirEntry.read (packed entries) (24 * j) = entries j := by
  rw [← DirEntry.read_splice_image Memory.zero 0 (entries j)]
  grind [DirEntry.read_congr, packed, Memory.splice_inside, dirEntrySize]

def fullDirEntry (k j : Nat) : DirEntry := DirEntry.make [BitVec.ofNat 8 (k + 1), BitVec.ofNat 8 (j + 1)] 1 .regular

def fullDirFs : Fs :=
  { blankFs with
    disk := fun a => packed (fullDirEntry (a / 512 - 613)) (a % 512)
    part := { smallPartition with blockBitmap := ⟨512, fun a => if a = 0 then 0xff else if a = 1 then 0x1f else 0⟩ }
    heap := fun _ => { Inode.blank with
      iSize := 6048
      iSectors := Vector.ofFn fun k => if k.val < 12 then BitVec.ofNat 32 (613 + k) else 0 } }

theorem layout_fullDirFs : Layout fullDirFs.part := layout_smallPartition.congr rfl

theorem sector_fullDirFs (p k : Nat) :
    (fullDirFs.heap p).sector k = if k < 12 then BitVec.ofNat 32 (613 + k) else 0 := by
  unfold Inode.sector fullDirFs
  by_cases low : k < 13
  · simp [low]
  · simp [low, show ¬ k < 12 by omega]

theorem pointer_fullDirFs (p k : Nat) :
    fullDirFs.volume.pointer (fullDirFs.heap p) k = if k < 12 then BitVec.ofNat 32 (613 + k) else 0 := by
  by_cases low : k < 12
  · rw [Volume.pointer_direct _ _ low, sector_fullDirFs]
  · rw [if_neg low]
    exact Volume.pointer_of_no_table (by rw [sector_fullDirFs]; rfl) (by omega)

theorem toNat_pointer_fullDirFs {k : Nat} (direct : k < 12) : (BitVec.ofNat 32 (613 + k)).toNat = 613 + k := by
  rw [BitVec.toNat_ofNat]
  omega

theorem slot_fullDirFs (p : Nat) {k j : Nat} (inside : j < 21) :
    fullDirFs.volume.slot (fullDirFs.heap p) k j = if k < 12 then fullDirEntry k j else .empty := by
  by_cases direct : k < 12
  · have here := pointer_fullDirFs p k
    rw [if_pos direct] at here ⊢
    have number := toNat_pointer_fullDirFs direct
    have some : BitVec.ofNat 32 (613 + k) ≠ 0 := by grind
    rw [Volume.slot_of_some (by rw [here]; exact some), here, number, ← read_packed (fullDirEntry k) j]
    have inData : fullDirFs.part.sb.dataStartLba.toNat ≤ 613 + k := by
      have start : fullDirFs.part.sb.dataStartLba.toNat = 612 := rfl
      omega
    refine DirEntry.read_congr fun i hi => ?_
    have block : fullDirFs.volume.block (613 + k) = sectors fullDirFs.disk (613 + k) 1 := if_pos inData
    have place : (512 * (613 + k) + (24 * j + i)) / 512 - 613 = k ∧
        (512 * (613 + k) + (24 * j + i)) % 512 = 24 * j + i := by
      omega
    rw [block, sectors_apply (by omega)]
    unfold fullDirFs
    simp only [place]
  · rw [if_neg direct]
    exact Volume.slot_of_none (by rw [pointer_fullDirFs, if_neg direct]) j

theorem bit_fullDirFs (i : Nat) : fullDirFs.volume.bit .block i = decide (i < 13) := by
  by_cases low : i < 16
  · interval_cases i <;> rfl
  · have clear : fullDirFs.volume.bit .block i = (0 : Byte).getLsbD (i % 8) := by
      have high : i / 8 ≠ 0 ∧ i / 8 ≠ 1 := by omega
      simp only [fullDirFs, Fs.volume, Partition.bitmap, Bitmap.bit, high, if_false]
    rw [clear]
    simp
    omega

theorem valid_fullDirEntry {k j : Nat} (hk : k < 12) (hj : j < 21) :
    ValidName [BitVec.ofNat 8 (k + 1), BitVec.ofNat 8 (j + 1)] where
  some := List.cons_ne_nil _ _
  plain := by grind [BitVec.toNat_ofNat]
  short := by simp

theorem name_fullDirEntry {k j : Nat} (hk : k < 12) (hj : j < 21) :
    (fullDirEntry k j).name = [BitVec.ofNat 8 (k + 1), BitVec.ofNat 8 (j + 1)] :=
  DirEntry.name_make (valid_fullDirEntry hk hj) _ _

theorem dirOk_fullDirFs (p : Nat) : fullDirFs.DirOk (fullDirFs.heap p) := by
  have direct {k j : Nat} (hj : j < 21) (some : (fullDirFs.volume.slot (fullDirFs.heap p) k j).fType ≠ 0) : k < 12 := by
    by_contra high
    rw [slot_fullDirFs p hj, if_neg high] at some
    exact some rfl
  have present {k : Nat} (some : fullDirFs.volume.pointer (fullDirFs.heap p) k ≠ 0) : k < 12 := by
    by_contra high
    rw [pointer_fullDirFs, if_neg high] at some
    exact some rfl
  refine ⟨⟨fun k _ some => ?_, fun k k' _ _ some same => ?_⟩, fun k _ => ?_, fun k j _ hj dead =>
    ?_, fun k j _ hj some => ?_, ?_⟩
  · have low := present some
    rw [pointer_fullDirFs, if_pos low]
    refine ⟨1 + k, ⟨?_, ?_⟩, by rw [bit_fullDirFs]; simp; omega⟩
    · have count : fullDirFs.part.bitCount .block = 4096 := rfl
      omega
    · have start : fullDirFs.part.sb.dataStartLba.toNat = 612 := rfl
      rw [toNat_pointer_fullDirFs low]
      omega
  · grind [pointer_fullDirFs, toNat_pointer_fullDirFs]
  · grind [pointer_fullDirFs, maxLba]
  · rw [slot_fullDirFs p hj] at dead ⊢
    split at dead
    next => exact absurd dead (DirEntry.live_make (by decide))
    next high => rw [if_neg high]
  · have low := direct hj some
    rw [slot_fullDirFs p hj, if_pos low]
    exact DirEntry.named_make (valid_fullDirEntry low hj) _ _
  grind [slot_fullDirFs, name_fullDirEntry, BitVec.toNat_ofNat]

theorem directFull_fullDirFs (p : Nat) : fullDirFs.DirectFull (fullDirFs.heap p) := by
  intro k j low hj
  rw [slot_fullDirFs p hj, if_pos low]
  exact DirEntry.live_make (by decide)

theorem room_fullDirFs : 4 ≤ fullDirFs.free.card := by
  have blocks : ({13, 14, 15, 16} : Finset Nat) ⊆ fullDirFs.free := by
    intro i member
    simp only [Finset.mem_insert, Finset.mem_singleton] at member
    have count : fullDirFs.part.bitCount .block = 4096 := rfl
    have start : fullDirFs.part.sb.dataStartLba.toNat = 612 := rfl
    rw [mem_free, bit_fullDirFs, count, start, maxLba]
    exact ⟨by omega, by simp; omega, by omega⟩
  exact Finset.card_le_card blocks

theorem new_fullDirFs (p : Nat) (c : Byte) (e : DirEntry) (has : fullDirFs.volume.HasEntry (fullDirFs.heap p) e) :
    e.name ≠ [c] := by
  obtain ⟨some, k, j, hk, hj, rfl⟩ := has
  rw [slot_fullDirFs p hj] at some ⊢
  split at some
  next low =>
    rw [if_pos low, name_fullDirEntry low hj]
    simp
  next => exact absurd rfl some

theorem syncDirEntry_keeps_first : ∃ s', syncDirEntry 0 (DirEntry.make [0x61] 7 .regular) fullDirFs = .ok (true, s') ∧
    KeepsDirectory 0 (DirEntry.make [0x61] 7 .regular) fullDirFs s' := by
  have valid : ValidName [0x61] := ⟨by decide, by decide, by decide⟩
  obtain ⟨s', run⟩ := syncDirEntry_of_room _ layout_fullDirFs (dirOk_fullDirFs 0) (by rfl)
    (Nat.le_trans (by decide) room_fullDirFs)
  refine ⟨s', run,
    (syncDirEntry_keeps_iff layout_fullDirFs (dirOk_fullDirFs 0) (directFull_fullDirFs 0) valid (by decide)
    ?_ run).mpr fun k j low _ hj => ?_⟩
  · exact (searchDirEntry_none layout_fullDirFs (dirOk_fullDirFs 0) valid.some valid.plain).mpr (new_fullDirFs 0 _)
  · rw [slot_fullDirFs 0 hj, if_neg (by omega)]
    rfl

/-- Two insertions in a directory of 252 entries: the second one loses the first. -/
theorem syncDirEntry_loses_entry : ∃ s₁ s₂, syncDirEntry 0 (DirEntry.make [0x61] 7 .regular) fullDirFs =
    .ok (true, s₁) ∧
    Layout s₁.part ∧ s₁.DirOk (s₁.heap 0) ∧ s₁.DirectFull (s₁.heap 0) ∧
    searchDirEntry 0 [0x61] s₁ = .ok (some (DirEntry.make [0x61] 7 .regular), s₁) ∧
    searchDirEntry 0 [0x62] s₁ = .ok (none, s₁) ∧
    syncDirEntry 0 (DirEntry.make [0x62] 8 .regular) s₁ = .ok (true, s₂) ∧
    searchDirEntry 0 [0x61] s₂ = .ok (none, s₂) ∧
    ¬ KeepsDirectory 0 (DirEntry.make [0x62] 8 .regular) s₁ s₂ := by
  have layout := layout_fullDirFs
  have ok := dirOk_fullDirFs 0
  have full := directFull_fullDirFs 0
  have valid₁ : ValidName [0x61] := ⟨by decide, by decide, by decide⟩
  have valid₂ : ValidName [0x62] := ⟨by decide, by decide, by decide⟩
  have live (c : Byte) (n : Word) : (DirEntry.make [c] n .regular).fType ≠ 0 := DirEntry.live_make (by decide)
  have name₁ : (DirEntry.make [0x61] 7 .regular).name = [0x61] := DirEntry.name_make valid₁ _ _
  have name₂ : (DirEntry.make [0x62] 8 .regular).name = [0x62] := DirEntry.name_make valid₂ _ _
  -- The first insertion makes a table with one block.
  obtain ⟨s₁, run₁⟩ := syncDirEntry_of_room (DirEntry.make [0x61] 7 .regular) layout ok (by rfl)
    (Nat.le_trans (by decide) room_fullDirFs)
  have inserted₁ := inserted_of_full layout ok.owns full run₁
  have layout₁ := layout.congr inserted₁.extended.geometry
  have old (c : Byte) (e : DirEntry) (has : fullDirFs.volume.HasEntry (fullDirFs.heap 0).direct e) : e.name ≠ [c] :=
    new_fullDirFs 0 c e (hasEntry_of_direct has)
  have ok₁ := inserted₁.dirOk ok.direct (live _ _) (DirEntry.named_make valid₁ _ _) (by rw [name₁]; exact old _)
  have slot₁ (k j : Nat) (low : k < 12) (hj : j < 21) : s₁.volume.slot (s₁.heap 0) k j = fullDirEntry k j := by
    grind [inserted₁.slot, Volume.slot_direct_inode, slot_fullDirFs]
  have full₁ : s₁.DirectFull (s₁.heap 0) := by
    intro k j low hj
    rw [slot₁ k j low hj]
    exact DirEntry.live_make (by decide)
  have size₁ : (s₁.heap 0).iSize.toNat % 24 = 0 := by
    have start : (fullDirFs.heap 0).iSize = 6048 := rfl
    rw [inserted₁.size, start]
    decide
  have room₁ : 2 ≤ s₁.free.card := by
    have most := inserted₁.extended.free_card (a := 12) (b := 140) (fun k => Iff.rfl)
    have := room_fullDirFs
    omega
  obtain ⟨s₂, run₂⟩ := syncDirEntry_of_room (DirEntry.make [0x62] 8 .regular) layout₁ ok₁ size₁ room₁
  have inserted₂ := inserted_of_full layout₁ ok₁.owns full₁ run₂
  have layout₂ := layout₁.congr inserted₂.extended.geometry
  have has₁ : s₁.volume.HasEntry (s₁.heap 0) (DirEntry.make [0x61] 7 .regular) :=
    (inserted₁.hasEntry (live _ _) _).mpr (.inl rfl)
  have new₂ (e : DirEntry) (has : s₁.volume.HasEntry (s₁.heap 0) e) :
      e.name ≠ (DirEntry.make [0x62] 8 .regular).name := by grind [inserted₁.hasEntry]
  have ok₂ := inserted₂.dirOk ok₁.direct (live _ _) (DirEntry.named_make valid₂ _ _) fun e has =>
    new₂ e (hasEntry_of_direct has)
  refine ⟨s₁, s₂, run₁, layout₁, ok₁, full₁, ?_, ?_, run₂, ?_, fun keeps => ?_⟩
  · exact (searchDirEntry_some layout₁ ok₁ valid₁.some valid₁.plain).mpr ⟨has₁, name₁⟩
  · rw [searchDirEntry_none layout₁ ok₁ valid₂.some valid₂.plain, ← name₂]
    exact new₂
  · grind [searchDirEntry_none, inserted₂.hasEntry, hasEntry_direct, name_fullDirEntry]
  · have empty := (inserted₂.keeps_iff layout₁ ok₁ (live _ _) (DirEntry.named_make valid₂ _ _) new₂).mp keeps 12 0
      (by omega) (by omega) (by omega)
    rw [inserted₁.slot_self] at empty
    exact live _ _ empty

end LaiMiniOs
