import LaiMiniOs.Fs.DirEntries

/-! Names in the entries of a directory.

`create_dir_entry` admits a name of 16 characters, which leaves no room for its end: `strcmp` reads on
into the number of the inode. The name is found again only when the first byte of the number is zero.
-/

set_option autoImplicit false

namespace LaiMiniOs
open Foundation Prog

variable {m : Memory} {a n : Nat} {name : List Byte} {iNo : Word} {fType : FileType}

theorem nameFrom_append (plain : (0 : Byte) ∉ name) (bytes : ∀ i, i < name.length → m (a + i) = name.getD i 0) :
    nameFrom m a (name.length + n) = name ++ nameFrom m (a + name.length) n := by
  induction name generalizing a with
  | nil => rw [List.length_nil, Nat.zero_add, Nat.add_zero, List.nil_append]
  | cons c name ih =>
    rw [List.mem_cons, not_or] at plain
    have first : m a = c := bytes 0 (Nat.zero_lt_succ _)
    have rest := ih (a := a + 1) plain.2 fun i hi => by
      rw [Nat.add_assoc, Nat.add_comm 1 i]
      exact bytes (i + 1) (Nat.succ_lt_succ hi)
    rw [List.length_cons, Nat.add_right_comm, nameFrom, if_neg (by rw [first]; exact Ne.symm plain.1), first, rest,
      List.cons_append,
      Nat.add_assoc a 1, Nat.add_comm 1]

namespace DirEntry

def cString (entry : DirEntry) : List Byte := nameFrom entry.image 0 24

theorem cString_empty : empty.cString = [] := by decide

theorem image_read_all (m : Memory) (a : Nat) {i : Nat} (inside : i < 24) : (read m a).image i = m (a + i) := by
  have byte (w : Nat) (k : Nat) (hk : k < 4) : Memory.wordByte (m.word w) k = m (w + k) := by
    apply BitVec.eq_of_getLsbD_eq
    intro l hl
    obtain rfl | rfl | rfl | rfl : k = 0 ∨ k = 1 ∨ k = 2 ∨ k = 3 := by omega
    all_goals simp [Memory.wordByte, Memory.word, hl]
    all_goals grind
  by_cases low : i < 16
  · exact image_read m a low
  · rw [image, dif_neg low]
    split
    · rw [read, byte _ _ (by omega)]
      exact congrArg m (by omega)
    · rw [read, byte _ _ (by omega)]
      exact congrArg m (by omega)

theorem strcmpEq_cString (ends : ∃ i, i < 24 ∧ (read m a).image i = 0) (plain : (0 : Byte) ∉ name) :
    strcmpEq m a name = true ↔ (read m a).cString = name := by
  obtain ⟨i, inside, zero⟩ := ends
  rw [image_read_all m a inside] at zero
  have same : (read m a).cString = nameFrom m a 24 :=
    nameFrom_congr fun i inside => by rw [Nat.zero_add, image_read_all m a inside]
  rw [same, strcmpEq_iff ⟨i, inside, zero⟩ plain]

theorem ends_make (name : List Byte) (iNo : Word) (fType : FileType) : ∃ i, i < 24 ∧
    (make name iNo fType).image i = 0 :=
  ⟨23, by decide, by cases fType <;> simp [image, make, Memory.wordByte, FileType.code]⟩

theorem cString_make (plain : (0 : Byte) ∉ name) (fits : name.length ≤ 16) :
    (make name iNo fType).cString = name ↔ name.length < 16 ∨ iNo.toNat % 256 = 0 := by
  have bytes (i : Nat) (hi : i < name.length) : (make name iNo fType).image (0 + i) = name.getD i 0 := by
    simp [image, make, show i < 16 by omega]
  have split := nameFrom_append (n := 24 - name.length) plain bytes
  rw [Nat.add_sub_of_le (by omega), Nat.zero_add] at split
  rw [cString, split, List.append_right_eq_self]
  obtain ⟨n, rest⟩ : ∃ n, 24 - name.length = n + 1 := ⟨23 - name.length, by omega⟩
  have first : nameFrom (make name iNo fType).image name.length (n + 1) = [] ↔
      (make name iNo fType).image name.length = 0 := by
    rw [nameFrom]
    split <;> simp_all
  rw [rest, first]
  by_cases short : name.length < 16
  · simp [short, image, make]
  · have full : name.length = 16 := by omega
    have low : (make name iNo fType).image 16 = Memory.wordByte iNo 0 := rfl
    rw [or_iff_right short, full, low, Memory.wordByte, ← BitVec.toNat_inj]
    simp

end DirEntry

/-- A directory whose blocks can be read, with an end to the string in each slot. -/
structure Fs.DirReadable (s : Fs) (inode : Inode) : Prop where
  owns : s.Owns inode
  onDisk : ∀ k, k ≤ 140 → (s.volume.pointer inode k).toNat ≤ maxLba
  ends : ∀ k j, k < 140 → j < 21 → ∃ i, i < 24 ∧ (s.volume.slot inode k j).image i = 0

section
variable {s s' : Fs} {p : Nat} {entry : DirEntry} {inode : Inode}

theorem Fs.DirReadable.direct (dir : s.DirReadable inode) : s.DirReadable inode.direct where
  owns := dir.owns.direct
  onDisk k hk := by
    rw [Volume.pointer_direct_inode]
    split
    next low =>
      rw [← Volume.pointer_direct s.volume inode low]
      exact dir.onDisk k hk
    next => exact Nat.zero_le _
  ends k j hk hj := by
    rw [Volume.slot_direct_inode]
    split
    · exact dir.ends k j hk hj
    · exact ⟨0, by decide, rfl⟩

theorem searchDirEntry_cases (layout : Layout s.part) (dir : s.DirReadable (s.heap p)) (some : name ≠ [])
    (plain : (0 : Byte) ∉ name) :
    ∃ r, searchDirEntry p name s = .ok (r, s) ∧
      (∀ entry, r = .some entry → entry.cString = name ∧ ∃ k j, k < 140 ∧ j < 21 ∧
      s.volume.slot (s.heap p) k j = entry) ∧
      (r = none → ∀ k j, k < 140 → j < 21 → (s.volume.slot (s.heap p) k j).cString ≠ name) := by
  obtain ⟨r, run, found, missing⟩ := searchDirEntry_found layout dir.owns dir.onDisk name
  -- In a slot of a block the comparison is one of strings.
  have compare {k j : Nat} (hk : k < 140) (hj : j < 21) (present : s.volume.pointer (s.heap p) k ≠ 0) :
      strcmpEq (s.volume.block (s.volume.pointer (s.heap p) k).toNat) (24 * j) name = true ↔
        (s.volume.slot (s.heap p) k j).cString = name := by
    have ends := dir.ends k j hk hj
    rw [Volume.slot_of_some present] at ends ⊢
    exact DirEntry.strcmpEq_cString ends plain
  refine ⟨r, run, ?_, ?_⟩
  · intro entry same
    obtain ⟨k, j, hk, hj, present, equal, rfl⟩ := found entry same
    exact ⟨(compare hk hj present).mp equal, k, j, hk, hj, rfl⟩
  · intro none k j hk hj same
    by_cases present : s.volume.pointer (s.heap p) k = 0
    · rw [Volume.slot_of_none present, DirEntry.cString_empty] at same
      exact some same.symm
    · rw [← compare hk hj present, missing none k j hk hj present] at same
      cases same

theorem Inserted.readable {k j : Nat} {fresh : Nat → Prop} (inserted : Inserted p entry s inode k j fresh s')
    (dir : s.DirReadable inode)
    (ends : ∃ i, i < 24 ∧ entry.image i = 0) : s'.DirReadable (s'.heap p) where
  owns := inserted.extended.owns dir.owns
  onDisk k' hk' := by
    by_cases new : fresh k'
    · exact inserted.onDisk k' hk' new
    · rw [inserted.extended.kept k' hk' new]
      exact dir.onDisk k' hk'
  ends k' j' hk' hj' := by
    rw [inserted.slot k' j' hk' hj']
    split
    · exact ends
    · exact dir.ends k' j' hk' hj'

variable (layout : Layout s.part) (dir : s.DirReadable (s.heap p)) (ends : ∃ i, i < 24 ∧ entry.image i = 0)
  (sync : syncDirEntry p entry s = .ok (true, s'))
include layout dir ends sync

theorem syncDirEntry_slots :
    Layout s'.part ∧ s'.DirReadable (s'.heap p) ∧ (∃ k j, k < 140 ∧ j < 21 ∧ s'.volume.slot (s'.heap p) k j = entry) ∧
      ∀ k j, k < 140 → j < 21 → s'.volume.slot (s'.heap p) k j = entry ∨
        s'.volume.slot (s'.heap p) k j = s.volume.slot (s.heap p) k j ∨
        s'.volume.slot (s'.heap p) k j = .empty := by
  obtain ⟨-, _, same, syncs⟩ := (syncDirEntry_eq_ok layout).mp sync
  cases same
  rcases syncs.inserted layout dir.owns with ⟨k, j, -, -, inserted⟩ | ⟨-, inserted⟩
  · refine ⟨layout.congr inserted.extended.geometry, inserted.readable dir ends,
      ⟨k, j, inserted.inside.1, inserted.inside.2, inserted.slot_self⟩, ?_⟩
    intro k' j' hk' hj'
    rw [inserted.slot k' j' hk' hj']
    split
    · exact .inl rfl
    · exact .inr (.inl rfl)
  · -- the positions behind the direct blocks are given up
    refine ⟨layout.congr inserted.extended.geometry, inserted.readable dir.direct ends,
      ⟨12, 0, inserted.inside.1, inserted.inside.2, inserted.slot_self⟩, ?_⟩
    intro k' j' hk' hj'
    rw [inserted.slot k' j' hk' hj', Volume.slot_direct_inode]
    split
    · exact .inl rfl
    · split
      · exact .inr (.inl rfl)
      · exact .inr (.inr rfl)

theorem searchDirEntry_after (some : name ≠ []) (plain : (0 : Byte) ∉ name)
    (absent : searchDirEntry p name s = .ok (none, s)) :
    searchDirEntry p name s' = .ok (if entry.cString = name then .some entry else none, s') := by
  obtain ⟨layout', dir', ⟨k, j, hk, hj, new⟩, slots⟩ := syncDirEntry_slots layout dir ends sync
  obtain ⟨r, run, -, missing⟩ := searchDirEntry_cases layout dir some plain
  obtain ⟨r', run', found', missing'⟩ := searchDirEntry_cases layout' dir' some plain
  rw [run] at absent
  cases absent
  rw [run']
  cases r' with
  | none => rw [if_neg (new ▸ missing' rfl k j hk hj)]
  | some e =>
    obtain ⟨same, k', j', hk', hj', slot⟩ := found' e rfl
    rcases slots k' j' hk' hj' with here | old | blank
    · rw [← slot, here] at same ⊢
      rw [if_pos same]
    · exact absurd (by rw [← old, slot, same]) (missing rfl k' j' hk' hj')
    · rw [← slot, blank, DirEntry.cString_empty] at same
      exact absurd same.symm some

def LooksUp (p : Nat) (name : List Byte) (inodeNo : Word) (s s' : Fs) : Prop :=
  (∃ entry, searchDirEntry p name s' = .ok (some entry, s') ∧ entry.iNo = inodeNo) ∧
    ∀ other, other ≠ name → other ≠ [] → (0 : Byte) ∉ other → searchDirEntry p other s = .ok (none, s) →
      searchDirEntry p other s' = .ok (none, s')

end

/-- A new entry can be looked up exactly when its name has at most 15 characters, or the number of its inode
ends in a zero byte. -/
theorem entry_found_iff {s s' : Fs} {p : Nat} {name : List Byte} {inodeNo : Word} {fileType : FileType}
    {entry : DirEntry}
    (layout : Layout s.part) (dir : s.DirReadable (s.heap p)) (some : name ≠ []) (plain : (0 : Byte) ∉ name)
    (absent : searchDirEntry p name s = .ok (none, s))
    (create : createDirEntry name inodeNo fileType s = .ok (entry, s))
    (sync : syncDirEntry p entry s = .ok (true, s')) :
    LooksUp p name inodeNo s s' ↔ name.length < 16 ∨ inodeNo.toNat % 256 = 0 := by
  obtain ⟨fits, last⟩ := require_bind_eq_ok.mp create
  cases last
  have ends := DirEntry.ends_make name inodeNo fileType
  have own := searchDirEntry_after layout dir ends sync some plain absent
  rw [← show (DirEntry.make name inodeNo fileType).cString = name ↔ _ from DirEntry.cString_make plain fits]
  constructor
  · rintro ⟨⟨e, found, -⟩, -⟩
    by_contra unread
    rw [own, if_neg unread] at found
    cases found
  · intro read
    rw [if_pos read] at own
    refine ⟨⟨_, own, rfl⟩, fun other ne some' plain' absent' => ?_⟩
    rw [searchDirEntry_after layout dir ends sync some' plain' absent', if_neg fun same => ne (same.symm.trans read)]

theorem pointer_blankFs (k : Nat) : blankFs.volume.pointer (blankFs.heap 0) k = 0 := by
  by_cases direct : k < 12
  · rw [Volume.pointer_direct _ _ direct]
    exact sector_blank k
  · exact Volume.pointer_of_no_table (sector_blank 12) (by omega)

theorem readable_blankFs : blankFs.DirReadable (blankFs.heap 0) := by
  refine ⟨⟨fun k _ some => absurd (pointer_blankFs k) some, fun k _ _ _ some => absurd (pointer_blankFs k) some⟩,
    fun k _ => ?_, fun k j _ _ => ?_⟩
  · rw [pointer_blankFs]
    exact Nat.zero_le _
  · rw [Volume.slot_of_none (pointer_blankFs k)]
    exact ⟨0, by decide, rfl⟩

theorem absent_blankFs {name : List Byte} (some : name ≠ []) (plain : (0 : Byte) ∉ name) :
    searchDirEntry 0 name blankFs = .ok (none, blankFs) := by
  obtain ⟨r, run, found, -⟩ := searchDirEntry_cases layout_smallPartition readable_blankFs some plain
  cases r with
  | none => exact run
  | some e =>
    obtain ⟨same, k, j, -, -, slot⟩ := found e rfl
    rw [← slot, Volume.slot_of_none (pointer_blankFs k), DirEntry.cString_empty] at same
    exact absurd same.symm some

theorem entry_found_short : ∃ s', syncDirEntry 0 (DirEntry.make [0x61] 7 .regular) blankFs = .ok (true, s') ∧
    LooksUp 0 [0x61] 7 blankFs s' := by
  obtain ⟨r, s', sync, rfl⟩ : ∃ r s', syncDirEntry 0 (DirEntry.make [0x61] 7 .regular) blankFs = .ok (r, s') ∧
    r = true :=
    exists_of_yields (c := fun r _ => r) (by decide +kernel)
  exact ⟨s', sync, (@entry_found_iff _ _ _ _ _ .regular _ layout_smallPartition readable_blankFs (by decide) (by decide)
    (absent_blankFs (by decide) (by decide)) rfl sync).mpr (.inl (by decide))⟩

/-- An entry with a name of 16 characters for inode 7 is not found. -/
theorem entry_lost_16 : ∃ name s', createDirEntry name 7 .regular blankFs =
    .ok (DirEntry.make name 7 .regular, blankFs) ∧
    searchDirEntry 0 name blankFs = .ok (none, blankFs) ∧ syncDirEntry 0 (DirEntry.make name 7 .regular) blankFs =
      .ok (true, s') ∧
    searchDirEntry 0 name s' = .ok (none, s') ∧ ¬ LooksUp 0 name 7 blankFs s' := by
  obtain ⟨r, s', sync, rfl⟩ : ∃ r s', syncDirEntry 0 (DirEntry.make (List.replicate 16 0x61) 7 .regular) blankFs =
    .ok (r, s') ∧ r = true :=
    exists_of_yields (c := fun r _ => r) (by decide +kernel)
  have absent := @absent_blankFs (List.replicate 16 0x61) (by decide) (by decide)
  have lost := searchDirEntry_after layout_smallPartition readable_blankFs (DirEntry.ends_make _ _ _) sync (by decide)
    (by decide) absent
  rw [if_neg (by decide)] at lost
  refine ⟨List.replicate 16 0x61, s', rfl, absent, sync, lost, ?_⟩
  rintro ⟨⟨e, found, -⟩, -⟩
  rw [lost] at found
  cases found

end LaiMiniOs
