import LaiMiniOs.Fs.Dir
import LaiMiniOs.Fs.Ownership

/-! The contents of a directory.

A directory is a table of slots: position `k` of the inode and index `j` in that block. A
position without a block reads as 21 empty slots, so giving a directory a cleared block, or
taking an empty one away, changes no slot.
-/

set_option autoImplicit false

namespace LaiMiniOs
open Foundation Prog

variable {m : Memory} {a n : Nat}

def nameFrom (m : Memory) (a : Nat) : Nat → List Byte
  | 0 => []
  | n + 1 => if m a = 0 then [] else m a :: nameFrom m (a + 1) n

theorem nameFrom_congr {m' : Memory} {a' : Nat} (same : ∀ i, i < n → m (a + i) = m' (a' + i)) :
    nameFrom m a n = nameFrom m' a' n := by
  induction n generalizing a a' with
  | zero => rfl
  | succ n ih =>
    have first : m a = m' a' := same 0 (by omega)
    grind [nameFrom]

theorem strcmpEq_iff {name : List Byte} (ends : ∃ i, i < n ∧ m (a + i) = 0)
    (plain : (0 : Byte) ∉ name) : strcmpEq m a name = true ↔ nameFrom m a n = name := by
  induction n generalizing a name with
  | zero =>
    obtain ⟨i, below, -⟩ := ends
    omega
  | succ n ih =>
    rw [nameFrom]
    cases name with
    | nil =>
      rw [strcmpEq, beq_iff_eq]
      split <;> simp_all
    | cons c name =>
      rw [List.mem_cons, not_or] at plain
      rw [strcmpEq, Bool.and_eq_true, beq_iff_eq]
      by_cases last : m a = 0
      · rw [if_pos last, last]
        exact iff_of_false (fun both => plain.1 both.1) (by simp)
      · obtain ⟨i, below, zero⟩ := ends
        have later : ∃ i, i < n ∧ m (a + 1 + i) = 0 := by
          cases i with
          | zero => exact absurd zero last
          | succ i => exact ⟨i, by omega, by rwa [Nat.add_assoc, Nat.add_comm 1]⟩
        rw [if_neg last, List.cons.injEq, ih later plain.2]

/-- A name that is shorter than the field is compared whatever the field holds. -/
theorem strcmpEq_short {name : List Byte} (short : name.length < n) (plain : (0 : Byte) ∉ name) :
    strcmpEq m a name = true ↔ nameFrom m a n = name := by
  induction name generalizing a n with
  | nil =>
    obtain ⟨n, rfl⟩ : ∃ n', n = n' + 1 := ⟨n - 1, by omega⟩
    rw [strcmpEq, beq_iff_eq, nameFrom]
    split <;> simp_all
  | cons c name ih =>
    obtain ⟨n, rfl⟩ : ∃ n', n = n' + 1 := ⟨n - 1, by omega⟩
    grind [strcmpEq, nameFrom]

theorem nameFrom_eq {name : List Byte} (fits : name.length < n) (plain : (0 : Byte) ∉ name)
    (bytes : ∀ i, i ≤ name.length → m (a + i) = name.getD i 0) : nameFrom m a n = name := by
  induction name generalizing a n with
  | nil =>
    obtain ⟨n, rfl⟩ : ∃ n', n = n' + 1 := ⟨n - 1, by omega⟩
    have ends : m a = 0 := bytes 0 (Nat.le_refl _)
    rw [nameFrom, if_pos ends]
  | cons c name ih =>
    obtain ⟨n, rfl⟩ : ∃ n', n = n' + 1 := ⟨n - 1, by omega⟩
    rw [List.mem_cons, not_or] at plain
    have first : m a = c := bytes 0 (Nat.zero_le _)
    have rest : nameFrom m (a + 1) n = name := by
      rw [List.length_cons] at fits
      refine ih (by omega) plain.2 fun i hi => ?_
      rw [Nat.add_assoc, Nat.add_comm 1 i]
      exact bytes (i + 1) (by rw [List.length_cons]; omega)
    rw [nameFrom, if_neg (by rw [first]; exact Ne.symm plain.1), first, rest]

theorem plain_nameFrom (m : Memory) (a n : Nat) : (0 : Byte) ∉ nameFrom m a n := by
  induction n generalizing a with
  | zero => exact List.not_mem_nil
  | succ n ih =>
    grind [nameFrom]

structure ValidName (name : List Byte) : Prop where
  some : name ≠ []
  plain : (0 : Byte) ∉ name
  short : name.length < 16

namespace DirEntry

def name (entry : DirEntry) : List Byte := nameFrom entry.image 0 16

structure Named (entry : DirEntry) : Prop where
  ends : ∃ i, i < 16 ∧ entry.image i = 0
  some : entry.name ≠ []

theorem image_read (m : Memory) (a : Nat) {i : Nat} (low : i < 16) : (read m a).image i = m (a + i) := by
  simp [image, read, low]

theorem name_read (m : Memory) (a : Nat) : (read m a).name = nameFrom m a 16 :=
  nameFrom_congr fun i below => by rw [Nat.zero_add, image_read m a below]

theorem plain_name (entry : DirEntry) : (0 : Byte) ∉ entry.name := plain_nameFrom _ _ _

theorem live_make {filename : List Byte} {iNo : Word} {fType : FileType} (kind : fType ≠ .unknown) :
    (make filename iNo fType).fType ≠ 0 := by
  cases fType with
  | unknown => exact absurd rfl kind
  | regular => exact (by decide : (1 : Word) ≠ 0)
  | directory => exact (by decide : (2 : Word) ≠ 0)

section
variable {filename : List Byte} (valid : ValidName filename) (iNo : Word) (fType : FileType)
include valid

theorem name_make : (make filename iNo fType).name = filename := by
  refine nameFrom_eq valid.short valid.plain fun i hi => ?_
  have low : i < 16 := Nat.lt_of_le_of_lt hi valid.short
  simp [image, make, low]

theorem named_make : (make filename iNo fType).Named where
  ends := ⟨filename.length, valid.short, by simp [image, make, valid.short]⟩
  some := by
    rw [name_make valid]
    exact valid.some

end

theorem strcmpEq_read {name : List Byte} (named : (read m a).Named) (plain : (0 : Byte) ∉ name) :
    strcmpEq m a name = true ↔ (read m a).name = name := by
  obtain ⟨i, below, zero⟩ := named.ends
  rw [image_read m a below] at zero
  rw [strcmpEq_iff ⟨i, below, zero⟩ plain, name_read]

theorem strcmpEq_empty {name : List Byte} (blank : read m a = empty) (some : name ≠ [])
    (plain : (0 : Byte) ∉ name) : strcmpEq m a name = false := by
  have first : m a = 0 := by
    have byte := image_read m a (by omega : 0 < 16)
    rw [blank] at byte
    exact byte.symm
  cases name with
  | nil => exact absurd rfl some
  | cons c name =>
    grind [strcmpEq]

end DirEntry

def Volume.slot (v : Volume) (inode : Inode) (k j : Nat) : DirEntry :=
  if v.pointer inode k = 0 then DirEntry.empty else DirEntry.read (v.block (v.pointer inode k).toNat) (24 * j)

/-- A directory whose blocks can be read and whose entries have different names. -/
structure Fs.DirOk (s : Fs) (inode : Inode) : Prop where
  owns : s.Owns inode
  onDisk : ∀ k, k ≤ 140 → (s.volume.pointer inode k).toNat ≤ maxLba
  dead : ∀ k j, k < 140 → j < 21 → (s.volume.slot inode k j).fType = 0 → s.volume.slot inode k j = .empty
  named : ∀ k j, k < 140 → j < 21 → (s.volume.slot inode k j).fType ≠ 0 → (s.volume.slot inode k j).Named
  distinct : ∀ k j k' j', k < 140 → j < 21 → k' < 140 → j' < 21 → (s.volume.slot inode k j).fType ≠ 0 →
    (s.volume.slot inode k' j').fType ≠ 0 → (s.volume.slot inode k j).name = (s.volume.slot inode k' j').name →
    k = k' ∧ j = j'

def Volume.HasEntry (v : Volume) (inode : Inode) (entry : DirEntry) : Prop :=
  entry.fType ≠ 0 ∧ ∃ k j, k < 140 ∧ j < 21 ∧ v.slot inode k j = entry

theorem Layout.entriesPerSec {part : Partition} (layout : Layout part) : LaiMiniOs.entriesPerSec part.sb = 21 := by
  rw [LaiMiniOs.entriesPerSec, layout.entrySize]
  rfl

section
variable {s : Fs}

theorem Fs.Owns.sectors_pointer {inode : Inode} (owns : s.Owns inode) {k : Nat} (hk : k ≤ 140)
    (some : s.volume.pointer inode k ≠ 0) : sectors s.disk (s.volume.pointer inode k).toNat 1 =
      s.volume.block (s.volume.pointer inode k).toNat := by
  obtain ⟨i, ⟨-, sum⟩, -⟩ := owns.used k hk some
  have low : s.part.sb.dataStartLba.toNat ≤ (s.volume.pointer inode k).toNat := by omega
  exact (if_pos low).symm

theorem Fs.Owns.readTable {inode : Inode} (owns : s.Owns inode) (onDisk : (s.volume.pointer inode 140).toNat ≤ maxLba) :
    LaiMiniOs.readTable inode s = .ok (s.volume.table inode, s) := by
  rw [Volume.pointer_table] at onDisk
  refine readTable_eq (fun some => ?_) onDisk
  obtain ⟨i, ⟨-, sum⟩, -⟩ := owns.used 140 (Nat.le_refl _) some
  rw [Volume.pointer_table] at sum
  omega

theorem Fs.DirOk.readTable {inode : Inode} (ok : s.DirOk inode) :
    LaiMiniOs.readTable inode s = .ok (s.volume.table inode, s) := ok.owns.readTable (ok.onDisk 140 (Nat.le_refl _))

/-- A loop over the blocks of a directory that ends at the first slot that is not skipped. -/
theorem entryLoop_eq (loop : Nat → FsM (Option DirEntry)) (skip : Memory → Nat → Bool) {blocks : Nat → Word}
    {inode : Inode} (start : loop 0 = pure none)
    (round : ∀ left, loop (left + 1) = if blocks (140 - (left + 1)) = 0 then loop left else do
      let per := entriesPerSec (← get).part.sb
      let buf ← ideRead (blocks (140 - (left + 1))) 1
      let idx := skipWhile (skip buf) per 0
      if idx < per then return some (DirEntry.read buf (24 * idx)) else loop left)
    (layout : Layout s.part) (owns : s.Owns inode) (onDisk : ∀ k, k ≤ 140 → (s.volume.pointer inode k).toNat ≤ maxLba)
    (same : ∀ k, k < 140 → blocks k = s.volume.pointer inode k) {left : Nat} (small : left ≤ 140) :
    ∃ r, loop left s = .ok (r, s) ∧
      (∀ entry, r = some entry → ∃ k j, k < 140 ∧ j < 21 ∧ s.volume.pointer inode k ≠ 0 ∧
        skip (s.volume.block (s.volume.pointer inode k).toNat) j = false ∧ entry = s.volume.slot inode k j) ∧
      (r = none → ∀ k j, 140 - left ≤ k → k < 140 → j < 21 → s.volume.pointer inode k ≠ 0 →
        skip (s.volume.block (s.volume.pointer inode k).toNat) j = true) := by
  induction left with
  | zero => exact ⟨none, by rw [start]; rfl, (fun _ same => nomatch same), fun _ k j low high => by omega⟩
  | succ left ih =>
    obtain ⟨r, run, found, missing⟩ := ih (by omega)
    rw [round, same _ (by omega)]
    by_cases gap : s.volume.pointer inode (140 - (left + 1)) = 0
    · refine ⟨r, by rw [if_pos gap, run], found, fun none k j low high inside some => ?_⟩
      grind
    · rw [if_neg gap, get_bind, layout.entriesPerSec,
        bind_of_ok (ideRead_eq (addressable_one.mpr (onDisk _ (by omega)))),
        owns.sectors_pointer (by omega) gap]
      generalize sector : s.volume.block (s.volume.pointer inode (140 - (left + 1))).toNat = buf
      by_cases stop : skipWhile (skip buf) 21 0 < 21
      · have equal := skipWhile_stop (p := skip buf) (n := 21) (i := 0) (by omega)
        refine ⟨some (DirEntry.read buf _), by rw [if_pos stop]; rfl, fun entry same => ?_, (fun none => nomatch none)⟩
        cases same
        exact ⟨_, _, by omega, stop, gap, sector ▸ equal, by rw [Volume.slot, if_neg gap, sector]⟩
      · refine ⟨r, by rw [if_neg stop, run], found, fun none k j low high inside some => ?_⟩
        by_cases here : k = 140 - (left + 1)
        · subst here
          rw [sector]
          exact skipWhile_before (n := 21) (Nat.zero_le j) (by omega)
        · exact missing none k j (by omega) high inside some

theorem searchDirEntry_found {p : Nat} (layout : Layout s.part) (owns : s.Owns (s.heap p))
    (onDisk : ∀ k, k ≤ 140 → (s.volume.pointer (s.heap p) k).toNat ≤ maxLba) (name : List Byte) :
    ∃ r, searchDirEntry p name s = .ok (r, s) ∧
      (∀ entry, r = some entry → ∃ k j, k < 140 ∧ j < 21 ∧ s.volume.pointer (s.heap p) k ≠ 0 ∧
        strcmpEq (s.volume.block (s.volume.pointer (s.heap p) k).toNat) (24 * j) name = true ∧
          entry = s.volume.slot (s.heap p) k j) ∧
      (r = none → ∀ k j, k < 140 → j < 21 → s.volume.pointer (s.heap p) k ≠ 0 →
        strcmpEq (s.volume.block (s.volume.pointer (s.heap p) k).toNat) (24 * j) name = false) := by
  obtain ⟨r, run, found, missing⟩ := entryLoop_eq (searchBlocks (allBlocks (s.heap p) (s.volume.table (s.heap p))) name)
    (fun buf k => !strcmpEq buf (24 * k) name) rfl (fun _ => rfl) layout owns onDisk
      (fun k hk => (if_neg (by omega)).symm) (Nat.le_refl 140)
  simp only [Bool.not_eq_false', Bool.not_eq_true'] at found missing
  refine ⟨r, by rw [searchDirEntry, get_bind, bind_of_ok (owns.readTable (onDisk 140 (Nat.le_refl _))), run], found,
    fun none k j => ?_⟩
  exact missing none k j (by omega)

theorem searchDirEntry_eq {p : Nat} (layout : Layout s.part) (ok : s.DirOk (s.heap p)) {name : List Byte}
    (some : name ≠ []) (plain : (0 : Byte) ∉ name) :
    ∃ r, searchDirEntry p name s = .ok (r, s) ∧
      ∀ entry, r = .some entry ↔ s.volume.HasEntry (s.heap p) entry ∧ entry.name = name := by
  obtain ⟨r, run, found, missing⟩ := searchDirEntry_found layout ok.owns ok.onDisk name
  -- In a slot of a block the comparison is one of names.
  have compare {k j : Nat} (hk : k < 140) (hj : j < 21) (present : s.volume.pointer (s.heap p) k ≠ 0) :
      strcmpEq (s.volume.block (s.volume.pointer (s.heap p) k).toNat) (24 * j) name = true ↔
        (s.volume.slot (s.heap p) k j).fType ≠ 0 ∧ (s.volume.slot (s.heap p) k j).name = name := by
    have slot : s.volume.slot (s.heap p) k j =
        DirEntry.read (s.volume.block (s.volume.pointer (s.heap p) k).toNat) (24 * j) := if_neg present
    by_cases dead : (s.volume.slot (s.heap p) k j).fType = 0
    · grind [ok.dead, DirEntry.strcmpEq_empty]
    · grind [ok.named, DirEntry.strcmpEq_read]
  refine ⟨r, run, fun entry => ?_⟩
  constructor
  · intro same
    obtain ⟨k, j, hk, hj, present, equal, rfl⟩ := found entry same
    obtain ⟨live, named⟩ := (compare hk hj present).mp equal
    exact ⟨⟨live, k, j, hk, hj, rfl⟩, named⟩
  · rintro ⟨⟨live, k, j, hk, hj, rfl⟩, named⟩
    have present : s.volume.pointer (s.heap p) k ≠ 0 := by
      intro none
      rw [Volume.slot, if_pos none] at live
      exact live rfl
    have equal := (compare hk hj present).mpr ⟨live, named⟩
    cases r with
    | none => exact absurd (missing rfl k j hk hj present) (by rw [equal]; decide)
    | some first =>
      obtain ⟨k', j', hk', hj', present', equal', rfl⟩ := found _ rfl
      obtain ⟨live', named'⟩ := (compare hk' hj' present').mp equal'
      obtain ⟨rfl, rfl⟩ := ok.distinct _ _ _ _ hk' hj' hk hj live' live (named'.trans named.symm)
      rfl

section
variable {p : Nat} (layout : Layout s.part) (ok : s.DirOk (s.heap p)) {name : List Byte} (some : name ≠ [])
  (plain : (0 : Byte) ∉ name)
include layout ok some plain

theorem searchDirEntry_some {entry : DirEntry} : searchDirEntry p name s = .ok (.some entry, s) ↔
    s.volume.HasEntry (s.heap p) entry ∧ entry.name = name := by
  obtain ⟨r, run, found⟩ := searchDirEntry_eq layout ok some plain
  rw [run, ← found entry, Except.ok.injEq, Prod.mk.injEq, and_iff_left rfl]

theorem searchDirEntry_none : searchDirEntry p name s = .ok (none, s) ↔
    ∀ entry, s.volume.HasEntry (s.heap p) entry → entry.name ≠ name := by
  obtain ⟨r, run, found⟩ := searchDirEntry_eq layout ok some plain
  rw [run, Except.ok.injEq, Prod.mk.injEq, and_iff_left rfl]
  constructor
  · rintro rfl entry has named
    exact nomatch (found entry).mpr ⟨has, named⟩
  · intro missing
    cases r with
    | none => rfl
    | some entry =>
      obtain ⟨has, named⟩ := (found entry).mp rfl
      exact absurd named (missing entry has)

end

end

end LaiMiniOs
