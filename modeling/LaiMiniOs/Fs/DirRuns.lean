import Mathlib.Data.Finset.Prod
import LaiMiniOs.Fs.Creation
import LaiMiniOs.Fs.DirDelete

/-! Directories over whole runs of insertions and deletions.

What a directory is for is said by a listing, a partial map from names to inode numbers and
types. The blocks of the directory represent the listing after every step.
-/

set_option autoImplicit false

namespace LaiMiniOs
open Foundation Prog Function

variable {inode : Inode} {entry : DirEntry} {name : List Byte} {inodeNo : Word} {fresh : Nat → Prop} {fType : FileType}

@[irreducible] def Volume.live (v : Volume) (inode : Inode) : Finset (Nat × Nat) :=
  (Finset.range 140 ×ˢ Finset.range 21).filter fun place => (v.slot inode place.1 place.2).fType ≠ 0

theorem Volume.mem_live {v : Volume} {place : Nat × Nat} : place ∈ v.live inode ↔
    place.1 < 140 ∧ place.2 < 21 ∧ (v.slot inode place.1 place.2).fType ≠ 0 := by
  have product : place ∈ Finset.range 140 ×ˢ Finset.range 21 ↔ place.1 < 140 ∧ place.2 < 21 := by
    rw [Finset.mem_product, Finset.mem_range, Finset.mem_range]
  unfold Volume.live
  rw [Finset.mem_filter, product, and_assoc]

section
variable {s s' : Fs} {p k j : Nat} {no parentNo : Word}

theorem Inserted.live_eq (live : entry.fType ≠ 0)
    (inserted : Inserted p entry s inode k j fresh s') :
    s'.volume.live (s'.heap p) = insert (k, j) (s.volume.live inode) := by
  ext ⟨k', j'⟩
  rw [Finset.mem_insert, Volume.mem_live, Volume.mem_live, Prod.mk.injEq]
  by_cases here : k' = k ∧ j' = j
  · rw [here.1, here.2, inserted.slot_self]
    exact iff_of_true ⟨inserted.inside.1, inserted.inside.2, live⟩ (.inl ⟨rfl, rfl⟩)
  · rw [or_iff_right here]
    refine and_congr_right fun hk' => and_congr_right fun hj' => ?_
    rw [inserted.slot k' j' hk' hj', if_neg here]

theorem Inserted.card_live (live : entry.fType ≠ 0)
    (inserted : Inserted p entry s inode k j fresh s') :
    (s'.volume.live (s'.heap p)).card = (s.volume.live inode).card + 1 := by
  have missing : (k, j) ∉ s.volume.live inode := by
    intro member
    exact (Volume.mem_live.mp member).2.2 inserted.free
  rw [inserted.live_eq live, Finset.card_insert_of_notMem missing]

theorem Deleted.live_eq (deleted : Deleted p s k j s') :
    s'.volume.live (s'.heap p) = (s.volume.live (s.heap p)).erase (k, j) := by
  ext ⟨k', j'⟩
  rw [Finset.mem_erase, Volume.mem_live, Volume.mem_live]
  by_cases here : k' = k ∧ j' = j
  · refine iff_of_false (fun member => member.2.2 ?_) (fun member => member.1 (Prod.ext here.1 here.2))
    rw [deleted.slot k' j' member.1 member.2.1, if_pos here]
    rfl
  grind [deleted.slot]

theorem full_card (v : Volume) (inode : Inode) (full : ∀ k j, k < 12 → j < 21 → (v.slot inode k j).fType ≠ 0) :
    252 ≤ (v.live inode).card := by
  have slots : Finset.range 12 ×ˢ Finset.range 21 ⊆ v.live inode := by grind [Volume.mem_live]
  have count : (Finset.range 12 ×ˢ Finset.range 21).card = 252 := by
    rw [Finset.card_product, Finset.card_range, Finset.card_range]
  rw [← count]
  exact Finset.card_le_card slots

theorem Fs.DirDirect.insert (dir : s.DirDirect (s.heap p) no parentNo) (direct : k < 12)
    (inserted : Inserted p entry s (s.heap p) k j (fun k' => k' = k ∧ s.volume.pointer (s.heap p) k = 0) s')
    (live : entry.fType ≠ 0) (named : entry.Named)
    (new : ∀ e, s.volume.HasEntry (s.heap p) e → e.name ≠ entry.name)
    (fresh : ∀ e, s.volume.HasEntry (s.heap p) e → e.Counted → e.iNo ≠ entry.iNo) :
    s'.DirDirect (s'.heap p) no parentNo := by
  have slot := inserted.slot
  have old {k' j' : Nat} (hk' : k' < 140) (hj' : j' < 21) (some : (s.volume.slot (s.heap p) k' j').fType ≠ 0) :
      s'.volume.slot (s'.heap p) k' j' = s.volume.slot (s.heap p) k' j' := by
    rw [slot k' j' hk' hj', if_neg]
    rintro ⟨rfl, rfl⟩
    exact some inserted.free
  have pointer (k' : Nat) (hk' : k' ≤ 140) (other : k' ≠ k) :
      s'.volume.pointer (s'.heap p) k' = s.volume.pointer (s.heap p) k' :=
    inserted.extended.kept k' hk' fun new => other new.1
  refine ⟨inserted.dirOk dir.toDirOk live named new, ?_, ?_, ?_, fun k' low high present => ?_, ?_⟩
  · rw [← Volume.pointer_table s'.volume, pointer 140 (Nat.le_refl _) (by omega), Volume.pointer_table]
    exact dir.noTable
  · rw [old (by omega) (by omega) dir.live_dot, dir.own]
  · rw [old (by omega) (by omega) dir.live_dotDot, dir.parent]
  · by_cases here : k' = k
    · subst here
      exact ⟨j, inserted.inside.2, by rw [inserted.slot_self]; exact live⟩
    · rw [← Volume.pointer_direct s'.volume _ high, pointer k' (by omega) here,
        Volume.pointer_direct _ _ high] at present
      grind [dir.inhabited]
  · intro k₁ j₁ k₂ j₂ hk₁ hj₁ hk₂ hj₂ counted₁ counted₂ same
    rw [slot k₁ j₁ hk₁ hj₁] at counted₁ same
    rw [slot k₂ j₂ hk₂ hj₂] at counted₂ same
    by_cases here₁ : k₁ = k ∧ j₁ = j
    · by_cases here₂ : k₂ = k ∧ j₂ = j
      · exact ⟨here₁.1.trans here₂.1.symm, here₁.2.trans here₂.2.symm⟩
      · rw [if_neg here₂] at counted₂
        rw [if_pos here₁, if_neg here₂] at same
        exact absurd same.symm (fresh _ ⟨counted₂.1, k₂, j₂, hk₂, hj₂, rfl⟩ counted₂)
    · rw [if_neg here₁] at counted₁ same
      by_cases here₂ : k₂ = k ∧ j₂ = j
      · rw [if_pos here₂] at same
        exact absurd same (fresh _ ⟨counted₁.1, k₁, j₁, hk₁, hj₁, rfl⟩ counted₁)
      grind [dir.numbers]

section
variable (dir : s.DirDirect (s.heap p) no parentNo) (deleted : Deleted p s k j s')
include dir deleted

theorem Deleted.owns (hk : k ≤ 140) : s'.Owns (s'.heap p) := by
  have some {k' : Nat} (present : s'.volume.pointer (s'.heap p) k' ≠ 0) :
      ¬ (s.volume.Alone (s.heap p) k j ∧ k' = k) ∧
        s'.volume.pointer (s'.heap p) k' = s.volume.pointer (s.heap p) k' := by grind [deleted.pointer]
  constructor
  · intro k' hk' present
    obtain ⟨kept, same⟩ := some present
    rw [same] at present ⊢
    obtain ⟨i, number, used⟩ := dir.owns.used k' hk' present
    refine ⟨i, BlockNo.congr deleted.geometry number, (deleted.blockBits i).mpr ⟨used, ?_⟩⟩
    -- The bit that is cleared is that of another block.
    rintro ⟨alone, sum⟩
    have equal : s.volume.pointer (s.heap p) k' = s.volume.pointer (s.heap p) k :=
      BitVec.eq_of_toNat_eq (number.2.trans sum.symm)
    exact kept ⟨alone, dir.owns.apart k' k hk' hk present equal⟩
  grind [dir.owns.apart]

theorem Deleted.reaches (hk : k ≤ 140) (lba : Nat) : s'.volume.Reaches (s'.heap p) lba ↔
    s.volume.Reaches (s.heap p) lba ∧
      ¬ (s.volume.Alone (s.heap p) k j ∧ (s.volume.pointer (s.heap p) k).toNat = lba) := by
  constructor
  · rintro ⟨k', hk', present, number⟩
    have kept : ¬ (s.volume.Alone (s.heap p) k j ∧ k' = k) := fun gone => present ((deleted.pointer k').1 gone)
    rw [(deleted.pointer k').2 kept] at present number
    refine ⟨⟨k', hk', present, number⟩, fun gone => kept ⟨gone.1, ?_⟩⟩
    exact dir.owns.apart k' k hk' hk present (BitVec.eq_of_toNat_eq (number.trans gone.2.symm))
  · rintro ⟨⟨k', hk', present, number⟩, kept⟩
    have same := (deleted.pointer k').2 fun gone => kept ⟨gone.1, gone.2 ▸ number⟩
    exact ⟨k', hk', by rw [same]; exact present, by rw [same]; exact number⟩

omit dir in
theorem Deleted.size : (s'.heap p).iSize = (s.heap p).iSize - 24 := by
  have heap := congrArg (fun kernel => (kernel.heap p).iSize) deleted.kernel
  rwa [Kernel.heap_setInode_self] at heap

theorem Fs.DirDirect.delete (hk : k < 140) (counted : (s.volume.slot (s.heap p) k j).Counted) :
    s'.DirDirect (s'.heap p) no parentNo := by
  have slot := deleted.slot
  have old {k' j' : Nat} (hk' : k' < 140) (hj' : j' < 21) (some : (s'.volume.slot (s'.heap p) k' j').fType ≠ 0) :
      s'.volume.slot (s'.heap p) k' j' = s.volume.slot (s.heap p) k' j' := by
    rw [slot k' j' hk' hj'] at some ⊢
    split at some
    next => exact absurd rfl some
    next other => rw [if_neg other]
  refine ⟨⟨Deleted.owns dir deleted (by omega), fun k' hk' => ?_, fun k' j' hk' hj' none =>
    ?_, fun k' j' hk' hj' some => ?_, ?_⟩,
    ?_, ?_, ?_, fun k' low high present => ?_, ?_⟩
  · by_cases gone : s.volume.Alone (s.heap p) k j ∧ k' = k
    · rw [(deleted.pointer k').1 gone]
      exact Nat.zero_le _
    · rw [(deleted.pointer k').2 gone]
      exact dir.onDisk k' hk'
  · grind [dir.dead]
  · have same := old hk' hj' some
    rw [same] at some ⊢
    exact dir.named k' j' hk' hj' some
  · grind [dir.distinct]
  · rw [← Volume.pointer_table s'.volume, (deleted.pointer 140).2 fun gone => by omega, Volume.pointer_table]
    exact dir.noTable
  · rw [slot 0 0 (by omega) (by omega), if_neg, dir.own]
    rintro ⟨rfl, rfl⟩
    exact counted.2.1 dir.name_dot
  · rw [slot 0 1 (by omega) (by omega), if_neg, dir.parent]
    rintro ⟨rfl, rfl⟩
    exact counted.2.2 dir.name_dotDot
  · rw [← Volume.pointer_direct s'.volume _ high] at present
    have kept : ¬ (s.volume.Alone (s.heap p) k j ∧ k' = k) := fun gone => present ((deleted.pointer k').1 gone)
    rw [(deleted.pointer k').2 kept, Volume.pointer_direct _ _ high] at present
    by_cases here : k' = k
    · -- The block was kept because another entry is in it.
      subst here
      have more : ¬ s.volume.Alone (s.heap p) k' j := fun alone => kept ⟨alone, rfl⟩
      unfold Volume.Alone at more
      push Not at more
      obtain ⟨j', hj', other, some⟩ := more
      exact ⟨j', hj', by rw [slot k' j' hk hj', if_neg fun both => other both.2]; exact some⟩
    · obtain ⟨j', hj', some⟩ := dir.inhabited k' low high present
      exact ⟨j', hj', by rw [slot k' j' (by omega) hj', if_neg fun both => here both.1]; exact some⟩
  · intro k₁ j₁ k₂ j₂ hk₁ hj₁ hk₂ hj₂ counted₁ counted₂ equal
    have same₁ := old hk₁ hj₁ counted₁.1
    have same₂ := old hk₂ hj₂ counted₂.1
    grind [dir.numbers]

theorem Deleted.hasEntry (hk : k < 140) (hj : j < 21) (live : (s.volume.slot (s.heap p) k j).fType ≠ 0) (e : DirEntry) :
    s'.volume.HasEntry (s'.heap p) e ↔
      s.volume.HasEntry (s.heap p) e ∧ e.name ≠ (s.volume.slot (s.heap p) k j).name := by
  constructor
  · rintro ⟨some, k', j', hk', hj', rfl⟩
    rw [deleted.slot k' j' hk' hj'] at some ⊢
    split at some
    next => exact absurd rfl some
    next other =>
      rw [if_neg other]
      exact ⟨⟨some, k', j', hk', hj', rfl⟩, fun same => other (dir.distinct k' j' k j hk' hj' hk hj some live same)⟩
  · rintro ⟨⟨some, k', j', hk', hj', rfl⟩, differs⟩
    refine ⟨some, k', j', hk', hj', ?_⟩
    rw [deleted.slot k' j' hk' hj', if_neg]
    rintro ⟨rfl, rfl⟩
    exact differs rfl

end

end

/-- What a directory lists: the inode number and the type for each of its names. -/
abbrev Listing := List Byte → Option (Word × FileType)

namespace Listing

def new (no parentNo : Word) : Listing := fun name =>
  if name = dot then some (no, .directory) else if name = dotDot then some (parentNo, .directory) else none

def add (listing : Listing) (name : List Byte) (item : Word × FileType) : Listing :=
  update listing name (some item)

def remove (listing : Listing) (inodeNo : Word) : Listing := fun name =>
  if name = dot ∨ name = dotDot then listing name else (listing name).filter fun item => item.1 ≠ inodeNo

end Listing

structure Fs.Lists (s : Fs) (inode : Inode) (listing : Listing) : Prop where
  sound : ∀ e, s.volume.HasEntry inode e → ∃ fType, listing e.name = some (e.iNo, fType) ∧ e.fType = fType.code
  complete : ∀ name item, listing name = some item →
    ∃ e, s.volume.HasEntry inode e ∧ e.name = name ∧ e.iNo = item.1 ∧ e.fType = item.2.code

section
variable {s s' : Fs} {p k j : Nat} {no parentNo : Word} {listing : Listing}

theorem Fs.Lists.insert
    (lists : s.Lists inode listing) (valid : ValidName name) (kind : fType ≠ .unknown) (absent : listing name = none)
    (inserted : Inserted p (DirEntry.make name inodeNo fType) s inode k j fresh s') :
    s'.Lists (s'.heap p) (listing.add name (inodeNo, fType)) := by
  have named : (DirEntry.make name inodeNo fType).name = name := DirEntry.name_make valid _ _
  have has := inserted.hasEntry (DirEntry.live_make kind)
  constructor
  · intro e member
    rcases (has e).mp member with rfl | old
    · exact ⟨fType, by rw [named]; exact update_self _ _ _, rfl⟩
    · obtain ⟨fType', listed, code⟩ := lists.sound e old
      have other : e.name ≠ name := by
        rintro same
        rw [same, absent] at listed
        cases listed
      exact ⟨fType', (update_of_ne other _ _).trans listed, code⟩
  · intro name' item listed
    by_cases same : name' = name
    · subst same
      have here : some item = some (inodeNo, fType) := listed.symm.trans (update_self _ _ _)
      rw [Option.some.injEq] at here
      subst here
      exact ⟨_, (has _).mpr (.inl rfl), named, rfl, rfl⟩
    · obtain ⟨e, old, found⟩ := lists.complete name' item ((update_of_ne same _ _).symm.trans listed)
      exact ⟨e, (has e).mpr (.inr old), found⟩

theorem Fs.Lists.delete (lists : s.Lists (s.heap p) listing) (dir : s.DirDirect (s.heap p) no parentNo)
    (hk : k < 140) (hj : j < 21) (here : (s.volume.slot (s.heap p) k j).Matches inodeNo)
    (deleted : Deleted p s k j s') :
    s'.Lists (s'.heap p) (listing.remove inodeNo) := by
  have has := Deleted.hasEntry dir deleted hk hj here.1.1
  constructor
  · intro e member
    obtain ⟨old, differs⟩ := (has e).mp member
    obtain ⟨fType, listed, code⟩ := lists.sound e old
    refine ⟨fType, ?_, code⟩
    unfold Listing.remove
    split
    next => exact listed
    next counted =>
      rw [not_or] at counted
      -- Another entry with this number would be the one that was taken away.
      have other : e.iNo ≠ inodeNo := by
        intro same
        obtain ⟨live, k', j', hk', hj', rfl⟩ := old
        obtain ⟨rfl, rfl⟩ := dir.numbers k' j' k j hk' hj' hk hj ⟨live, counted⟩ here.1 (same.trans here.2.symm)
        exact differs rfl
      simp [listed, other]
  · intro name item listed
    unfold Listing.remove at listed
    have both : listing name = some item ∧ ((name = dot ∨ name = dotDot) ∨ item.1 ≠ inodeNo) := by
      grind [Option.filter_eq_some_iff]
    obtain ⟨e, old, rfl, number, code⟩ := lists.complete name item both.1
    refine ⟨e, (has e).mpr ⟨old, fun same => ?_⟩, rfl, number, code⟩
    obtain ⟨live, k', j', hk', hj', rfl⟩ := old
    obtain ⟨rfl, rfl⟩ := dir.distinct k' j' k j hk' hj' hk hj live here.1.1 same
    rcases both.2 with (dots | dots) | kept
    · exact here.1.2.1 dots
    · exact here.1.2.2 dots
    · exact kept (number.symm.trans here.2)

end

theorem card_live_syncDirEntry {s s' : Fs} {p : Nat} (layout : Layout s.part) (owns : s.Owns (s.heap p))
    (live : entry.fType ≠ 0) (run : syncDirEntry p entry s = .ok (true, s')) :
    (s'.volume.live (s'.heap p)).card ≤ (s.volume.live (s.heap p)).card + 1 := by
  obtain ⟨-, _, same, syncs⟩ := (syncDirEntry_eq_ok layout).mp run
  obtain ⟨-, rfl⟩ := Prod.mk.inj same
  rcases syncs.inserted layout owns with ⟨k, j, -, -, inserted⟩ | ⟨-, inserted⟩
  · rw [inserted.card_live live]
  · have fewer : s.volume.live (s.heap p).direct ⊆ s.volume.live (s.heap p) := by
      intro place member
      obtain ⟨hk, hj, some⟩ := Volume.mem_live.mp member
      rw [Volume.slot_direct_inode] at some
      split at some
      next => exact Volume.mem_live.mpr ⟨hk, hj, some⟩
      next => exact absurd rfl some
    rw [inserted.card_live live]
    exact Nat.add_le_add_right (Finset.card_le_card fewer) 1

structure Fs.NewDir (s : Fs) (p : Nat) (no parentNo : Word) : Prop where
  layout : Layout s.part
  size : (s.heap p).iSize = 48
  first : (s.heap p).sector 0 ≠ 0
  rest : ∀ k, 0 < k → (s.heap p).sector k = 0
  used : ∃ i, s.BlockNo ((s.heap p).sector 0) i ∧ s.volume.bit .block i = true
  onDisk : ((s.heap p).sector 0).toNat ≤ maxLba
  content : s.volume.block ((s.heap p).sector 0).toNat = (newDirBuf no parentNo).clip 512

theorem Inserted.block_taken {p k j b : Nat} {entry : DirEntry} {s s' : Fs} {inode : Inode} {fresh : Nat → Prop}
    (inserted : Inserted p entry s inode k j fresh s') (layout : Layout s.part) (inside : b < s.part.bitCount .block)
    (taken : s.volume.bit .block b = true)
    (foreign : ∀ k, k ≤ 140 → s.volume.pointer inode k ≠ 0 → (s.volume.pointer inode k).toNat ≠ (s.lbaOf b).toNat) :
    s'.volume.block (s.lbaOf b).toNat = s.volume.block (s.lbaOf b).toNat := by
  have place := toNat_lbaOf layout inside
  have other (k : Nat) (hk : k ≤ 140) : (s.lbaOf b).toNat ≠ (s'.volume.pointer (s'.heap p) k).toNat := by
    by_cases new : fresh k
    · obtain ⟨i, ⟨-, sum⟩, free⟩ := inserted.extended.free k hk new
      intro same
      obtain rfl : i = b := by omega
      rw [taken] at free
      cases free
    · rw [inserted.extended.kept k hk new]
      by_cases none : s.volume.pointer inode k = 0
      · have data := layout.dataStart
        rw [none, place]
        change _ ≠ 0
        omega
      · exact (foreign k hk none).symm
  have small := inserted.inside
  exact inserted.block _ (other k (by omega)) fun _ => other 140 (Nat.le_refl _)

section
variable {s u : Fs} {p i b : Nat} {no : Word} {entry : DirEntry}

theorem Enters.block_newDir (layout : Layout s.part) (owns : s.Owns (s.heap p)) (lowest : s.FirstFree .block b)
    (enters : Enters p entry (s.newDir i b no) u) :
    u.volume.block (s.lbaOf b).toNat = (newDirBuf (BitVec.ofNat 32 i) no).clip 512 ∧ u.volume.bit .block b = true ∧
      u.part.geometry = s.part.geometry := by
  have layout₀ := layout.congr (geometry_newDir s i b no)
  have taken := (bit_newDir layout i no lowest.inside b).mpr (.inr rfl)
  have content : (s.newDir i b no).volume.block (s.lbaOf b).toNat = (newDirBuf (BitVec.ofNat 32 i) no).clip 512 := by
    rw [volume_newDir layout i no lowest.inside]
    exact update_self _ _ _
  have foreign (k : Nat) (hk : k ≤ 140) (some : (s.newDir i b no).volume.pointer (s.heap p) k ≠ 0) :
      ((s.newDir i b no).volume.pointer (s.heap p) k).toNat ≠ (s.lbaOf b).toNat := by
    rw [pointer_newDir layout owns i no lowest] at some ⊢
    exact owns.ne_free layout lowest.inside lowest.free hk some
  have direct (k : Nat) (hk : k ≤ 140) (some : (s.newDir i b no).volume.pointer (s.heap p).direct k ≠ 0) :
      ((s.newDir i b no).volume.pointer (s.heap p).direct k).toNat ≠ (s.lbaOf b).toNat := by
    have pointer := Volume.pointer_direct_inode (s.newDir i b no).volume (s.heap p) k
    by_cases low : k < 12
    · rw [if_pos low, ← Volume.pointer_direct (s.newDir i b no).volume _ low] at pointer
      rw [pointer] at some ⊢
      exact foreign k hk some
    · exact absurd (pointer.trans (if_neg low)) some
  rcases enters.syncs.inserted layout₀ (owns_newDir layout owns i no lowest) with ⟨k, j, -, -, put⟩ | ⟨-, put⟩
  · exact ⟨(put.block_taken layout₀ lowest.inside taken foreign).trans content,
      (put.extended.blockBits b).mpr (.inl taken),
      put.extended.geometry⟩
  · exact ⟨(put.block_taken layout₀ lowest.inside taken direct).trans content,
      (put.extended.blockBits b).mpr (.inl taken),
      put.extended.geometry⟩

theorem volume_dirCreated (layout : Layout u.part) (inside : i < u.part.bitCount .inode) (small : i < 256)
    (lba : Word) :
    (u.dirCreated p i lba).volume.record i = (mkdirInode (BitVec.ofNat 32 i) lba 48).pureInode ∧
      (u.dirCreated p i lba).volume.block = u.volume.block ∧ (u.dirCreated p i lba).volume.bit = u.volume.bit := by
  have slot : syncSlot (mkdirInode (BitVec.ofNat 32 i) lba 48) = i := by
    change (BitVec.ofNat 32 i).toNat % 256 = i
    rw [BitVec.toNat_ofNat]
    omega
  rw [Fs.dirCreated, volume_syncBits (layout_storeInode (layout_storeInode layout _) _) inside, Fs.storeInode, slot,
    volume_putRecord (layout_storeInode layout _) (by omega), Fs.storeInode,
      volume_putRecord layout (by unfold syncSlot; omega)]
  exact ⟨update_self _ _ _, rfl, rfl⟩

theorem inodeOpen_uncached {n : Word} {t t' : Fs} (layout : Layout t.part) (uncached : t.toKernel.cached n = none)
    (run : inodeOpen n t = .ok (p, t')) : (∃ cnts, t'.heap p = { t.volume.record n.toNat with iOpenCnts := cnts }) ∧
      t'.volume = t.volume ∧ t'.part = t.part := by
  obtain ⟨-, result⟩ := (inodeOpen_eq_ok layout).mp run
  obtain ⟨cnts, heap⟩ := t.toKernel.heap_opened n (t.volume.record n.toNat)
  rw [Kernel.seen, uncached] at heap
  cases result
  exact ⟨⟨cnts, heap⟩, rfl, rfl⟩

theorem sector_mkdirInode (n lba size : Word) (k : Nat) :
    (mkdirInode n lba size).sector k = if k = 0 then lba else 0 := by
  change ((inodeInit n Inode.blank).setSector 0 lba).sector k = _
  rw [Inode.sector_setSector]
  simp [inodeInit, Inode.sector]

/-- `sys_mkdir` makes such a directory, if its number fits the 8-bit variable of `inode_sync` and has no
structure on the list. -/
theorem makeDir_newDir {t t' : Fs} (layout : Layout s.part) {parentDir : Dir} {dirname : List Byte} {r : Int}
    (owns : s.Owns (s.heap (parentDir.inode s))) (made : makeDir parentDir dirname s = .ok (r, t)) :
    ∃ i, s.FirstFree .inode i ∧ (i < 256 → t.toKernel.cached (BitVec.ofNat 32 i) = none →
      inodeOpen (BitVec.ofNat 32 i) t = .ok (p, t') →
        t'.NewDir p (BitVec.ofNat 32 i) (s.heap (parentDir.inode s)).iNo) := by
  obtain ⟨i, b, lowest, lowest', away, high, -, u, t₁, enters, close, same⟩ := (makeDir_eq_ok layout).mp made
  cases same
  refine ⟨i, lowest, fun small uncached open_ => ?_⟩
  have place := toNat_lbaOf layout lowest'.inside
  obtain ⟨block, bit, geometry⟩ := enters.block_newDir layout owns lowest'
  have layout₁ := layout.congr geometry
  obtain ⟨record, blocks, bits⟩ := volume_dirCreated (p := parentDir.inode s) layout₁
    ((bitCount_congr geometry .inode).symm ▸ lowest.inside) small (s.lbaOf b)
  have kept : t.volume = (u.dirCreated (parentDir.inode s) i (s.lbaOf b)).volume ∧ t.part = u.part := by
    cases parentDir <;> cases close <;> exact ⟨rfl, rfl⟩
  have index : (BitVec.ofNat 32 i).toNat = i := by
    rw [BitVec.toNat_ofNat]
    omega
  rw [← kept.1] at record blocks bits
  obtain ⟨⟨cnts, heap⟩, volume, part⟩ := inodeOpen_uncached (kept.2 ▸ layout₁) uncached open_
  rw [index, record] at heap
  have sector (k : Nat) : (t'.heap p).sector k = if k = 0 then s.lbaOf b else 0 := by
    rw [heap]
    exact sector_mkdirInode _ _ 48 k
  have first : (t'.heap p).sector 0 = s.lbaOf b := sector 0
  have geometry' : t'.part.geometry = s.part.geometry := by rw [part, kept.2, geometry]
  exact {
    layout := layout.congr geometry'
    size := by rw [heap]; rfl
    first := by
      intro zero
      have number := congrArg BitVec.toNat (first.symm.trans zero)
      rw [place] at number
      change _ = 0 at number
      omega
    rest := fun k positive => (sector k).trans (if_neg (Nat.ne_of_gt positive))
    used := by
      rw [first, volume, bits]
      exact ⟨b, BlockNo.congr geometry' ⟨lowest'.inside, place⟩, bit⟩
    onDisk := by rw [first]; exact high
    content := by rw [first, volume, blocks, block] }

end

/-- Successful insertions and deletions, beside what they do to the listing. -/
inductive DirRun (p : Nat) (no parentNo : Word) (start : Fs) : Listing → Fs → Prop where
  | new : DirRun p no parentNo start (.new no parentNo) start
  | add {listing : Listing} {s s' : Fs} {name : List Byte} {inodeNo : Word} {fType : FileType}
      (before : DirRun p no parentNo start listing s) (valid : ValidName name) (kind : fType ≠ .unknown)
      (absent : listing name = none) (fresh : ∀ name' item, listing name' = some item → item.1 ≠ inodeNo)
      (run : syncDirEntry p (DirEntry.make name inodeNo fType) s = .ok (true, s'))
      (limit : (s'.volume.live (s'.heap p)).card ≤ 252) :
      DirRun p no parentNo start (listing.add name (inodeNo, fType)) s'
  | delete {listing : Listing} {s s' : Fs} {name : List Byte} {inodeNo : Word} {fType : FileType}
      (before : DirRun p no parentNo start listing s) (present : listing name = some (inodeNo, fType))
      (counted : name ≠ dot ∧ name ≠ dotDot) (run : deleteDirEntry p inodeNo s = .ok (true, s')) :
      DirRun p no parentNo start (listing.remove inodeNo) s'

/-- What holds after every step of a run. The blocks of the others are those that the
directory did not have at its start. -/
structure DirInv (p : Nat) (no parentNo : Word) (others : Nat → Prop) (listing : Listing) (s : Fs) : Prop where
  layout : Layout s.part
  dir : s.DirDirect (s.heap p) no parentNo
  lists : s.Lists (s.heap p) listing
  size : (s.heap p).iSize.toNat = 24 * (s.volume.live (s.heap p)).card
  limit : (s.volume.live (s.heap p)).card ≤ 252
  bits : ∀ i, s.volume.bit .block i = true ↔ others i ∨ s.volume.Reaches (s.heap p) (s.part.sb.dataStartLba.toNat + i)
  apart : ∀ i, others i → ¬ s.volume.Reaches (s.heap p) (s.part.sb.dataStartLba.toNat + i)

section
variable {s s' : Fs} {p : Nat} {no parentNo : Word} {listing : Listing} {others : Nat → Prop}

theorem Fs.NewDir.pointer (new : s.NewDir p no parentNo) (k : Nat) (positive : 0 < k) :
    s.volume.pointer (s.heap p) k = 0 := by
  by_cases low : k < 12
  · rw [Volume.pointer_direct _ _ low, new.rest k positive]
  · exact Volume.pointer_of_no_table (new.rest 12 (by omega)) (by omega)

theorem Fs.NewDir.slot (new : s.NewDir p no parentNo) (k : Nat) {j : Nat} (hj : j < 21) :
    s.volume.slot (s.heap p) k j = if k = 0 ∧ j = 0 then DirEntry.make dot no .directory
      else if k = 0 ∧ j = 1 then DirEntry.make dotDot parentNo .directory else .empty := by
  by_cases first : k = 0
  · subst first
    have here : s.volume.pointer (s.heap p) 0 = (s.heap p).sector 0 := Volume.pointer_direct _ _ (by omega)
    rw [Volume.slot_of_some (by rw [here]; exact new.first), here, new.content, DirEntry.read_clip _ hj, read_newDirBuf]
    simp only [true_and]
  · rw [Volume.slot_of_none (new.pointer k (by omega)), if_neg fun both => first both.1, if_neg fun both =>
      first both.1]

theorem Fs.NewDir.live (new : s.NewDir p no parentNo) : s.volume.live (s.heap p) = {(0, 0), (0, 1)} := by
  ext ⟨k, j⟩
  rw [Volume.mem_live, Finset.mem_insert, Finset.mem_singleton, Prod.mk.injEq, Prod.mk.injEq]
  constructor
  · rintro ⟨hk, hj, some⟩
    rw [new.slot k hj] at some
    by_contra other
    rw [not_or] at other
    rw [if_neg other.1, if_neg other.2] at some
    exact some rfl
  grind [new.slot, DirEntry.live_make]

theorem Fs.NewDir.dirDirect (new : s.NewDir p no parentNo) : s.DirDirect (s.heap p) no parentNo := by
  have here : s.volume.pointer (s.heap p) 0 = (s.heap p).sector 0 := Volume.pointer_direct _ _ (by omega)
  have only {k : Nat} (present : s.volume.pointer (s.heap p) k ≠ 0) : k = 0 := by
    by_contra other
    exact present (new.pointer k (by omega))
  have place {k j : Nat} (hk : k < 140) (hj : j < 21) (some : (s.volume.slot (s.heap p) k j).fType ≠ 0) :
      (k = 0 ∧ j = 0) ∨ (k = 0 ∧ j = 1) := by
    have member : (k, j) ∈ s.volume.live (s.heap p) := Volume.mem_live.mpr ⟨hk, hj, some⟩
    rw [new.live, Finset.mem_insert, Finset.mem_singleton, Prod.mk.injEq, Prod.mk.injEq] at member
    exact member
  have first : s.volume.slot (s.heap p) 0 0 = DirEntry.make dot no .directory := by rw [new.slot 0 (by omega)]; rfl
  have second : s.volume.slot (s.heap p) 0 1 = DirEntry.make dotDot parentNo .directory := by
    rw [new.slot 0 (by omega)]; rfl
  have validDot : ValidName dot := ⟨by decide, by decide, by decide⟩
  have validDotDot : ValidName dotDot := ⟨by decide, by decide, by decide⟩
  have nameDot : (s.volume.slot (s.heap p) 0 0).name = dot := by rw [first]; exact DirEntry.name_make validDot _ _
  have nameDotDot : (s.volume.slot (s.heap p) 0 1).name = dotDot := by
    rw [second]; exact DirEntry.name_make validDotDot _ _
  have differ : dot ≠ dotDot := by decide
  have uncounted {k j : Nat} (hk : k < 140) (hj : j < 21) : ¬ (s.volume.slot (s.heap p) k j).Counted := by
    intro counted
    rcases place hk hj counted.1 with ⟨rfl, rfl⟩ | ⟨rfl, rfl⟩
    · exact counted.2.1 nameDot
    · exact counted.2.2 nameDotDot
  refine ⟨⟨⟨fun k _ present => ?_, fun k k' _ _ present same => ?_⟩, fun k _ => ?_, fun k j hk hj dead => ?_,
    fun k j hk hj some => ?_, ?_⟩, new.rest 12 (by omega), first, second, fun k low high present => ?_, ?_⟩
  · obtain rfl := only present
    rw [here]
    exact new.used
  · have first' : k' = 0 := only (same ▸ present)
    rw [only present, first']
  · grind [new.onDisk]
  · grind [new.slot, DirEntry.live_make]
  · grind [DirEntry.named_make]
  · grind
  · exact absurd (new.rest k low) present
  · intro k j _ _ hk hj _ _ counted
    exact absurd counted (uncounted hk hj)

theorem Fs.NewDir.inv (new : s.NewDir p no parentNo) : DirInv p no parentNo
    (fun i => s.volume.bit .block i = true ∧ ¬ s.volume.Reaches (s.heap p) (s.part.sb.dataStartLba.toNat + i))
    (.new no parentNo) s := by
  have dir := new.dirDirect
  have count : (s.volume.live (s.heap p)).card = 2 := by
    rw [new.live]
    rfl
  refine ⟨new.layout, dir, ⟨fun e has => ?_, fun name item listed => ?_⟩, ?_,
    by omega, fun i => ?_, fun i other => other.2⟩
  · obtain ⟨some, k, j, hk, hj, rfl⟩ := has
    have member : (k, j) ∈ s.volume.live (s.heap p) := Volume.mem_live.mpr ⟨hk, hj, some⟩
    rw [new.live, Finset.mem_insert, Finset.mem_singleton, Prod.mk.injEq, Prod.mk.injEq] at member
    rcases member with ⟨rfl, rfl⟩ | ⟨rfl, rfl⟩
    · rw [dir.name_dot, dir.own]
      exact ⟨.directory, rfl, rfl⟩
    · rw [dir.name_dotDot, dir.parent]
      exact ⟨.directory, rfl, rfl⟩
  · unfold Listing.new at listed
    split at listed
    next same =>
      cases listed
      exact ⟨_, ⟨dir.live_dot, 0, 0, by omega, by omega, rfl⟩, dir.name_dot.trans same.symm, by rw [dir.own]; rfl,
        by rw [dir.own]; rfl⟩
    next =>
      split at listed
      next same =>
        cases listed
        exact ⟨_, ⟨dir.live_dotDot, 0, 1, by omega, by omega, rfl⟩, dir.name_dotDot.trans same.symm,
          by rw [dir.parent]; rfl,
          by rw [dir.parent]; rfl⟩
      next => cases listed
  · rw [new.size, count]
    rfl
  · constructor
    · grind
    · rintro (other | ⟨k, hk, present, number⟩)
      · exact other.1
      · obtain ⟨i', place, used⟩ := dir.owns.used k hk present
        have same : i' = i := by
          have := place.2
          omega
        rw [← same]
        exact used

theorem DirInv.add (inv : DirInv p no parentNo others listing s)
    (valid : ValidName name) (kind : fType ≠ .unknown) (absent : listing name = none)
    (fresh : ∀ name' item, listing name' = some item → item.1 ≠ inodeNo)
    (run : syncDirEntry p (DirEntry.make name inodeNo fType) s = .ok (true, s'))
    (limit : (s'.volume.live (s'.heap p)).card ≤ 252) :
    DirInv p no parentNo others (listing.add name (inodeNo, fType)) s' := by
  have live : (DirEntry.make name inodeNo fType).fType ≠ 0 := DirEntry.live_make kind
  have named : (DirEntry.make name inodeNo fType).name = name := DirEntry.name_make valid _ _
  obtain ⟨-, _, same, syncs⟩ := (syncDirEntry_eq_ok inv.layout).mp run
  obtain ⟨-, rfl⟩ := Prod.mk.inj same
  rcases syncs.inserted inv.layout inv.dir.owns with ⟨k, j, direct, -, inserted⟩ | ⟨full, inserted⟩
  · have count := inserted.card_live live
    have reaches := inserted.extended.reaches inv.layout
    have sb := inserted.extended.sb
    refine ⟨inv.layout.congr inserted.extended.geometry,
      inv.dir.insert direct inserted live (DirEntry.named_make valid _ _) ?_ ?_,
      inv.lists.insert valid kind absent inserted, ?_, limit, fun i => ?_, fun i other => ?_⟩
    · grind [inv.lists.sound]
    · intro e has _
      obtain ⟨fType', listed, -⟩ := inv.lists.sound e has
      exact fresh _ _ listed
    · grind [inv.size, inserted.size]
    · rw [inserted.extended.blockBits, inv.bits, sb, reaches, or_assoc]
    · rw [sb, reaches, not_or]
      refine ⟨inv.apart i other, ?_⟩
      -- A new block was free, so it belongs to nobody else.
      rintro ⟨k', hk', new, number⟩
      obtain ⟨i', place, free⟩ := inserted.extended.free k' hk' new
      have same : i' = i := by
        have := place.2
        omega
      have used := (inv.bits i).mpr (.inl other)
      rw [← same, free] at used
      cases used
  · -- With full direct blocks the new entry would be the 253rd.
    have slots := full_card s.volume (s.heap p).direct fun k j low hj => by
      rw [Volume.slot_direct_inode, if_pos low]
      exact full k j low hj
    have count := inserted.card_live live
    omega

theorem DirInv.delete (inv : DirInv p no parentNo others listing s)
    (present : listing name = some (inodeNo, fType)) (counted : name ≠ dot ∧ name ≠ dotDot)
    (run : deleteDirEntry p inodeNo s = .ok (true, s')) : DirInv p no parentNo others (listing.remove inodeNo) s' := by
  have dir := inv.dir
  obtain ⟨_, ⟨some, k, j, hk, hj, rfl⟩, rfl, number, -⟩ := inv.lists.complete name _ present
  have here : (s.volume.slot (s.heap p) k j).Matches inodeNo := ⟨⟨some, counted⟩, number⟩
  have member : (k, j) ∈ s.volume.live (s.heap p) := Volume.mem_live.mpr ⟨hk, hj, some⟩
  have positive : 0 < (s.volume.live (s.heap p)).card := Finset.card_pos.mpr ⟨_, member⟩
  have size := inv.size
  obtain ⟨t, run', deleted⟩ := deleteDirEntry_eq inv.layout dir hk hj here (by omega)
  rw [run, Except.ok.injEq, Prod.mk.injEq] at run'
  obtain ⟨-, rfl⟩ := run'
  have count : (s'.volume.live (s'.heap p)).card = (s.volume.live (s.heap p)).card - 1 := by
    rw [deleted.live_eq, Finset.card_erase_of_mem member]
  have sb : s'.part.sb = s.part.sb := congrArg (·.2.2.1) deleted.geometry
  have reaches := deleted.reaches dir (by omega)
  refine ⟨inv.layout.congr deleted.geometry, dir.delete deleted hk here.1,
    inv.lists.delete dir hk hj here deleted, ?_, ?_,
    fun i => ?_, fun i other => ?_⟩
  · grind [deleted.size, inv.limit]
  · have limit := inv.limit
    omega
  · rw [deleted.blockBits, inv.bits, sb, reaches]
    constructor
    · rintro ⟨other | mine, kept⟩
      · exact .inl other
      · exact .inr ⟨mine, kept⟩
    · rintro (other | ⟨mine, kept⟩)
      · refine ⟨.inl other, fun gone => inv.apart i other ⟨k, by omega, ?_, gone.2⟩⟩
        intro none
        rw [Volume.slot_of_none none] at some
        exact some rfl
      · exact ⟨.inr mine, kept⟩
  · rw [sb, reaches]
    exact fun mine => inv.apart i other mine.1

theorem DirRun.inv {start : Fs} (new : start.NewDir p no parentNo) (run : DirRun p no parentNo start listing s) :
    DirInv p no parentNo (fun i => start.volume.bit .block i = true ∧
      ¬ start.volume.Reaches (start.heap p) (start.part.sb.dataStartLba.toNat + i)) listing s := by
  induction run with
  | new => exact new.inv
  | add before valid kind absent fresh run limit ih => exact ih.add valid kind absent fresh run limit
  | delete before present counted run ih => exact ih.delete present counted run

theorem assertNoBlocks_eq (none : ∀ k, 1 ≤ k → k ≤ 12 → (s.heap p).sector k = 0) :
    assertNoBlocks p s = .ok ((), s) := by
  have step (k : Nat) (t : Fs) (hk : k < 12) (same : t = s) : ∃ t', assertNoBlock p k t = .ok ((), t') ∧ t' = s := by
    subst same
    refine ⟨t, ?_, rfl⟩
    rw [assertNoBlock, get_bind]
    exact run_require_of (none (k + 1) (by omega) (by omega)) t
  obtain ⟨t, run, rfl⟩ := forUpTo_total (I := fun _ t => t = s) rfl step
  exact run

/-- How the directory agrees with the listing, and its blocks with the bitmap. -/
structure DirAgrees (p : Nat) (start : Fs) (listing : Listing) (s : Fs) : Prop where
  search : ∀ name, name ≠ [] → (0 : Byte) ∉ name → ∃ r, searchDirEntry p name s = .ok (r, s) ∧
    (r.map fun e => (e.iNo, e.fType)) = (listing name).map fun item => (item.1, item.2.code)
  size : (s.heap p).iSize.toNat = 24 * (s.volume.live (s.heap p)).card
  inhabited : ∀ k, 1 ≤ k → k ≤ 11 → (s.heap p).sector k ≠ 0 → ∃ j, j < 21 ∧ (s.volume.slot (s.heap p) k j).fType ≠ 0
  noTable : (s.heap p).sector 12 = 0
  /-- The bits are those of the other owners and those of the blocks of the directory. -/
  bits : ∀ i, s.volume.bit .block i = true ↔
    (start.volume.bit .block i = true ∧
      ¬ start.volume.Reaches (start.heap p) (start.part.sb.dataStartLba.toNat + i)) ∨
    s.volume.Reaches (s.heap p) (s.part.sb.dataStartLba.toNat + i)
  empty : (∀ name, name ≠ dot → name ≠ dotDot → listing name = none) →
    dirIsEmpty p s = .ok (true, s) ∧ assertNoBlocks p s = .ok ((), s)

theorem DirInv.live_of_empty (inv : DirInv p no parentNo others listing s)
    (none : ∀ name, name ≠ dot → name ≠ dotDot → listing name = none) :
    s.volume.live (s.heap p) = {(0, 0), (0, 1)} := by
  have dir := inv.dir
  ext ⟨k, j⟩
  rw [Volume.mem_live, Finset.mem_insert, Finset.mem_singleton, Prod.mk.injEq, Prod.mk.injEq]
  constructor
  · rintro ⟨hk, hj, some⟩
    obtain ⟨fType, listed, -⟩ := inv.lists.sound _ ⟨some, k, j, hk, hj, rfl⟩
    by_cases first : (s.volume.slot (s.heap p) k j).name = dot
    · exact .inl (dir.distinct k j 0 0 hk hj (by omega) (by omega) some dir.live_dot (first.trans dir.name_dot.symm))
    · by_cases second : (s.volume.slot (s.heap p) k j).name = dotDot
      · exact .inr (dir.distinct k j 0 1 hk hj (by omega) (by omega) some dir.live_dotDot
          (second.trans dir.name_dotDot.symm))
      · rw [none _ first second] at listed
        cases listed
  grind [dir.live_dot, dir.live_dotDot]

theorem DirInv.search (inv : DirInv p no parentNo others listing s) (some : name ≠ [])
    (plain : (0 : Byte) ∉ name) : ∃ r, searchDirEntry p name s = .ok (r, s) ∧
      (r.map fun e => (e.iNo, e.fType)) = (listing name).map fun item => (item.1, item.2.code) := by
  obtain ⟨r, run, found⟩ := searchDirEntry_eq inv.layout inv.dir.toDirOk some plain
  refine ⟨r, run, ?_⟩
  cases r with
  | none =>
    cases listed : listing name with
    | none => rfl
    | some item =>
      grind [inv.lists.complete]
  | some e =>
    grind [inv.lists.sound]

theorem DirInv.emptied (inv : DirInv p no parentNo others listing s)
    (none : ∀ name, name ≠ dot → name ≠ dotDot → listing name = none) :
    dirIsEmpty p s = .ok (true, s) ∧ assertNoBlocks p s = .ok ((), s) := by
  have live := inv.live_of_empty none
  have size : (s.heap p).iSize = 48 := by
    apply BitVec.eq_of_toNat_eq
    rw [inv.size, live]
    rfl
  constructor
  · unfold dirIsEmpty
    rw [get_bind, size, inv.layout.entrySize]
    rfl
  · refine assertNoBlocks_eq fun k low high => ?_
    by_cases last : k = 12
    · rw [last, inv.dir.noTable]
    · by_contra present
      obtain ⟨j, hj, some⟩ := inv.dir.inhabited k low (by omega) present
      have member : (k, j) ∈ s.volume.live (s.heap p) := Volume.mem_live.mpr ⟨by omega, hj, some⟩
      grind

theorem dirRun_agrees {start : Fs} (new : start.NewDir p no parentNo) (run : DirRun p no parentNo start listing s) :
    DirAgrees p start listing s := by
  have inv := run.inv new
  exact {
    search := fun name some plain => inv.search some plain
    size := inv.size
    inhabited := fun k low high => inv.dir.inhabited k low (by omega)
    noTable := inv.dir.noTable
    bits := inv.bits
    empty := inv.emptied }

end

def newDirInode : Inode :=
  { Inode.blank with iNo := 5, iSize := 48, iSectors := (Vector.replicate 13 0).set 0 613 Inode.zero_lt_sectors }

/-- A small disk with the new directory 5 in block 1; its parent is the root. -/
def newDirFs : Fs := ((blankFs.setBit .block 1 true).setInode 0 newDirInode).putSector 613 (newDirBuf 5 0)

theorem volume_newDirFs : newDirFs.volume = (blankFs.volume.setBit .block 1 true).putBlock 613 (newDirBuf 5 0) := by
  have layout : Layout (blankFs.setBit .block 1 true).part :=
    layout_smallPartition.congr (geometry_setBit blankFs .block 1 true)
  rw [← volume_setBit]
  exact volume_putSector layout (by decide) _

theorem sector_newDirFs (k : Nat) : (newDirFs.heap 0).sector k = if k = 0 then 613 else 0 := by
  have heap : newDirFs.heap 0 = newDirInode := rfl
  grind [Inode.sector, newDirInode]

theorem newDir_newDirFs : newDirFs.NewDir 0 5 0 where
  layout := layout_smallPartition.congr (geometry_setBit blankFs .block 1 true)
  size := by
    unfold newDirFs
    rfl
  first := by
    rw [sector_newDirFs, if_pos rfl]
    decide
  rest k positive := by rw [sector_newDirFs, if_neg (by omega)]
  used := by
    refine ⟨1, ⟨by decide, by rw [sector_newDirFs]; decide⟩, ?_⟩
    rw [volume_newDirFs]
    rfl
  onDisk := by
    rw [sector_newDirFs, if_pos rfl]
    decide
  content := by
    have number : (613 : Word).toNat = 613 := rfl
    rw [sector_newDirFs, if_pos rfl, number, volume_newDirFs]
    simp only [Volume.putBlock, update_self]

theorem dirRun_agrees_add_delete : ∃ s₁ s₂, syncDirEntry 0 (DirEntry.make [0x61] 9 .regular) newDirFs = .ok (true, s₁) ∧
    deleteDirEntry 0 9 s₁ = .ok (true, s₂) ∧
    DirAgrees 0 newDirFs ((Listing.new 5 0).add [0x61] (9, .regular)) s₁ ∧
    DirAgrees 0 newDirFs (((Listing.new 5 0).add [0x61] (9, .regular)).remove 9) s₂ := by
  have new := newDir_newDirFs
  have valid : ValidName [0x61] := ⟨by decide, by decide, by decide⟩
  have slot {j : Nat} (hj : j < 21) : DirEntry.read (sectors newDirFs.disk ((newDirFs.heap 0).sector 0).toNat 1)
      (24 * j) =
      newDirFs.volume.slot (newDirFs.heap 0) 0 j :=
    (new.dirDirect.owns.slot_direct (by omega) new.first j).symm
  have syncs : Syncs 0 (DirEntry.make [0x61] 9 .regular) newDirFs 0 _ := .slot (k := 0) (j := 2)
    (Nat.le_refl _) (by omega) (fun _ _ below => absurd below (Nat.not_lt_zero _)) new.first new.onDisk (by omega)
    (by rw [slot (by omega), new.slot 0 (by omega)]; rfl)
    (fun j' below => by grind [new.dirDirect.live_dot, new.dirDirect.live_dotDot])
  obtain ⟨s₁, run₁⟩ : ∃ s₁, syncDirEntry 0 (DirEntry.make [0x61] 9 .regular) newDirFs = .ok (true, s₁) :=
    ⟨_, (syncDirEntry_eq_ok new.layout).mpr ⟨by rw [new.size]; rfl, _, rfl, syncs⟩⟩
  have live : (DirEntry.make [0x61] 9 .regular).fType ≠ 0 := DirEntry.live_make (by decide)
  have limit : (s₁.volume.live (s₁.heap 0)).card ≤ 252 := by
    have more := card_live_syncDirEntry new.layout new.dirDirect.owns live run₁
    rw [new.live] at more
    exact Nat.le_trans more (by decide)
  have fresh (name : List Byte) (item : Word × FileType) (listed : Listing.new 5 0 name = some item) : item.1 ≠ 9 :=
    by grind [Listing.new]
  have start : DirRun 0 5 0 newDirFs (.new 5 0) newDirFs := .new
  have added := start.add valid (by decide) (by decide) fresh run₁ limit
  have inv₁ := added.inv new
  obtain ⟨e, ⟨some, k, j, hk, hj, rfl⟩, named, number, -⟩ :=
    inv₁.lists.complete [0x61] (9, .regular) (update_self _ _ _)
  have here : (s₁.volume.slot (s₁.heap 0) k j).Matches 9 := ⟨⟨some, by rw [named]; decide⟩, number⟩
  have big : 24 ≤ (s₁.heap 0).iSize.toNat := by
    have positive : 0 < (s₁.volume.live (s₁.heap 0)).card :=
      Finset.card_pos.mpr ⟨(k, j), Volume.mem_live.mpr ⟨hk, hj, some⟩⟩
    rw [inv₁.size]
    omega
  obtain ⟨s₂, run₂, -⟩ := deleteDirEntry_eq inv₁.layout inv₁.dir hk hj here big
  have deleted := added.delete (update_self _ _ _) (by decide) run₂
  exact ⟨s₁, s₂, run₁, run₂, dirRun_agrees new added, dirRun_agrees new deleted⟩

end LaiMiniOs
