import Mathlib.Algebra.GroupWithZero.Nat
import LaiMiniOs.Fs.RoundTrip

/-! Reading a file in pieces.

A read changes nothing but the position of the file, so a run of reads is a walk along the
data: however the count is cut, the pieces are the bytes that one read returns.
-/

set_option autoImplicit false

namespace LaiMiniOs
open Foundation Prog

def EndAdmitted (total pos count : Nat) : Prop := min total (pos + count) < 139 * 512

instance (total pos count : Nat) : Decidable (EndAdmitted total pos count) := inferInstanceAs (Decidable (_ < _))

def delivered (results : List (Option (List Byte))) : List Byte := (results.map fun r => r.getD []).flatten

section
variable {s : Fs}

theorem dataAt_add (inode : Inode) (pos m n : Nat) :
    s.dataAt inode pos (m + n) = s.dataAt inode pos m ++ s.dataAt inode (pos + m) n := by
  simp [Fs.dataAt, List.range_add, Function.comp_def, Nat.add_assoc]

theorem length_dataAt (inode : Inode) (pos n : Nat) : (s.dataAt inode pos n).length = n := by
  simp [Fs.dataAt]

theorem Fs.FileReadable.seekBy {fdIdx p has n : Nat} (ready : s.FileReadable (s.heap p) has) :
    (s.seekBy fdIdx n).FileReadable ((s.seekBy fdIdx n).heap p) has :=
  ⟨⟨ready.shape.blocks, ready.shape.size⟩, ready.inArea, ready.onDisk⟩

structure Fs.ReadsAt (s : Fs) (fdIdx p has total pos : Nat) : Prop where
  held : (s.fileTable fdIdx).fdInode = some p
  ready : s.FileReadable (s.heap p) has
  length : (s.heap p).iSize.toNat = total
  place : (s.fileTable fdIdx).fdPos.toNat = pos
  inside : pos ≤ total

theorem Fs.ReadsAt.seekBy {fdIdx p has total pos n : Nat} (reads : s.ReadsAt fdIdx p has total pos)
    (below : pos + n ≤ total) : (s.seekBy fdIdx n).ReadsAt fdIdx p has total (pos + n) where
  held := by rw [fdInode_seekBy, reads.held]
  ready := reads.ready.seekBy
  length := reads.length
  place := by
    have bound := (s.heap p).iSize.isLt
    grind [reads.length, fdPos_seekBy, reads.place]
  inside := below

theorem fileRead_eq {fdIdx p has total pos : Nat} {count : Word} (reads : s.ReadsAt fdIdx p has total pos)
    (wraps : pos + count.toNat < 2 ^ 32)
    (admitted : (0 < count.toNat ∧ pos = total) ∨ EndAdmitted total pos count.toNat) :
    ∃ result, fileRead fdIdx count s = .ok (result, s.seekBy fdIdx (min count.toNat (total - pos))) ∧
      (result = none ↔ 0 < count.toNat ∧ pos = total) ∧
      result.getD [] = s.dataAt (s.heap p) pos (min count.toNat (total - pos)) := by
  have inside := reads.inside
  obtain ⟨size, cut, run⟩ := fileRead_cut reads.held reads.length reads.place inside wraps
  rw [run]
  by_cases done : 0 < count.toNat ∧ pos = total
  · have nothing : min count.toNat (total - pos) = 0 := by omega
    rw [if_pos done, nothing, seekBy_zero]
    exact ⟨none, rfl, iff_of_true rfl done, rfl⟩
  · have limit := admitted.resolve_left done
    have below := reads.ready.below_of_le reads.length (by omega : pos + min count.toNat (total - pos) ≤ total)
    unfold EndAdmitted at limit
    rw [if_neg done]
    exact ⟨_, (readFrom_eq_ok reads.ready reads.place cut below (by omega)).mpr ⟨by omega, rfl⟩,
      iff_of_false nofun done, rfl⟩

theorem readAll_pieces {fdIdx p has total pos count : Nat} {parts : List Word}
    (reads : s.ReadsAt fdIdx p has total pos) (sum : (parts.map BitVec.toNat).sum = count)
    (wraps : pos + count < 2 ^ 32) (admitted : pos = total ∨ EndAdmitted total pos count)
    (zero : 0 ∈ parts → EndAdmitted total pos count) :
    ∃ results, readAll fdIdx parts s = .ok (results, s.seekBy fdIdx (min count (total - pos))) ∧
      delivered results = s.dataAt (s.heap p) pos (min count (total - pos)) := by
  -- Each piece leaves the file at the offset of the next.
  induction parts generalizing s pos count with
  | nil =>
    obtain rfl : 0 = count := sum
    rw [Nat.zero_min, seekBy_zero]
    exact ⟨[], rfl, rfl⟩
  | cons part rest ih =>
    rw [List.map_cons, List.sum_cons] at sum
    have inside := reads.inside
    generalize left : (rest.map BitVec.toNat).sum = more at sum
    unfold EndAdmitted at admitted zero
    have here : (0 < part.toNat ∧ pos = total) ∨ EndAdmitted total pos part.toNat := by
      unfold EndAdmitted
      by_cases none : part = 0
      · have limit := zero (none ▸ List.mem_cons_self)
        omega
      · have positive : part.toNat ≠ 0 := fun h => none (BitVec.eq_of_toNat_eq h)
        omega
    obtain ⟨result, first, -, piece⟩ := fileRead_eq reads (by omega) here
    generalize moved : min part.toNat (total - pos) = n at first piece
    have later : pos + n = total ∨ EndAdmitted total (pos + n) more := by
      unfold EndAdmitted
      omega
    have zeros (member : 0 ∈ rest) : EndAdmitted total (pos + n) more := by
      have limit := zero (List.mem_cons_of_mem _ member)
      unfold EndAdmitted
      omega
    obtain ⟨results, run, bytes⟩ := ih (reads.seekBy (by omega : pos + n ≤ total)) left (by omega) later zeros
    have whole : n + min more (total - (pos + n)) = min count (total - pos) := by omega
    refine ⟨result :: results, ?_, ?_⟩
    · rw [readAll, bind_of_ok first, bind_of_ok run, seekBy_seekBy, whole]
      rfl
    · calc delivered (result :: results)
        _ = result.getD [] ++ delivered results := rfl
        _ = s.dataAt (s.heap p) pos n ++ s.dataAt (s.heap p) (pos + n) (min more (total - (pos + n))) := by
          rw [piece, bytes]
          rfl
        _ = s.dataAt (s.heap p) pos (min count (total - pos)) := by rw [← dataAt_add, whole]

/-- A read returns `-1` exactly at the end of the file and otherwise the bytes that are there,
and any pieces of it deliver the same bytes and leave the same state. -/
theorem fileRead_pieces {fdIdx p has total pos : Nat} {count : Word} (reads : s.ReadsAt fdIdx p has total pos)
    (wraps : pos + count.toNat < 2 ^ 32)
    (admitted : (0 < count.toNat ∧ pos = total) ∨ EndAdmitted total pos count.toNat) :
    ∃ result, fileRead fdIdx count s = .ok (result, s.seekBy fdIdx (min count.toNat (total - pos))) ∧
      (result = none ↔ 0 < count.toNat ∧ pos = total) ∧
      (∀ bytes, result = some bytes → bytes = s.dataAt (s.heap p) pos (min count.toNat (total - pos)) ∧
        bytes.length = min count.toNat (total - pos)) ∧
      ∀ parts : List Word, (parts.map BitVec.toNat).sum = count.toNat →
        (0 ∈ parts → EndAdmitted total pos count.toNat) →
        ∃ results, readAll fdIdx parts s = .ok (results, s.seekBy fdIdx (min count.toNat (total - pos))) ∧
          delivered results = result.getD [] := by
  obtain ⟨result, run, fails, piece⟩ := fileRead_eq reads wraps admitted
  refine ⟨result, run, fails, ?_, ?_⟩
  · rintro bytes rfl
    obtain rfl : bytes = s.dataAt (s.heap p) pos (min count.toNat (total - pos)) := piece
    exact ⟨rfl, length_dataAt _ _ _⟩
  · intro parts sum zero
    obtain ⟨results, pieces, bytes⟩ := readAll_pieces reads sum wraps (admitted.imp_left And.right) zero
    exact ⟨results, pieces, bytes.trans piece.symm⟩

end

def shortFileFs : Fs := newFileFs.setInode 0 { (newFileFs.heap 0).setSector 0 613 with iSize := 3 }

theorem pointer_shortFileFs (k : Nat) :
    shortFileFs.volume.pointer (shortFileFs.heap 0) k = if k = 0 then 613 else 0 := by
  have sector (j : Nat) : (shortFileFs.heap 0).sector j = if j = 0 then 613 else 0 := by
    have same : (shortFileFs.heap 0).sector j = ((newFileFs.heap 0).setSector 0 613).sector j := rfl
    have empty : (newFileFs.heap 0).sector j = 0 := sector_blank j
    rw [same, Inode.sector_setSector]
    by_cases first : j = 0
    · simp [first]
    · simp [first, empty]
  grind [Volume.pointer_direct, Volume.pointer_of_no_table]

theorem readsAt_shortFileFs : shortFileFs.ReadsAt 3 0 1 3 0 where
  held := rfl
  ready := by
    refine ⟨⟨fun k _ => ?_, .inr rfl⟩, fun k _ => ?_, fun k _ => ?_⟩ <;> rw [pointer_shortFileFs]
    · by_cases first : k = 0 <;> simp [first]
    · by_cases first : k = 0 <;> simp [first]
      decide
    · by_cases first : k = 0 <;> simp [first, maxLba]
  length := rfl
  place := rfl
  inside := by decide

theorem fileRead_pieces_three :
    shortFileFs.ReadsAt 3 0 1 3 0 ∧ ∃ result results,
      fileRead 3 5 shortFileFs = .ok (result, shortFileFs.seekBy 3 3) ∧
      readAll 3 [2, 2, 1] shortFileFs = .ok (results, shortFileFs.seekBy 3 3) ∧ delivered results = result.getD [] := by
  obtain ⟨result, run, -, -, pieces⟩ := fileRead_pieces readsAt_shortFileFs
    (by decide : 0 + (5 : Word).toNat < 2 ^ 32) (.inr (by decide))
  obtain ⟨results, reads, bytes⟩ := pieces [2, 2, 1] (by decide) (by decide)
  exact ⟨readsAt_shortFileFs, result, results, run, reads, bytes⟩

end LaiMiniOs
