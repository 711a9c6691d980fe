import LaiMiniOs.Fs.RoundTrip
import LaiMiniOs.Fs.Slots

/-! An open file as a list of bytes and a position.

`sys_lseek` to a place outside the file leaves the position as it is, and `sys_read` returns what is
left when the file ends early.
-/

set_option autoImplicit false

namespace LaiMiniOs
open Foundation Prog

def seekSet (data : List Byte) (pos : Nat) (offset : Word) : Nat :=
  if offset.toNat < data.length then offset.toNat else pos

def readAt (data : List Byte) (pos count : Nat) : List Byte := (data.drop pos).take count

theorem length_readAt (data : List Byte) (pos count : Nat) :
    (readAt data pos count).length = min count (data.length - pos) := by
  rw [readAt, List.length_take, List.length_drop]

structure Fs.Reading (s : Fs) (fd g p has : Nat) (data : List Byte) (pos : Nat) : Prop where
  opened : 3 ≤ fd
  slot : s.fdTable fd = some g
  plain : (s.fileTable g).fdFlag ≠ pipeFlag
  holds : s.FileHolds g p has data
  ready : s.FileReady (s.heap p) has
  place : (s.fileTable g).fdPos.toNat = pos
  inside : pos ≤ data.length
  small : data.length < 140 * 512

namespace Fs.Reading

variable {s t : Fs} {fd g p has pos : Nat} {data : List Byte}

theorem move (reading : s.Reading fd g p has data pos) {place : Word} (inside : place.toNat ≤ data.length) :
    (s.setFile g { s.fileTable g with fdPos := place }).Reading fd g p has data place.toNat where
  opened := reading.opened
  slot := reading.slot
  plain := by simpa [Fs.setFile] using reading.plain
  holds := ⟨reading.holds.layout, reading.holds.root,
    by simpa [Fs.setFile] using reading.holds.held, ⟨reading.holds.owns.used, reading.holds.owns.apart⟩,
    ⟨reading.holds.shape.blocks, reading.holds.shape.size⟩, reading.holds.size, reading.holds.content⟩
  ready := ⟨⟨reading.ready.shape.blocks, reading.ready.shape.size⟩,
    ⟨reading.ready.owns.used, reading.ready.owns.apart⟩, reading.ready.onDisk, reading.ready.noTable⟩
  place := by simp [Fs.setFile]
  inside := inside
  small := reading.small

theorem sysLseek (reading : s.Reading fd g p has data pos) {offset : Word} {r : Int}
    (run : sysLseek fd offset .seekSet s = .ok (r, t)) :
    t.Reading fd g p has data (seekSet data pos offset) := by
  rw [LaiMiniOs.sysLseek, if_neg (by omega)] at run
  obtain ⟨g', s₁, find, run⟩ := bind_eq_ok.mp run
  obtain ⟨-, slot, -, rfl⟩ := fdLocal2Global_eq_ok.mp find
  obtain rfl := Option.some.inj (reading.slot.symm.trans slot)
  rw [get_bind] at run
  simp only [reading.holds.held] at run
  have size := reading.holds.size
  have small := reading.small
  have bound := offset.isLt
  -- The sizes are small, so the signed comparison is the unsigned one.
  have outside : (offset.toInt < 0 ∨ ((s.heap p).iSize - 1).toInt < offset.toInt) ↔ ¬offset.toNat < data.length :=
    by grind
  rw [seekSet]
  by_cases within : offset.toNat < data.length
  · rw [if_neg (outside.not.mpr (not_not.mpr within)), set_bind] at run
    cases run
    rw [if_pos within]
    simpa only [reading.holds.held] using reading.move (Nat.le_of_lt within)
  · rw [if_pos (outside.mpr within)] at run
    cases run
    rw [if_neg within]
    exact reading

theorem fileRead (reading : s.Reading fd g p has data pos) {count : Word} {r : Option (List Byte)}
    (run : fileRead g count s = .ok (r, t)) :
    r.getD [] = readAt data pos count.toNat ∧
      t.Reading fd g p has data (pos + (readAt data pos count.toNat).length) := by
  have inside := reading.inside
  have small := reading.small
  by_cases none : count = 0
  · subst none
    unfold LaiMiniOs.fileRead at run
    rw [get_bind] at run
    simp only [reading.holds.held] at run
    rw [get_bind, get_bind] at run
    have zero : (0 : Word).toNat = 0 := rfl
    have same : (s.fileTable g).fdPos + 0 = (s.fileTable g).fdPos := BitVec.add_zero _
    rw [if_neg (by rw [same, reading.place, reading.holds.size]; omega)] at run
    obtain ⟨-, read⟩ := require_bind_eq_ok.mp run
    obtain ⟨blocks, s₁, collect, loop⟩ := bind_eq_ok.mp read
    obtain rfl := collectForRead_state collect
    rw [bind_of_ok (readLoop_done (Nat.le_of_eq zero))] at loop
    cases loop
    rw [zero, readAt, List.take_zero]
    exact ⟨rfl, reading⟩
  · have positive : 0 < count.toNat := Nat.pos_of_ne_zero fun zero => none (BitVec.eq_of_toNat_eq zero)
    obtain ⟨-, ⟨done, same⟩ | ⟨below, -, same⟩⟩ :=
      (fileRead_eq_ok reading.holds.held reading.ready.readable reading.holds.size reading.place inside small
        positive).mp run
    · grind [readAt]
    · obtain ⟨rfl, rfl⟩ := Prod.mk.inj same
      have chunk : s.dataAt (s.heap p) pos (min count.toNat (data.length - pos)) = readAt data pos count.toNat := by
        grind [reading.holds.dataAt, readAt, List.take_eq_take_iff]
      refine ⟨chunk, ?_⟩
      have place : ((s.fileTable g).fdPos + BitVec.ofNat 32 (min count.toNat (data.length - pos))).toNat =
          pos + (readAt data pos count.toNat).length := by
        rw [BitVec.toNat_add, BitVec.toNat_ofNat, reading.place, length_readAt]
        omega
      rw [← place]
      exact reading.move (by rw [place, length_readAt]; omega)

theorem sysRead (reading : s.Reading fd g p has data pos) {count : Word} {r : Option (List Byte)}
    (run : sysRead fd count s = .ok (r, t)) :
    r.getD [] = readAt data pos count.toNat ∧
      t.Reading fd g p has data (pos + (readAt data pos count.toNat).length) := by
  have user := reading.opened
  rw [LaiMiniOs.sysRead, if_neg (by omega)] at run
  obtain ⟨pipe, s₁, check, run⟩ := bind_eq_ok.mp run
  obtain ⟨rfl, -, g', slot, -, rfl⟩ := isPipe_eq_ok check
  obtain rfl := Option.some.inj (reading.slot.symm.trans slot)
  rw [if_neg (not_or.mpr ⟨fun same => reading.plain (eq_of_beq same), by omega⟩)] at run
  obtain ⟨g', s₂, find, run⟩ := bind_eq_ok.mp run
  grind [fdLocal2Global_eq_ok, reading.fileRead]

end Fs.Reading

end LaiMiniOs
