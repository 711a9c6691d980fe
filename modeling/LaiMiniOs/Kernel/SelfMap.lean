import Mathlib.Tactic.IntervalCases
import LaiMiniOs.Foundation.Memory

/-! The page tables as the kernel reaches them, through the last entry of the directory: `pte_ptr`, `pde_ptr` and
`addr_v2p` of `kernel/memory.c` against the walk of the hardware. -/

set_option autoImplicit false

namespace LaiMiniOs.SelfMap
open Foundation

def Present (entry : Word) : Prop := entry &&& 1#32 ≠ 0#32

instance (entry : Word) : Decidable (Present entry) := inferInstanceAs (Decidable (_ ≠ _))

def frame (entry : Word) : Word := entry &&& 0xfffff000#32

/-- The walk of the hardware from the directory in the frame of `cr3`; `memory` is read by physical address. -/
def walk (memory : Word → Word) (cr3 vaddr : Word) : Option Word :=
  let pde := memory (frame cr3 + (vaddr >>> 22) * 4#32)
  let pte := memory (frame pde + (vaddr >>> 12 &&& 1023#32) * 4#32)
  if Present pde ∧ Present pte then some (frame pte + (vaddr &&& 0xfff#32)) else none

def pdeIdx (vaddr : Word) : Word := (vaddr &&& 0xffc00000#32) >>> 22

def pteIdx (vaddr : Word) : Word := (vaddr &&& 0x003ff000#32) >>> 12

def ptePtr (vaddr : Word) : Word := 0xffc00000#32 + ((vaddr &&& 0xffc00000#32) >>> 10) + pteIdx vaddr * 4#32

def pdePtr (vaddr : Word) : Word := 0xfffff000#32 + pdeIdx vaddr * 4#32

def addrV2p (memory : Word → Word) (cr3 vaddr : Word) : Option Word :=
  (walk memory cr3 (ptePtr vaddr)).map fun pte => (memory pte &&& 0xfffff000#32) + (vaddr &&& 0xfff#32)

variable (v : Word)

theorem toNat_high : (v &&& 0xffc00000#32).toNat = v.toNat / 0x400000 * 0x400000 := by
  have shift : v &&& 0xffc00000#32 = v >>> 22 <<< 22 := by
    apply BitVec.eq_of_getLsbD_eq
    intro k hk
    interval_cases k <;> simp
  rw [shift, BitVec.toNat_shiftLeft, BitVec.toNat_ushiftRight, Nat.shiftLeft_eq, Nat.shiftRight_eq_div_pow]
  have := v.isLt
  omega

theorem toNat_table : (v &&& 0x003ff000#32).toNat = v.toNat / 0x1000 % 1024 * 0x1000 := by
  have shift : v &&& 0x003ff000#32 = v <<< 10 >>> 22 <<< 12 := by
    apply BitVec.eq_of_getLsbD_eq
    intro k hk
    interval_cases k <;> simp
  rw [shift, BitVec.toNat_shiftLeft, BitVec.toNat_ushiftRight, BitVec.toNat_shiftLeft, Nat.shiftLeft_eq,
    Nat.shiftLeft_eq, Nat.shiftRight_eq_div_pow]
  have := v.isLt
  omega

theorem toNat_index : (v &&& 1023#32).toNat = v.toNat % 1024 :=
  (BitVec.toNat_and _ _).trans (Nat.and_two_pow_sub_one_eq_mod _ 10)

theorem toNat_offset : (v &&& 0xfff#32).toNat = v.toNat % 4096 :=
  (BitVec.toNat_and _ _).trans (Nat.and_two_pow_sub_one_eq_mod _ 12)

theorem toNat_pteIdx : (pteIdx v).toNat = v.toNat / 0x1000 % 1024 := by
  rw [pteIdx, BitVec.toNat_ushiftRight, toNat_table, Nat.shiftRight_eq_div_pow]
  omega

theorem toNat_ptePtr : (ptePtr v).toNat = 0xffc00000 + v.toNat / 0x400000 * 0x1000 + v.toNat / 0x1000 % 1024 * 4 := by
  have := v.isLt
  rw [ptePtr, BitVec.toNat_add, BitVec.toNat_add, BitVec.toNat_mul, toNat_pteIdx, BitVec.toNat_ushiftRight,
    toNat_high, Nat.shiftRight_eq_div_pow]
  simp only [BitVec.toNat_ofNat]
  omega

theorem toNat_pdePtr : (pdePtr v).toNat = 0xfffff000 + v.toNat / 0x400000 * 4 := by
  have := v.isLt
  rw [pdePtr, pdeIdx, BitVec.toNat_add, BitVec.toNat_mul, BitVec.toNat_ushiftRight, toNat_high,
    Nat.shiftRight_eq_div_pow]
  simp only [BitVec.toNat_ofNat]
  omega

variable {memory : Word → Word} {cr3 : Word}

/-- What the walk of an address in the last 4 MiB comes to, by the fields of the address. -/
theorem walk_window {w : Word} (self : Present (memory (frame cr3 + 1023#32 * 4#32)))
    (loops : frame (memory (frame cr3 + 1023#32 * 4#32)) = frame cr3)
    (top : 0xffc00000 ≤ w.toNat) {i j : Word} (dir : w.toNat / 0x1000 % 1024 = i.toNat)
    (slot : w.toNat % 4096 = 4 * j.toNat)
    (present : Present (memory (frame cr3 + i * 4#32))) :
    walk memory cr3 w = some (frame (memory (frame cr3 + i * 4#32)) + j * 4#32) := by
  have := w.isLt
  have first : w >>> 22 = 1023#32 := by
    apply BitVec.eq_of_toNat_eq
    rw [BitVec.toNat_ushiftRight, Nat.shiftRight_eq_div_pow]
    simp only [BitVec.toNat_ofNat]
    omega
  have second : w >>> 12 &&& 1023#32 = i := by
    apply BitVec.eq_of_toNat_eq
    rw [toNat_index, BitVec.toNat_ushiftRight, Nat.shiftRight_eq_div_pow]
    omega
  have third : w &&& 0xfff#32 = j * 4#32 := by
    apply BitVec.eq_of_toNat_eq
    rw [toNat_offset, BitVec.toNat_mul]
    simp only [BitVec.toNat_ofNat]
    omega
  simp only [walk, first, loops, second, third]
  exact if_pos ⟨self, present⟩

/-- Through a last entry that names the directory itself, `pde_ptr` and `pte_ptr` reach the entries that
the hardware uses, `addr_v2p` is its translation, and the entries of one table are next to each other.
-/
theorem selfMap_exact (memory : Word → Word) (cr3 v : Word) (self : Present (memory (frame cr3 + 1023#32 * 4#32)))
    (loops : frame (memory (frame cr3 + 1023#32 * 4#32)) = frame cr3) :
    walk memory cr3 (pdePtr v) = some (frame cr3 + (v >>> 22) * 4#32) ∧
    (Present (memory (frame cr3 + (v >>> 22) * 4#32)) →
      walk memory cr3 (ptePtr v) =
        some (frame (memory (frame cr3 + (v >>> 22) * 4#32)) + (v >>> 12 &&& 1023#32) * 4#32)) ∧
    (∀ p, walk memory cr3 v = some p → addrV2p memory cr3 v = some p) ∧
    ∀ i j : Nat, i < 1024 → j < 1024 → ptePtr (BitVec.ofNat 32 (i * 0x400000)) + BitVec.ofNat 32 (4 * j) =
      ptePtr (BitVec.ofNat 32 (i * 0x400000 + j * 0x1000)) := by
  have bound := v.isLt
  have dir : (v >>> 22).toNat = v.toNat / 0x400000 := by rw [BitVec.toNat_ushiftRight, Nat.shiftRight_eq_div_pow]
  have table : (v >>> 12 &&& 1023#32).toNat = v.toNat / 0x1000 % 1024 := by
    rw [toNat_index, BitVec.toNat_ushiftRight, Nat.shiftRight_eq_div_pow]
  have entry : Present (memory (frame cr3 + (v >>> 22) * 4#32)) →
      walk memory cr3 (ptePtr v) =
        some (frame (memory (frame cr3 + (v >>> 22) * 4#32)) + (v >>> 12 &&& 1023#32) * 4#32) := by
    have := toNat_ptePtr v
    exact walk_window self loops (by omega) (by omega) (by omega)
  refine ⟨?_, entry, fun p mapped => ?_, fun i j hi hj => ?_⟩
  · have := toNat_pdePtr v
    rw [walk_window self loops (by omega) (show _ = (1023#32).toNat by simp only [BitVec.toNat_ofNat]; omega)
      (show _ = 4 * (v >>> 22).toNat by omega) self, loops]
  · simp only [walk] at mapped
    split at mapped
    · next present =>
      rw [addrV2p, entry present.1, Option.map_some]
      exact mapped
    · cases mapped
  · apply BitVec.eq_of_toNat_eq
    rw [BitVec.toNat_add, toNat_ptePtr, toNat_ptePtr]
    simp only [BitVec.toNat_ofNat]
    omega

/-- A directory in frame 1 with the table in frame 2 for the page in frame 5. -/
def onePage (a : Word) : Word :=
  if a = 0x1ffc#32 then 0x1001#32 else if a = 0x1080#32 then 0x2001#32 else if a = 0x2120#32 then 0x5001#32 else 0#32

theorem selfMap_exact_page : walk onePage 0x1000#32 (pdePtr 0x8048004#32) = some 0x1080#32 ∧
    walk onePage 0x1000#32 (ptePtr 0x8048004#32) = some 0x2120#32 ∧
      addrV2p onePage 0x1000#32 0x8048004#32 = some 0x5004#32 := by
  obtain ⟨dir, table, address, -⟩ := selfMap_exact onePage 0x1000#32 0x8048004#32 (by decide) (by decide)
  exact ⟨dir, table (by decide), address _ (by decide)⟩

end LaiMiniOs.SelfMap
