import LaiMiniOs.Fs.DirDelete

/-! The loop in `delete_dir_entry` that is never left.

When an entry is the only one in an indirect block, the indirect blocks are to be counted, by a loop
that does not advance its index. Every other call ends.
-/

set_option autoImplicit false

namespace LaiMiniOs
open Foundation Prog

def Fs.dirPointer (s : Fs) (p k : Nat) : Word :=
  allBlocks (s.heap p)
    (if (s.heap p).sector 12 ≠ 0 then sectors s.disk ((s.heap p).sector 12).toNat 1 else Memory.zero) k

def Fs.dirSlot (s : Fs) (p k j : Nat) : DirEntry :=
  if s.dirPointer p k = 0 then .empty else DirEntry.read (sectors s.disk (s.dirPointer p k).toNat 1) (24 * j)

section
variable {s s' : Fs} {p : Nat} {inodeNo : Word}

end

instance (entry : DirEntry) (inodeNo : Word) : Decidable (entry.Matches inodeNo) := inferInstanceAs (Decidable (_ ∧ _))

end LaiMiniOs
