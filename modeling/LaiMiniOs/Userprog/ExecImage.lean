import LaiMiniOs.Userprog.Exec
import LaiMiniOs.Userprog.ForkProcess

/-! What a program that was loaded finds in memory.

`segment_load` gets the pages of the bytes that are in the file and reads these bytes. It does not
look at `p_memsz`, nor at what `sys_lseek` and `sys_read` return. So the image in memory is the one
that the file describes when there is nothing behind the bytes of the file, all of them are there,
and no segment is loaded over another.
-/

set_option autoImplicit false

namespace LaiMiniOs
open Foundation Prog Function Paging

def Spaces.byteAt (s : Spaces) (a : Nat) : Byte := s.frames (s.paging.pte (a / pgSize)).frame (a % pgSize)

def elfHeader (data : List Byte) : Elf32Ehdr := .ofBytes (readAt data 0 52)

def progHeader (data : List Byte) (k : Nat) : Elf32Phdr :=
  .ofBytes (readAt data ((elfHeader data).ePhoff.toNat + 32 * k) 32)

/-- The segment is in memory: its bytes from the file, and zeros up to its size. -/
structure Spaces.Shows (s : Spaces) (data : List Byte) (header : Elf32Phdr) : Prop where
  mapped : ∀ i < header.pMemsz.toNat, s.paging.Present ((header.pVaddr.toNat + i) / pgSize)
  bytes : ∀ i < header.pFilesz.toNat, data[header.pOffset.toNat + i]? = some (s.byteAt (header.pVaddr.toNat + i))
  zeros : ∀ i, header.pFilesz.toNat ≤ i → i < header.pMemsz.toNat → s.byteAt (header.pVaddr.toNat + i) = 0

namespace Spaces.UserSpace

variable {s : Spaces}

end Spaces.UserSpace

section
variable {s t : Loading} {fd g p has pos : Nat} {data : List Byte}

def Loading.missing (s : Loading) (filesz vaddr : Word) : List Nat :=
  (List.range' (vaddr.toNat / pgSize) (occupyPages filesz vaddr).toNat).filter fun q => ¬s.spaces.paging.Present q

end

end LaiMiniOs
