import Mathlib.Data.List.Nodup
import LaiMiniOs.Kernel.Heap

/-! The arenas of a heap and what its operations do to them.

A use of a page says which arena starts there. The live blocks are given by their addresses, with the
size that was asked for.
-/

set_option autoImplicit false

namespace LaiMiniOs
open Foundation Prog Function

variable {q d idx p n size : Nat}

theorem blockSize_pos (d : Nat) : 0 < blockSize d := Nat.mul_pos (by decide) (Nat.pow_pos (by decide))

theorem arena2block_le (page : Nat) (inside : idx < blocksPerArena d) :
    arena2block page d idx + blockSize d ≤ (page + 1) * pgSize := by
  have room : (idx + 1) * blockSize d ≤ pgSize - arenaSize :=
    (Nat.mul_le_mul_right _ inside).trans (Nat.div_mul_le_self _ _)
  grind [arena2block, pgSize, arenaSize]

theorem block2arena_arena2block (page : Nat) (inside : idx < blocksPerArena d) :
    block2arena (arena2block page d idx) = page := by
  have last := arena2block_le page inside
  grind [blockSize_pos, block2arena, arena2block, pgSize]

theorem arena2block_disjoint (page d : Nat) {idx' : Nat} (less : idx < idx') :
    arena2block page d idx + blockSize d ≤ arena2block page d idx' := by
  have apart : (idx + 1) * blockSize d ≤ idx' * blockSize d := Nat.mul_le_mul_right _ less
  rw [Nat.add_mul, Nat.one_mul] at apart
  simp only [arena2block]
  omega

theorem arena2block_injective {page idx' : Nat} (same : arena2block page d idx = arena2block page d idx') :
    idx = idx' := by
  have size := blockSize_pos d
  rcases Nat.lt_trichotomy idx idx' with less | eq | less
  · have := arena2block_disjoint page d less
    omega
  · exact eq
  · have := arena2block_disjoint page d less
    omega

theorem update_none_eq_some {A : Type} {f : Nat → Option A} {a : A} : update f q none p = some a ↔ p ≠ q ∧
    f p = some a := by
  by_cases same : p = q <;> simp [same]

theorem update_some_eq_some {A : Type} {f : Nat → Option A} {a b : A} : update f q (some a) p = some b ↔ p = q ∧
    b = a ∨ p ≠ q ∧ f p = some b := by
  by_cases same : p = q <;> simp [same, eq_comm]

/-- What starts at a page: an arena of blocks of a descriptor, or a large allocation of some pages. -/
inductive ArenaUse where
  | small (desc : Nat × Nat)
  | large (pages : Nat)

def ArenaUse.span : ArenaUse → Nat
  | small _ => 1
  | large n => n

def freeBlocks (live : Nat → Option Nat) (page d : Nat) : Finset Nat :=
  (Finset.range (blocksPerArena d)).filter fun idx => live (arena2block page d idx) = none

section
variable {live : Nat → Option Nat} {page d idx : Nat}

theorem mem_freeBlocks : idx ∈ freeBlocks live page d ↔ idx < blocksPerArena d ∧
    live (arena2block page d idx) = none := by
  rw [freeBlocks, Finset.mem_filter, Finset.mem_range]

theorem freeBlocks_update_of_ne {b : Nat} (other : block2arena b ≠ page) (value : Option Nat) :
    freeBlocks (update live b value) page d = freeBlocks live page d := by
  ext i
  rw [mem_freeBlocks, mem_freeBlocks]
  refine and_congr_right fun inside => ?_
  have apart : arena2block page d i ≠ b := fun same => other (same ▸ block2arena_arena2block page inside)
  rw [update_of_ne apart]

theorem freeBlocks_take (live : Nat → Option Nat) (page d idx size : Nat) :
    freeBlocks (update live (arena2block page d idx) (some size)) page d = (freeBlocks live page d).erase idx := by
  ext i
  rw [Finset.mem_erase, mem_freeBlocks, mem_freeBlocks]
  by_cases same : i = idx
  · simp [same]
  · have apart : arena2block page d i ≠ arena2block page d idx := fun eq => same (arena2block_injective eq)
    simp [same, update_of_ne apart]

theorem freeBlocks_give (inside : idx < blocksPerArena d) :
    freeBlocks (update live (arena2block page d idx) none) page d = insert idx (freeBlocks live page d) := by
  ext i
  rw [Finset.mem_insert, mem_freeBlocks, mem_freeBlocks]
  by_cases same : i = idx
  · simp [same, inside]
  · have apart : arena2block page d i ≠ arena2block page d idx := fun eq => same (arena2block_injective eq)
    simp [same, update_of_ne apart]

end

/-- Where the arenas are: the pages that the task had before are `base`, and the arenas share the
others. -/
structure Heap.Layout (s : Heap) (base : Nat → Prop) (arenas : Nat → Option ArenaUse) : Prop where
  span : ∀ p use, arenas p = some use → 0 < use.span
  pages : ∀ p use, arenas p = some use → ∀ k, k < use.span → s.present (p + k) = true ∧ ¬base (p + k)
  disjoint : ∀ p q use use', arenas p = some use → arenas q = some use' → p < q → p + use.span ≤ q
  lowest : ∀ p use, arenas p = some use → 0 < p ∧ (s.user = false → 0xc0100 ≤ p)
  kept : ∀ p, base p → s.present p = true
  present : ∀ p, s.present p = true → base p ∨ ∃ q use, arenas q = some use ∧ q ≤ p ∧ p < q + use.span

/-- The headers, the free lists and the live blocks agree with the arenas. -/
structure Heap.Inv (s : Heap) (base : Nat → Prop) (arenas : Nat → Option ArenaUse) (live : Nat → Option Nat) :
    Prop where
  layout : s.Layout base arenas
  small : ∀ p desc, arenas p = some (.small desc) → desc.2 < descCnt ∧
    s.arena p = ⟨some desc, (freeBlocks live p desc.2).card, false⟩
  large : ∀ p n, arenas p = some (.large n) → s.arena p = ⟨none, n, true⟩ ∧
    ∃ size, live (p * pgSize + arenaSize) = some size ∧ n = largePages size
  nodup : ∀ d, (s.freeList s.me d).Nodup
  free : ∀ d b, b ∈ s.freeList s.me d ↔ ∃ p idx, arenas p = some (.small (s.me, d)) ∧ idx < blocksPerArena d ∧
    b = arena2block p d idx ∧ live b = none
  /-- An arena of another task's descriptor has no free block. -/
  foreign : ∀ p desc, arenas p = some (.small desc) → desc.1 ≠ s.me → freeBlocks live p desc.2 = ∅
  live : ∀ ptr size, live ptr = some size →
    (∃ p desc idx, arenas p = some (.small desc) ∧ idx < blocksPerArena desc.2 ∧ ptr = arena2block p desc.2 idx ∧
      size ≤ blockSize desc.2) ∨
    ∃ p n, arenas p = some (.large n) ∧ ptr = p * pgSize + arenaSize

namespace Heap
variable {s : Heap} {base : Nat → Prop} {arenas : Nat → Option ArenaUse} {live : Nat → Option Nat}

@[simp] theorem setFreeList_self (s : Heap) (desc : Nat × Nat) (list : List Nat) :
    (s.setFreeList desc list).freeList desc.1 desc.2 = list := by
  simp [setFreeList]

@[simp] theorem setFreeList_setFreeList (s : Heap) (desc : Nat × Nat) (list list' : List Nat) :
    (s.setFreeList desc list).setFreeList desc list' = s.setFreeList desc list' := by
  simp [setFreeList]

theorem setFreeList_eq_self (s : Heap) (desc : Nat × Nat) : s.setFreeList desc (s.freeList desc.1 desc.2) = s := by
  simp [setFreeList]

/-! The fields after an update. -/

section
variable (s : Heap) (p q n me d : Nat) (a : Arena) (desc : Nat × Nat) (list : List Nat) (value : Bool)

@[grind =] theorem arena_setArena : (s.setArena p a).arena q = if q = p then a else s.arena q := update_apply ..

@[grind =] theorem arena_setFreeList : (s.setFreeList desc list).arena p = s.arena p := rfl

@[grind =] theorem arena_setPresent : (s.setPresent p n value).arena q = s.arena q := rfl

@[grind =] theorem arena_clear : (s.clear p n).arena q = s.arena q := rfl

@[grind =] theorem freeList_setArena : (s.setArena p a).freeList me d = s.freeList me d := rfl

@[grind =] theorem freeList_setPresent : (s.setPresent p n value).freeList me d = s.freeList me d := rfl

@[grind =] theorem freeList_clear : (s.clear p n).freeList me d = s.freeList me d := rfl

@[grind =] theorem me_setArena : (s.setArena p a).me = s.me := rfl

@[grind =] theorem me_setFreeList : (s.setFreeList desc list).me = s.me := rfl

@[grind =] theorem me_setPresent : (s.setPresent p n value).me = s.me := rfl

@[grind =] theorem me_clear : (s.clear p n).me = s.me := rfl

end

theorem freeList_setFreeList (s : Heap) (me d d' : Nat) (list : List Nat) :
    (s.setFreeList (me, d) list).freeList me d' = if d' = d then list else s.freeList me d' := by
  simp only [setFreeList, update_self, update_apply]

theorem Layout.congr {s' : Heap} (layout : s.Layout base arenas) (present : s'.present = s.present)
    (user : s'.user = s.user) : s'.Layout base arenas := by
  obtain ⟨span, pages, disjoint, lowest, kept, owner⟩ := layout
  rw [← present] at pages kept owner
  rw [← user] at lowest
  exact ⟨span, pages, disjoint, lowest, kept, owner⟩

theorem Layout.apart (layout : s.Layout base arenas) (absent : ∀ k, k < n → s.present (q + k) = false) (pos : 0 < n)
    {use : ArenaUse}
    (here : arenas p = some use) : p + use.span ≤ q ∨ q + n ≤ p := by
  have span := layout.span p use here
  by_contra overlap
  -- The larger of the two starts is in both.
  rcases Nat.lt_or_ge p q with before | after
  · have inside := (layout.pages p use here (q - p) (by omega)).1
    rw [show p + (q - p) = q + 0 by omega, absent 0 pos] at inside
    cases inside
  · have inside := (layout.pages p use here 0 span).1
    rw [show p + 0 = q + (p - q) by omega, absent (p - q) (by omega)] at inside
    cases inside

theorem Layout.add (layout : s.Layout base arenas) (use : ArenaUse) (absent : ∀ k, k < use.span →
    s.present (q + k) = false) (pos : 0 < use.span)
    (low : 0 < q ∧ (s.user = false → 0xc0100 ≤ q)) :
    (s.setPresent q use.span true).Layout base (update arenas q (some use)) := by
  refine ⟨fun p use' here => ?_, fun p use' here k hk => ?_, fun p p' use' use'' here there less =>
    ?_, fun p use' here => ?_, fun p old => ?_, fun p present => ?_⟩
  · rcases update_some_eq_some.mp here with ⟨-, rfl⟩ | ⟨-, old⟩
    · exact pos
    · exact layout.span p use' old
  · rcases update_some_eq_some.mp here with ⟨rfl, rfl⟩ | ⟨-, old⟩
    · refine ⟨if_pos (by omega), fun old => ?_⟩
      have present := layout.kept _ old
      rw [absent k hk] at present
      cases present
    · have before := layout.pages p use' old k hk
      refine ⟨?_, before.2⟩
      change (if _ then true else s.present (p + k)) = true
      rw [before.1, ite_self]
  · rcases update_some_eq_some.mp here with ⟨rfl, rfl⟩ | ⟨-, old⟩ <;> rcases update_some_eq_some.mp there
      with ⟨rfl, rfl⟩ | ⟨-, old'⟩
    · omega
    · have := layout.apart absent pos old'
      have := layout.span p' use'' old'
      omega
    · have := layout.apart absent pos old
      omega
    · exact layout.disjoint p p' use' use'' old old' less
  · rcases update_some_eq_some.mp here with ⟨rfl, -⟩ | ⟨-, old⟩
    · exact low
    · exact layout.lowest p use' old
  · change (if _ then true else s.present p) = true
    rw [layout.kept p old, ite_self]
  · by_cases new : q ≤ p ∧ p < q + use.span
    · exact .inr ⟨q, use, update_self _ _ _, new⟩
    · have before : s.present p = true := (if_neg new).symm.trans present
      refine (layout.present p before).imp_right fun ⟨p', use', old, inside⟩ => ⟨p', use', ?_, inside⟩
      rw [update_of_ne]
      · exact old
      · rintro rfl
        have outside := layout.apart absent pos old
        have span := layout.span p' use' old
        omega

theorem Layout.remove (layout : s.Layout base arenas) {use : ArenaUse} (here : arenas q = some use) :
    (s.setPresent q use.span false).Layout base (update arenas q none) := by
  have apart {p : Nat} {use' : ArenaUse} (ne : p ≠ q) (there : arenas p = some use') : p + use'.span ≤ q ∨
      q + use.span ≤ p := by
    rcases Nat.lt_or_gt_of_ne ne with less | less
    · exact .inl (layout.disjoint p q use' use there here less)
    · exact .inr (layout.disjoint q p use use' here there less)
  refine ⟨fun p use' there => layout.span p use' (update_none_eq_some.mp there).2, fun p use' there k hk =>
    ?_, fun p p' use' use'' there there' => ?_,
    fun p use' there => layout.lowest p use' (update_none_eq_some.mp there).2, fun p old => ?_, fun p present => ?_⟩
  · obtain ⟨ne, there⟩ := update_none_eq_some.mp there
    obtain ⟨present, new⟩ := layout.pages p use' there k hk
    have outside := apart ne there
    exact ⟨(if_neg (by omega)).trans present, new⟩
  · exact layout.disjoint p p' use' use'' (update_none_eq_some.mp there).2 (update_none_eq_some.mp there').2
  · refine (if_neg fun inside => ?_).trans (layout.kept p old)
    have new := (layout.pages q use here (p - q) (by omega)).2
    rw [show q + (p - q) = p by omega] at new
    exact new old
  · by_cases gone : q ≤ p ∧ p < q + use.span
    · exact absurd ((if_pos gone).symm.trans present) Bool.false_ne_true
    · have before : s.present p = true := (if_neg gone).symm.trans present
      refine (layout.present p before).imp_right fun ⟨p', use', there, inside⟩ => ⟨p', use', ?_, inside⟩
      grind

end Heap

theorem appendBlocks_run (page : Nat) (desc : Nat × Nat) {s : Heap}
    (fresh : ∀ idx, idx < n → arena2block page desc.2 idx ∉ s.freeList desc.1 desc.2) :
    Prog.forUpTo (appendBlock page desc) n s =
      .ok ((), s.setFreeList desc (s.freeList desc.1 desc.2 ++ (List.range n).map (arena2block page desc.2))) := by
  induction n with
  | zero => simp [Prog.forUpTo, Heap.setFreeList_eq_self]
  | succ n ih =>
    rw [Prog.forUpTo, bind_of_ok (ih fun idx hidx => fresh idx (by omega)), appendBlock, get_bind]
    have absent : arena2block page desc.2 n ∉ s.freeList desc.1 desc.2 ++ (List.range n).map
        (arena2block page desc.2) := by grind [arena2block_injective]
    grind [Heap.setFreeList_self, Heap.setFreeList_setFreeList, require_bind, run_set, List.range_succ]

theorem unlinkBlocks_run (page : Nat) (desc : Nat × Nat) {s : Heap} (nodup : (s.freeList desc.1 desc.2).Nodup)
    (members : ∀ idx, idx < n → arena2block page desc.2 idx ∈ s.freeList desc.1 desc.2) :
    Prog.forUpTo (unlinkBlock page desc) n s = .ok
      ((), s.setFreeList desc ((s.freeList desc.1 desc.2).diff ((List.range n).map (arena2block page desc.2)))) := by
  induction n with
  | zero => simp [Prog.forUpTo, Heap.setFreeList_eq_self]
  | succ n ih =>
    rw [Prog.forUpTo, bind_of_ok (ih fun idx hidx => members idx (by omega)), unlinkBlock, get_bind]
    have member : arena2block page desc.2 n ∈ (s.freeList desc.1 desc.2).diff
        ((List.range n).map (arena2block page desc.2)) := by grind [nodup.mem_sdiff_iff, arena2block_injective]
    simp only [Heap.setFreeList_self, Heap.setFreeList_setFreeList]
    grind [require_bind, run_set, List.range_succ, List.diff_append, List.diff_cons, List.diff_nil]

theorem block2arena_large (p : Nat) : block2arena (p * pgSize + arenaSize) = p := by
  simp only [block2arena, pgSize, arenaSize]
  omega

namespace Heap
variable {s : Heap} {base : Nat → Prop} {arenas : Nat → Option ArenaUse} {live : Nat → Option Nat}
variable (inv : s.Inv base arenas live)
include inv

theorem Inv.arena_of_live {ptr : Nat} (isLive : live ptr = some size) : ∃ use, arenas (block2arena ptr) = some use := by
  grind [inv.live, block2arena_arena2block, block2arena_large]

theorem Inv.pop {b : Nat} {rest : List Nat} (head : s.freeList s.me d = b :: rest) (fits : size ≤ blockSize d) :
    (((s.setFreeList (s.me, d) rest).clear b (blockSize d)).setArena (block2arena b) { s.arena (block2arena b) with
    cnt := (s.arena (block2arena b)).cnt - 1 }).Inv
      base arenas (update live b (some size)) := by
  obtain ⟨p, idx, here, inside, rfl, dead⟩ := (inv.free d b).mp (head ▸ List.mem_cons_self)
  have page := block2arena_arena2block p inside
  rw [page]
  generalize block : arena2block p d idx = b at *
  have nodup := head ▸ inv.nodup d
  have member : idx ∈ freeBlocks live p d := mem_freeBlocks.mpr ⟨inside, block ▸ dead⟩
  have taken := block ▸ freeBlocks_take live p d idx size
  refine ⟨inv.layout.congr rfl rfl, fun q desc there => ?small, fun q n there => ?large, fun d' =>
    ?nodup, fun d' b' => ?free, fun q desc there foreign => ?foreign, fun ptr n isLive => ?live⟩
  case small =>
    by_cases same : q = p
    · obtain rfl : desc = (s.me, d) := by grind
      grind [inv.small q _ there, Finset.card_erase_of_mem]
    · grind [inv.small q desc there, freeBlocks_update_of_ne]
  case large =>
    grind [inv.large]
  case nodup => grind [inv.nodup d', freeList_setFreeList]
  case free => grind [inv.free d' b', inv.free d b', freeList_setFreeList, block2arena_arena2block, update_apply]
  case foreign => grind [inv.foreign q desc there foreign, freeBlocks_update_of_ne]
  case live =>
    by_cases same : ptr = b
    · exact .inl ⟨p, (s.me, d), idx, here, inside, by grind, by grind⟩
    · exact inv.live ptr n (by grind)

theorem Inv.dead_of_absent {ptr : Nat} (absent : s.present q = false) (place : block2arena ptr = q) :
    live ptr = none := by
  cases isLive : live ptr with
  | none => rfl
  | some size =>
    obtain ⟨use, here⟩ := inv.arena_of_live isLive
    have present := (inv.layout.pages _ use here 0 (inv.layout.span _ use here)).1
    rw [Nat.add_zero, place, absent] at present
    cases present

theorem Inv.none_of_absent (absent : s.present q = false) : arenas q = none := by
  cases here : arenas q with
  | none => rfl
  | some use =>
    have present := (inv.layout.pages _ use here 0 (inv.layout.span _ use here)).1
    rw [Nat.add_zero, absent] at present
    cases present

theorem Inv.newArena (absent : s.present q = false) (empty : s.freeList s.me d = []) (bound : d < descCnt)
    (low : 0 < q ∧ (s.user = false → 0xc0100 ≤ q)) :
    ((((s.setPresent q 1 true).clear (q * pgSize) pgSize).setArena q
    ⟨some (s.me, d), blocksPerArena d, false⟩).setFreeList (s.me, d)
      ((List.range (blocksPerArena d)).map (arena2block q d))).Inv base
      (update arenas q (some (.small (s.me, d)))) live := by
  have layout :=
    inv.layout.add (.small (s.me, d)) (fun k hk => by rwa [show k = 0 from Nat.lt_one_iff.mp hk]) Nat.one_pos low
  have dead {idx : Nat} (inside : idx < blocksPerArena d) : live (arena2block q d idx) = none :=
    inv.dead_of_absent absent (block2arena_arena2block q inside)
  have all : freeBlocks live q d = Finset.range (blocksPerArena d) :=
    Finset.filter_true_of_mem fun idx inside => dead (Finset.mem_range.mp inside)
  have fresh := inv.none_of_absent absent
  have old {p : Nat} {use : ArenaUse} (here : arenas p = some use) :
      update arenas q (some (.small (s.me, d))) p = some use := by grind [update_apply]
  refine ⟨layout.congr rfl rfl, fun p desc here => ?small, fun p n here => ?large, fun d' => ?nodup, fun d' b =>
    ?free, fun p desc here foreign => ?foreign, fun ptr size isLive => ?live⟩
  case small =>
    rcases update_some_eq_some.mp here with ⟨rfl, same⟩ | ⟨other, here⟩
    · cases same
      grind [Finset.card_range]
    · grind [inv.small p desc here]
  case large =>
    obtain ⟨rfl, same⟩ | ⟨other, here⟩ := update_some_eq_some.mp here
    · cases same
    · exact ⟨by grind [inv.large p n here], (inv.large p n here).2⟩
  case nodup =>
    have blocks : ((List.range (blocksPerArena d)).map (arena2block q d)).Nodup :=
      List.nodup_range.map fun _ _ => arena2block_injective
    grind [inv.nodup d', freeList_setFreeList]
  case free =>
    -- The free list was empty, so no other arena has a free block.
    grind [inv.free d' b, freeList_setFreeList, update_apply]
  case foreign => grind [inv.foreign p desc, update_apply]
  case live => exact (inv.live ptr size isLive).imp (fun ⟨p, desc, idx, here, rest⟩ =>
    ⟨p, desc, idx, old here, rest⟩) fun ⟨p, n, here, rest⟩ => ⟨p, n, old here, rest⟩

theorem Inv.newLarge (absent : ∀ k, k < n → s.present (q + k) = false) (pos : 0 < n)
    (low : 0 < q ∧ (s.user = false → 0xc0100 ≤ q)) (room : n = largePages size) :
    (((s.setPresent q n true).clear (q * pgSize) (n * pgSize)).setArena q ⟨none, n, true⟩).Inv base
    (update arenas q (some (.large n)))
      (update live (q * pgSize + arenaSize) (some size)) := by
  have layout := inv.layout.add (.large n) absent pos low
  have fresh : arenas q = none := inv.none_of_absent (absent 0 pos)
  have old {p : Nat} {use : ArenaUse} (here : arenas p = some use) : update arenas q (some (.large n)) p = some use :=
    by grind [update_apply]
  have page := block2arena_large q
  refine ⟨layout.congr rfl rfl, fun p desc here => ?small, fun p m here => ?large, inv.nodup, fun d b =>
    ?free, fun p desc here foreign => ?foreign, fun ptr m isLive => ?live⟩
  case small =>
    obtain ⟨rfl, same⟩ | ⟨other, here⟩ := update_some_eq_some.mp here
    · cases same
    · grind [inv.small p desc here, freeBlocks_update_of_ne]
  case large =>
    obtain ⟨rfl, same⟩ | ⟨other, here⟩ := update_some_eq_some.mp here
    · cases same
      exact ⟨by grind, size, update_self _ _ _, room⟩
    · obtain ⟨header, size', isLive, room'⟩ := inv.large p m here
      refine ⟨by grind, size', (update_of_ne (fun same => other ?_) _ _).trans isLive, room'⟩
      rw [← block2arena_large p, same, page]
  case free => grind [inv.free d b, block2arena_arena2block, update_apply]
  case foreign => grind [inv.foreign p desc, freeBlocks_update_of_ne, update_apply]
  case live =>
    by_cases same : ptr = q * pgSize + arenaSize
    · exact .inr ⟨q, n, update_self _ _ _, same⟩
    · rw [update_of_ne same] at isLive
      exact (inv.live ptr m isLive).imp (fun ⟨p, desc, idx, here, rest⟩ => ⟨p, desc, idx, old here, rest⟩) fun ⟨p, n,
        here, rest⟩ => ⟨p, n, old here, rest⟩

theorem Inv.give (here : arenas p = some (.small (s.me, d))) (inside : idx < blocksPerArena d)
    (isLive : live (arena2block p d idx) ≠ none) :
    ((s.setFreeList (s.me, d) (s.freeList s.me d ++ [arena2block p d idx])).setArena p { s.arena p with
    cnt := (s.arena p).cnt + 1 }).Inv base arenas
      (update live (arena2block p d idx) none) := by
  have page := block2arena_arena2block p inside
  have absent : arena2block p d idx ∉ s.freeList s.me d := fun member => by
    obtain ⟨-, -, -, -, -, dead⟩ := (inv.free d _).mp member
    exact isLive dead
  have outside : idx ∉ freeBlocks live p d := fun member => isLive (mem_freeBlocks.mp member).2
  refine ⟨inv.layout.congr rfl rfl, fun q desc there => ?small, fun q n there => ?large, fun d' => ?nodup, fun d' b =>
    ?free, fun q desc there foreign => ?foreign, fun ptr n isLive' => ?live⟩
  case small => grind [inv.small q desc there, freeBlocks_give, freeBlocks_update_of_ne, update_apply,
    Finset.card_insert_of_notMem]
  case large => grind [inv.large q n there, block2arena_large, update_apply]
  case nodup => grind [inv.nodup d', freeList_setFreeList, List.nodup_append']
  case free => grind [inv.free d' b, freeList_setFreeList, block2arena_arena2block, update_apply]
  case foreign => grind [inv.foreign q desc there foreign, freeBlocks_update_of_ne]
  case live => exact inv.live ptr n (update_none_eq_some.mp isLive').2

theorem Inv.dropArena (here : arenas p = some (.small (s.me, d)))
    (dead : freeBlocks live p d = Finset.range (blocksPerArena d)) :
    ((s.setFreeList (s.me, d)
    ((s.freeList s.me d).diff ((List.range (blocksPerArena d)).map (arena2block p d)))).setPresent p 1 false).Inv base
      (update arenas p none) live := by
  have member (b : Nat) : b ∈ (s.freeList s.me d).diff ((List.range (blocksPerArena d)).map (arena2block p d)) ↔
      b ∈ s.freeList s.me d ∧ ¬∃ idx, idx < blocksPerArena d ∧ arena2block p d idx = b := by
    rw [(inv.nodup d).mem_sdiff_iff]
    simp only [List.mem_map, List.mem_range]
  refine ⟨(inv.layout.remove here).congr rfl rfl, fun q desc there => inv.small q desc
    (update_none_eq_some.mp there).2, fun q n there => inv.large q n (update_none_eq_some.mp there).2,
    fun d' => ?nodup, fun d' b => ?free, fun q desc there => inv.foreign q desc (update_none_eq_some.mp there).2,
      fun ptr size isLive => ?live⟩
  case nodup => grind [inv.nodup d', freeList_setFreeList, List.Nodup.diff]
  case free => grind [inv.free d' b, freeList_setFreeList, block2arena_arena2block, update_apply]
  case live =>
    rcases inv.live ptr size isLive with ⟨q, desc, idx, there, inside, rfl, fits⟩ | ⟨q, n, there, rest⟩
    · refine .inl ⟨q, desc, idx, update_none_eq_some.mpr ⟨?_, there⟩, inside, rfl, fits⟩
      rintro rfl
      obtain rfl : desc = (s.me, d) := by grind
      have free := mem_freeBlocks.mp (dead ▸ Finset.mem_range.mpr inside)
      grind
    · exact .inr ⟨q, n, update_none_eq_some.mpr ⟨by grind, there⟩, rest⟩

theorem Inv.dropLarge (here : arenas p = some (.large n)) :
    (s.setPresent p n false).Inv base (update arenas p none) (update live (p * pgSize + arenaSize) none) := by
  have page := block2arena_large p
  refine ⟨inv.layout.remove here, fun q desc there => ?small, fun q m there => ?large, inv.nodup, fun d b =>
    ?free, fun q desc there foreign => ?foreign, fun ptr size isLive => ?live⟩
  case small =>
    obtain ⟨other, there⟩ := update_none_eq_some.mp there
    grind [inv.small q desc there, freeBlocks_update_of_ne]
  case large =>
    obtain ⟨other, there⟩ := update_none_eq_some.mp there
    obtain ⟨header, size, isLive, room⟩ := inv.large q m there
    refine ⟨header, size, (update_of_ne (fun same => other ?_) _ _).trans isLive, room⟩
    rw [← block2arena_large q, same, page]
  case free => grind [inv.free d b, block2arena_arena2block, update_apply]
  case foreign => grind [inv.foreign q desc, freeBlocks_update_of_ne, update_apply]
  case live =>
    obtain ⟨other, isLive⟩ := update_none_eq_some.mp isLive
    rcases inv.live ptr size isLive with ⟨q, desc, idx, there, rest⟩ | ⟨q, m, there, rfl⟩
    · exact .inl ⟨q, desc, idx, update_none_eq_some.mpr ⟨by grind, there⟩, rest⟩
    · exact .inr ⟨q, m, update_none_eq_some.mpr ⟨by grind, there⟩, rfl⟩

end Heap

end LaiMiniOs
