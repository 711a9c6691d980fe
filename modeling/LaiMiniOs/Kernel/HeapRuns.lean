import Mathlib.Logic.Relation
import LaiMiniOs.Kernel.HeapInvariant

/-! `sys_malloc` and `sys_free` over whole runs of one task. -/

set_option autoImplicit false

namespace LaiMiniOs
open Foundation Prog Function

variable {size ptr p d poolSize : Nat} {desc : Nat × Nat} {supply : Option Nat}

def pagesFor (size : Nat) : Nat := if 1024 < size then largePages size else 1

theorem le_largePages (size : Nat) : size + arenaSize ≤ largePages size * pgSize := by
  simp only [largePages, arenaSize, pgSize]
  omega

theorem largePages_pos (size : Nat) : 0 < largePages size := by
  simp only [largePages, arenaSize, pgSize]
  omega

theorem fittingDesc_fits (small : size ≤ 1024) : fittingDesc size < descCnt ∧ size ≤ blockSize (fittingDesc size) := by
  have below : fittingDesc size < 7 := by
    by_contra high
    have passed : decide (blockSize 6 < size) = true :=
      skipWhile_before (Nat.zero_le 6) (show 6 < fittingDesc size by omega)
    rw [decide_eq_true_eq, show blockSize 6 = 1024 from rfl] at passed
    omega
  have stop : decide (blockSize (fittingDesc size) < size) = false :=
    skipWhile_stop (show fittingDesc size < 0 + 7 by omega)
  rw [decide_eq_false_iff_not, Nat.not_lt] at stop
  exact ⟨below, stop⟩

theorem blocksPerArena_pos (bound : d < descCnt) : 0 < blocksPerArena d := by
  have all : ∀ d, d < 7 → 0 < blocksPerArena d := by decide
  exact all d bound

namespace Heap

/-- What `malloc_page` may return: pages that are not present, in the range of the task's heap. -/
def Supplies (s : Heap) (page cnt : Nat) : Prop := (∀ k, k < cnt → s.present (page + k) = false) ∧ 0 < page ∧
  (s.user = false → 0xc0100 ≤ page)

def Tight (arenas : Nat → Option ArenaUse) (live : Nat → Option Nat) : Prop :=
  ∀ p desc, arenas p = some (.small desc) → ∃ idx, idx < blocksPerArena desc.2 ∧ live (arena2block p desc.2 idx) ≠ none

/-- The invariant between two calls; the arenas belong to descriptors of the tasks in `kin`. -/
def Sound (s : Heap) (kin base : Nat → Prop) (live : Nat → Option Nat) : Prop :=
  ∃ arenas, s.Inv base arenas live ∧ Tight arenas live ∧ ∀ p desc, arenas p = some (.small desc) → kin desc.1

def capacity (s : Heap) (ptr : Nat) : Nat :=
  match (s.arena (block2arena ptr)).desc with
  | some desc => blockSize desc.2
  | none => (s.arena (block2arena ptr)).cnt * pgSize - arenaSize

variable {s : Heap}

theorem capacity_of_small (place : block2arena ptr = p) (header : (s.arena p).desc = some desc) :
    s.capacity ptr = blockSize desc.2 := by
  rw [capacity, place, header]

theorem capacity_of_large {n : Nat} (place : block2arena ptr = p) (header : s.arena p = ⟨none, n, true⟩) :
    s.capacity ptr = n * pgSize - arenaSize := by
  rw [capacity, place, header]

end Heap

section
open Heap
variable {s : Heap} {kin base : Nat → Prop} {arenas : Nat → Option ArenaUse} {live : Nat → Option Nat}

theorem refill_run (inv : s.Inv base arenas live) (bound : d < descCnt)
    (pages : ∀ q, supply = some q → s.Supplies q 1) (given : s.freeList s.me d = [] → supply ≠ none) :
    ∃ s' arenas' b rest, refill supply d s = .ok (true, s') ∧ s'.Inv base arenas' live ∧ s'.me = s.me ∧
      (∀ t, t ≠ s.me → s'.freeList t = s.freeList t) ∧
      s'.freeList s'.me d = b :: rest ∧
      ∀ p desc, arenas' p = some (.small desc) → arenas p = some (.small desc) ∨ p = block2arena b ∧ desc.1 = s.me := by
  rw [refill, get_bind]
  cases list : s.freeList s.me d with
  | cons b rest =>
    rw [if_neg (List.cons_ne_nil b rest)]
    exact ⟨s, arenas, b, rest, rfl, inv, rfl, fun _ _ => rfl, list, fun _ _ here => .inl here⟩
  | nil =>
    rw [if_pos rfl]
    obtain ⟨q, rfl⟩ := Option.ne_none_iff_exists'.mp (given list)
    obtain ⟨absent, low⟩ := pages q rfl
    have gone : s.present q = false := absent 0 Nat.one_pos
    have made := inv.newArena gone list bound low
    have loop := appendBlocks_run q (n := blocksPerArena d) (s.me, d)
      (s := ((s.setPresent q 1 true).clear (q * pgSize) pgSize).setArena q ⟨some (s.me, d), blocksPerArena d, false⟩)
      (fun idx _ => by
        change _ ∉ s.freeList s.me d
        rw [list]
        exact List.not_mem_nil)
    have nothing :
        (((s.setPresent q 1 true).clear (q * pgSize) pgSize).setArena q
        ⟨some (s.me, d), blocksPerArena d, false⟩).freeList s.me d = [] := list
    dsimp only at loop
    rw [nothing, List.nil_append] at loop
    obtain ⟨n, count⟩ := Nat.exists_eq_succ_of_ne_zero (blocksPerArena_pos bound).ne'
    refine ⟨_, _, arena2block q d 0, (List.range n).map fun idx => arena2block q d (idx + 1),
      (set_bind).trans (bind_of_ok loop), made, rfl,
      fun t other => update_of_ne other _ _, ?_,
      fun p desc here => ?_⟩
    · change (Heap.setFreeList _ (s.me, d) _).freeList s.me d = _
      rw [freeList_setFreeList, if_pos rfl, count, List.range_succ_eq_map, List.map_cons, List.map_map]
      rfl
    grind [block2arena_arena2block]

theorem sysMalloc_large (range : 0 < size ∧ size < poolSize) (large : 1024 < size) (q : Nat) (s : Heap) :
    sysMalloc poolSize (some q) size s = .ok (some (q * pgSize + arenaSize),
      ((s.setPresent q (largePages size) true).clear (q * pgSize) (largePages size * pgSize)).setArena q
      ⟨none, largePages size, true⟩) := by
  unfold sysMalloc
  rw [if_neg (not_not_intro range), if_pos large]
  rfl

theorem sysMalloc_small {u : Heap} {b : Nat} {rest : List Nat} (range : 0 < size ∧ size < poolSize)
    (large : ¬1024 < size)
    (filled : refill supply (fittingDesc size) s = .ok (true, u))
    (list : u.freeList u.me (fittingDesc size) = b :: rest) :
    sysMalloc poolSize supply size s =
      .ok (some b, ((u.setFreeList (u.me, fittingDesc size) rest).clear b (blockSize (fittingDesc size))).setArena
      (block2arena b)
      { u.arena (block2arena b) with cnt := (u.arena (block2arena b)).cnt - 1 }) := by
  have popped : popBlock (fittingDesc size) u =
      .ok (b, ((u.setFreeList (u.me, fittingDesc size) rest).clear b (blockSize (fittingDesc size))).setArena
      (block2arena b)
      { u.arena (block2arena b) with cnt := (u.arena (block2arena b)).cnt - 1 }) := by
    rw [popBlock, get_bind]
    simp only [list]
    rfl
  unfold sysMalloc
  rw [if_neg (not_not_intro range), if_neg large, bind_of_ok filled, if_pos rfl, bind_of_ok popped]
  rfl

theorem sysMalloc_sound (sound : s.Sound kin base live) (mine : kin s.me) (range : 0 < size ∧ size < poolSize)
    (pages : ∀ q, supply = some q → s.Supplies q (pagesFor size))
    (given : 1024 < size ∨ s.freeList s.me (fittingDesc size) = [] → supply ≠ none) :
    ∃ ptr s', sysMalloc poolSize supply size s = .ok (some ptr, s') ∧
      (s'.me = s.me ∧ ∀ t, t ≠ s.me → s'.freeList t = s.freeList t) ∧ live ptr = none ∧
      s'.Sound kin base (update live ptr (some size)) ∧
      ∀ a, ptr ≤ a → a < ptr + s'.capacity ptr → s'.memory a = 0 := by
  obtain ⟨arenas, inv, tight, family⟩ := sound
  by_cases large : 1024 < size
  · obtain ⟨q, rfl⟩ := Option.ne_none_iff_exists'.mp (given (.inl large))
    obtain ⟨absent, low⟩ := pages q rfl
    rw [pagesFor, if_pos large] at absent
    have pos := largePages_pos size
    have made := inv.newLarge absent pos low rfl
    have old {p : Nat} {desc : Nat × Nat}
        (here : update arenas q (some (.large (largePages size))) p = some (.small desc)) :
        p ≠ q ∧ arenas p = some (.small desc) := by grind
    refine ⟨_, _, sysMalloc_large range large q s, ⟨rfl, fun _ _ => rfl⟩,
      inv.dead_of_absent (absent 0 pos) (block2arena_large q),
      ⟨_, made, fun p desc here => ?_, fun p desc here => family p desc (old here).2⟩, fun a above below => ?_⟩
    · obtain ⟨same, here⟩ := old here
      obtain ⟨idx, inside, isLive⟩ := tight p desc here
      grind
    · have header := (made.large q (largePages size) (update_self _ _ _)).1
      rw [capacity_of_large (block2arena_large q) header] at below
      have room := le_largePages size
      exact Memory.splice_inside (by omega) (by omega)
  · obtain ⟨bound, fits⟩ := fittingDesc_fits (Nat.not_lt.mp large)
    rw [pagesFor, if_neg large] at pages
    obtain ⟨u, arenas', b, rest, filled, inv', me, frame, list, others⟩ :=
      refill_run inv bound pages fun empty => given (.inr empty)
    have popped := inv'.pop list fits
    obtain ⟨p, idx, here, inside, rfl, dead⟩ := (inv'.free _ b).mp (list ▸ List.mem_cons_self)
    have page := block2arena_arena2block p inside
    refine ⟨_, _, sysMalloc_small range large filled list,
      ⟨me, fun t other => (update_of_ne (me ▸ other) _ _).trans (frame t other)⟩, dead,
      ⟨_, popped, fun q desc there => ?_, fun q desc there => ?_⟩, fun a above below => ?_⟩
    · by_cases same : q = p
      · subst same
        grind
      · obtain ⟨idx', inside', isLive⟩ :=
          tight q desc ((others q desc there).resolve_right fun new => same (new.1.trans page))
        refine ⟨idx', inside', ?_⟩
        rwa [update_of_ne]
        grind
    · exact (others q desc there).elim (family q desc) fun new => new.2 ▸ mine
    · have header := (popped.small p _ here).2
      rw [capacity_of_small page (congrArg Arena.desc header)] at below
      exact Memory.splice_inside above below

theorem sysFree_eq (s : Heap) (place : block2arena ptr = p) (positive : ptr ≠ 0)
    (high : s.user = false → 0xc0100 * pgSize ≤ ptr)
    (present : s.present p = true) : sysFree ptr s = freeIn p ptr s := by
  subst place
  have kernel : Prog.when (s.user = false) (Prog.assert (0xc0100 * pgSize ≤ ptr)) s = .ok ((), s) := by
    grind [run_when_of, run_require_of, run_when_of_not]
  rw [sysFree, require_bind positive, get_bind, bind_of_ok kernel,
    require_bind present]

theorem freeIn_large {n : Nat} (header : s.arena p = ⟨none, n, true⟩) (ptr : Nat) :
    freeIn p ptr s = .ok ((), s.setPresent p n false) := by
  rw [freeIn, get_bind]
  simp [header]

theorem freeIn_small (header : (s.arena p).desc = some desc) (ptr : Nat) :
    freeIn p ptr s = Prog.when ((s.arena p).cnt + 1 = blocksPerArena desc.2) (do
        Prog.forUpTo (unlinkBlock p desc) (blocksPerArena desc.2)
        modify fun s => s.setPresent p 1 false)
      ((s.setFreeList desc (s.freeList desc.1 desc.2 ++ [ptr])).setArena p { s.arena p with
      cnt := (s.arena p).cnt + 1 }) := by
  rw [freeIn, get_bind]
  grind [set_bind]

theorem Heap.Inv.address (inv : s.Inv base arenas live) (isLive : live ptr = some size) :
    ptr ≠ 0 ∧ (s.user = false → 0xc0100 * pgSize ≤ ptr) ∧ s.present (block2arena ptr) = true := by
  obtain ⟨use, here⟩ := inv.arena_of_live isLive
  obtain ⟨low, high⟩ := inv.layout.lowest _ use here
  have present := (inv.layout.pages _ use here 0 (inv.layout.span _ use here)).1
  grind [block2arena, pgSize]

theorem sysFree_sound (sound : s.Sound kin base live) (isLive : live ptr = some size)
    (own : ∀ desc, (s.arena (block2arena ptr)).desc = some desc → desc.1 = s.me) :
    ∃ s', sysFree ptr s = .ok ((), s') ∧ (s'.me = s.me ∧ ∀ t, t ≠ s.me → s'.freeList t = s.freeList t) ∧
      s'.Sound kin base (update live ptr none) ∧
      ((s.arena (block2arena ptr)).large = true → ∀ k, k < (s.arena (block2arena ptr)).cnt →
      s'.present (block2arena ptr + k) = false) := by
  obtain ⟨arenas, inv, tight, family⟩ := sound
  obtain ⟨positive, high, present⟩ := inv.address isLive
  rcases inv.live ptr size isLive with ⟨p, desc, idx, here, inside, rfl, -⟩ | ⟨p, n, here, rfl⟩
  · have page := block2arena_arena2block p inside
    obtain ⟨bound, header⟩ := inv.small p desc here
    rw [page] at own present ⊢
    obtain ⟨me, d⟩ := desc
    obtain rfl : me = s.me := own _ (congrArg Arena.desc header)
    have given := inv.give here inside (by rw [isLive]; exact Option.some_ne_none size)
    have count : (s.arena p).cnt + 1 = (freeBlocks (update live (arena2block p d idx) none) p d).card :=
      congrArg Arena.cnt ((update_self p _ s.arena).symm.trans (given.small p _ here).2)
    have keeps {arenas' : Nat → Option ArenaUse} (sub : ∀ q desc, arenas' q = some (.small desc) →
        arenas q = some (.small desc))
        (last : arenas' p = some (.small (s.me, d)) → ∃ i, i < blocksPerArena d ∧
          update live (arena2block p d idx) none (arena2block p d i) ≠ none) :
        Tight arenas' (update live (arena2block p d idx) none) := by
      intro q desc there
      by_cases same : q = p
      · subst same
        have old := sub q desc there
        rw [here] at old
        cases old
        exact last there
      · obtain ⟨i, inside', isLive'⟩ := tight q desc (sub q desc there)
        refine ⟨i, inside', ?_⟩
        rwa [update_of_ne]
        grind [block2arena_arena2block]
    have whole : (s.arena p).large = false := congrArg Arena.large header
    have start := (sysFree_eq s page positive high present).trans (freeIn_small (congrArg Arena.desc header) _)
    by_cases full : (s.arena p).cnt + 1 = blocksPerArena d
    · have dead : freeBlocks (update live (arena2block p d idx) none) p d = Finset.range (blocksPerArena d) :=
        Finset.eq_of_subset_of_card_le (Finset.filter_subset _ _) (by rw [Finset.card_range]; omega)
      have loop := unlinkBlocks_run p (n := blocksPerArena d) (s.me, d) (given.nodup d) fun i hi =>
        (given.free d _).mpr ⟨p, i, here, hi, rfl, (mem_freeBlocks.mp (dead ▸ Finset.mem_range.mpr hi)).2⟩
      rw [run_when_of full, bind_of_ok loop] at start
      refine ⟨_, start, ⟨rfl, fun t other => (update_of_ne other _ _).trans (update_of_ne other _ _)⟩,
        ⟨_, given.dropArena here dead, keeps (fun q desc there => (update_none_eq_some.mp there).2) fun there => ?_,
        fun q desc there => family q desc (update_none_eq_some.mp there).2⟩, fun large => ?_⟩
      · rw [update_self] at there
        cases there
      · rw [whole] at large
        cases large
    · rw [run_when_of_not full] at start
      refine ⟨_, start, ⟨rfl, fun t other => update_of_ne other _ _⟩,
        ⟨_, given, keeps (fun _ _ there => there) fun _ => ?_, family⟩, fun large => ?_⟩
      · grind [freeBlocks, Finset.filter_true_of_mem]
      · rw [whole] at large
        cases large
  · obtain ⟨header, -⟩ := inv.large p n here
    rw [block2arena_large] at present ⊢
    have start := (sysFree_eq s (block2arena_large p) positive high present).trans (freeIn_large header _)
    rw [header]
    refine ⟨_, start, ⟨rfl, fun _ _ => rfl⟩, ⟨_, inv.dropLarge here, fun q desc there => ?_, fun q desc there =>
      family q desc (update_none_eq_some.mp there).2⟩, fun _ k hk => if_pos ⟨by omega, by simpa using hk⟩⟩
    obtain ⟨other, there⟩ := update_none_eq_some.mp there
    obtain ⟨idx, inside, isLive'⟩ := tight q desc there
    grind [block2arena_arena2block, block2arena_large]

end

namespace Heap

def Holds (live : Nat → Option Nat) (p : Nat) : Prop := ∃ ptr size, live ptr = some size ∧ block2arena ptr = p

def arenaPages (s : Heap) (p : Nat) : Nat := if (s.arena p).large then (s.arena p).cnt else 1

/-- What a task can rely on: its blocks are apart, each in the pages of its arena behind the header;
the free lists hold what is not live; and there are no other pages than those of arenas with a live
block. -/
structure Ordered (s : Heap) (base : Nat → Prop) (live : Nat → Option Nat) : Prop where
  inside : ∀ ptr size, live ptr = some size → size ≤ s.capacity ptr ∧ block2arena ptr * pgSize + arenaSize ≤ ptr ∧
    ptr + s.capacity ptr ≤ (block2arena ptr + s.arenaPages (block2arena ptr)) * pgSize
  disjoint : ∀ ptr ptr' size size', live ptr = some size → live ptr' = some size' → ptr ≠ ptr' →
    ptr + s.capacity ptr ≤ ptr' ∨ ptr' + s.capacity ptr' ≤ ptr
  nodup : ∀ d, (s.freeList s.me d).Nodup
  free : ∀ d b, b ∈ s.freeList s.me d ↔
    ∃ p idx, Holds live p ∧ (s.arena p).desc = some (s.me, d) ∧ idx < blocksPerArena d ∧ b = arena2block p d idx ∧
      live b = none
  cnt : ∀ p d, Holds live p → (s.arena p).desc = some (s.me, d) →
    (s.arena p).cnt = ((s.freeList s.me d).filter fun b => block2arena b = p).length
  pages : ∀ p, s.present p = true ∧ ¬base p ↔ ∃ q, Holds live q ∧ q ≤ p ∧ p < q + s.arenaPages q

variable {s : Heap} {kin base : Nat → Prop} {arenas : Nat → Option ArenaUse} {live : Nat → Option Nat}
variable (inv : s.Inv base arenas live)
include inv

theorem Inv.arenaPages_eq {use : ArenaUse} (here : arenas p = some use) : s.arenaPages p = use.span := by
  cases use with
  | small desc => rw [arenaPages, (inv.small p desc here).2]; rfl
  | large n => rw [arenaPages, (inv.large p n here).1]; rfl

theorem Inv.holds_iff (tight : Tight arenas live) : Holds live p ↔ ∃ use, arenas p = some use := by
  constructor
  · rintro ⟨ptr, size, isLive, rfl⟩
    exact inv.arena_of_live isLive
  · rintro ⟨use, here⟩
    cases use with
    | small desc =>
      obtain ⟨idx, inside, isLive⟩ := tight p desc here
      obtain ⟨size, isLive⟩ := Option.ne_none_iff_exists'.mp isLive
      exact ⟨_, size, isLive, block2arena_arena2block p inside⟩
    | large n =>
      obtain ⟨-, size, isLive, -⟩ := inv.large p n here
      exact ⟨_, size, isLive, block2arena_large p⟩

theorem Inv.small_iff (tight : Tight arenas live) :
    Holds live p ∧ (s.arena p).desc = some desc ↔ arenas p = some (.small desc) := by
  rw [inv.holds_iff tight]
  constructor
  · rintro ⟨⟨use, here⟩, header⟩
    cases use with
    | small desc' =>
      rw [(inv.small p desc' here).2] at header
      cases header
      exact here
    | large n =>
      rw [(inv.large p n here).1] at header
      cases header
  · intro here
    exact ⟨⟨_, here⟩, congrArg Arena.desc (inv.small p desc here).2⟩

theorem Inv.place (isLive : live ptr = some size) :
    size ≤ s.capacity ptr ∧ block2arena ptr * pgSize + arenaSize ≤ ptr ∧
      ptr + s.capacity ptr ≤ (block2arena ptr + s.arenaPages (block2arena ptr)) * pgSize := by
  rcases inv.live ptr size isLive with ⟨p, desc, idx, here, inside, rfl, fits⟩ | ⟨p, n, here, rfl⟩
  · have page := block2arena_arena2block p inside
    rw [capacity_of_small page (congrArg Arena.desc (inv.small p desc here).2), page, inv.arenaPages_eq here]
    refine ⟨fits, ?_, arena2block_le p inside⟩
    simp only [arena2block]
    omega
  · obtain ⟨header, size', isLive', rfl⟩ := inv.large p n here
    obtain rfl : size = size' := Option.some.inj (isLive.symm.trans isLive')
    have room := le_largePages size
    rw [capacity_of_large (block2arena_large p) header, block2arena_large, inv.arenaPages_eq here, ArenaUse.span,
      Nat.add_mul]
    omega

theorem Inv.apart_of_page_lt {ptr' size' : Nat} (isLive : live ptr = some size) (isLive' : live ptr' = some size')
    (less : block2arena ptr < block2arena ptr') : ptr + s.capacity ptr ≤ ptr' := by
  obtain ⟨use, here⟩ := inv.arena_of_live isLive
  obtain ⟨use', there⟩ := inv.arena_of_live isLive'
  have between := inv.layout.disjoint _ _ use use' here there less
  obtain ⟨-, -, above⟩ := inv.place isLive
  obtain ⟨-, below, -⟩ := inv.place isLive'
  rw [inv.arenaPages_eq here] at above
  have pages := Nat.mul_le_mul_right pgSize between
  omega

theorem Inv.blocks_disjoint {ptr' size' : Nat} (isLive : live ptr = some size) (isLive' : live ptr' = some size')
    (ne : ptr ≠ ptr') :
    ptr + s.capacity ptr ≤ ptr' ∨ ptr' + s.capacity ptr' ≤ ptr := by
  rcases Nat.lt_trichotomy (block2arena ptr) (block2arena ptr') with less | same | less
  · exact .inl (inv.apart_of_page_lt isLive isLive' less)
  · rcases inv.live ptr size isLive with ⟨p, desc, idx, here, inside, rfl, -⟩ | ⟨p, n, here, rfl⟩
    · have page := block2arena_arena2block p inside
      rcases inv.live ptr' size' isLive' with ⟨p', desc', idx', there, inside', rfl, -⟩ | ⟨p', n', there, rfl⟩
      · obtain rfl : p = p' := page.symm.trans (same.trans (block2arena_arena2block p' inside'))
        rw [here] at there
        cases there
        have header := congrArg Arena.desc (inv.small p desc here).2
        rw [capacity_of_small page header, capacity_of_small (block2arena_arena2block p inside') header]
        rcases Nat.lt_trichotomy idx idx' with less | rfl | less
        · exact .inl (arena2block_disjoint p desc.2 less)
        · exact absurd rfl ne
        · exact .inr (arena2block_disjoint p desc.2 less)
      grind [block2arena_large]
    grind [inv.live, block2arena_large, block2arena_arena2block]
  · exact .inr (inv.apart_of_page_lt isLive' isLive less)

theorem Inv.cnt_eq (here : arenas p = some (.small (s.me, d))) :
    (s.arena p).cnt = ((s.freeList s.me d).filter fun b => block2arena b = p).length := by
  have count : (s.arena p).cnt = ((freeBlocks live p d).image (arena2block p d)).card := by
    rw [(inv.small p _ here).2, Finset.card_image_of_injective _ fun _ _ => arena2block_injective]
  rw [count, ← List.toFinset_card_of_nodup ((inv.nodup d).filter _)]
  refine congrArg Finset.card (Finset.ext fun b => ?_)
  grind [List.mem_toFinset, mem_freeBlocks, inv.free, block2arena_arena2block]

omit inv in
theorem Sound.ordered (sound : s.Sound kin base live) : s.Ordered base live := by
  obtain ⟨arenas, inv, tight, -⟩ := sound
  refine ⟨fun ptr size => inv.place, fun ptr ptr' size size' => inv.blocks_disjoint, inv.nodup, fun d b =>
    ?_, fun p d holds header => inv.cnt_eq ((inv.small_iff tight).mp ⟨holds, header⟩),
    fun p => ?_⟩
  · rw [inv.free]
    simp only [← inv.small_iff tight, and_assoc]
  · constructor
    · rintro ⟨present, new⟩
      obtain ⟨q, use, here, low, high⟩ := (inv.layout.present p present).resolve_left new
      exact ⟨q, (inv.holds_iff tight).mpr ⟨use, here⟩, low, by rwa [inv.arenaPages_eq here]⟩
    · rintro ⟨q, holds, low, high⟩
      obtain ⟨use, here⟩ := (inv.holds_iff tight).mp holds
      rw [inv.arenaPages_eq here] at high
      have page := inv.layout.pages q use here (p - q) (by omega)
      rwa [show q + (p - q) = p by omega] at page

end Heap

/-- A call of `sys_malloc` for which there are pages, or of `sys_free` with a live pointer. -/
inductive HeapStep (poolSize : Nat) : Heap × (Nat → Option Nat) → Heap × (Nat → Option Nat) → Prop where
  | malloc {s s' : Heap} {live : Nat → Option Nat} {supply : Option Nat} {size ptr : Nat}
      (range : 0 < size ∧ size < poolSize)
      (pages : ∀ q, supply = some q → s.Supplies q (pagesFor size))
        (run : sysMalloc poolSize supply size s = .ok (some ptr, s')) :
      HeapStep poolSize (s, live) (s', update live ptr (some size))
  | free {s s' : Heap} {live : Nat → Option Nat} {ptr size : Nat} (isLive : live ptr = some size)
      (run : sysFree ptr s = .ok ((), s')) :
      HeapStep poolSize (s, live) (s', update live ptr none)

section
open Heap
variable {s s' : Heap} {kin base : Nat → Prop} {live : Nat → Option Nat} {poolSize : Nat}

theorem sysMalloc_null (range : 0 < size ∧ size < poolSize)
    (needed : 1024 < size ∨ s.freeList s.me (fittingDesc size) = []) :
    sysMalloc poolSize none size s = .ok (none, s) := by
  unfold sysMalloc
  rw [if_neg (not_not_intro range)]
  by_cases large : 1024 < size
  · rw [if_pos large]
    rfl
  · have empty := needed.resolve_left large
    have filled : refill none (fittingDesc size) s = .ok (false, s) := by
      rw [refill, get_bind, if_pos empty]
      rfl
    rw [if_neg large, bind_of_ok filled, if_neg Bool.false_ne_true]
    rfl

theorem sysMalloc_eq_ok (sound : s.Sound kin base live) (mine : kin s.me) (range : 0 < size ∧ size < poolSize)
    (pages : ∀ q, supply = some q → s.Supplies q (pagesFor size))
    (run : sysMalloc poolSize supply size s = .ok (some ptr, s')) :
    (s'.me = s.me ∧ ∀ t, t ≠ s.me → s'.freeList t = s.freeList t) ∧ live ptr = none ∧
    s'.Sound kin base (update live ptr (some size)) ∧
      ∀ a, ptr ≤ a → a < ptr + s'.capacity ptr → s'.memory a = 0 := by
  have given (needed : 1024 < size ∨ s.freeList s.me (fittingDesc size) = []) : supply ≠ none := by
    rintro rfl
    rw [sysMalloc_null range needed] at run
    cases run
  obtain ⟨ptr', s'', run', rest⟩ := sysMalloc_sound sound mine range pages given
  grind

theorem Heap.Sound.family (sound : s.Sound kin base live) (isLive : live ptr = some size)
    (header : (s.arena (block2arena ptr)).desc = some desc) : kin desc.1 := by
  obtain ⟨arenas, inv, tight, family⟩ := sound
  exact family _ desc ((inv.small_iff tight).mp ⟨⟨ptr, size, isLive, rfl⟩, header⟩)

theorem HeapStep.sound {me : Nat} {a b : Heap × (Nat → Option Nat)} (step : HeapStep poolSize a b)
    (sound : a.1.me = me ∧ a.1.Sound (· = me) base a.2) :
    b.1.me = me ∧ b.1.Sound (· = me) base b.2 := by
  cases step with
  | malloc range pages run =>
    grind [sysMalloc_eq_ok]
  | free isLive run =>
    obtain ⟨s'', run', same, sound', -⟩ :=
      sysFree_sound sound.2 isLive fun desc header => (sound.2.family isLive header).trans sound.1.symm
    grind

theorem Heap.blockDescInit_sound (s : Heap) : s.blockDescInit.Sound (· = s.me) (fun p => s.present p = true) fun _ =>
    none := by
  have nothing {A : Type} {a : A} {c : Prop} (here : none = some a) : c := absurd here (Option.some_ne_none a).symm
  have empty (d : Nat) : s.blockDescInit.freeList s.blockDescInit.me d = [] := by simp [blockDescInit]
  refine ⟨fun _ =>
    none, ⟨⟨fun _ _ => nothing, fun _ _ => nothing, fun _ _ _ _ => nothing, fun _ _ => nothing, fun _ old =>
    old, fun _ present => .inl present⟩,
    fun _ _ => nothing, fun _ _ => nothing, fun d => ?_, fun d b => ?_, fun _ _ => nothing, fun _ _ => nothing⟩,
      fun _ _ => nothing, fun _ _ => nothing⟩
  · rw [empty]
    exact List.nodup_nil
  · rw [empty]
    exact iff_of_false List.not_mem_nil fun ⟨_, _, here, _⟩ => nothing here

theorem Heap.Sound.large (sound : s.Sound kin base live) (isLive : live ptr = some size) (large : 1024 < size) :
    s.arena (block2arena ptr) = ⟨none, largePages size, true⟩ ∧ ∀ k, k < largePages size →
      s.present (block2arena ptr + k) = true := by
  obtain ⟨arenas, inv, -, -⟩ := sound
  rcases inv.live ptr size isLive with ⟨p, desc, idx, here, -, rfl, fits⟩ | ⟨p, n, here, rfl⟩
  · have sizes : ∀ d, d < descCnt → blockSize d ≤ 1024 := by decide
    have := sizes desc.2 (inv.small p desc here).1
    omega
  · obtain ⟨header, size', isLive', rfl⟩ := inv.large p n here
    obtain rfl := Option.some.inj (isLive.symm.trans isLive')
    rw [block2arena_large]
    exact ⟨header, fun k hk => (inv.layout.pages p _ here k hk).1⟩

theorem HeapStep.run_sound {s₀ : Heap} {a : Heap × (Nat → Option Nat)}
    (steps : Relation.ReflTransGen (HeapStep poolSize) (s₀.blockDescInit, fun _ => none) a) :
    a.1.me = s₀.me ∧ a.1.Sound (· = s₀.me) (fun p => s₀.present p = true) a.2 := by
  induction steps with
  | refl => exact ⟨rfl, s₀.blockDescInit_sound⟩
  | tail _ step ih => exact step.sound ih

end

/-- Over every run of `sys_malloc` and `sys_free` from fresh descriptors: the heap is ordered; a call
that gets its pages returns a block of zeros that was not live; a live block can be freed; and a large
one takes all of its pages with it. -/
theorem heap_ordered {s₀ s : Heap} {live : Nat → Option Nat} {poolSize : Nat}
    (steps : Relation.ReflTransGen (HeapStep poolSize) (s₀.blockDescInit, fun _ => none) (s, live)) :
    s.Ordered (fun p => s₀.present p = true) live ∧
    (∀ size q, 0 < size ∧ size < poolSize → s.Supplies q (pagesFor size) →
    ∃ ptr s', sysMalloc poolSize (some q) size s = .ok (some ptr, s')) ∧
    (∀ size supply ptr s', 0 < size ∧ size < poolSize → (∀ q, supply = some q → s.Supplies q (pagesFor size)) →
    sysMalloc poolSize supply size s = .ok (some ptr, s') →
      live ptr = none ∧ ∀ a, ptr ≤ a → a < ptr + s'.capacity ptr → s'.memory a = 0) ∧
    ∀ ptr size, live ptr = some size → ∃ s', sysFree ptr s = .ok ((), s') ∧
      (1024 < size → ∀ k, k < largePages size → s.present (block2arena ptr + k) = true ∧
      s'.present (block2arena ptr + k) = false) := by
  obtain ⟨me, sound⟩ := HeapStep.run_sound steps
  refine ⟨sound.ordered, fun size q range pages => ?_, fun size supply ptr s' range pages run =>
    ?_, fun ptr size isLive => ?_⟩
  · obtain ⟨ptr, s', run, -⟩ := sysMalloc_sound sound me range (fun q' same => Option.some.inj same ▸ pages) fun _ =>
      Option.some_ne_none q
    exact ⟨ptr, s', run⟩
  · obtain ⟨-, dead, -, zero⟩ := sysMalloc_eq_ok sound me range pages run
    exact ⟨dead, zero⟩
  · obtain ⟨s', run, -, -, gone⟩ :=
      sysFree_sound sound isLive fun desc header => (sound.family isLive header).trans me.symm
    refine ⟨s', run, fun large k hk => ?_⟩
    obtain ⟨header, present⟩ := sound.large isLive large
    grind

def bareHeap : Heap := ⟨1, true, fun _ => false, fun _ => ⟨none, 0, false⟩, fun _ _ => [], Memory.zero⟩

theorem heap_ordered_1000 : ∃ s, sysMalloc 0x100000 (some 0x8048) 1000 bareHeap.blockDescInit =
    .ok (some 0x804800c, s) ∧ s.freeList 1 6 = [0x804840c, 0x804880c] ∧
    s.Ordered (fun _ => False) (update (fun _ => none) 0x804800c (some 1000)) := by
  obtain ⟨r, s, run, checks⟩ :=
    exists_of_yields (x := sysMalloc 0x100000 (some 0x8048) 1000) (s := bareHeap.blockDescInit)
    (c := fun r s => r == some 0x804800c && s.freeList 1 6 == [0x804840c, 0x804880c]) (by decide +kernel)
  simp only [Bool.and_eq_true, beq_iff_eq] at checks
  obtain ⟨rfl, list⟩ := checks
  have step : HeapStep 0x100000 (bareHeap.blockDescInit, fun _ => none)
      (s, update (fun _ => none) 0x804800c (some 1000)) :=
    .malloc (by decide) (fun q same =>
      ⟨fun _ _ => rfl, Option.some.inj same ▸ by decide, fun user => absurd user.symm Bool.false_ne_true⟩) run
  have ordered := (heap_ordered (.single step)).1
  simp only [bareHeap, Bool.false_eq_true] at ordered
  exact ⟨s, run, list, ordered⟩

end LaiMiniOs
