import LaiMiniOs.Kernel.HeapRuns
import LaiMiniOs.Kernel.PageCalls

/-! The pages of a heap are those of the page tables.

The heap takes what `malloc_page` returns as an argument. Here is why that is enough: on consistent
page tables `malloc_page` supplies pages that the heap does not have, and both functions change the
page tables as the heap assumes.
-/

set_option autoImplicit false

namespace LaiMiniOs
open Foundation Prog

/-- The heap sees the managed pages as the page tables have them, and the tables are in order. -/
structure Heap.Sees (s : Heap) (pg : Paging) (pf : PoolFlags) : Prop where
  user : s.user = false → pf = .kernel
  present : ∀ p, pg.Managed pf p → (s.present p = true ↔ pg.Present p)
  consistent : pg.Consistent fun _ => False
  apart : pg.Apart

/-- A call of `malloc_page` or of `mfree_page` that succeeds, for pages of the pool's range. -/
inductive PageStep (pf : PoolFlags) : Heap × Paging → Heap × Paging → Prop where
  | malloc {s pg pg' vaddr pgCnt} (run : mallocPage pf pgCnt pg = .ok (some vaddr, pg'))
      (inside : pg.Run pf (vaddr / pgSize) pgCnt) : PageStep pf (s, pg) (s.setPresent (vaddr / pgSize) pgCnt true, pg')
  | mfree {s pg pg' vaddr pgCnt} (run : mfreePage pf vaddr pgCnt pg = .ok ((), pg'))
      (pages : ∀ k, k < pgCnt → pg.Managed pf (vaddr / pgSize + k) ∧ s.present (vaddr / pgSize + k) = true) :
      PageStep pf (s, pg) (s.setPresent (vaddr / pgSize) pgCnt false, pg')

variable {s : Heap} {pg pg' : Paging} {pf : PoolFlags} {vaddr pgCnt : Nat}

theorem mallocPage_supplies (sees : s.Sees pg pf) (run : mallocPage pf pgCnt pg = .ok (some vaddr, pg'))
    (inside : pg.Run pf (vaddr / pgSize) pgCnt) :
    s.Supplies (vaddr / pgSize) pgCnt ∧ (s.setPresent (vaddr / pgSize) pgCnt true).Sees pg' pf := by
  obtain ⟨consistent, apart, layout, absent, present, -⟩ := mallocPage_consistent sees.consistent sees.apart run inside
  have low := inside.1
  refine ⟨⟨fun k hk => ?_, ?_, fun user => ?_⟩, sees.user, fun p managed => ?_, consistent, apart⟩
  · have gone := mt (sees.present _ (inside.managed hk)).mp (absent k hk)
    simpa using gone
  · cases pf <;> simp only [Paging.vaddrStart] at low <;> omega
  · rw [sees.user user] at low
    exact low
  · have here := (Paging.Managed.congr layout).mp managed
    rw [present p ⟨pf, here⟩, ← sees.present p here]
    change (if _ then true else s.present p) = true ↔ _
    grind

theorem mfreePage_takes (sees : s.Sees pg pf) (run : mfreePage pf vaddr pgCnt pg = .ok ((), pg'))
    (pages : ∀ k, k < pgCnt → pg.Managed pf (vaddr / pgSize + k) ∧ s.present (vaddr / pgSize + k) = true) :
    (s.setPresent (vaddr / pgSize) pgCnt false).Sees pg' pf := by
  have there := fun k hk => And.intro (pages k hk).1 ((sees.present _ (pages k hk).1).mp (pages k hk).2)
  obtain ⟨consistent, apart, layout, present⟩ := mfreePage_consistent sees.consistent sees.apart there run
  refine ⟨sees.user, fun p managed => ?_, consistent, apart⟩
  have here := (Paging.Managed.congr layout).mp managed
  rw [present p ⟨pf, here⟩, ← sees.present p here]
  change (if _ then false else s.present p) = true ↔ _
  grind

theorem PageStep.sees {a b : Heap × Paging} (step : PageStep pf a b) (sees : a.1.Sees a.2 pf) : b.1.Sees b.2 pf := by
  cases step with
  | malloc run inside => exact (mallocPage_supplies sees run inside).2
  | mfree run pages => exact mfreePage_takes sees run pages

/-- After every run the heap sees the pages as they are, and the next `malloc_page` supplies pages that
are new to it. -/
theorem pages_seen {a b : Heap × Paging} (start : a.1.Sees a.2 pf) (steps : Relation.ReflTransGen (PageStep pf) a b) :
    b.1.Sees b.2 pf ∧ ∀ pgCnt vaddr pg, mallocPage pf pgCnt b.2 = .ok (some vaddr, pg) →
      b.2.Run pf (vaddr / pgSize) pgCnt →
      b.1.Supplies (vaddr / pgSize) pgCnt := by
  have sees : b.1.Sees b.2 pf := by
    induction steps with
    | refl => exact start
    | tail _ step ih => exact step.sees ih
  exact ⟨sees, fun _ _ _ run inside => (mallocPage_supplies sees run inside).1⟩

theorem pages_seen_two :
    (bareHeap.setPresent 0x8048 2 true).Sees ((mallocPage .user 2).final (emptyPaging true)) .user := by
  have run := run_final_of (x := mallocPage .user 2) (s := emptyPaging true) (a := some 0x8048000) (by decide +kernel)
  obtain ⟨consistent, apart⟩ := emptyPaging_consistent true
  have absent := fun p (present : (emptyPaging true).Present p) => Bool.false_ne_true present.1
  have start : bareHeap.Sees (emptyPaging true) .user :=
    ⟨nofun, fun p _ => iff_of_false Bool.false_ne_true (absent p), consistent, apart⟩
  exact (pages_seen start (.single (.malloc run ⟨by decide, by decide⟩))).1

end LaiMiniOs
