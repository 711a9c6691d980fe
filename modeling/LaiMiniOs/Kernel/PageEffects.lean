import LaiMiniOs.Foundation.Steps
import LaiMiniOs.Kernel.PageCalls

/-! What the calls of `kernel/memory.c` do to the bitmaps of virtual pages, in any state. -/

set_option autoImplicit false

namespace LaiMiniOs
open Foundation Prog

namespace Paging

structure SameRanges (s t : Paging) : Prop where
  layout : t.allFreePages = s.allFreePages ∧ t.user = s.user
  vaddr : t.vaddr = s.vaddr

theorem SameRanges.refl (s : Paging) : s.SameRanges s := ⟨⟨rfl, rfl⟩, rfl⟩

theorem SameRanges.trans {s t u : Paging} (first : s.SameRanges t) (second : t.SameRanges u) : s.SameRanges u :=
  ⟨⟨second.layout.1.trans first.layout.1, second.layout.2.trans first.layout.2⟩, second.vaddr.trans first.vaddr⟩

theorem SameRanges.vaddrBitmap {s t : Paging} (same : s.SameRanges t) (pf : PoolFlags) :
    t.vaddrBitmap pf = s.vaddrBitmap pf := by
  obtain ⟨⟨free, user⟩, vaddr⟩ := same
  cases pf <;> simp only [Paging.vaddrBitmap, vaddrBytesLen, freePages, free, user, vaddr]

end Paging

open Paging

theorem palloc_ranges (pf : PoolFlags) : Prog.Keeps SameRanges (palloc pf) := by
  refine .read fun s => ?_
  split
  · exact Prog.within_fail _ _
  · exact Prog.within_pure _ _
  · exact Prog.within_bind (Prog.within_set ⟨⟨rfl, rfl⟩, rfl⟩) fun _ _ => Prog.within_pure _ _

theorem installPte_ranges (page frame : Nat) : Prog.Keeps SameRanges (installPte page frame) :=
  .read fun _ => Prog.within_require_bind fun _ => Prog.within_set ⟨⟨rfl, rfl⟩, rfl⟩

theorem pageTableAdd_ranges (page frame : Nat) : Prog.Keeps SameRanges (pageTableAdd page frame) := by
  refine .read fun s => ?_
  refine Prog.within_ite (fun _ => (installPte_ranges page frame).within s) fun _ => ?_
  refine (Prog.Keeps.bind (palloc_ranges .kernel) fun _ => ?_).within s
  exact .bind (.change fun _ => ⟨⟨rfl, rfl⟩, rfl⟩) fun _ => installPte_ranges page frame

theorem mapPages_ranges (pf : PoolFlags) (cnt page : Nat) : Prog.Keeps SameRanges (mapPages pf cnt page) := by
  induction cnt generalizing page with
  | zero => exact .ret true
  | succ cnt ih =>
    refine .bind (palloc_ranges pf) fun frame => ?_
    cases frame with
    | none => exact .ret false
    | some frame => exact .bind (pageTableAdd_ranges page frame) fun _ => ih (page + 1)

theorem getAPageWithoutOpvaddrbitmap_ranges (pf : PoolFlags) (vaddr : Nat) :
    Prog.Keeps SameRanges (getAPageWithoutOpvaddrbitmap pf vaddr) := by
  refine .bind (palloc_ranges pf) fun frame => ?_
  cases frame with
  | none => exact .ret none
  | some frame => exact .bind (pageTableAdd_ranges _ frame) fun _ => .ret _

theorem addrV2p_ranges (page : Nat) : Prog.Keeps SameRanges (addrV2p page) :=
  .read fun _ => Prog.within_require_bind fun _ => Prog.within_pure _ _

theorem pfree_ranges (frame : Nat) : Prog.Keeps SameRanges (pfree frame) :=
  .read fun _ => Prog.within_ite (fun _ => Prog.within_set ⟨⟨rfl, rfl⟩, rfl⟩) fun _ => Prog.within_set ⟨⟨rfl, rfl⟩, rfl⟩

theorem freePage_ranges (pool : PoolFlags) (page : Nat) : Prog.Keeps SameRanges (freePage pool page) := by
  refine .bind (addrV2p_ranges page) fun frame => .bind .look fun s => .bind (.check _ _) fun _ =>
    .bind (pfree_ranges frame) fun _ => ?_
  exact .read fun _ => Prog.within_require_bind fun _ => Prog.within_set ⟨⟨rfl, rfl⟩, rfl⟩

section
variable {s t : Paging} {pf : PoolFlags} {A : Type}

theorem sameRanges_of_run {x : PagingM A} {a : A} (keeps : Prog.Keeps SameRanges x) (run : x s = .ok (a, t)) :
    s.SameRanges t :=
  (keeps.within s).run SameRanges.refl (fun _ _ _ => SameRanges.trans) run

theorem vaddrGet_eq_ok {pgCnt : Nat} {r : Option Nat} (run : vaddrGet pf pgCnt s = .ok (r, t)) :
    ((s.vaddrBitmap pf).scan pgCnt = .ok none ∧ r = none ∧ t = s) ∨
    ∃ i, (s.vaddrBitmap pf).scan pgCnt = .ok (some i) ∧ r = some (vaddrStart pf + i) ∧
      t = s.setVaddr pf i true pgCnt := by
  rw [vaddrGet, get_bind] at run
  cases scan : (s.vaddrBitmap pf).scan pgCnt with
  | error fault =>
    simp only [scan] at run
    cases run
  | ok found =>
    simp only [scan] at run
    cases found with
    | none =>
      cases run
      exact .inl ⟨rfl, rfl, rfl⟩
    | some i =>
      rw [set_bind] at run
      obtain ⟨_, u, tested, last⟩ := bind_eq_ok.mp run
      have same : u = s.setVaddr pf i true pgCnt := by grind [run_when_of, require_eq_ok, run_when_of_not]
      cases last
      exact .inr ⟨i, rfl, rfl, same⟩

theorem mallocPage_marks {pgCnt : Nat} {r : Option Nat} (run : mallocPage pf pgCnt s = .ok (r, t)) :
    ((s.vaddrBitmap pf).scan pgCnt = .ok none ∧ r = none ∧ t = s) ∨
    ∃ i, (s.vaddrBitmap pf).scan pgCnt = .ok (some i) ∧ r = some ((vaddrStart pf + i) * pgSize) ∧
      (s.setVaddr pf i true pgCnt).SameRanges t := by
  obtain ⟨page, u, got, rest⟩ := bind_eq_ok.mp (require_bind_eq_ok.mp run).2
  rcases vaddrGet_eq_ok got with ⟨scan, rfl, rfl⟩ | ⟨i, scan, rfl, rfl⟩
  · cases rest
    exact .inl ⟨scan, rfl, rfl⟩
  · obtain ⟨mapped, v, loop, last⟩ := bind_eq_ok.mp rest
    have same := sameRanges_of_run (mapPages_ranges pf pgCnt _) loop
    rcases mapPages_cases (s.setVaddr pf i true pgCnt) pf pgCnt (vaddrStart pf + i) with error | ⟨_, whole, -⟩
    · cases error.symm.trans loop
    · cases whole.symm.trans loop
      cases last
      exact .inr ⟨i, scan, rfl, same⟩

theorem mallocPage_one {r : Option Nat} (run : mallocPage pf 1 s = .ok (r, t)) :
    ∃ i, r = some ((vaddrStart pf + i) * pgSize) ∧ i < 8 * s.vaddrBytesLen pf ∧ (s.vaddrBitmap pf).bit i = false ∧
      (s.setVaddr pf i true 1).SameRanges t := by
  rcases mallocPage_marks run with ⟨scan, -, -⟩ | ⟨i, scan, rfl, same⟩
  · obtain ⟨_, absurd, -⟩ := Bitmap.scan_one_eq_ok.mp scan
    cases absurd
  · obtain ⟨_, found, inside, clear, -⟩ := Bitmap.scan_one_eq_ok.mp scan
    cases found
    exact ⟨i, rfl, inside, clear, same⟩

theorem mfreePage_clears {vaddr pgCnt : Nat} (run : mfreePage pf vaddr pgCnt s = .ok ((), t)) :
    (s.setVaddr pf (vaddrBitIdx pf vaddr) false pgCnt).SameRanges t := by
  obtain ⟨frame, u, address, rest⟩ := bind_eq_ok.mp (require_bind_eq_ok.mp run).2
  obtain ⟨-, counted⟩ := require_bind_eq_ok.mp rest
  rw [get_bind] at counted
  obtain ⟨_, v, loop, last⟩ := bind_eq_ok.mp counted
  have same := (sameRanges_of_run (addrV2p_ranges _) address).trans
    (sameRanges_of_run (.loop (fun _ => freePage_ranges _ _) pgCnt) loop)
  cases last
  refine ⟨same.layout, ?_⟩
  simp only [setVaddr, same.vaddr, same.vaddrBitmap]

end

end LaiMiniOs
