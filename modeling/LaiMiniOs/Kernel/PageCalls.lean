import LaiMiniOs.Kernel.PageTables

/-! `malloc_page`, `get_a_page` and `mfree_page` on consistent page tables. -/

set_option autoImplicit false

namespace LaiMiniOs
open Foundation Prog Function

variable {page cnt vaddr pgCnt k : Nat} {r : Option Nat}

theorem Bitmap.bit_setRun (btmp : Bitmap) (i cnt j : Nat) (v : Bool) :
    (btmp.setRun i v cnt).bit j = if i ≤ j ∧ j < i + cnt then v else btmp.bit j := by
  induction cnt with
  | zero => rw [if_neg (by omega), Bitmap.setRun]
  | succ cnt ih =>
    grind [Bitmap.setRun, Bitmap.bit_set]

namespace Paging
variable {s t : Paging} {pending : Nat → Prop} {p q frame : Nat} {pf pool : PoolFlags}

theorem bit_setVaddr (s : Paging) (pf pf' : PoolFlags) (i cnt j : Nat) (v : Bool) :
    ((s.setVaddr pf i v cnt).vaddrBitmap pf').bit j = if pf' = pf ∧ i ≤ j ∧
    j < i + cnt then v else (s.vaddrBitmap pf').bit j := by
  by_cases same : pf' = pf
  · subst same
    have bits : (s.setVaddr pf' i v cnt).vaddr pf' = ((s.vaddrBitmap pf').setRun i v cnt).bits := update_self _ _ _
    have run := (s.vaddrBitmap pf').bit_setRun i cnt j v
    simp only [true_and, Bitmap.bit, vaddrBitmap, bits] at run ⊢
    exact run
  · have bits : (s.setVaddr pf i v cnt).vaddr pf' = s.vaddr pf' := update_of_ne same _ _
    simp only [same, false_and, if_false, Bitmap.bit, vaddrBitmap, bits]

def Run (s : Paging) (pf : PoolFlags) (page cnt : Nat) : Prop :=
  vaddrStart pf ≤ page ∧ page + cnt ≤ vaddrStart pf + 8 * s.vaddrBytesLen pf

theorem Run.managed (run : s.Run pf page cnt) (hk : k < cnt) : s.Managed pf (page + k) := by
  obtain ⟨low, high⟩ := run
  exact ⟨by omega, by omega⟩

theorem Run.marked (run : s.Run pf page cnt) (v : Bool) {pf' : PoolFlags} (managed : s.Managed pf' q) :
    (s.setVaddr pf (page - vaddrStart pf) v cnt).Marked pf' q ↔ if page ≤ q ∧
    q < page + cnt then v = true else s.Marked pf' q := by
  obtain ⟨low, high⟩ := run
  rw [Marked, bit_setVaddr]
  by_cases inside : page ≤ q ∧ q < page + cnt
  · obtain rfl : pf = pf' := Managed.unique (show s.Managed pf q from ⟨by omega, by omega⟩) managed
    rw [if_pos inside, if_pos ⟨rfl, by omega⟩]
  · have outside : ¬(pf' = pf ∧ page - vaddrStart pf ≤ q - vaddrStart pf' ∧
        q - vaddrStart pf' < page - vaddrStart pf + cnt) := by
      rintro ⟨rfl, lower, upper⟩
      have := managed.1
      omega
    rw [if_neg inside, if_neg outside]
    rfl

theorem Consistent.mark (consistent : s.Consistent pending) (run : s.Run pf page cnt)
    (absent : ∀ k, k < cnt → ¬s.Present (page + k)) :
    (s.setVaddr pf (page - vaddrStart pf) true cnt).Consistent fun q => pending q ∨ page ≤ q ∧ q < page + cnt := by
  refine ⟨fun pf' q managed => ?_, consistent.distinct, consistent.mapped, consistent.tables⟩
  rw [run.marked true managed]
  change s.Present q ↔ _
  by_cases inside : page ≤ q ∧ q < page + cnt
  · have gone : ¬s.Present q := by
      have := absent (q - page) (by omega)
      rwa [show page + (q - page) = q by omega] at this
    exact iff_of_false gone fun both => both.2 (.inr inside)
  · simpa only [inside, or_false, if_false] using consistent.present_iff pf' q managed

theorem Consistent.unmark (consistent : s.Consistent fun q => pending q ∨ page ≤ q ∧ q < page + cnt)
    (run : s.Run pf page cnt) :
    (s.setVaddr pf (page - vaddrStart pf) false cnt).Consistent pending := by
  refine ⟨fun pf' q managed => ?_, consistent.distinct, consistent.mapped, consistent.tables⟩
  rw [run.marked false managed]
  change s.Present q ↔ _
  have before := consistent.present_iff pf' q managed
  grind

def unmap (s : Paging) (pool : PoolFlags) (p : Nat) : Paging :=
  (s.setPool pool ((s.pte p).frame - s.phyAddrStart pool) false).setPte p { s.pte p with present := false }

theorem InPool.locates {pool' : PoolFlags} (inPool : s.InPool pool frame) (here : s.Locates pool' k frame) :
    pool' = pool := by
  obtain ⟨eq, bound⟩ := here
  cases pool <;> cases pool' <;> simp only [InPool, phyAddrStart, poolBitmap, freePages] at inPool eq bound <;> first
    | rfl
    | omega

theorem Locates.inPool (here : s.Locates pool k frame) : s.InPool pool frame := by
  obtain ⟨eq, bound⟩ := here
  cases pool <;> simp only [InPool, phyAddrStart, poolBitmap, freePages] at eq bound ⊢ <;> omega

structure Shrunk (s t : Paging) (freed : Nat → Prop) : Prop where
  layout : t.allFreePages = s.allFreePages ∧ t.user = s.user
  vaddr : t.vaddr = s.vaddr
  pde : t.pde = s.pde
  present : ∀ p, s.Home p → (t.Present p ↔ s.Present p ∧ ¬freed p)
  kept : ∀ p, s.Home p → s.Present p → ¬freed p → t.pte p = s.pte p
  bits : ∀ pf k, (t.poolBitmap pf).bit k = true ↔ (s.poolBitmap pf).bit k = true ∧ ∀ p, freed p →
    ¬s.Locates pf k (s.pte p).frame

theorem Consistent.unmap (consistent : s.Consistent pending) (apart : s.Apart) (managed : s.Managed pf p)
    (present : s.Present p)
    (inPool : s.InPool pool (s.pte p).frame) :
    (s.unmap pool p).Consistent (fun q => pending q ∨ q = p) ∧ (s.unmap pool p).Apart ∧
    Shrunk s (s.unmap pool p) (· = p) := by
  have home : s.Home p := ⟨pf, managed⟩
  obtain ⟨pool', k, located, taken⟩ := consistent.mapped p home present
  obtain rfl := inPool.locates located
  -- The state before the entry is written has the same tables.
  have apart₁ : (s.setPool pool' ((s.pte p).frame - s.phyAddrStart pool') false).Apart := ⟨apart.tables, apart.mapped⟩
  have present_iff {q : Nat} (home' : s.Home q) : (s.unmap pool' p).Present q ↔ s.Present q ∧ q ≠ p := by
    refine (apart₁.present_setPte home home' present.1 _).trans ?_
    by_cases here : q = p
    · simp [here]
    · simp only [here, if_false, ne_eq, not_false_eq_true, and_true]
      rfl
  have others {q : Nat} (home' : s.Home q) (present' : s.Present q) (other : q ≠ p) :
      (s.unmap pool' p).pte q = s.pte q :=
    (apart₁.pte_setPte home home' present.1 present'.1 _).trans (if_neg other)
  have bits (pf' : PoolFlags) (k' : Nat) :
      ((s.unmap pool' p).poolBitmap pf').bit k' = true ↔ (s.poolBitmap pf').bit k' = true ∧
        ¬s.Locates pf' k' (s.pte p).frame := by
    have index : (s.pte p).frame - s.phyAddrStart pool' = k := by
      have := located.1
      omega
    change ((s.setPool pool' _ false).poolBitmap pf').bit k' = true ↔ _
    rw [bit_setPool, index]
    by_cases here : pf' = pool' ∧ k' = k
    · simp [here, located]
    · have apart' : ¬s.Locates pf' k' (s.pte p).frame := fun there => here (there.unique located)
      simp [here, apart']
  refine ⟨⟨fun pf' q managed' => ?_, fun q q' home' home'' present' present'' same => ?_, fun q home' present' =>
    ?_, fun i covers table pf' k' there => ?_⟩,
    ⟨apart.tables, fun i q covers table home' present' => ?_⟩,
      ⟨⟨rfl, rfl⟩, rfl, rfl, fun q home' => present_iff home', fun q home' => others home', ?_⟩⟩
  · rw [present_iff ⟨pf', managed'⟩, consistent.present_iff pf' q managed', not_or, and_assoc]
    rfl
  · obtain ⟨before, other⟩ := (present_iff home').mp present'
    obtain ⟨before', other'⟩ := (present_iff home'').mp present''
    rw [others home' before other, others home'' before' other'] at same
    exact consistent.distinct q q' home' home'' before before' same
  · obtain ⟨before, other⟩ := (present_iff home').mp present'
    obtain ⟨pf', k', there, isSet⟩ := consistent.mapped q home' before
    rw [others home' before other]
    refine ⟨pf', k', there, (bits pf' k').mpr ⟨isSet, fun here => other ?_⟩⟩
    exact consistent.distinct q p home' home before present (there.1.trans here.1.symm)
  · exact (bits pf' k').mpr ⟨consistent.tables i covers table pf' k' there, fun here =>
      apart.mapped i p covers table home present (there.1.trans here.1.symm)⟩
  · obtain ⟨before, other⟩ := (present_iff home').mp present'
    rw [others home' before other]
    exact apart.mapped i q covers table home' before
  grind

theorem Shrunk.refl (s : Paging) : Shrunk s s fun _ => False where
  layout := ⟨rfl, rfl⟩
  vaddr := rfl
  pde := rfl
  present _ _ := (and_iff_left id).symm
  kept _ _ _ _ := rfl
  bits _ _ := (and_iff_left fun _ no => no.elim).symm

theorem Shrunk.home (shrunk : Shrunk s t pending) : t.Home p ↔ s.Home p := by
  obtain ⟨free, user⟩ := shrunk.layout
  simp only [Home, Managed, vaddrBytesLen, freePages, free, user]

theorem Shrunk.locates (shrunk : Shrunk s t pending) : t.Locates pf k frame ↔ s.Locates pf k frame := by
  obtain ⟨free, user⟩ := shrunk.layout
  cases pf <;> simp only [Locates, phyAddrStart, poolBitmap, freePages, free]

theorem Shrunk.tail {u : Paging} (first : Shrunk s t pending) (second : Shrunk t u (· = p)) (home : s.Home p)
    (present : t.Present p) :
    Shrunk s u fun q => pending q ∨ q = p := by
  obtain ⟨present', still⟩ := (first.present p home).mp present
  refine ⟨⟨second.layout.1.trans first.layout.1, second.layout.2.trans first.layout.2⟩,
    second.vaddr.trans first.vaddr, second.pde.trans first.pde, fun q home' => ?_,
    fun q home' before other => ?_, fun pf k => ?_⟩
  · rw [second.present q (first.home.mpr home'), first.present q home', not_or, and_assoc]
  · grind [second.kept, first.home, first.present, first.kept]
  grind [second.bits, first.bits, first.kept, first.locates]

end Paging

open Paging

section
variable {s t : Paging} {pending : Nat → Prop} {p q frame : Nat} {pf pool : PoolFlags}

theorem addrV2p_run (present : s.Present p) : addrV2p p s = .ok ((s.pte p).frame, s) := by
  rw [addrV2p, get_bind, require_bind present.1]
  rfl

theorem pfree_run (inPool : s.InPool pool frame) :
    pfree frame s = .ok ((), s.setPool pool (frame - s.phyAddrStart pool) false) := by
  rw [pfree, get_bind]
  cases pool with
  | kernel => rw [if_neg (Nat.not_le.mpr inPool.2), run_set]
  | user => rw [if_pos (show s.phyAddrStart .user ≤ frame from inPool), run_set]

theorem freePage_run (present : s.Present p) (inPool : s.InPool pool (s.pte p).frame) :
    freePage pool p s = .ok ((), s.unmap pool p) := by
  rw [freePage, bind_of_ok (addrV2p_run present), get_bind, require_bind inPool,
    bind_of_ok (pfree_run inPool), pageTablePteRemove, get_bind]
  exact require_bind present.1

theorem inPool_of_freePage (present : s.Present p) (run : freePage pool p s = .ok ((), t)) :
    s.InPool pool (s.pte p).frame := by
  rw [freePage, bind_of_ok (addrV2p_run present), get_bind] at run
  exact (require_bind_eq_ok.mp run).1

theorem Paging.InPool.congr (layout : t.allFreePages = s.allFreePages) : t.InPool pool frame ↔ s.InPool pool frame := by
  cases pool <;> simp only [InPool, phyAddrStart, freePages, layout]

theorem Paging.Managed.congr (layout : t.allFreePages = s.allFreePages ∧ t.user = s.user) : t.Managed pf p ↔
    s.Managed pf p := by
  simp only [Managed, vaddrBytesLen, freePages, layout.1, layout.2]

theorem freePages_consistent (consistent : s.Consistent pending) (apart : s.Apart)
    (pages : ∀ k, k < cnt → s.Managed pf (page + k) ∧ s.Present (page + k))
    (run : Prog.forUpTo (fun k => freePage pool (page + k)) cnt s = .ok ((), t)) :
    t.Consistent (fun q => pending q ∨ page ≤ q ∧ q < page + cnt) ∧ t.Apart ∧ Shrunk s t fun q => page ≤ q ∧
      q < page + cnt := by
  induction cnt generalizing t with
  | zero =>
    obtain rfl : s = t := (Prod.mk.inj (Except.ok.inj run)).2
    have none (q : Nat) : ¬(page ≤ q ∧ q < page + 0) := by omega
    simpa only [none, or_false] using ⟨consistent, apart, Shrunk.refl s⟩
  | succ cnt ih =>
    obtain ⟨_, u, before, last⟩ := bind_eq_ok.mp run
    obtain ⟨consistent', apart', shrunk⟩ := ih (fun k hk => pages k (by omega)) before
    obtain ⟨managed, present⟩ := pages cnt (by omega)
    have home : s.Home (page + cnt) := ⟨pf, managed⟩
    have present' : u.Present (page + cnt) := (shrunk.present _ home).mpr ⟨present, by omega⟩
    have inPool := inPool_of_freePage present' last
    obtain rfl : u.unmap pool (page + cnt) = t :=
      (Prod.mk.inj (Except.ok.inj ((freePage_run present' inPool).symm.trans last))).2
    obtain ⟨consistent'', apart'', step⟩ :=
      consistent'.unmap apart' ((Managed.congr shrunk.layout).mpr managed) present' inPool
    grind [shrunk.tail]

theorem freePages_total (consistent : s.Consistent pending) (apart : s.Apart)
    (pages : ∀ k, k < cnt → s.Managed pf (page + k) ∧ s.Present (page + k) ∧ s.InPool pool (s.pte (page + k)).frame) :
    ∃ t, Prog.forUpTo (fun k => freePage pool (page + k)) cnt s = .ok ((), t) := by
  induction cnt with
  | zero => exact ⟨s, rfl⟩
  | succ cnt ih =>
    obtain ⟨u, before⟩ := ih fun k hk => pages k (by omega)
    obtain ⟨-, -, shrunk⟩ :=
      freePages_consistent consistent apart (fun k hk => ⟨(pages k (by omega)).1, (pages k (by omega)).2.1⟩) before
    obtain ⟨managed, present, inPool⟩ := pages cnt (by omega)
    have still : ¬(page ≤ page + cnt ∧ page + cnt < page + cnt) := by omega
    have present' : u.Present (page + cnt) := (shrunk.present _ ⟨pf, managed⟩).mpr ⟨present, still⟩
    have entry := shrunk.kept _ ⟨pf, managed⟩ present still
    exact ⟨_, (bind_of_ok before).trans (freePage_run present' ((InPool.congr shrunk.layout.1).mpr (entry ▸ inPool)))⟩

theorem mallocPage_eq_ok (run : mallocPage pf pgCnt s = .ok (some vaddr, t)) :
    ∃ i, vaddr = (vaddrStart pf + i) * pgSize ∧ (0 < pgCnt) ∧
      (∀ j, j < pgCnt → (s.vaddrBitmap pf).bit (i + j) = false) ∧
      mapPages pf pgCnt (vaddrStart pf + i) (s.setVaddr pf i true pgCnt) = .ok (true, t) := by
  obtain ⟨range, run⟩ := require_bind_eq_ok.mp run
  rcases vaddrGet_cases s pf range.1 with ⟨-, none⟩ | ⟨-, error | ⟨i, clear, found⟩⟩
  · rw [bind_of_ok none] at run
    cases run
  · rw [bind_of_error error] at run
    cases run
  · rw [bind_of_ok found] at run
    obtain ⟨mapped, u, loop, result⟩ := bind_eq_ok.mp run
    cases mapped with
    | false => cases result
    | true =>
      cases result
      exact ⟨i, rfl, range.1, clear, loop⟩

theorem mfreePage_eq (range : 1 ≤ pgCnt ∧ vaddr % pgSize = 0) (present : s.Present (vaddr / pgSize))
    (high : 0x102 ≤ (s.pte (vaddr / pgSize)).frame) :
    mfreePage pf vaddr pgCnt s = (do
      Prog.forUpTo (fun k => freePage
        (if s.phyAddrStart .user ≤ (s.pte (vaddr / pgSize)).frame then .user else .kernel) (vaddr / pgSize + k)) pgCnt
      vaddrRemove pf vaddr pgCnt : PagingM Unit) s := by
  rw [mfreePage, require_bind range, bind_of_ok (addrV2p_run present), require_bind high]
  rfl

theorem mfreePage_eq_ok (present : s.Present (vaddr / pgSize)) (run : mfreePage pf vaddr pgCnt s = .ok ((), t)) :
    ∃ pool u, Prog.forUpTo (fun k => freePage pool (vaddr / pgSize + k)) pgCnt s = .ok ((), u) ∧
      t = u.setVaddr pf (vaddrBitIdx pf vaddr) false pgCnt := by
  have range := (require_bind_eq_ok.mp run).1
  have high : 0x102 ≤ (s.pte (vaddr / pgSize)).frame := by
    rw [mfreePage, require_bind range, bind_of_ok (addrV2p_run present)] at run
    exact (require_bind_eq_ok.mp run).1
  rw [mfreePage_eq range present high] at run
  obtain ⟨_, u, loop, last⟩ := bind_eq_ok.mp run
  exact ⟨_, u, loop, (Prod.mk.inj (Except.ok.inj last)).2.symm⟩

/-- What is left of a run that was mapped and freed again: the frames of the tables made for it. -/
structure Paging.Restored (s t : Paging) : Prop where
  vaddr : ∀ pf j, (t.vaddrBitmap pf).bit j = (s.vaddrBitmap pf).bit j
  present : ∀ p, s.Home p → (t.Present p ↔ s.Present p)
  pools : ∀ pf k, (t.poolBitmap pf).bit k = (s.poolBitmap pf).bit k ∨
    ∃ i, (s.pde i).present = false ∧ (t.pde i).present = true ∧ s.Locates pf k (t.pde i).frame

theorem Paging.Gained.restored {u : Paging} (grown : Gained s t pf fun q => page ≤ q ∧ q < page + cnt)
    (shrunk : Shrunk t u fun q => page ≤ q ∧ q < page + cnt) : (∀ p, s.Home p → (u.Present p ↔ s.Present p)) ∧
    ∀ pf k, (u.poolBitmap pf).bit k = (s.poolBitmap pf).bit k ∨
      ∃ i, (s.pde i).present = false ∧ (u.pde i).present = true ∧ s.Locates pf k (u.pde i).frame := by
  refine ⟨fun p home => ?_, fun pf' k => ?_⟩
  · grind [shrunk.present, home, grown.present, grown.absent]
  · rw [shrunk.pde, Bool.eq_iff_iff, shrunk.bits pf' k]
    cases before : (s.poolBitmap pf').bit k with
    | true =>
      refine .inl (iff_of_true ⟨grown.grows pf' k before, fun p inside there => ?_⟩ rfl)
      -- The frames of the run were free before.
      obtain ⟨-, k', here, free⟩ := grown.fresh p inside
      obtain ⟨rfl, rfl⟩ := here.unique (grown.locates.mp there)
      simp [before] at free
    | false =>
      grind [grown.bits, grown.locates]

theorem mfreePage_restores (pos : 0 < cnt) (consistent : t.Consistent fun _ => False) (apart : t.Apart)
    (run : s.Run pf page cnt)
    (clear : ∀ j, j < cnt → (s.vaddrBitmap pf).bit (page - vaddrStart pf + j) = false)
    (grown : Gained (s.setVaddr pf (page - vaddrStart pf) true cnt) t pf fun q => page ≤ q ∧ q < page + cnt) :
    ∃ u, mfreePage pf (page * pgSize) cnt t = .ok ((), u) ∧ s.Restored u := by
  have number : page * pgSize / pgSize = page := Nat.mul_div_cancel page (by decide)
  have managed (k : Nat) (hk : k < cnt) : t.Managed pf (page + k) := (Managed.congr grown.layout).mpr (run.managed hk)
  have frames (k : Nat) (hk : k < cnt) : t.InPool pf (t.pte (page + k)).frame := by
    obtain ⟨-, _, there, -⟩ := grown.fresh (page + k) ⟨by omega, by omega⟩
    exact (grown.locates.mpr there).inPool
  have present (k : Nat) (hk : k < cnt) : t.Present (page + k) :=
    (grown.present _ ⟨pf, run.managed hk⟩).mpr (.inr ⟨by omega, by omega⟩)
  obtain ⟨u, loop⟩ := freePages_total consistent apart fun k hk => ⟨managed k hk, present k hk, frames k hk⟩
  obtain ⟨-, -, shrunk⟩ := freePages_consistent consistent apart (fun k hk => ⟨managed k hk, present k hk⟩) loop
  have first := frames 0 pos
  have choice : (if t.phyAddrStart .user ≤ (t.pte page).frame then PoolFlags.user else .kernel) = pf := by
    cases pf with
    | kernel => exact if_neg (Nat.not_le.mpr first.2)
    | user => exact if_pos first
  have high : 0x102 ≤ (t.pte page).frame := by
    cases pf <;> simp only [InPool, phyAddrStart, Nat.add_zero] at first <;> omega
  obtain ⟨pages, pools⟩ := grown.restored shrunk
  refine ⟨u.setVaddr pf (vaddrBitIdx pf (page * pgSize)) false cnt, ?_, fun pf' j => ?_, pages, pools⟩
  · rw [mfreePage_eq ⟨pos, Nat.mul_mod_left page pgSize⟩ (number.symm ▸ present 0 pos) (number.symm ▸ high), number,
      choice, bind_of_ok loop]
    rfl
  · have index : vaddrBitIdx pf (page * pgSize) = page - vaddrStart pf := by
      rw [Managed.vaddrBitIdx (number.symm ▸ run.managed pos), number]
    have same : (u.vaddrBitmap pf').bit j = ((s.setVaddr pf (page - vaddrStart pf) true cnt).vaddrBitmap pf').bit j :=
      by
      simp only [Bitmap.bit, vaddrBitmap, shrunk.vaddr, grown.vaddr]
    rw [index, bit_setVaddr, same, bit_setVaddr]
    split
    next inside =>
      obtain ⟨rfl, low, above⟩ := inside
      have before := clear (j - (page - vaddrStart pf')) (by omega)
      grind
    next => rfl

theorem mallocPage_consistent (consistent : s.Consistent fun _ => False) (apart : s.Apart)
    (run : mallocPage pf pgCnt s = .ok (some vaddr, t)) (inside : s.Run pf (vaddr / pgSize) pgCnt) :
    t.Consistent (fun _ => False) ∧ t.Apart ∧ (t.allFreePages = s.allFreePages ∧ t.user = s.user) ∧
      (∀ k, k < pgCnt → ¬s.Present (vaddr / pgSize + k)) ∧
      (∀ p, s.Home p → (t.Present p ↔ s.Present p ∨ vaddr / pgSize ≤ p ∧ p < vaddr / pgSize + pgCnt)) ∧
      ∃ u, mfreePage pf vaddr pgCnt t = .ok ((), u) ∧ s.Restored u := by
  obtain ⟨i, rfl, pos, clear, loop⟩ := mallocPage_eq_ok run
  rw [Nat.mul_div_cancel _ (by decide : 0 < pgSize)] at inside ⊢
  generalize place : vaddrStart pf + i = page at inside loop ⊢
  obtain rfl : i = page - vaddrStart pf := by omega
  have absent (k : Nat) (hk : k < pgCnt) : ¬s.Present (page + k) := by
    rw [consistent.present_iff pf _ (inside.managed hk), Marked, show page + k - vaddrStart pf =
      page - vaddrStart pf + k by omega, clear k hk]
    simp
  have marked (k : Nat) (hk : k < pgCnt) : (s.setVaddr pf (page - vaddrStart pf) true pgCnt).Marked pf (page + k) := by
    rw [inside.marked true (inside.managed hk), if_pos (by omega)]
  obtain ⟨consistent', apart', grown⟩ :=
    mapPages_consistent (consistent.mark inside absent) ⟨apart.tables, apart.mapped⟩
    (fun k hk => ⟨inside.managed hk, marked k hk⟩) loop
  simp only [false_or, and_not_self] at consistent'
  exact ⟨consistent', apart', grown.layout, absent, grown.present,
    mfreePage_restores pos consistent' apart' inside clear grown⟩

theorem getAPageWithoutOpvaddrbitmap_eq_ok (run : getAPageWithoutOpvaddrbitmap pf vaddr s = .ok (r, t)) :
    ∃ i ∈ s.freeFrames pf, pageTableAdd (vaddr / pgSize) (s.phyAddrStart pf + i) (s.setPool pf i true) =
      .ok ((), t) := by
  rw [getAPageWithoutOpvaddrbitmap] at run
  rcases palloc_cases s pf with ⟨-, error⟩ | ⟨i, free, taken⟩
  · rw [bind_of_error error] at run
    cases run
  rw [bind_of_ok taken] at run
  obtain ⟨_, u, added, last⟩ := bind_eq_ok.mp run
  cases last
  exact ⟨i, free, added⟩

theorem getAPageWithoutOpvaddrbitmap_consistent (consistent : s.Consistent pending) (apart : s.Apart)
    (managed : s.Managed pf (vaddr / pgSize)) (marked : s.Marked pf (vaddr / pgSize))
    (run : getAPageWithoutOpvaddrbitmap pf vaddr s = .ok (r, t)) :
    t.Consistent (fun q => pending q ∧ q ≠ vaddr / pgSize) ∧ t.Apart := by
  obtain ⟨i, free, added⟩ := getAPageWithoutOpvaddrbitmap_eq_ok run
  obtain ⟨consistent', apart', -⟩ := consistent.mapPage apart managed marked free added
  exact ⟨consistent', apart'⟩

theorem getAPage_gains (consistent : s.Consistent fun _ => False) (apart : s.Apart)
    (managed : s.Managed pf (vaddr / pgSize)) (run : getAPage pf vaddr s = .ok (r, t)) :
    t.Consistent (fun _ => False) ∧ t.Apart ∧
      Gained (s.setVaddr pf (vaddr / pgSize - vaddrStart pf) true 1) t pf (· = vaddr / pgSize) := by
  obtain ⟨-, rest⟩ := getAPage_eq_ok run
  rw [managed.vaddrBitIdx] at rest
  have one : s.Run pf (vaddr / pgSize) 1 := ⟨managed.1, managed.2⟩
  obtain ⟨i, free, added⟩ := getAPageWithoutOpvaddrbitmap_eq_ok rest
  have absent : ¬s.Present (vaddr / pgSize) := (pageTableAdd_eq_ok added).1
  have marked : (s.setVaddr pf (vaddr / pgSize - vaddrStart pf) true 1).Marked pf (vaddr / pgSize) := by
    rw [one.marked true managed, if_pos (by omega)]
  have before := consistent.mark one fun k hk => by rwa [show k = 0 by omega]
  obtain ⟨consistent', apart', gained⟩ := before.mapPage ⟨apart.tables, apart.mapped⟩ managed marked free added
  grind

theorem mfreePage_consistent (consistent : s.Consistent fun _ => False) (apart : s.Apart)
    (pages : ∀ k, k < pgCnt → s.Managed pf (vaddr / pgSize + k) ∧ s.Present (vaddr / pgSize + k))
    (run : mfreePage pf vaddr pgCnt s = .ok ((), t)) :
    t.Consistent (fun _ => False) ∧ t.Apart ∧ (t.allFreePages = s.allFreePages ∧ t.user = s.user) ∧
      ∀ p, s.Home p → (t.Present p ↔ s.Present p ∧ ¬(vaddr / pgSize ≤ p ∧ p < vaddr / pgSize + pgCnt)) := by
  have pos : 0 < pgCnt := (require_bind_eq_ok.mp run).1.1
  obtain ⟨managed, present⟩ := pages 0 pos
  obtain ⟨pool, u, loop, rfl⟩ := mfreePage_eq_ok present run
  obtain ⟨consistent', apart', shrunk⟩ := freePages_consistent consistent apart pages loop
  have last := (pages (pgCnt - 1) (by omega)).1.2
  have inside : u.Run pf (vaddr / pgSize) pgCnt := by
    have low := managed.1
    refine ⟨low, ?_⟩
    simp only [vaddrBytesLen, freePages, shrunk.layout.1, shrunk.layout.2] at last ⊢
    omega
  rw [managed.vaddrBitIdx]
  exact ⟨consistent'.unmark inside, ⟨apart'.tables, apart'.mapped⟩, shrunk.layout, shrunk.present⟩

end

/-- The calls that map and unmap pages keep the page tables consistent with the bitmaps. A run that
`malloc_page` returns was not mapped before, and `mfree_page` of it gives everything back but the
frames of new tables. -/
theorem paging_stays_consistent {s s' : Paging} {pf : PoolFlags} {vaddr pgCnt : Nat} (apart : s.Apart) :
    (s.Consistent (fun _ => False) → mallocPage pf pgCnt s = .ok (some vaddr, s') → s.Run pf (vaddr / pgSize) pgCnt →
      s'.Consistent (fun _ => False) ∧ s'.Apart ∧
        (∀ k, k < pgCnt → ¬s.Present (vaddr / pgSize + k) ∧ s'.Present (vaddr / pgSize + k)) ∧
        ∃ s'', mfreePage pf vaddr pgCnt s' = .ok ((), s'') ∧ s.Restored s'') ∧
    (s.Consistent (fun _ => False) → getAPage pf vaddr s = .ok (some vaddr, s') → s.Managed pf (vaddr / pgSize) →
      s'.Consistent (fun _ => False) ∧ s'.Apart) ∧
    (∀ pending, s.Consistent pending → getAPageWithoutOpvaddrbitmap pf vaddr s = .ok (some vaddr, s') →
    s.Managed pf (vaddr / pgSize) →
      s.Marked pf (vaddr / pgSize) → s'.Consistent (fun q => pending q ∧ q ≠ vaddr / pgSize) ∧ s'.Apart) ∧
    (s.Consistent (fun _ => False) → mfreePage pf vaddr pgCnt s = .ok ((), s') →
      (∀ k, k < pgCnt → s.Managed pf (vaddr / pgSize + k) ∧ s.Present (vaddr / pgSize + k)) →
      s'.Consistent (fun _ => False) ∧ s'.Apart) :=
  ⟨fun consistent run inside => by
      obtain ⟨consistent', apart', -, absent, present, restored⟩ := mallocPage_consistent consistent apart run inside
      exact ⟨consistent', apart', fun k hk =>
        ⟨absent k hk, (present _ ⟨pf, inside.managed hk⟩).mpr (.inr ⟨by omega, by omega⟩)⟩, restored⟩,
    fun consistent run managed => by
      obtain ⟨consistent', apart', -⟩ := getAPage_gains consistent apart managed run
      exact ⟨consistent', apart'⟩,
    fun _ consistent run managed marked => getAPageWithoutOpvaddrbitmap_consistent consistent apart managed marked run,
    fun consistent run pages => by
      obtain ⟨consistent', apart', -⟩ := mfreePage_consistent consistent apart pages run
      exact ⟨consistent', apart'⟩⟩

def emptyPaging (user : Bool) : Paging :=
  ⟨32, fun _ => Memory.zero, fun _ => Memory.zero, user, fun _ => ⟨0, false⟩, fun _ _ => ⟨0, false⟩⟩

theorem emptyPaging_consistent (user : Bool) : (emptyPaging user).Consistent (fun _ => False) ∧
    (emptyPaging user).Apart := by
  have absent (p : Nat) : ¬(emptyPaging user).Present p := fun present => Bool.false_ne_true present.1
  have unmarked (pf : PoolFlags) (p : Nat) : ¬(emptyPaging user).Marked pf p := by
    simp [Marked, vaddrBitmap, emptyPaging, Bitmap.bit, Memory.zero]
  exact ⟨⟨fun pf p _ => iff_of_false (absent p) fun both => unmarked pf p both.1, fun p _ _ _ present =>
    absurd present (absent p),
    fun p _ present => absurd present (absent p), fun _ _ present => absurd present Bool.false_ne_true⟩,
    ⟨fun _ _ _ _ present => absurd present Bool.false_ne_true, fun _ _ _ present => absurd present Bool.false_ne_true⟩⟩

theorem paging_stays_consistent_two : ∃ s', mallocPage .kernel 2 (emptyPaging false) = .ok (some 0xc0100000, s') ∧
    s'.Consistent (fun _ => False) ∧
    s'.Present 0xc0101 := by
  obtain ⟨r, s', run, found⟩ := exists_of_yields (x := mallocPage .kernel 2) (s := emptyPaging false)
    (c := fun r _ => r == some 0xc0100000) (by decide +kernel)
  obtain rfl : r = some 0xc0100000 := by simpa using found
  obtain ⟨consistent, -, pages, -⟩ := (paging_stays_consistent (emptyPaging_consistent false).2).1
    (emptyPaging_consistent false).1 run ⟨by decide, by decide⟩
  exact ⟨s', run, consistent, (pages 1 (by decide)).2⟩

/-- The page at the start of the kernel's heap is mapped to the frame that its own page table is in. -/
def sharedPaging : Paging where
  allFreePages := 32
  pool _ i := if i = 0 then 1 else 0
  vaddr _ i := if i = 0 then 1 else 0
  user := false
  pde i := if i = 768 then ⟨0x200, true⟩ else ⟨0, false⟩
  table frame i := if frame = 0x200 ∧ i = 256 then ⟨0x200, true⟩ else ⟨0, false⟩

theorem present_sharedPaging {p : Nat} : sharedPaging.Present p ↔ p = 0xc0100 := by
  by_cases table : p / 1024 = 768
  · by_cases entry : p % 1024 = 256
    · exact iff_of_true (by simp [Present, pte, sharedPaging, table, entry]) (by omega)
    · exact iff_of_false (fun present => by simp [Present, pte, sharedPaging, table, entry] at present) (by omega)
  · exact iff_of_false (fun present => by simp [Present, sharedPaging, table] at present) (by omega)

theorem sharedPaging_consistent : sharedPaging.Consistent fun _ => False := by
  have bits : ∀ j, j < 16 → ((sharedPaging.vaddrBitmap .kernel).bit j = true ↔ j = 0) := by decide
  have located : sharedPaging.Locates .kernel 0 0x200 := ⟨rfl, by decide⟩
  have frame : (sharedPaging.pte 0xc0100).frame = 0x200 := rfl
  refine ⟨fun pf p managed => ?_, fun p q _ _ present present' _ => ?_, fun p _ present =>
    ?_, fun i _ present pool k there => ?_⟩
  · rw [present_sharedPaging, and_iff_left not_false]
    obtain ⟨low, high⟩ := managed
    cases pf with
    | kernel =>
      change 0xc0100 ≤ p at low
      change p < 0xc0100 + 16 at high
      grind [Marked, vaddrStart]
    | user =>
      change p < 0x8048 + 0 at high
      change 0x8048 ≤ p at low
      omega
  · exact (present_sharedPaging.mp present).trans (present_sharedPaging.mp present').symm
  · obtain rfl := present_sharedPaging.mp present
    exact ⟨.kernel, 0, frame ▸ located, by decide⟩
  · by_cases here : i = 768
    · subst here
      obtain ⟨rfl, rfl⟩ := located.unique there
      decide
    · simp [sharedPaging, here] at present

/-- A page that shares its frame with a page table takes the table's frame with it when it is freed,
and for a page of the kernel's range `get_a_page(PF_USER, ..)` stores behind the bitmap. -/
theorem paging_needs_apart :
    (∃ s', mfreePage .kernel 0xc0100000 1 sharedPaging = .ok ((), s') ∧ sharedPaging.Managed .kernel 0xc0100 ∧
    sharedPaging.Present 0xc0100 ∧
      sharedPaging.Consistent (fun _ => False) ∧ ¬s'.Consistent fun _ => False) ∧
    getAPage .user 0xc0100000 (emptyPaging true) = .error .undefined := by
  constructor
  · obtain ⟨⟨⟩, s', run, checks⟩ := exists_of_yields (x := mfreePage .kernel 0xc0100000 1) (s := sharedPaging)
      (c := fun _ s' => (s'.poolBitmap .kernel).bit 0 == false && (s'.pde 768).present &&
        (s'.pde 768).frame == 0x200 && s'.allFreePages == 32) (by decide +kernel)
    simp only [Bool.and_eq_true, beq_iff_eq] at checks
    obtain ⟨⟨⟨free, table⟩, frame⟩, layout⟩ := checks
    refine ⟨s', run, ⟨by decide, by decide⟩, present_sharedPaging.mpr rfl, sharedPaging_consistent,
      fun consistent => ?_⟩
    have covers : s'.Covers 768 :=
      ⟨0xc0100, ⟨.kernel, by decide, by simp [vaddrStart, vaddrBytesLen, freePages, layout]⟩, rfl⟩
    have taken := consistent.tables 768 covers table .kernel 0 ⟨frame, by simp [poolBitmap, freePages, layout]⟩
    simp [free] at taken
  · exact eq_error_of_stops (by decide +kernel)

end LaiMiniOs
