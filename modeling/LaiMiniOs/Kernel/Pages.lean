import Mathlib.Data.Finset.Card
import Mathlib.Logic.Function.Basic
import LaiMiniOs.Kernel.Bitmap

/-! Pages and frames, from `kernel/memory.c`.

Pages and frames are named by their numbers: every start address of a pool or of a virtual range is a
multiple of `PG_SIZE`. A directory or table entry is a frame number with the bit `PG_P_1`; the bits
`PG_US_U` and `PG_RW_W` are set in every entry. The tables are kept by the frame they are in, because
the code reaches them through the directory. The locks of the pools only exclude other tasks.
-/

set_option autoImplicit false

namespace LaiMiniOs
open Foundation Prog Function

def pgSize : Nat := 4096

inductive PoolFlags where
  | kernel
  | user
  deriving DecidableEq

structure PageEntry where
  frame : Nat
  present : Bool
  deriving DecidableEq

structure Paging where
  /-- `all_free_pages` of `mem_pool_init`, a `uint16_t`. -/
  allFreePages : BitVec 16
  /-- The bits of `kernel_pool` and `user_pool`. -/
  pool : PoolFlags → Memory
  /-- The bits of `kernel_vaddr` and of the running task's `userprog_vaddr`. -/
  vaddr : PoolFlags → Memory
  /-- The running task has a page directory of its own. -/
  user : Bool
  /-- The page directory. -/
  pde : Nat → PageEntry
  /-- The page table in a frame. -/
  table : Nat → Nat → PageEntry

def Bitmap.setRun (btmp : Bitmap) (bitIdxStart : Nat) (value : Bool) : Nat → Bitmap
  | 0 => btmp
  | cnt + 1 => (btmp.setRun bitIdxStart value cnt).set (bitIdxStart + cnt) value

abbrev PagingM := Prog Paging

namespace Paging

variable (s : Paging)

def freePages : PoolFlags → Nat
  | .kernel => s.allFreePages.toNat / 2
  | .user => s.allFreePages.toNat - s.allFreePages.toNat / 2

/-- `phy_addr_start`: behind the low megabyte and the 256 frames of the kernel's page tables. -/
def phyAddrStart : PoolFlags → Nat
  | .kernel => 0x200
  | .user => 0x200 + s.freePages .kernel

def poolBitmap (pf : PoolFlags) : Bitmap := ⟨s.freePages pf / 8, s.pool pf⟩

def vaddrStart : PoolFlags → Nat
  | .kernel => 0xc0100
  | .user => 0x8048

def vaddrBytesLen : PoolFlags → Nat
  | .kernel => s.freePages .kernel / 8
  | .user => if s.user then (0xc0000 - 0x8048) / 8 else 0

def vaddrBitmap (pf : PoolFlags) : Bitmap := ⟨s.vaddrBytesLen pf, s.vaddr pf⟩

def setPool (pf : PoolFlags) (bitIdx : Nat) (value : Bool) : Paging :=
  { s with pool := update s.pool pf ((s.poolBitmap pf).set bitIdx value).bits }

def setVaddr (pf : PoolFlags) (bitIdxStart : Nat) (value : Bool) (cnt : Nat) : Paging :=
  { s with vaddr := update s.vaddr pf ((s.vaddrBitmap pf).setRun bitIdxStart value cnt).bits }

def pte (page : Nat) : PageEntry := s.table (s.pde (page / 1024)).frame (page % 1024)

def setPte (page : Nat) (entry : PageEntry) : Paging :=
  let frame := (s.pde (page / 1024)).frame
  { s with table := update s.table frame (update (s.table frame) (page % 1024) entry) }

def setPde (idx frame : Nat) : Paging :=
  { s with pde := update s.pde idx ⟨frame, true⟩, table := update s.table frame fun _ => ⟨0, false⟩ }

end Paging

def vaddrGet (pf : PoolFlags) (pgCnt : Nat) : PagingM (Option Nat) := do
  let s ← get
  match (s.vaddrBitmap pf).scan pgCnt with
  | .error fault => .fail fault
  | .ok none => return none
  | .ok (some bitIdxStart) =>
    set (s.setVaddr pf bitIdxStart true pgCnt)
    let page := Paging.vaddrStart pf + bitIdxStart
    Prog.when (pf = .user) (Prog.assert (page < 0xc0000 - 1))
    return some page

def palloc (pf : PoolFlags) : PagingM (Option Nat) := do
  let s ← get
  match (s.poolBitmap pf).scan 1 with
  | .error fault => .fail fault
  | .ok none => return none
  | .ok (some bitIdx) =>
    set (s.setPool pf bitIdx true)
    return some (s.phyAddrStart pf + bitIdx)

def installPte (page frame : Nat) : PagingM Unit := do
  let s ← get
  Prog.assert ((s.pte page).present = false)
  set (s.setPte page ⟨frame, true⟩)

def pageTableAdd (page frame : Nat) : PagingM Unit := do
  let s ← get
  if (s.pde (page / 1024)).present then installPte page frame
  else
    let pdePhyaddr ← palloc .kernel
    modify fun s => s.setPde (page / 1024) (pdePhyaddr.getD 0)
    installPte page frame

def mapPages (pf : PoolFlags) : Nat → Nat → PagingM Bool
  | 0, _ => return true
  | cnt + 1, page => do
    match ← palloc pf with
    | none => return false
    | some frame =>
      pageTableAdd page frame
      mapPages pf cnt (page + 1)

/-- `malloc_page`: the address of the first page, `none` for `NULL`. -/
def mallocPage (pf : PoolFlags) (pgCnt : Nat) : PagingM (Option Nat) := do
  Prog.assert (0 < pgCnt ∧ pgCnt < 3840)
  match ← vaddrGet pf pgCnt with
  | none => return none
  | some page =>
    let mapped ← mapPages pf pgCnt page
    return if mapped then some (page * pgSize) else none

def getAPageWithoutOpvaddrbitmap (pf : PoolFlags) (vaddr : Nat) : PagingM (Option Nat) := do
  match ← palloc pf with
  | none => return none
  | some frame =>
    pageTableAdd (vaddr / pgSize) frame
    return some vaddr

def vaddrBitIdx (pf : PoolFlags) (vaddr : Nat) : Nat := (vaddr / pgSize + 0x100000 - Paging.vaddrStart pf) % 0x100000

/-- The `bitmap_set` of `get_a_page`, which does not look at the length of the map: for an address
outside the range of the pool it stores behind the map. -/
def vaddrMark (pf : PoolFlags) (vaddr : Nat) : PagingM Unit := do
  let s ← get
  Prog.require (vaddrBitIdx pf vaddr < 8 * s.vaddrBytesLen pf) .undefined
  set (s.setVaddr pf (vaddrBitIdx pf vaddr) true 1)

def getAPage (pf : PoolFlags) (vaddr : Nat) : PagingM (Option Nat) := do
  let s ← get
  if s.user ∧ pf = .user then vaddrMark pf vaddr
  else if ¬s.user ∧ pf = .kernel then
    Prog.assert (0 < vaddrBitIdx pf vaddr)
    vaddrMark pf vaddr
  else .fail .assertion
  getAPageWithoutOpvaddrbitmap pf vaddr

def addrV2p (page : Nat) : PagingM Nat := do
  let s ← get
  Prog.require ((s.pde (page / 1024)).present = true) .undefined
  return (s.pte page).frame

def pfree (frame : Nat) : PagingM Unit := do
  let s ← get
  if s.phyAddrStart .user ≤ frame then set (s.setPool .user (frame - s.phyAddrStart .user) false)
  else set (s.setPool .kernel (frame - s.phyAddrStart .kernel) false)

def pageTablePteRemove (page : Nat) : PagingM Unit := do
  let s ← get
  Prog.require ((s.pde (page / 1024)).present = true) .undefined
  set (s.setPte page { s.pte page with present := false })

/-- The assertion of the two loops of `mfree_page`: the frame belongs to the pool of the first one. -/
def Paging.InPool (s : Paging) (pool : PoolFlags) (frame : Nat) : Prop :=
  match pool with
  | .kernel => s.phyAddrStart .kernel ≤ frame ∧ frame < s.phyAddrStart .user
  | .user => s.phyAddrStart .user ≤ frame

instance (s : Paging) (pool : PoolFlags) (frame : Nat) : Decidable (s.InPool pool frame) := 
  match pool with
  | .kernel => inferInstanceAs (Decidable (s.phyAddrStart .kernel ≤ frame ∧ frame < s.phyAddrStart .user))
  | .user => inferInstanceAs (Decidable (s.phyAddrStart .user ≤ frame))

def freePage (pool : PoolFlags) (page : Nat) : PagingM Unit := do
  let frame ← addrV2p page
  let s ← get
  Prog.assert (s.InPool pool frame)
  pfree frame
  pageTablePteRemove page

def vaddrRemove (pf : PoolFlags) (vaddr pgCnt : Nat) : PagingM Unit :=
  modify fun s => s.setVaddr pf (vaddrBitIdx pf vaddr) false pgCnt

def mfreePage (pf : PoolFlags) (vaddr pgCnt : Nat) : PagingM Unit := do
  Prog.assert (1 ≤ pgCnt ∧ vaddr % pgSize = 0)
  let page := vaddr / pgSize
  let frame ← addrV2p page
  Prog.assert (0x102 ≤ frame)
  let s ← get
  let pool := if s.phyAddrStart .user ≤ frame then PoolFlags.user else .kernel
  Prog.forUpTo (fun k => freePage pool (page + k)) pgCnt
  vaddrRemove pf vaddr pgCnt

section
variable {s s' : Paging} {pf : PoolFlags}

def Paging.freeFrames (s : Paging) (pf : PoolFlags) : Finset Nat :=
  (Finset.range (8 * (s.poolBitmap pf).btmpBytesLen)).filter fun i => (s.poolBitmap pf).bit i = false

theorem mem_freeFrames {i : Nat} : i ∈ s.freeFrames pf ↔ i < 8 * (s.poolBitmap pf).btmpBytesLen ∧
    (s.poolBitmap pf).bit i = false := by
  rw [Paging.freeFrames, Finset.mem_filter, Finset.mem_range]

theorem poolBitmap_setPool (s : Paging) (pf pf' : PoolFlags) (i : Nat) (v : Bool) :
    (s.setPool pf i v).poolBitmap pf' = if pf' = pf then (s.poolBitmap pf').set i v else s.poolBitmap pf' := by
  by_cases same : pf' = pf
  · subst same
    simp only [Paging.poolBitmap, Paging.setPool, update_self, if_true]
    rfl
  · simp only [Paging.poolBitmap, Paging.setPool, update_of_ne same, same, if_false]
    rfl

theorem freeFrames_setPool (s : Paging) (pf pf' : PoolFlags) (i : Nat) :
    (s.setPool pf i true).freeFrames pf' = if pf' = pf then (s.freeFrames pf').erase i else s.freeFrames pf' := by
  ext k
  rw [mem_freeFrames, poolBitmap_setPool]
  by_cases same : pf' = pf
  · by_cases here : k = i
    · simp [same, here]
    · simp [same, here, mem_freeFrames]
  · simp [same, mem_freeFrames]

theorem palloc_cases (s : Paging) (pf : PoolFlags) :
    (s.freeFrames pf = ∅ ∧ palloc pf s = .error .assertion) ∨
    ∃ i ∈ s.freeFrames pf, palloc pf s = .ok (some (s.phyAddrStart pf + i), s.setPool pf i true) := by
  cases scan : (s.poolBitmap pf).scan 1 with
  | error fault =>
    rcases (s.poolBitmap pf).scan_cases Nat.one_pos with ⟨full, error⟩ | ⟨-, none⟩ | ⟨-, i, some, -⟩
    · obtain rfl : fault = .assertion := Except.error.inj (scan.symm.trans error)
      refine .inl ⟨Finset.eq_empty_of_forall_notMem fun i member => ?_, ?_⟩
      · obtain ⟨inside, clear⟩ := mem_freeFrames.mp member
        simp [full i inside] at clear
      · rw [palloc, get_bind]
        simp [scan]
    · simp [scan] at none
    · simp [scan] at some
  | ok found =>
    obtain ⟨i, rfl, inside, clear, -⟩ := Bitmap.scan_one_eq_ok.mp scan
    refine .inr ⟨i, mem_freeFrames.mpr ⟨inside, clear⟩, ?_⟩
    rw [palloc, get_bind]
    simp only [scan]
    rfl

theorem pageTableAdd_cases (s : Paging) (page frame : Nat) :
    pageTableAdd page frame s = .error .assertion ∨
    ∃ s', pageTableAdd page frame s = .ok ((), s') ∧ ∀ pf, s'.freeFrames pf ⊆ s.freeFrames pf := by
  have install (s : Paging) : installPte page frame s = .error .assertion ∨
      installPte page frame s = .ok ((), s.setPte page ⟨frame, true⟩) := by
    rw [installPte, get_bind]
    by_cases absent : (s.pte page).present = false
    · rw [require_bind absent]
      exact .inr rfl
    · rw [bind_of_error (by rw [run_require, if_neg absent])]
      exact .inl rfl
  rw [pageTableAdd, get_bind]
  split
  · rcases install s with error | run
    · exact .inl error
    · exact .inr ⟨_, run, fun pf => subset_rfl⟩
  · rcases palloc_cases s .kernel with ⟨-, error⟩ | ⟨i, member, run⟩
    · exact .inl (bind_of_error error)
    rw [bind_of_ok run, modify_bind]
    rcases install ((s.setPool .kernel i true).setPde (page / 1024) ((some (s.phyAddrStart .kernel + i)).getD 0))
      with error | run
    · exact .inl error
    · refine .inr ⟨_, run, fun pf => ?_⟩
      change (s.setPool .kernel i true).freeFrames pf ⊆ s.freeFrames pf
      grind [freeFrames_setPool]

/-- The loop of `malloc_page` never takes its early return: it ends with all pages mapped, for which
there must have been enough frames, or at a failed assertion. -/
theorem mapPages_cases (s : Paging) (pf : PoolFlags) (cnt page : Nat) :
    mapPages pf cnt page s = .error .assertion ∨
    ∃ s', mapPages pf cnt page s = .ok (true, s') ∧ cnt ≤ (s.freeFrames pf).card := by
  induction cnt generalizing s page with
  | zero => exact .inr ⟨s, rfl, Nat.zero_le _⟩
  | succ cnt ih =>
    rw [mapPages]
    rcases palloc_cases s pf with ⟨-, error⟩ | ⟨i, member, run⟩
    · exact .inl (bind_of_error error)
    rw [bind_of_ok run]
    rcases pageTableAdd_cases (s.setPool pf i true) page (s.phyAddrStart pf + i) with error | ⟨t, run, fewer⟩
    · exact .inl (bind_of_error error)
    refine (ih t (page + 1)).imp (fun error => (bind_of_ok run).trans error) fun ⟨s', rest, enough⟩ => ?_
    refine ⟨s', (bind_of_ok run).trans rest, ?_⟩
    have count := Finset.card_le_card (fewer pf)
    grind [freeFrames_setPool]

theorem vaddrGet_cases (s : Paging) (pf : PoolFlags) {pgCnt : Nat} (pos : 0 < pgCnt) :
    ((s.vaddrBitmap pf).Fragmented pgCnt ∧ vaddrGet pf pgCnt s = .ok (none, s)) ∨
    ¬(s.vaddrBitmap pf).Fragmented pgCnt ∧ (vaddrGet pf pgCnt s = .error .assertion ∨
      ∃ i, (∀ j, j < pgCnt → (s.vaddrBitmap pf).bit (i + j) = false) ∧
        vaddrGet pf pgCnt s = .ok (some (Paging.vaddrStart pf + i), s.setVaddr pf i true pgCnt)) := by
  rw [vaddrGet, get_bind]
  rcases (s.vaddrBitmap pf).scan_cases pos with ⟨full, scan⟩ | ⟨fragmented, scan⟩ | ⟨room, i, scan, clear⟩
  · refine .inr ⟨fun fragmented => ?_, .inl (by simp [scan])⟩
    obtain ⟨i, inside, clear⟩ := fragmented.1
    simp [full i inside] at clear
  · exact .inl ⟨fragmented, by simp [scan]⟩
  · refine .inr ⟨room, ?_⟩
    simp only [scan]
    rw [set_bind]
    by_cases inside : pf = .user → Paging.vaddrStart pf + i < 0xc0000 - 1
    · refine .inr ⟨i, clear, ?_⟩
      by_cases user : pf = .user
      · rw [bind_of_ok ((run_when_of user _ _).trans (run_require_of (inside user) _))]
        rfl
      · rw [bind_of_ok (run_when_of_not user _ _)]
        rfl
    grind [bind_of_error, run_when_of, run_require]

inductive PageRequest where
  | mallocPage (pf : PoolFlags) (pgCnt : Nat)
  | getAPage (pf : PoolFlags) (vaddr : Nat)

def PageRequest.run : PageRequest → PagingM (Option Nat)
  | mallocPage pf pgCnt => LaiMiniOs.mallocPage pf pgCnt
  | getAPage pf vaddr => LaiMiniOs.getAPage pf vaddr

def PageRequest.Fragmented (s : Paging) : PageRequest → Prop
  | mallocPage pf pgCnt => 0 < pgCnt ∧ pgCnt < 3840 ∧ (s.vaddrBitmap pf).Fragmented pgCnt
  | getAPage _ _ => False

def PageRequest.FramesShort (s : Paging) : PageRequest → Prop
  | mallocPage pf pgCnt => (s.freeFrames pf).card < pgCnt
  | getAPage pf _ => (s.freeFrames pf).card < 1

def PageRequest.Outside (s : Paging) : PageRequest → Prop
  | mallocPage _ _ => False
  | getAPage pf vaddr => 8 * s.vaddrBytesLen pf ≤ vaddrBitIdx pf vaddr

theorem mallocPage_cases (s : Paging) (pf : PoolFlags) (pgCnt : Nat) :
    ((PageRequest.mallocPage pf pgCnt).Fragmented s ∧ mallocPage pf pgCnt s = .ok (none, s)) ∨
    ¬(PageRequest.mallocPage pf pgCnt).Fragmented s ∧ (mallocPage pf pgCnt s = .error .assertion ∨
      pgCnt ≤ (s.freeFrames pf).card ∧ ∃ vaddr s', mallocPage pf pgCnt s = .ok (some vaddr, s')) := by
  rw [mallocPage]
  by_cases range : 0 < pgCnt ∧ pgCnt < 3840
  swap
  · exact .inr ⟨fun fragmented => range ⟨fragmented.1, fragmented.2.1⟩,
      .inl (bind_of_error (by rw [run_require, if_neg range]))⟩
  rw [require_bind range]
  rcases vaddrGet_cases s pf range.1 with ⟨fragmented, run⟩ | ⟨room, error | ⟨i, -, run⟩⟩
  · exact .inl ⟨⟨range.1, range.2, fragmented⟩, bind_of_ok run⟩
  · exact .inr ⟨fun fragmented => room fragmented.2.2, .inl (bind_of_error error)⟩
  · refine .inr ⟨fun fragmented => room fragmented.2.2, ?_⟩
    rw [bind_of_ok run]
    rcases mapPages_cases (s.setVaddr pf i true pgCnt) pf pgCnt (Paging.vaddrStart pf + i)
      with error | ⟨s', mapped, enough⟩
    · exact .inl (bind_of_error error)
    · exact .inr ⟨enough, _, s', bind_of_ok mapped⟩

theorem getAPageWithoutOpvaddrbitmap_cases (s : Paging) (pf : PoolFlags) (vaddr : Nat) :
    getAPageWithoutOpvaddrbitmap pf vaddr s = .error .assertion ∨
    1 ≤ (s.freeFrames pf).card ∧ ∃ s', getAPageWithoutOpvaddrbitmap pf vaddr s = .ok (some vaddr, s') := by
  rw [getAPageWithoutOpvaddrbitmap]
  rcases palloc_cases s pf with ⟨-, error⟩ | ⟨i, member, run⟩
  · exact .inl (bind_of_error error)
  rw [bind_of_ok run]
  rcases pageTableAdd_cases (s.setPool pf i true) (vaddr / pgSize) (s.phyAddrStart pf + i) with error | ⟨s', run, -⟩
  · exact .inl (bind_of_error error)
  · exact .inr ⟨Finset.card_pos.mpr ⟨i, member⟩, s', bind_of_ok run⟩

theorem getAPage_eq_ok {vaddr : Nat} {r : Option Nat} (run : getAPage pf vaddr s = .ok (r, s')) :
    vaddrBitIdx pf vaddr < 8 * s.vaddrBytesLen pf ∧
      getAPageWithoutOpvaddrbitmap pf vaddr (s.setVaddr pf (vaddrBitIdx pf vaddr) true 1) = .ok (r, s') := by
  have marked {t : Paging} (mark : vaddrMark pf vaddr s = .ok ((), t)) :
      vaddrBitIdx pf vaddr < 8 * s.vaddrBytesLen pf ∧ t = s.setVaddr pf (vaddrBitIdx pf vaddr) true 1 := by
    rw [vaddrMark, get_bind] at mark
    obtain ⟨inside, mark⟩ := require_bind_eq_ok.mp mark
    cases mark
    exact ⟨inside, rfl⟩
  rw [getAPage, get_bind] at run
  split at run
  · obtain ⟨⟨⟩, t, mark, run⟩ := bind_eq_ok.mp run
    obtain ⟨inside, rfl⟩ := marked mark
    exact ⟨inside, run⟩
  split at run
  · obtain ⟨⟨⟩, t, mark, run⟩ := bind_eq_ok.mp (require_bind_eq_ok.mp run).2
    obtain ⟨inside, rfl⟩ := marked mark
    exact ⟨inside, run⟩
  · cases run

theorem getAPage_cases (s : Paging) (pf : PoolFlags) (vaddr : Nat) :
    getAPage pf vaddr s = .error .assertion ∨
    (PageRequest.getAPage pf vaddr).Outside s ∧ getAPage pf vaddr s = .error .undefined ∨
    1 ≤ (s.freeFrames pf).card ∧ ∃ s', getAPage pf vaddr s = .ok (some vaddr, s') := by
  have mark : (PageRequest.getAPage pf vaddr).Outside s ∧ vaddrMark pf vaddr s = .error .undefined ∨
      vaddrMark pf vaddr s = .ok ((), s.setVaddr pf (vaddrBitIdx pf vaddr) true 1) := by
    rw [vaddrMark, get_bind]
    by_cases inside : vaddrBitIdx pf vaddr < 8 * s.vaddrBytesLen pf
    · exact .inr (require_bind inside)
    · exact .inl ⟨Nat.le_of_not_lt inside, bind_of_error (by rw [run_require, if_neg inside])⟩
  -- The end of both branches that go on.
  have rest : (vaddrMark pf vaddr >>= fun _ => getAPageWithoutOpvaddrbitmap pf vaddr) s = .error .assertion ∨
      (PageRequest.getAPage pf vaddr).Outside s ∧
        (vaddrMark pf vaddr >>= fun _ => getAPageWithoutOpvaddrbitmap pf vaddr) s = .error .undefined ∨
      1 ≤ (s.freeFrames pf).card ∧
        ∃ s', (vaddrMark pf vaddr >>= fun _ => getAPageWithoutOpvaddrbitmap pf vaddr) s = .ok (some vaddr, s') := by
    rcases mark with ⟨outside, error⟩ | marked
    · exact .inr (.inl ⟨outside, bind_of_error error⟩)
    rw [bind_of_ok marked]
    exact (getAPageWithoutOpvaddrbitmap_cases _ pf vaddr).imp_right .inr
  rw [getAPage, get_bind]
  split
  · exact rest
  split
  · by_cases above : 0 < vaddrBitIdx pf vaddr
    · rw [require_bind above]
      exact rest
    · exact .inl (bind_of_error (by rw [run_require, if_neg above]))
  · exact .inl rfl

theorem getAPage_some {vaddr : Nat} {r : Option Nat} (run : getAPage pf vaddr s = .ok (r, s')) : r = some vaddr := by
  rcases getAPage_cases s pf vaddr with error | ⟨-, error⟩ | ⟨-, t, got⟩
  · cases error.symm.trans run
  · cases error.symm.trans run
  · exact (Prod.mk.inj (Except.ok.inj (run.symm.trans got))).1

end

/-- A call that asks for pages returns `NULL` and changes nothing exactly when the virtual range is
fragmented; when the frames do not suffice, it then stops at a failed assertion instead, or before
that with a store behind the bitmap of the virtual range. -/
theorem null_unchanged_iff (s : Paging) (r : PageRequest) :
    (r.run s = .ok (none, s) ↔ r.Fragmented s) ∧
    (r.FramesShort s → ¬r.Fragmented s → r.run s = .error .assertion ∨ r.Outside s ∧ r.run s = .error .undefined) := by
  have no {fault : Fault} (error : r.run s = .error fault) : r.run s ≠ .ok (none, s) := by
    rw [error]
    rintro ⟨⟩
  cases r with
  | mallocPage pf pgCnt =>
    rcases mallocPage_cases s pf pgCnt with ⟨fragmented, run⟩ | ⟨room, error | ⟨enough, vaddr, s', run⟩⟩
    · exact ⟨iff_of_true run fragmented, fun _ room => absurd fragmented room⟩
    · exact ⟨iff_of_false (no error) room, fun _ _ => .inl error⟩
    · refine ⟨iff_of_false (fun null => ?_) room, fun short _ => absurd enough (Nat.not_le.mpr short)⟩
      cases run.symm.trans null
  | getAPage pf vaddr =>
    rcases getAPage_cases s pf vaddr with error | ⟨outside, error⟩ | ⟨enough, s', run⟩
    · exact ⟨iff_of_false (no error) id, fun _ _ => .inl error⟩
    · exact ⟨iff_of_false (no error) id, fun _ _ => .inr ⟨outside, error⟩⟩
    · refine ⟨iff_of_false (fun null => ?_) id, fun short _ => absurd enough (Nat.not_le.mpr short)⟩
      cases run.symm.trans null

def fullPools : Paging := ⟨32, fun _ _ => 0xff, fun _ => Memory.zero, false, fun _ => ⟨0, false⟩, fun _ _ => ⟨0, false⟩⟩

def combedPools : Paging := { fullPools with vaddr := fun _ _ => 0x55 }

theorem null_unchanged_full :
    (getAPage .kernel 0xc0101000 fullPools ≠ .ok (none, fullPools) ∧ (fullPools.freeFrames .kernel).card < 1 ∧
      getAPage .kernel 0xc0101000 fullPools = .error .assertion) ∧
    mallocPage .kernel 2 combedPools = .ok (none, combedPools) := by
  have short : (fullPools.freeFrames .kernel).card < 1 := by decide
  obtain ⟨null, stops⟩ := null_unchanged_iff fullPools (.getAPage .kernel 0xc0101000)
  have size : (combedPools.vaddrBitmap .kernel).btmpBytesLen = 2 := rfl
  have pairs : ∀ i < 16, ∃ j < 2, (combedPools.vaddrBitmap .kernel).bit (i + j) = true := by decide
  have fragmented : (PageRequest.mallocPage .kernel 2).Fragmented combedPools :=
    ⟨by decide, by decide, ⟨1, by decide, by decide⟩, fun i inside => pairs i (by omega)⟩
  refine ⟨⟨fun returns => null.mp returns, short, ?_⟩,
    (null_unchanged_iff combedPools (.mallocPage .kernel 2)).1.mpr fragmented⟩
  exact (stops short id).resolve_right fun both => absurd (show 16 ≤ 1 from both.1) (by decide)

/-- With no frame left `malloc_page` does not return. -/
theorem mallocPage_stops : (fullPools.freeFrames .kernel).card = 0 ∧
    mallocPage .kernel 1 fullPools = .error .assertion :=
  ⟨by decide, rfl⟩

end LaiMiniOs
