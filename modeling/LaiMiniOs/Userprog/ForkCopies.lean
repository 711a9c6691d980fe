import LaiMiniOs.Kernel.PageViews
import LaiMiniOs.Userprog.Fork

/-! What `copy_process` copies.

The loop of `copy_body_stack3` switches between two directories. The child's pages are followed
through the child's directory, where the pages still to be copied are pending; the parent's are
followed through the parent's, where nothing happens, because the loop writes only to tables and
frames that were free when it started.
-/

set_option autoImplicit false

namespace LaiMiniOs
open Foundation Prog Function Paging

variable {p bufFrame : Nat}

namespace Spaces

variable {s t u : Spaces}

def view (s : Spaces) (dir : Nat) : Paging := { s.paging with pde := s.dirs dir }

theorem clearPages_eq (s : Spaces) (page cnt : Nat) :
    s.clearPages page cnt = { s with frames := (s.clearPages page cnt).frames } := by
  induction cnt with
  | zero => rfl
  | succ cnt ih => rw [clearPages, setFrame, ih]

theorem frames_clearPages {page cnt f : Nat} (other : ∀ k, k < cnt → f ≠ (s.paging.pte (page + k)).frame) :
    (s.clearPages page cnt).frames f = s.frames f := by
  induction cnt with
  | zero => rfl
  | succ cnt ih =>
    rw [clearPages, setFrame]
    dsimp only
    rw [update_of_ne (other cnt (by omega))]
    exact ih fun k hk => other k (by omega)

theorem copyPage_run {dst src : Nat} (from_ : t.paging.Present src) (into : t.paging.Present dst) :
    copyPage dst src t = .ok ((), t.setFrame (t.paging.pte dst).frame (t.frames (t.paging.pte src).frame)) := by
  rw [copyPage, get_bind, require_bind ⟨from_, into⟩, run_set]

theorem pageDirActivate_run {vaddr : Nat} (present : t.paging.Present (vaddr / pgSize)) :
    pageDirActivate (some vaddr) t = .ok ((), t.loadCr3 (t.paging.pte (vaddr / pgSize)).frame) := by
  rw [pageDirActivate]
  exact (bind_of_ok (onPaging_of_ok (addrV2p_run present))).trans rfl

def copiedTo (t : Spaces) (v : Paging) (dir bufFrame p : Nat) : Spaces :=
  let bytes := t.frames (t.paging.pte p).frame
  { t with
    paging := { v with pde := t.paging.pde }
    dirs := update (update t.dirs t.cr3 t.paging.pde) dir v.pde
    frames := update (update t.frames bufFrame bytes) (v.pte p).frame bytes }

theorem copyProgPage_run {child parent bufPage progVaddr childDir parentDir dir : Nat} {r : Option Nat} {v : Paging}
    (ofChild : (t.task child).pgdir = some childDir) (ofParent : (t.task parent).pgdir = some parentDir)
    (page : t.paging.Present (progVaddr / pgSize)) (buf : t.paging.Present (bufPage / pgSize))
    (there : t.paging.Present (childDir / pgSize))
    (frame : (t.paging.pte (childDir / pgSize)).frame = dir) (away : dir ≠ t.cr3)
    (mapped : getAPageWithoutOpvaddrbitmap .user progVaddr (t.view dir) = .ok (r, v))
    (buf' : v.Present (bufPage / pgSize)) (page' : v.Present (progVaddr / pgSize))
    (back : v.Present (parentDir / pgSize)) (frame' : (v.pte (parentDir / pgSize)).frame = t.cr3)
    (same : (v.pte (bufPage / pgSize)).frame = (t.paging.pte (bufPage / pgSize)).frame) :
    copyProgPage child parent bufPage progVaddr t =
      .ok ((), t.copiedTo v dir (t.paging.pte (bufPage / pgSize)).frame (progVaddr / pgSize)) := by
  have first := copyPage_run page buf
  generalize one : t.setFrame (t.paging.pte (bufPage / pgSize)).frame
    (t.frames (t.paging.pte (progVaddr / pgSize)).frame) = t₁ at first
  have second : pageDirActivate (t₁.task child).pgdir t₁ = .ok ((), t₁.loadCr3 dir) := by
    subst one
    rw [← frame]
    exact (congrArg (fun pgdir => pageDirActivate pgdir _) ofChild).trans (pageDirActivate_run there)
  generalize two : t₁.loadCr3 dir = t₂ at second
  have active : t₂.paging = t.view dir := by
    subst two one
    simp only [loadCr3, setFrame, view, update_of_ne away]
  have third := onPaging_of_ok
    (show getAPageWithoutOpvaddrbitmap .user progVaddr t₂.paging = .ok (r, v) from active ▸ mapped)
  have fourth := copyPage_run (t := { t₂ with paging := v }) buf' page'
  generalize four : ({ t₂ with paging := v } : Spaces).setFrame (v.pte (progVaddr / pgSize)).frame
    (t₂.frames (v.pte (bufPage / pgSize)).frame) = t₄ at fourth
  have fifth : pageDirActivate (t₄.task parent).pgdir t₄ = .ok ((), t₄.loadCr3 t.cr3) := by
    subst four two one
    rw [← frame']
    exact (congrArg (fun pgdir => pageDirActivate pgdir _) ofParent).trans (pageDirActivate_run back)
  rw [copyProgPage, bind_of_ok first, get_bind, bind_of_ok second, bind_of_ok third, bind_of_ok fourth,
    get_bind, fifth]
  subst four two one
  simp only [loadCr3, setFrame, copiedTo, same, update_self, update_of_ne away.symm]

def Done (s : Spaces) (n p : Nat) : Prop := s.paging.Marked .user p ∧ vaddrStart .user ≤ p ∧ p < vaddrStart .user + n

def Ahead (n p : Nat) : Prop := vaddrStart .user + n ≤ p ∧ p < 0xc0000

def marksFrom (s : Spaces) (n : Nat) : Finset Nat :=
  (Finset.range (8 * userBytesLen)).filter fun k => n ≤ k ∧ (s.paging.vaddrBitmap .user).bit k = true

def entriesFrom (s : Spaces) (n : Nat) : Finset Nat := (s.marksFrom n).image fun k => (vaddrStart .user + k) / 1024

/-- A process with a consistent memory, a buffer page, and an empty directory for its child. -/
structure Forking (s : Spaces) (child parent bufPage dir : Nat) : Prop where
  user : s.paging.user = true
  consistent : s.paging.Consistent fun _ => False
  apart : s.paging.Apart
  buf : s.paging.Managed .kernel (bufPage / pgSize) ∧ s.paging.Present (bufPage / pgSize)
  ofChild : ∃ vaddr, (s.task child).pgdir = some vaddr ∧
    (s.paging.Managed .kernel (vaddr / pgSize) ∧ s.paging.Present (vaddr / pgSize)) ∧
    (s.paging.pte (vaddr / pgSize)).frame = dir
  ofParent : ∃ vaddr, (s.task parent).pgdir = some vaddr ∧
    (s.paging.Managed .kernel (vaddr / pgSize) ∧ s.paging.Present (vaddr / pgSize)) ∧
    (s.paging.pte (vaddr / pgSize)).frame = s.cr3
  away : dir ≠ s.cr3
  empty : s.dirs dir = newPageDir s.paging.pde dir

/-- The state of the loop when it has come to bit `n`, from the state `s` before it. -/
structure Copying (s t : Spaces) (dir bufFrame n : Nat) : Prop where
  task : t.task = s.task
  threads : t.threads = s.threads
  fs : t.fs = s.fs
  bitmaps : t.bitmaps = s.bitmaps
  cr3 : t.cr3 = s.cr3
  kept : s.paging.Kept t.paging
  dirs : ∀ f, f ≠ dir → f ≠ s.cr3 → t.dirs f = s.dirs f
  frames : ∀ f, ¬s.paging.Free f → f ≠ bufFrame → t.frames f = s.frames f
  consistent : (t.view dir).Consistent (Ahead n)
  apart : (t.view dir).Apart
  grown : Gained (s.view dir) (t.view dir) .user (s.Done n)
  tables : ∀ i, i < 0x300 → (t.dirs dir i).present = true → s.paging.Covers i ∧ s.paging.Free (t.dirs dir i).frame
  only : ∀ q, q < 0xc0000 → (t.view dir).Present q → s.Done n q
  contents : ∀ p, s.Done n p → t.frames ((t.view dir).pte p).frame = s.frames (s.paging.pte p).frame
  userFrames : (s.marksFrom n).card ≤ (t.paging.freeFrames .user).card
  kernelFrames : ((s.entriesFrom n).filter fun i => (t.dirs dir i).present = false).card ≤
    (t.paging.freeFrames .kernel).card

section
variable {child parent bufPage dir n : Nat} (forking : s.Forking child parent bufPage dir)

theorem mem_marksFrom {k : Nat} : k ∈ s.marksFrom n ↔ k < 8 * userBytesLen ∧ n ≤ k ∧
    (s.paging.vaddrBitmap .user).bit k = true := by
  rw [marksFrom, Finset.mem_filter, Finset.mem_range]

theorem marksFrom_succ_of_clear (clear : (s.paging.vaddrBitmap .user).bit n = false) :
    s.marksFrom (n + 1) = s.marksFrom n := by
  ext k
  rw [mem_marksFrom, mem_marksFrom]
  have apart : (s.paging.vaddrBitmap .user).bit k = true → k ≠ n := by
    rintro isSet rfl
    simp [clear] at isSet
  constructor
  · rintro ⟨inside, low, isSet⟩
    exact ⟨inside, by omega, isSet⟩
  · rintro ⟨inside, low, isSet⟩
    have := apart isSet
    exact ⟨inside, by omega, isSet⟩

theorem marksFrom_succ_of_set (inside : n < 8 * userBytesLen) (isSet : (s.paging.vaddrBitmap .user).bit n = true) :
    n ∈ s.marksFrom n ∧ s.marksFrom (n + 1) = (s.marksFrom n).erase n := by
  refine ⟨mem_marksFrom.mpr ⟨inside, Nat.le_refl n, isSet⟩, ?_⟩
  ext k
  rw [Finset.mem_erase, mem_marksFrom, mem_marksFrom]
  constructor
  · rintro ⟨inside, low, isSet⟩
    exact ⟨by omega, inside, by omega, isSet⟩
  · rintro ⟨other, inside, low, isSet⟩
    exact ⟨inside, by omega, isSet⟩

theorem Copying.skip (copying : s.Copying t dir bufFrame n) (clear : (s.paging.vaddrBitmap .user).bit n = false) :
    s.Copying t dir bufFrame (n + 1) := by
  have unmarked : ¬s.paging.Marked .user (vaddrStart .user + n) := by grind [Marked]
  have done : s.Done (n + 1) = s.Done n := by
    ext p
    constructor
    · rintro ⟨mark, low, high⟩
      have other : p ≠ vaddrStart .user + n := by
        rintro rfl
        exact unmarked mark
      exact ⟨mark, low, by omega⟩
    · rintro ⟨mark, low, high⟩
      exact ⟨mark, low, by omega⟩
  have same : s.paging.SameRanges (t.view dir) := ⟨copying.kept.ranges.layout, copying.kept.ranges.vaddr⟩
  have ahead {pf : PoolFlags} {p : Nat} (managed : (t.view dir).Managed pf p) (mark : (t.view dir).Marked pf p) :
      Ahead n p ↔ Ahead (n + 1) p := by
    have other (high : p < 0xc0000) : p ≠ vaddrStart .user + n := by
      rintro rfl
      cases pf with
      | kernel =>
        have := managed.1
        simp only [vaddrStart] at this high
        omega
      | user => exact unmarked ((marked_congr same).mp mark)
    constructor
    · rintro ⟨low, high⟩
      have := other high
      exact ⟨by omega, high⟩
    · rintro ⟨low, high⟩
      exact ⟨by omega, high⟩
  have consistent : (t.view dir).Consistent (Ahead (n + 1)) := by
    refine ⟨fun pf p managed => ?_, copying.consistent.distinct, copying.consistent.mapped, copying.consistent.tables⟩
    rw [copying.consistent.present_iff pf p managed]
    exact and_congr_right fun mark => not_congr (ahead managed mark)
  have marks := marksFrom_succ_of_clear clear
  have userFrames := copying.userFrames
  have kernelFrames := copying.kernelFrames
  rw [entriesFrom, ← marks] at kernelFrames
  rw [← marks] at userFrames
  exact { copying with
    consistent := consistent
    grown := done ▸ copying.grown
    only := done ▸ copying.only
    contents := done ▸ copying.contents
    userFrames := userFrames
    kernelFrames := kernelFrames }

include forking

theorem Forking.kernel_entry (managed : s.paging.Managed .kernel p) :
    (s.view dir).pde (p / 1024) = s.paging.pde (p / 1024) := by
  obtain ⟨low, high⟩ := managed.kernel_table
  change s.dirs dir (p / 1024) = _
  rw [forking.empty, newPageDir, if_neg (by omega), if_pos low]

theorem Forking.kernel_pte (managed : s.paging.Managed .kernel p) : (s.view dir).pte p = s.paging.pte p := by
  rw [Paging.pte, forking.kernel_entry managed]
  rfl

theorem Forking.kernel_present (managed : s.paging.Managed .kernel p) : (s.view dir).Present p ↔
    s.paging.Present p := by
  unfold Present
  rw [forking.kernel_entry managed, forking.kernel_pte managed]

theorem Copying.kernel_page (copying : s.Copying t dir bufFrame n) (page : s.paging.Managed .kernel p ∧
    s.paging.Present p) :
    (t.paging.Present p ∧ t.paging.pte p = s.paging.pte p) ∧ (t.view dir).Present p ∧
    (t.view dir).pte p = s.paging.pte p := by
  obtain ⟨managed, present⟩ := page
  have home : s.paging.Home p := ⟨.kernel, managed⟩
  have there := (forking.kernel_present managed).mpr present
  refine ⟨⟨(copying.kept.present forking.consistent home).mpr present,
    copying.kept.pte forking.consistent home present.1⟩,
    (copying.grown.present p home).mpr (.inl there), ?_⟩
  rw [copying.grown.kept p home there, forking.kernel_pte managed]

theorem Copying.advance {v : Paging} {r : Option Nat} {vaddr : Nat}
    (buffer : (s.paging.pte (bufPage / pgSize)).frame = bufFrame)
    (copying : s.Copying t dir bufFrame n) (place : vaddrStart .user + n = p) (inside : n < 8 * userBytesLen)
    (managed : s.paging.Managed .user p)
    (marked : s.paging.Marked .user p) (number : vaddr / pgSize = p)
    (mapped : getAPageWithoutOpvaddrbitmap .user vaddr (t.view dir) = .ok (r, v))
    (consistent : v.Consistent fun q => Ahead n q ∧ q ≠ p) (apart : v.Apart)
    (grown : Gained (t.view dir) v .user (· = p)) :
    s.Copying (t.copiedTo v dir bufFrame p) dir bufFrame (n + 1) := by
  have home : s.paging.Home p := ⟨.user, managed⟩
  have present : s.paging.Present p := (forking.consistent.present_iff .user p managed).mpr ⟨marked, id⟩
  have entries : (t.copiedTo v dir bufFrame p).dirs dir = v.pde := update_self _ _ _
  have view : (t.copiedTo v dir bufFrame p).view dir = v := by simp only [Spaces.view, copiedTo, update_self]
  have same : s.paging.SameRanges v :=
    ⟨⟨grown.layout.1.trans copying.kept.ranges.layout.1, grown.layout.2.trans copying.kept.ranges.layout.2⟩,
    grown.vaddr.trans copying.kept.ranges.vaddr⟩
  have grows (pf : PoolFlags) (k : Nat) (taken : (s.paging.poolBitmap pf).bit k = true) :
      (v.poolBitmap pf).bit k = true :=
    grown.grows pf k (copying.kept.grows pf k taken)
  have free {f : Nat} (there : t.paging.Free f) : s.paging.Free f :=
    there.of_grows copying.kept.ranges.layout.1 copying.kept.grows
  have new : s.paging.Free (v.pte p).frame := by
    obtain ⟨-, k, here, clear⟩ := grown.fresh p rfl
    exact free ⟨.user, k, here, clear⟩
  obtain ⟨users, tables⟩ := getAPageWithoutOpvaddrbitmap_effect mapped
  rw [number] at tables
  have low : p / 1024 < 0x300 := managed.user_table
  have unwritten {f : Nat} (taken : ¬s.paging.Free f) : v.table f = t.paging.table f := by
    rcases tables with ⟨table, -, others, -⟩ | ⟨-, j, free', -, others, -⟩
    · exact others f fun here => taken (here ▸ (copying.tables _ low table).2)
    · exact others f fun here => taken (here ▸ free (free_of_mem free'))
  have childTables (i : Nat) (hi : i < 0x300) (table : (v.pde i).present = true) : s.paging.Covers i ∧
      s.paging.Free (v.pde i).frame := by
    rcases tables with ⟨-, pde, -, -⟩ | ⟨-, j, free', pde, -, -⟩
    · rw [pde] at table ⊢
      exact copying.tables i hi table
    · rw [pde] at table ⊢
      by_cases here : i = p / 1024
      · subst here
        rw [update_self]
        exact ⟨home.covers, free (free_of_mem free')⟩
      · rw [update_of_ne here] at table ⊢
        exact copying.tables i hi table
  have ahead : (fun q => Ahead n q ∧ q ≠ p) = Ahead (n + 1) := by
    funext q
    simp only [Ahead, eq_iff_iff]
    omega
  have done : (fun q => s.Done n q ∨ q = p) = s.Done (n + 1) := by
    funext q
    refine propext ⟨?_, fun ⟨mark, low, high⟩ => ?_⟩
    · rintro (⟨mark, low, high⟩ | rfl)
      · exact ⟨mark, low, by omega⟩
      · exact ⟨marked, by omega, by omega⟩
    · by_cases here : q = p
      · exact .inr here
      · exact .inl ⟨mark, low, by omega⟩
  have only (q : Nat) (high : q < 0xc0000) (there : v.Present q) : s.Done n q ∨ q = p := by
    have covers {i : Nat} (hi : i < 0x300) (table : ((t.view dir).pde i).present = true) : (t.view dir).Covers i :=
      (copying.tables i hi table).1.imp fun _ both => both.imp_left (home_congr copying.grown.layout).mpr
    refine ((getAPageWithoutOpvaddrbitmap_only mapped (fun table table' clash => ?_) fun table => ?_).mp there).symm.imp
      (copying.only q high) fun here => here.trans number
    · grind [copying.apart.tables]
    · exact copying.consistent.table_not_free (covers (by omega) table) table
  -- The pages copied before are in other frames than this one and the buffer.
  have contents (q : Nat) (copied : s.Done n q ∨ q = p) :
      (t.copiedTo v dir bufFrame p).frames (v.pte q).frame = s.frames (s.paging.pte q).frame := by
    have source : t.frames (t.paging.pte p).frame = s.frames (s.paging.pte p).frame := by
      rw [copying.kept.pte forking.consistent home present.1]
      refine copying.frames _ (forking.consistent.mapped_not_free home present) fun clash => ?_
      have here := forking.consistent.distinct _ _ home ⟨.kernel, forking.buf.1⟩ present forking.buf.2
        (clash.trans buffer.symm)
      have kernel := forking.buf.1.kernel_table.1
      omega
    by_cases here : q = p
    · subst here
      exact (update_self _ _ _).trans source
    · have earlier := copied.resolve_right here
      have home' : (t.view dir).Home q := (home_congr copying.grown.layout).mpr (copying.grown.fresh q earlier).1
      have there : (t.view dir).Present q :=
        (copying.grown.present q (copying.grown.fresh q earlier).1).mpr (.inr earlier)
      have homev : v.Home q := (home_congr grown.layout).mpr home'
      have therev : v.Present q := (grown.present q home').mpr (.inl there)
      have homep : (t.view dir).Home p := (home_congr copying.grown.layout).mpr home
      have apartp : (v.pte q).frame ≠ (v.pte p).frame := fun clash =>
        here (consistent.distinct q p homev ((home_congr grown.layout).mpr homep) therev
          ((grown.present p homep).mpr (.inr rfl)) clash)
      have apartBuf : (v.pte q).frame ≠ bufFrame := by
        obtain ⟨-, bufThere, bufSame⟩ := copying.kernel_page forking forking.buf
        have homeBuf : (t.view dir).Home (bufPage / pgSize) :=
          (home_congr copying.grown.layout).mpr ⟨.kernel, forking.buf.1⟩
        intro clash
        rw [← buffer, ← bufSame, ← grown.kept _ homeBuf bufThere] at clash
        have same := consistent.distinct q _ homev ((home_congr grown.layout).mpr homeBuf) therev
          ((grown.present _ homeBuf).mpr (.inl bufThere)) clash
        have kernel := forking.buf.1.1
        have high := earlier.2.2
        simp only [vaddrStart] at kernel high
        have bound : n < 753592 := inside
        omega
      change update (update t.frames bufFrame _) (v.pte p).frame _ _ = _
      grind [grown.kept, copying.contents]
  obtain ⟨member, marks⟩ := marksFrom_succ_of_set inside (show (s.paging.vaddrBitmap .user).bit n = true by
    rwa [Marked, ← place, show vaddrStart .user + n - vaddrStart .user = n by omega] at marked)
  have count := Finset.card_erase_of_mem member
  have some := Finset.card_pos.mpr ⟨n, member⟩
  have userFrames : (s.marksFrom (n + 1)).card ≤ (v.freeFrames .user).card := by
    have before : (s.marksFrom n).card ≤ ((t.view dir).freeFrames .user).card := copying.userFrames
    rw [marks]
    omega
  have fewer : s.entriesFrom (n + 1) ⊆ s.entriesFrom n := by
    rw [entriesFrom, marks]
    exact Finset.image_subset_image (Finset.erase_subset n _)
  have kernelFrames : ((s.entriesFrom (n + 1)).filter fun i => (v.pde i).present = false).card ≤
      (v.freeFrames .kernel).card := by
    have before : ((s.entriesFrom n).filter fun i => ((t.view dir).pde i).present = false).card ≤
        ((t.view dir).freeFrames .kernel).card := copying.kernelFrames
    rcases tables with ⟨-, pde, -, frames⟩ | ⟨table, j, free', pde, -, frames⟩
    · rw [pde, frames]
      exact (Finset.card_le_card (Finset.filter_subset_filter _ fewer)).trans before
    · -- The entry of the new table is no longer among those that are missing.
      have entry : p / 1024 ∈ (s.entriesFrom n).filter fun i => ((t.view dir).pde i).present = false :=
        Finset.mem_filter.mpr ⟨Finset.mem_image.mpr ⟨n, member, by rw [place]⟩, table⟩
      have missing : ((s.entriesFrom (n + 1)).filter fun i => (v.pde i).present = false) ⊆
          ((s.entriesFrom n).filter fun i => ((t.view dir).pde i).present = false).erase (p / 1024) := by
        intro i inFilter
        obtain ⟨needed, absent⟩ := Finset.mem_filter.mp inFilter
        rw [pde] at absent
        by_cases here : i = p / 1024
        · rw [here, update_self] at absent
          cases absent
        · grind
      have card := Finset.card_le_card missing
      rw [Finset.card_erase_of_mem entry] at card
      rw [frames, Finset.card_erase_of_mem free']
      omega
  exact {
    task := copying.task
    threads := copying.threads
    fs := copying.fs
    bitmaps := copying.bitmaps
    cr3 := copying.cr3
    kept := ⟨⟨same.layout, same.vaddr⟩, copying.kept.pde, grows, fun f taken =>
      (unwritten taken).trans (copying.kept.table f taken)⟩
    dirs := fun f other away => by
      refine (update_of_ne other _ _).trans ((update_of_ne ?_ _ _).trans (copying.dirs f other away))
      rw [copying.cr3]
      exact away
    frames := fun f taken other => by
      refine (update_of_ne ?_ _ _).trans ((update_of_ne other _ _).trans (copying.frames f taken other))
      exact fun clash => taken (clash ▸ new)
    consistent := by rwa [view, ← ahead]
    apart := by rwa [view]
    grown := by
      rw [view, ← done]
      exact copying.grown.trans grown
    tables := by
      rw [entries]
      exact childTables
    only := by
      rw [view, ← done]
      exact only
    contents := by
      rw [view, ← done]
      exact contents
    userFrames := userFrames
    kernelFrames := by
      rw [entries]
      exact kernelFrames }

theorem Copying.step (buffer : (s.paging.pte (bufPage / pgSize)).frame = bufFrame)
    (copying : s.Copying t dir bufFrame n)
    (inside : n < 8 * userBytesLen) (isSet : (s.paging.vaddrBitmap .user).bit n = true) :
    ∃ t', copyProgPage child parent bufPage (n * pgSize + vaddrStart .user * pgSize) t = .ok ((), t') ∧
      s.Copying t' dir bufFrame (n + 1) := by
  obtain ⟨childDir, ofChild, childPage, childFrame⟩ := forking.ofChild
  obtain ⟨parentDir, ofParent, parentPage, parentFrame⟩ := forking.ofParent
  have number : (n * pgSize + vaddrStart .user * pgSize) / pgSize = vaddrStart .user + n := by
    rw [← Nat.add_mul, Nat.mul_div_cancel _ (by decide), Nat.add_comm]
  generalize place : vaddrStart .user + n = p at number
  have managed : s.paging.Managed .user p := by
    refine ⟨by omega, ?_⟩
    rw [vaddrBytesLen, if_pos forking.user]
    simp only [userBytesLen, pgSize] at inside
    omega
  have marked : s.paging.Marked .user p := by
    rw [Marked, show p - vaddrStart .user = n by omega]
    exact isSet
  have home : s.paging.Home p := ⟨.user, managed⟩
  have present : s.paging.Present p := (forking.consistent.present_iff .user p managed).mpr ⟨marked, id⟩
  have high : p < 0xc0000 := by
    obtain ⟨-, high⟩ := managed
    rw [vaddrBytesLen, if_pos forking.user] at high
    simp only [vaddrStart] at high
    omega
  -- What the child's directory says about the page.
  have managed' : (t.view dir).Managed .user p := (Managed.congr copying.grown.layout).mpr managed
  have marked' : (t.view dir).Marked .user p := (marked_congr ⟨copying.grown.layout, copying.grown.vaddr⟩).mpr marked
  have absent : ¬(t.view dir).Present p :=
    fun there => ((copying.consistent.present_iff .user p managed').mp there).2 ⟨by omega, high⟩
  obtain ⟨member, marks⟩ := marksFrom_succ_of_set inside isSet
  have entry : p / 1024 ∈ s.entriesFrom n := Finset.mem_image.mpr ⟨n, member, by rw [place]⟩
  have room : ((t.view dir).pde (p / 1024)).present = true ∨ ((t.view dir).freeFrames .kernel).Nonempty := by
    by_cases table : (t.dirs dir (p / 1024)).present = true
    · exact .inl table
    · have some : 0 < ((s.entriesFrom n).filter fun i => (t.dirs dir i).present = false).card :=
        Finset.card_pos.mpr ⟨p / 1024, Finset.mem_filter.mpr ⟨entry, by simpa using table⟩⟩
      exact .inr (Finset.card_pos.mp (some.trans_le copying.kernelFrames))
  have frames : ((t.view dir).freeFrames .user).Nonempty :=
    Finset.card_pos.mp ((Finset.card_pos.mpr ⟨n, member⟩).trans_le copying.userFrames)
  obtain ⟨v, mapped⟩ := getAPageWithoutOpvaddrbitmap_total (number.symm ▸ absent) frames (number.symm ▸ room)
  obtain ⟨i, free, added⟩ := getAPageWithoutOpvaddrbitmap_eq_ok mapped
  rw [number] at added
  obtain ⟨consistent, apart, grown⟩ := copying.consistent.mapPage copying.apart managed' marked' free added
  have seen {q : Nat} (page : s.paging.Managed .kernel q ∧ s.paging.Present q) : v.Present q ∧
      v.pte q = s.paging.pte q := by
    obtain ⟨-, there, same⟩ := copying.kernel_page forking page
    have home' : (t.view dir).Home q := ⟨.kernel, (Managed.congr copying.grown.layout).mpr page.1⟩
    exact ⟨(grown.present q home').mpr (.inl there), (grown.kept q home' there).trans same⟩
  have mine := copying.kept.present forking.consistent home
  have run := copyProgPage_run (t := t) (by rw [copying.task]; exact ofChild) (by rw [copying.task]; exact ofParent)
    (by rw [number]; exact mine.mpr present)
    (copying.kernel_page forking forking.buf).1.1 (copying.kernel_page forking childPage).1.1
    (by rw [(copying.kernel_page forking childPage).1.2]; exact childFrame)
      (by rw [copying.cr3]; exact forking.away) mapped (seen forking.buf).1
    (by rw [number]; exact (grown.present p ⟨.user, managed'⟩).mpr (.inr rfl)) (seen parentPage).1
      (by rw [(seen parentPage).2, copying.cr3]; exact parentFrame)
    (by rw [(seen forking.buf).2, (copying.kernel_page forking forking.buf).1.2])
  rw [(copying.kernel_page forking forking.buf).1.2, buffer, number] at run
  exact ⟨_, run, copying.advance forking buffer place inside managed marked number mapped consistent apart grown⟩

theorem Forking.only_kernel (home : s.paging.Home p) (table : ((s.view dir).pde (p / 1024)).present = true) :
    s.paging.Managed .kernel p := by
  obtain ⟨pf, managed⟩ := home
  cases pf with
  | kernel => exact managed
  | user =>
    have low := managed.user_table
    change (s.dirs dir (p / 1024)).present = true at table
    rw [forking.empty, newPageDir, if_neg (by omega), if_neg (by omega)] at table
    cases table

theorem Forking.view_consistent : (s.view dir).Consistent (Ahead 0) := by
  have kernel {p : Nat} (home : s.paging.Home p) (present : (s.view dir).Present p) :=
    forking.only_kernel home present.1
  refine ⟨fun pf p managed => ?_, fun p q home home' present present' same => ?_, fun p home present => ?_, ?_⟩
  · cases pf with
    | kernel =>
      have away : ¬Ahead 0 p := fun ahead => by
        have low := managed.1
        have high := ahead.2
        simp only [vaddrStart] at low
        omega
      rw [forking.kernel_present managed, forking.consistent.present_iff .kernel p managed]
      exact and_congr_right fun _ => iff_of_true id away
    | user =>
      refine iff_of_false (fun present => ?_) fun both => both.2 ?_
      · have low := managed.user_table
        have high := (kernel ⟨.user, managed⟩ present).kernel_table.1
        omega
      · obtain ⟨low, high⟩ := managed
        have bound := s.paging.vaddrBytesLen_user_le
        change p < vaddrStart .user + 8 * s.paging.vaddrBytesLen .user at high
        simp only [vaddrStart] at low high
        exact ⟨low, by omega⟩
  · rw [forking.kernel_pte (kernel home present), forking.kernel_pte (kernel home' present')] at same
    exact forking.consistent.distinct p q home home' ((forking.kernel_present (kernel home present)).mp present)
      ((forking.kernel_present (kernel home' present')).mp present') same
  · rw [forking.kernel_pte (kernel home present)]
    exact forking.consistent.mapped p home ((forking.kernel_present (kernel home present)).mp present)
  · rintro i ⟨p, home, rfl⟩ present pool k here
    have entry := forking.kernel_entry (forking.only_kernel home present)
    rw [entry] at present here
    exact forking.consistent.tables _ ⟨p, home, rfl⟩ present pool k here

theorem Forking.view_apart : (s.view dir).Apart := by
  refine ⟨?_, ?_⟩
  · rintro i j ⟨p, home, rfl⟩ ⟨q, home', rfl⟩ present present' same
    have entry := forking.kernel_entry (forking.only_kernel home present)
    have entry' := forking.kernel_entry (forking.only_kernel home' present')
    rw [entry] at present same
    rw [entry'] at present' same
    exact forking.apart.tables _ _ ⟨p, home, rfl⟩ ⟨q, home', rfl⟩ present present' same
  · rintro i p ⟨q, home', rfl⟩ table home present
    have entry := forking.kernel_entry (forking.only_kernel home' table)
    have kernel := forking.only_kernel home present.1
    rw [entry] at table ⊢
    rw [forking.kernel_pte kernel]
    exact forking.apart.mapped _ p ⟨q, home', rfl⟩ table home ((forking.kernel_present kernel).mp present)

theorem Forking.start (bufFrame : Nat) (userFrames : (s.marksFrom 0).card ≤ (s.paging.freeFrames .user).card)
    (kernelFrames : (s.entriesFrom 0).card ≤ (s.paging.freeFrames .kernel).card) : s.Copying s dir bufFrame 0 := by
  have none (p : Nat) : ¬s.Done 0 p := fun ⟨_, low, high⟩ => by omega
  refine ⟨rfl, rfl, rfl, rfl, rfl, .refl _, fun _ _ _ => rfl, fun _ _ _ => rfl, forking.view_consistent,
    forking.view_apart, ?_, fun i low present => ?_,
    fun q high present => ?_, fun p done => absurd done (none p), userFrames,
      (Finset.card_filter_le _ _).trans kernelFrames⟩
  · rw [show s.Done 0 = fun _ => False from funext fun p => eq_false (none p)]
    exact Gained.refl _ _
  · rw [forking.empty, newPageDir, if_neg (by omega), if_neg (by omega)] at present
    cases present
  · have table : (s.dirs dir (q / 1024)).present = true := present.1
    rw [forking.empty, newPageDir, if_neg (by omega), if_neg (by omega)] at table
    cases table

theorem copyBodyStack3_run (buffer : (s.paging.pte (bufPage / pgSize)).frame = bufFrame)
    (start : s.Copying s dir bufFrame 0) :
    ∃ t, copyBodyStack3 child parent bufPage s = .ok ((), t) ∧ s.Copying t dir bufFrame (8 * userBytesLen) := by
  have bits (k j : Nat) (hj : j < 8) :
      (s.paging.vaddrBitmap .user).bit (k * 8 + j) = ((s.paging.vaddrBitmap .user).bits k).getLsbD j := by
    rw [Bitmap.bit, show (k * 8 + j) / 8 = k by omega, show (k * 8 + j) % 8 = j by omega]
  have length : (s.paging.vaddrBitmap .user).btmpBytesLen = userBytesLen := by
    change s.paging.vaddrBytesLen .user = _
    rw [vaddrBytesLen, if_pos forking.user]
    rfl
  rw [copyBodyStack3, get_bind, Nat.mul_comm 8]
  dsimp only
  rw [length]
  refine forUpTo_total (I := fun k t => s.Copying t dir bufFrame (k * 8))
    (by rwa [Nat.zero_mul]) fun k t hk copying => ?_
  rw [show (k + 1) * 8 = k * 8 + 8 by omega]
  by_cases empty : (s.paging.vaddrBitmap .user).bits k = 0
  · rw [run_when_of_not (not_not.mpr empty)]
    have skipped (j : Nat) (hj : j ≤ 8) : s.Copying t dir bufFrame (k * 8 + j) := by
      induction j with
      | zero => exact copying
      | succ j ih => exact (ih (by omega)).skip (by rw [bits k j (by omega), empty]; simp)
    exact ⟨t, rfl, skipped 8 (Nat.le_refl 8)⟩
  · rw [run_when_of empty]
    refine forUpTo_total (I := fun j t => s.Copying t dir bufFrame (k * 8 + j)) copying fun j t hj copying => ?_
    have isBit : Bitmap.setBit ((s.paging.vaddrBitmap .user).bits k) j = (s.paging.vaddrBitmap .user).bit
        (k * 8 + j) := by
      rw [Bitmap.setBit_eq _ j hj, bits k j hj]
    rw [isBit]
    by_cases isSet : (s.paging.vaddrBitmap .user).bit (k * 8 + j) = true
    · rw [run_when_of isSet]
      exact copying.step forking buffer (by omega) isSet
    · rw [run_when_of_not isSet]
      exact ⟨t, rfl, copying.skip (by simpa using isSet)⟩

end

end Spaces

end LaiMiniOs
