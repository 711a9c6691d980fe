import LaiMiniOs.Kernel.PageEffects

/-! The page tables seen through another directory, and allocation that is known to succeed. -/

set_option autoImplicit false

namespace LaiMiniOs
open Foundation Prog Function

namespace Paging

variable {s t : Paging} {pending : Nat → Prop} {p q frame : Nat} {pf pool : PoolFlags}

def Free (s : Paging) (frame : Nat) : Prop := ∃ pool k, s.Locates pool k frame ∧ (s.poolBitmap pool).bit k = false

theorem free_of_mem {i : Nat} (member : i ∈ s.freeFrames pool) : s.Free (s.phyAddrStart pool + i) := by
  obtain ⟨inside, clear⟩ := mem_freeFrames.mp member
  exact ⟨pool, i, ⟨rfl, inside⟩, clear⟩

theorem not_free_of_taken {k : Nat} (here : s.Locates pool k frame) (taken : (s.poolBitmap pool).bit k = true) :
    ¬s.Free frame := by
  rintro ⟨pool', k', there, clear⟩
  obtain ⟨rfl, rfl⟩ := here.unique there
  simp [taken] at clear

theorem Consistent.mapped_not_free (consistent : s.Consistent pending) (home : s.Home p) (present : s.Present p) :
    ¬s.Free (s.pte p).frame := by
  obtain ⟨pool, k, here, taken⟩ := consistent.mapped p home present
  exact not_free_of_taken here taken

theorem Consistent.table_not_free (consistent : s.Consistent pending) {i : Nat} (covers : s.Covers i)
    (present : (s.pde i).present = true) :
    ¬s.Free (s.pde i).frame := by
  rintro ⟨pool, k, here, clear⟩
  simp [consistent.tables i covers present pool k here] at clear

/-- Taking frames and writing only to tables that were not there before. -/
structure Kept (s t : Paging) : Prop where
  ranges : s.SameRanges t
  pde : t.pde = s.pde
  grows : ∀ pf k, (s.poolBitmap pf).bit k = true → (t.poolBitmap pf).bit k = true
  table : ∀ f, ¬s.Free f → t.table f = s.table f

theorem locates_congr (layout : t.allFreePages = s.allFreePages) {k : Nat} : t.Locates pf k frame ↔
    s.Locates pf k frame := by
  cases pf <;> simp only [Locates, phyAddrStart, poolBitmap, freePages, layout]

theorem home_congr (layout : t.allFreePages = s.allFreePages ∧ t.user = s.user) : t.Home p ↔ s.Home p :=
  exists_congr fun _ => Managed.congr layout

theorem marked_congr (same : s.SameRanges t) : t.Marked pf p ↔ s.Marked pf p := by
  rw [Marked, same.vaddrBitmap]
  rfl

theorem Free.of_grows (layout : t.allFreePages = s.allFreePages) (grows : ∀ pf k, (s.poolBitmap pf).bit k = true →
    (t.poolBitmap pf).bit k = true)
    (free : t.Free frame) : s.Free frame := by
  obtain ⟨pool, k, here, clear⟩ := free
  refine ⟨pool, k, (locates_congr layout).mp here, ?_⟩
  by_contra taken
  simp [grows pool k (by simpa using taken)] at clear

theorem Kept.refl (s : Paging) : s.Kept s := ⟨.refl s, rfl, fun _ _ => id, fun _ _ => rfl⟩

section
variable (kept : s.Kept t) (before : s.Consistent pending)

include kept before

theorem Kept.pte (home : s.Home p) (table : (s.pde (p / 1024)).present = true) : t.pte p = s.pte p := by
  rw [Paging.pte, kept.pde, kept.table _ (before.table_not_free home.covers table)]
  rfl

theorem Kept.present (home : s.Home p) : t.Present p ↔ s.Present p := by
  unfold Present
  rw [kept.pde]
  exact and_congr_right fun table => by rw [kept.pte before home table]

theorem Kept.consistent : t.Consistent pending := by
  have back {p : Nat} (home : t.Home p) : s.Home p := (home_congr kept.ranges.layout).mp home
  have entry {p : Nat} (home : t.Home p) (present : t.Present p) : t.pte p = s.pte p :=
    kept.pte before (back home) (((kept.present before (back home)).mp present).1)
  refine ⟨fun pf p managed => ?_, fun p q home home' present present' same => ?_, fun p home present =>
    ?_, fun i covers present pool k here => ?_⟩
  · rw [kept.present before (back ⟨pf, managed⟩), marked_congr kept.ranges]
    exact before.present_iff pf p ((Managed.congr kept.ranges.layout).mp managed)
  · grind [before.distinct, kept.present]
  · obtain ⟨pool, k, here, taken⟩ := before.mapped p (back home) ((kept.present before (back home)).mp present)
    refine ⟨pool, k, ?_, kept.grows pool k taken⟩
    rw [entry home present]
    exact (locates_congr kept.ranges.layout.1).mpr here
  · obtain ⟨p, home, rfl⟩ := covers
    rw [kept.pde] at present here
    exact kept.grows pool k
      (before.tables _ ⟨p, back home, rfl⟩ present pool k ((locates_congr kept.ranges.layout.1).mp here))

theorem Kept.apart (apart : s.Apart) : t.Apart := by
  have back {i : Nat} (covers : t.Covers i) : s.Covers i :=
    covers.imp fun _ both => both.imp_left (home_congr kept.ranges.layout).mp
  refine ⟨fun i j covers covers' present present' same => ?_, fun i p covers table home present => ?_⟩
  · grind [kept.pde, apart.tables]
  · have home' := (home_congr kept.ranges.layout).mp home
    have present' := (kept.present before home').mp present
    rw [kept.pde] at table ⊢
    rw [kept.pte before home' present'.1]
    exact apart.mapped i p (back covers) table home' present'

end

end Paging

open Paging

section
variable {s t : Paging} {pending : Nat → Prop} {p : Nat} {pf : PoolFlags}

theorem pageTableAdd_total (frame : Nat) (absent : ¬s.Present p) (room : (s.pde (p / 1024)).present = true ∨
    (s.freeFrames .kernel).Nonempty) :
    ∃ t, pageTableAdd p frame s = .ok ((), t) := by
  have install {u : Paging} (clear : (u.pte p).present = false) : ∃ t, installPte p frame u = .ok ((), t) := by
    rw [installPte, get_bind, require_bind clear]
    exact ⟨_, rfl⟩
  rw [pageTableAdd, get_bind]
  by_cases table : (s.pde (p / 1024)).present = true
  · rw [if_pos table]
    exact install (by simpa [Present, table] using absent)
  · rw [if_neg table]
    obtain ⟨j, free⟩ := room.resolve_left table
    rcases palloc_cases s .kernel with ⟨none, -⟩ | ⟨i, -, taken⟩
    · simp [none] at free
    · rw [bind_of_ok taken, modify_bind]
      -- The new table is empty.
      exact install (by simp [pte, setPde])

theorem getAPageWithoutOpvaddrbitmap_total {vaddr : Nat} (absent : ¬s.Present (vaddr / pgSize))
    (frames : (s.freeFrames .user).Nonempty)
    (room : (s.pde (vaddr / pgSize / 1024)).present = true ∨ (s.freeFrames .kernel).Nonempty) :
    ∃ t, getAPageWithoutOpvaddrbitmap .user vaddr s = .ok (some vaddr, t) := by
  obtain ⟨j, free⟩ := frames
  rw [getAPageWithoutOpvaddrbitmap]
  rcases palloc_cases s .user with ⟨none, -⟩ | ⟨i, -, taken⟩
  · simp [none] at free
  have room' : ((s.setPool .user i true).pde (vaddr / pgSize / 1024)).present = true ∨
      ((s.setPool .user i true).freeFrames .kernel).Nonempty := by
    rw [freeFrames_setPool, if_neg (by decide)]
    exact room
  obtain ⟨t, added⟩ := pageTableAdd_total (s.phyAddrStart .user + i)
    (show ¬(s.setPool .user i true).Present (vaddr / pgSize) from absent) room'
  exact ⟨t, (bind_of_ok taken).trans (bind_of_ok added)⟩

theorem pageTableAdd_of_table (frame : Nat) (absent : ¬s.Present p) (table : (s.pde (p / 1024)).present = true) :
    pageTableAdd p frame s = .ok ((), s.setPte p ⟨frame, true⟩) := by
  obtain ⟨t, added⟩ := pageTableAdd_total frame absent (.inl table)
  grind [pageTableAdd_eq_ok]

theorem mapPages_total {cnt page : Nat} (consistent : s.Consistent pending) (apart : s.Apart)
    (marked : ∀ k, k < cnt → s.Managed pf (page + k) ∧ s.Marked pf (page + k) ∧ ¬s.Present (page + k) ∧
    (s.pde ((page + k) / 1024)).present = true)
    (enough : cnt ≤ (s.freeFrames pf).card) :
    ∃ t, mapPages pf cnt page s = .ok (true, t) ∧ t.pde = s.pde ∧
      (∀ f, (∀ k, k < cnt → f ≠ (s.pde ((page + k) / 1024)).frame) → t.table f = s.table f) ∧
      (∀ pf', (t.freeFrames pf').card + (if pf' = pf then cnt else 0) = (s.freeFrames pf').card) := by
  induction cnt generalizing s page pending with
  | zero => exact ⟨s, rfl, rfl, fun _ _ => rfl, fun pf' => by simp⟩
  | succ cnt ih =>
    obtain ⟨managed, mark, absent, table⟩ := marked 0 (by omega)
    rcases palloc_cases s pf with ⟨none, -⟩ | ⟨i, free, taken⟩
    · simp [none] at enough
    have added := pageTableAdd_of_table (s.phyAddrStart pf + i)
      (show ¬(s.setPool pf i true).Present (page + 0) from absent) table
    obtain ⟨consistent', apart', grown⟩ := consistent.mapPage apart managed mark free added
    generalize next : (s.setPool pf i true).setPte (page + 0) ⟨s.phyAddrStart pf + i, true⟩ =
      u at added consistent' apart' grown
    have pde : u.pde = s.pde := by rw [← next]; rfl
    have frames (pf' : PoolFlags) :
        u.freeFrames pf' = if pf' = pf then (s.freeFrames pf').erase i else s.freeFrames pf' := by
      rw [← freeFrames_setPool, ← next]
      rfl
    have ahead (k : Nat) (hk : k < cnt) : u.Managed pf (page + 1 + k) ∧ u.Marked pf (page + 1 + k) ∧
        ¬u.Present (page + 1 + k) ∧
        (u.pde ((page + 1 + k) / 1024)).present = true := by
      obtain ⟨managed', mark', absent', table'⟩ := marked (k + 1) (by omega)
      rw [show page + 1 + k = page + (k + 1) by omega, pde]
      refine ⟨(Managed.congr grown.layout).mpr managed', (marked_congr ⟨grown.layout, grown.vaddr⟩).mpr mark',
        fun present => ?_, table'⟩
      rcases (grown.present _ ⟨pf, managed'⟩).mp present with before | here
      · exact absent' before
      · omega
    have count := Finset.card_erase_of_mem free
    have some := Finset.card_pos.mpr ⟨i, free⟩
    obtain ⟨t, rest, pde', tables, counts⟩ := ih consistent' apart' ahead (by rw [frames, if_pos rfl]; omega)
    refine ⟨t, ?_, pde'.trans pde, fun f other => ?_, fun pf' => ?_⟩
    · rw [mapPages, bind_of_ok taken]
      exact (bind_of_ok added).trans rest
    · rw [tables f fun k hk =>
        by rw [pde, show page + 1 + k = page + (k + 1) by omega]; exact other (k + 1) (by omega), ← next]
      exact update_of_ne (other 0 (by omega)) _ _
    grind

/-- What a page of a process costs: a frame of its own, and a kernel frame if its table is new. -/
theorem getAPageWithoutOpvaddrbitmap_effect {vaddr : Nat} {r : Option Nat}
    (run : getAPageWithoutOpvaddrbitmap .user vaddr s = .ok (r, t)) :
    (t.freeFrames .user).card + 1 = (s.freeFrames .user).card ∧
    ((s.pde (vaddr / pgSize / 1024)).present = true ∧ t.pde = s.pde ∧
    (∀ f, f ≠ (s.pde (vaddr / pgSize / 1024)).frame → t.table f = s.table f) ∧
        t.freeFrames .kernel = s.freeFrames .kernel ∨
      (s.pde (vaddr / pgSize / 1024)).present = false ∧ ∃ j ∈ s.freeFrames .kernel,
        t.pde = update s.pde (vaddr / pgSize / 1024) ⟨s.phyAddrStart .kernel + j, true⟩ ∧
        (∀ f, f ≠ s.phyAddrStart .kernel + j → t.table f = s.table f) ∧
        t.freeFrames .kernel = (s.freeFrames .kernel).erase j) := by
  obtain ⟨i, free, added⟩ := getAPageWithoutOpvaddrbitmap_eq_ok run
  have some := Finset.card_pos.mpr ⟨i, free⟩
  have count := Finset.card_erase_of_mem free
  have user : (s.setPool .user i true).freeFrames .user = (s.freeFrames .user).erase i := by
    rw [freeFrames_setPool, if_pos rfl]
  have kernel : (s.setPool .user i true).freeFrames .kernel = s.freeFrames .kernel := by
    rw [freeFrames_setPool, if_neg (by decide)]
  obtain ⟨-, ⟨table, rfl⟩ | ⟨table, j, free', rfl⟩⟩ := pageTableAdd_eq_ok added
  · refine ⟨?_, .inl ⟨table, rfl, fun f other => update_of_ne other _ _, kernel⟩⟩
    change ((s.setPool .user i true).freeFrames .user).card + 1 = _
    rw [user]
    omega
  · rw [kernel] at free'
    refine ⟨?_, .inr ⟨table, j, free', rfl, fun f other => ?_, ?_⟩⟩
    · change (((s.setPool .user i true).setPool .kernel j true).freeFrames .user).card + 1 = _
      rw [freeFrames_setPool, if_neg (by decide), user]
      omega
    · -- The new entry is written to the new table.
      refine (update_of_ne ?_ _ _).trans (update_of_ne other _ _)
      change f ≠ (update s.pde (vaddr / pgSize / 1024) _ (vaddr / pgSize / 1024)).frame
      rw [update_self]
      exact other
    · change ((s.setPool .user i true).setPool .kernel j true).freeFrames .kernel = _
      rw [freeFrames_setPool, if_pos rfl, kernel]

theorem getAPageWithoutOpvaddrbitmap_only {vaddr q : Nat} {r : Option Nat}
    (run : getAPageWithoutOpvaddrbitmap .user vaddr s = .ok (r, t))
    (apart : (s.pde (q / 1024)).present = true → (s.pde (vaddr / pgSize / 1024)).present = true →
      (s.pde (q / 1024)).frame = (s.pde (vaddr / pgSize / 1024)).frame → q / 1024 = vaddr / pgSize / 1024)
    (taken : (s.pde (q / 1024)).present = true → ¬s.Free (s.pde (q / 1024)).frame) :
    t.Present q ↔ q = vaddr / pgSize ∨ s.Present q := by
  obtain ⟨i, free, added⟩ := getAPageWithoutOpvaddrbitmap_eq_ok run
  generalize vaddr / pgSize = p at apart added ⊢
  have pages {u : Paging} (before : u.Present q ↔ s.Present q) :
      (if q = p then (⟨s.phyAddrStart .user + i, true⟩ : PageEntry).present = true else u.Present q) ↔ q = p ∨
        s.Present q := by
    by_cases here : q = p
    · simp [here]
    · simp [here, before]
  obtain ⟨-, ⟨table, rfl⟩ | ⟨table, j, free', rfl⟩⟩ := pageTableAdd_eq_ok added
  · rw [present_setPte _ table fun table' => apart table' table]
    exact pages Iff.rfl
  · rw [freeFrames_setPool, if_neg (by decide)] at free'
    have other (table' : (s.pde (q / 1024)).present = true) : (s.pde (q / 1024)).frame ≠ s.phyAddrStart .kernel + j :=
      fun clash => taken table' (clash ▸ free_of_mem free')
    have new : ((((s.setPool .user i true).setPool .kernel j true).setPde (p / 1024) (s.phyAddrStart .kernel + j)).pde
        (p / 1024)) =
        ⟨s.phyAddrStart .kernel + j, true⟩ := update_self _ _ _
    refine Iff.trans (present_setPte _ (congrArg PageEntry.present new) fun table' frames => ?_)
      (pages (pages_setPde table other).1)
    -- Another entry of the directory is as before, and its frame is not the new one.
    by_contra same
    have old (f : Nat) : (((s.setPool .user i true).setPool .kernel j true).setPde (p / 1024) f).pde (q / 1024) =
        s.pde (q / 1024) :=
      update_of_ne same _ _
    rw [old] at table' frames
    exact other table' (frames.trans (congrArg PageEntry.frame new))

/-- Every page table of the directory is in a frame of its own, and that frame is taken. -/
structure Paging.Separate (s : Paging) : Prop where
  tables : ∀ i j, i < 1024 → j < 1024 → (s.pde i).present = true → (s.pde j).present = true →
    (s.pde i).frame = (s.pde j).frame → i = j
  taken : ∀ i, i < 1024 → (s.pde i).present = true → ¬s.Free (s.pde i).frame

theorem Paging.Separate.getAPageWithoutOpvaddrbitmap {vaddr : Nat} {r : Option Nat} (separate : s.Separate)
    (run : getAPageWithoutOpvaddrbitmap .user vaddr s = .ok (r, t)) : t.Separate := by
  obtain ⟨i, free, added⟩ := getAPageWithoutOpvaddrbitmap_eq_ok run
  obtain ⟨-, ⟨table, rfl⟩ | ⟨table, j, free', rfl⟩⟩ := pageTableAdd_eq_ok added
  · refine ⟨separate.tables, fun k low present again =>
      separate.taken k low present (.of_grows (t := s.setPool .user i true) rfl (fun pf k' isSet => ?_) again)⟩
    rw [bit_setPool, isSet, ite_self]
  · generalize vaddr / pgSize / 1024 = new at table
    have fresh : s.Free (s.phyAddrStart .kernel + j) := by
      rw [freeFrames_setPool, if_neg (by decide)] at free'
      exact free_of_mem free'
    have inside := (mem_freeFrames.mp free').1
    -- The directory afterwards, and what is taken.
    have entry (k : Nat) : update s.pde new ⟨s.phyAddrStart .kernel + j, true⟩ k =
        if k = new then ⟨s.phyAddrStart .kernel + j, true⟩ else s.pde k := update_apply _ _ _ _
    have grows {f : Nat} (again : ((s.setPool .user i true).setPool .kernel j true).Free f) : s.Free f :=
      .of_grows (t := (s.setPool .user i true).setPool .kernel j true) rfl (fun pf k isSet =>
        by rw [bit_setPool, bit_setPool, isSet, ite_self, ite_self]) again
    have gone : ¬((s.setPool .user i true).setPool .kernel j true).Free (s.phyAddrStart .kernel + j) :=
      not_free_of_taken (show Locates _ .kernel j _ from ⟨rfl, inside⟩) (by simp [bit_setPool])
    constructor
    · intro k l low low' present present' same
      change (update s.pde new ⟨s.phyAddrStart .kernel + j, true⟩ k).present = true at present
      change (update s.pde new ⟨s.phyAddrStart .kernel + j, true⟩ l).present = true at present'
      change (update s.pde new ⟨s.phyAddrStart .kernel + j, true⟩ k).frame =
        (update s.pde new ⟨s.phyAddrStart .kernel + j, true⟩ l).frame at same
      rw [entry] at present present' same
      rw [entry l] at same
      by_cases here : k = new
      · by_cases there : l = new
        · exact here.trans there.symm
        · rw [if_pos here, if_neg there] at same
          rw [if_neg there] at present'
          exact absurd (same ▸ fresh) (separate.taken l low' present')
      · rw [if_neg here] at present same
        by_cases there : l = new
        · rw [if_pos there] at same
          exact absurd (same ▸ fresh) (separate.taken k low present)
        · rw [if_neg there] at present' same
          exact separate.tables k l low low' present present' same
    · intro k low present
      change (update s.pde new ⟨s.phyAddrStart .kernel + j, true⟩ k).present = true at present
      change ¬((s.setPool .user i true).setPool .kernel j true).Free
        (update s.pde new ⟨s.phyAddrStart .kernel + j, true⟩ k).frame
      rw [entry] at present ⊢
      by_cases here : k = new
      · rw [if_pos here]
        exact gone
      · rw [if_neg here] at present ⊢
        exact fun again => separate.taken k low present (grows again)

/-- What `get_a_page` does to a process: its page appears and no other one. -/
theorem Paging.Separate.getAPage {page : Nat} {r : Option Nat} (separate : s.Separate) (low : page < 0x100000)
    (run : getAPage .user (page * pgSize) s = .ok (r, t)) :
    t.Separate ∧ t.user = s.user ∧ s.Managed .user page ∧ (∀ q, q < 0x100000 → (t.Present q ↔ q = page ∨ s.Present q)) ∧
      (t.freeFrames .user).card + 1 = (s.freeFrames .user).card ∧
      (s.freeFrames .kernel).card ≤ (t.freeFrames .kernel).card + 1 := by
  have number : page * pgSize / pgSize = page := Nat.mul_div_cancel page (by decide)
  obtain ⟨inside, rest⟩ := getAPage_eq_ok run
  have marked : (s.setVaddr .user (vaddrBitIdx .user (page * pgSize)) true 1).Separate :=
    ⟨separate.tables, separate.taken⟩
  obtain ⟨users, tables⟩ := getAPageWithoutOpvaddrbitmap_effect rest
  refine ⟨marked.getAPageWithoutOpvaddrbitmap rest,
    (sameRanges_of_run (getAPageWithoutOpvaddrbitmap_ranges _ _) rest).layout.2,
    managed_of_bitIdx low inside, fun q high => ?_, users, ?_⟩
  · have only := getAPageWithoutOpvaddrbitmap_only (q := q) rest
      (fun present table => marked.tables _ _ (by omega) (by rw [number]; omega) present table)
      (marked.taken _ (by omega))
    rwa [number] at only
  · rcases tables with ⟨-, -, -, same⟩ | ⟨-, j, free, -, -, kernel⟩
    · exact (congrArg Finset.card same).ge.trans (Nat.le_succ _)
    · rw [kernel, Finset.card_erase_of_mem free]
      have some := Finset.card_pos.mpr ⟨j, free⟩
      change _ ≤ (s.freeFrames .kernel).card - 1 + 1
      omega

def Paging.KernelTables (s : Paging) : Prop := ∀ i, 0x300 ≤ i → i < 1023 → (s.pde i).present = true

theorem Paging.Managed.kernel_table (managed : s.Managed .kernel p) : 0x300 ≤ p / 1024 ∧ p / 1024 < 1023 := by
  obtain ⟨low, high⟩ := managed
  simp only [vaddrStart, vaddrBytesLen, freePages] at low high
  omega

theorem Paging.Managed.user_table (managed : s.Managed .user p) : p / 1024 < 0x300 := by
  obtain ⟨-, high⟩ := managed
  have bound := s.vaddrBytesLen_user_le
  simp only [vaddrStart] at high
  omega

structure Paging.Extended (s t : Paging) (page cnt : Nat) : Prop where
  grown : Gained (s.setVaddr .kernel (page - vaddrStart .kernel) true cnt) t .kernel fun q => page ≤ q ∧ q < page + cnt
  absent : ∀ k, k < cnt → ¬s.Present (page + k)
  pde : t.pde = s.pde
  tables : ∀ f, (∀ i, 0x300 ≤ i → f ≠ (s.pde i).frame) → t.table f = s.table f
  kernel : (t.freeFrames .kernel).card + cnt = (s.freeFrames .kernel).card
  user : (t.freeFrames .user).card = (s.freeFrames .user).card

theorem mallocPage_extends {pgCnt i : Nat} (consistent : s.Consistent fun _ => False) (apart : s.Apart)
    (tables : s.KernelTables) (range : 0 < pgCnt ∧ pgCnt < 3840)
    (scan : (s.vaddrBitmap .kernel).scan pgCnt = .ok (some i)) (inside : i + pgCnt ≤ 8 * s.vaddrBytesLen .kernel)
    (enough : pgCnt ≤ (s.freeFrames .kernel).card) :
    ∃ t, mallocPage .kernel pgCnt s = .ok (some ((vaddrStart .kernel + i) * pgSize), t) ∧
      t.Consistent (fun _ => False) ∧ t.Apart ∧
      s.Extended t (vaddrStart .kernel + i) pgCnt := by
  have clear := Bitmap.clear_of_scan range.1 scan
  have run : s.Run .kernel (vaddrStart .kernel + i) pgCnt := ⟨by omega, by omega⟩
  have index : vaddrStart .kernel + i - vaddrStart .kernel = i := by omega
  have absent (k : Nat) (hk : k < pgCnt) : ¬s.Present (vaddrStart .kernel + i + k) := by
    rw [consistent.present_iff .kernel _ (run.managed hk), Marked,
      show vaddrStart .kernel + i + k - vaddrStart .kernel = i + k by omega, clear k hk]
    simp
  have got : vaddrGet .kernel pgCnt s = .ok (some (vaddrStart .kernel + i), s.setVaddr .kernel i true pgCnt) := by
    rw [vaddrGet, get_bind]
    simp only [scan]
    rfl
  have marking := consistent.mark run absent
  rw [index] at marking
  have pages (k : Nat) (hk : k < pgCnt) : s.Managed .kernel (vaddrStart .kernel + i + k) ∧
      (s.setVaddr .kernel i true pgCnt).Marked .kernel (vaddrStart .kernel + i + k) := by
      grind [run.marked, run.managed]
  obtain ⟨t, mapped, pde, others, counts⟩ := mapPages_total marking ⟨apart.tables, apart.mapped⟩
    (fun k hk => ⟨(pages k hk).1, (pages k hk).2, absent k hk, tables _ (run.managed hk).kernel_table.1
      (run.managed hk).kernel_table.2⟩) enough
  obtain ⟨consistent', apart', grown⟩ := mapPages_consistent marking ⟨apart.tables, apart.mapped⟩ pages mapped
  simp only [false_or, and_not_self] at consistent'
  refine ⟨t, ?_, consistent', apart',
    ⟨by rwa [index], absent, pde, fun f other => others f fun k hk => other _ (run.managed hk).kernel_table.1,
    counts .kernel, counts .user⟩⟩
  rw [mallocPage, require_bind range, bind_of_ok got]
  exact bind_of_ok mapped

end

end LaiMiniOs
