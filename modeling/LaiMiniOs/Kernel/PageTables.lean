import LaiMiniOs.Kernel.Pages

/-! Consistency of the page tables with the bitmaps.

Between two calls a page of a managed range is present exactly when its bit is set. Inside a call
some pages are pending: their bit is set, but they are not mapped yet, or not any more.
-/

set_option autoImplicit false

namespace LaiMiniOs
open Foundation Prog Function

variable {i k page : Nat}

namespace Paging

def Present (s : Paging) (p : Nat) : Prop := (s.pde (p / 1024)).present = true ∧ (s.pte p).present = true

def Managed (s : Paging) (pf : PoolFlags) (p : Nat) : Prop :=
  vaddrStart pf ≤ p ∧ p < vaddrStart pf + 8 * s.vaddrBytesLen pf

def Home (s : Paging) (p : Nat) : Prop := ∃ pf, s.Managed pf p

def Covers (s : Paging) (i : Nat) : Prop := ∃ p, s.Home p ∧ p / 1024 = i

def Marked (s : Paging) (pf : PoolFlags) (p : Nat) : Prop := (s.vaddrBitmap pf).bit (p - vaddrStart pf) = true

def Locates (s : Paging) (pool : PoolFlags) (k frame : Nat) : Prop := frame = s.phyAddrStart pool + k ∧
  k < 8 * (s.poolBitmap pool).btmpBytesLen

/-- A managed page is present exactly when its bit is set and it is not pending; present pages have
frames of their own; and the frames of pages and tables are taken in their pools. -/
structure Consistent (s : Paging) (pending : Nat → Prop) : Prop where
  present_iff : ∀ pf p, s.Managed pf p → (s.Present p ↔ s.Marked pf p ∧ ¬pending p)
  distinct : ∀ p q, s.Home p → s.Home q → s.Present p → s.Present q → (s.pte p).frame = (s.pte q).frame → p = q
  mapped : ∀ p, s.Home p → s.Present p → ∃ pool k, s.Locates pool k (s.pte p).frame ∧ (s.poolBitmap pool).bit k = true
  tables : ∀ i, s.Covers i → (s.pde i).present = true → ∀ pool k, s.Locates pool k (s.pde i).frame →
    (s.poolBitmap pool).bit k = true

structure Apart (s : Paging) : Prop where
  tables : ∀ i j, s.Covers i → s.Covers j → (s.pde i).present = true → (s.pde j).present = true →
    (s.pde i).frame = (s.pde j).frame → i = j
  mapped : ∀ i p, s.Covers i → (s.pde i).present = true → s.Home p → s.Present p → (s.pde i).frame ≠ (s.pte p).frame

structure Reserved (s : Paging) (frame : Nat) : Prop where
  taken : ∃ pool k, s.Locates pool k frame ∧ (s.poolBitmap pool).bit k = true
  mapped : ∀ p, s.Home p → s.Present p → (s.pte p).frame ≠ frame
  tables : ∀ i, s.Covers i → (s.pde i).present = true → (s.pde i).frame ≠ frame

variable {s t : Paging} {pending : Nat → Prop} {p q frame : Nat} {pf pool : PoolFlags}

theorem Locates.unique {pool' : PoolFlags} {k' : Nat} (here : s.Locates pool k frame)
    (there : s.Locates pool' k' frame) : pool = pool' ∧ k = k' := by
  obtain ⟨eq, bound⟩ := here
  obtain ⟨eq', bound'⟩ := there
  have same := eq.symm.trans eq'
  cases pool <;> cases pool' <;> simp only [phyAddrStart, poolBitmap, freePages] at same bound bound' <;> first
    | exact ⟨rfl, by omega⟩
    | omega

theorem vaddrBytesLen_user_le (s : Paging) : s.vaddrBytesLen .user ≤ 94199 := by
  simp only [vaddrBytesLen]
  split <;> omega

theorem Managed.unique {pf' : PoolFlags} (here : s.Managed pf p) (there : s.Managed pf' p) : pf = pf' := by
  obtain ⟨low, high⟩ := here
  obtain ⟨low', high'⟩ := there
  have user := s.vaddrBytesLen_user_le
  cases pf <;> cases pf' <;> simp only [vaddrStart] at low high low' high' <;> first
    | rfl
    | omega

theorem Managed.lt (managed : s.Managed pf p) : p < 0xc8100 := by
  have bound := s.allFreePages.isLt
  have user := s.vaddrBytesLen_user_le
  obtain ⟨-, high⟩ := managed
  cases pf
  · simp only [vaddrStart, vaddrBytesLen, freePages] at high
    omega
  · simp only [vaddrStart] at high
    omega

theorem Managed.vaddrBitIdx {vaddr : Nat} (managed : s.Managed pf (vaddr / pgSize)) :
    vaddrBitIdx pf vaddr = vaddr / pgSize - vaddrStart pf := by
  have bound := managed.lt
  have low := managed.1
  grind [LaiMiniOs.vaddrBitIdx]

theorem managed_of_bitIdx (low : p < 0x100000) (inside : vaddrBitIdx pf (p * pgSize) < 8 * s.vaddrBytesLen pf) :
    s.Managed pf p := by
  have bound := s.allFreePages.isLt
  have user := s.vaddrBytesLen_user_le
  rw [LaiMiniOs.vaddrBitIdx, Nat.mul_div_cancel p (by decide)] at inside
  unfold Managed
  cases pf
  · simp only [vaddrStart, vaddrBytesLen, freePages] at inside ⊢
    omega
  · simp only [vaddrStart] at inside ⊢
    omega

theorem bit_setPool (s : Paging) (pf pf' : PoolFlags) (i k : Nat) (v : Bool) :
    ((s.setPool pf i v).poolBitmap pf').bit k = if pf' = pf ∧ k = i then v else (s.poolBitmap pf').bit k := by
  rw [poolBitmap_setPool]
  by_cases same : pf' = pf
  · simp [same]
  · simp [same]

theorem Consistent.take (consistent : s.Consistent pending) (free : i ∈ s.freeFrames pool) :
    (s.setPool pool i true).Consistent pending ∧ (s.setPool pool i true).Reserved (s.phyAddrStart pool + i) := by
  obtain ⟨inside, clear⟩ := mem_freeFrames.mp free
  have located : s.Locates pool i (s.phyAddrStart pool + i) := ⟨rfl, inside⟩
  have kept {pool' : PoolFlags} {k : Nat} (taken : (s.poolBitmap pool').bit k = true) :
      ((s.setPool pool i true).poolBitmap pool').bit k = true := by
    rw [bit_setPool, taken, ite_self]
  -- A frame that was taken before is another one.
  have other {pool' : PoolFlags} {k : Nat} (there : s.Locates pool' k (s.phyAddrStart pool + i)) :
      (s.poolBitmap pool').bit k = false := by
    obtain ⟨rfl, rfl⟩ := located.unique there
    exact clear
  refine ⟨⟨consistent.present_iff, consistent.distinct, fun p home present =>
    ?_, fun i' covers present pool' k there => kept (consistent.tables i' covers present pool' k there)⟩,
    ⟨⟨pool, i, located, by simp [bit_setPool]⟩, fun p home present same => ?_, fun i' covers present same => ?_⟩⟩
  · obtain ⟨pool', k, there, taken⟩ := consistent.mapped p home present
    exact ⟨pool', k, there, kept taken⟩
  · obtain ⟨pool', k, there, taken⟩ := consistent.mapped p home present
    change (s.pte p).frame = s.phyAddrStart pool + i at same
    simp [other (same ▸ there)] at taken
  · change (s.pde i').frame = s.phyAddrStart pool + i at same
    have taken := consistent.tables i' covers present pool i (same ▸ located)
    simp [clear] at taken

theorem Reserved.take (reserved : s.Reserved frame) (free : i ∈ s.freeFrames pool) :
    (s.setPool pool i true).Reserved frame ∧ frame ≠ s.phyAddrStart pool + i := by
  obtain ⟨inside, clear⟩ := mem_freeFrames.mp free
  obtain ⟨pool', k, there, taken⟩ := reserved.taken
  refine ⟨⟨⟨pool', k, there, by rw [bit_setPool, taken, ite_self]⟩, reserved.mapped, reserved.tables⟩, fun same => ?_⟩
  obtain ⟨rfl, rfl⟩ := there.unique (show s.Locates pool i frame from ⟨same, inside⟩)
  simp [clear] at taken

theorem Home.covers (home : s.Home p) : s.Covers (p / 1024) := ⟨p, home, rfl⟩

theorem pte_setPte (entry : PageEntry)
    (apart : (s.pde (q / 1024)).frame = (s.pde (p / 1024)).frame → q / 1024 = p / 1024) :
    (s.setPte p entry).pte q = if q = p then entry else s.pte q := by
  change update s.table _ _ (s.pde (q / 1024)).frame (q % 1024) = _
  by_cases same : q / 1024 = p / 1024
  · rw [same, update_self, update_apply]
    by_cases here : q = p
    · simp [here]
    · rw [if_neg here, if_neg (by omega), pte, same]
  · rw [update_of_ne (fun frames => same (apart frames)), if_neg (by rintro rfl; exact same rfl)]
    rfl

theorem present_setPte (entry : PageEntry) (table : (s.pde (p / 1024)).present = true)
    (apart : (s.pde (q / 1024)).present = true → (s.pde (q / 1024)).frame = (s.pde (p / 1024)).frame →
    q / 1024 = p / 1024) :
    (s.setPte p entry).Present q ↔ if q = p then entry.present = true else s.Present q := by
  by_cases table' : (s.pde (q / 1024)).present = true
  · change (s.pde (q / 1024)).present = true ∧ ((s.setPte p entry).pte q).present = true ↔ _
    rw [pte_setPte entry (apart table')]
    by_cases here : q = p
    · simp [here, table]
    · simp [here, Present]
  · have absent : ¬q = p := by rintro rfl; exact table' table
    rw [if_neg absent]
    exact iff_of_false (fun present => table' present.1) fun present => table' present.1

theorem Apart.pte_setPte (apart : s.Apart) (home : s.Home p) (home' : s.Home q)
    (table : (s.pde (p / 1024)).present = true)
    (table' : (s.pde (q / 1024)).present = true) (entry : PageEntry) :
    (s.setPte p entry).pte q = if q = p then entry else s.pte q :=
  Paging.pte_setPte entry (apart.tables _ _ home'.covers home.covers table' table)

theorem Apart.present_setPte (apart : s.Apart) (home : s.Home p) (home' : s.Home q)
    (table : (s.pde (p / 1024)).present = true)
    (entry : PageEntry) : (s.setPte p entry).Present q ↔ if q = p then entry.present = true else s.Present q :=
  Paging.present_setPte entry table fun table' => apart.tables _ _ home'.covers home.covers table' table

theorem pages_setPde (absent : (s.pde i).present = false)
    (other : (s.pde (q / 1024)).present = true → (s.pde (q / 1024)).frame ≠ frame) :
    ((s.setPde i frame).Present q ↔ s.Present q) ∧ (s.Present q → (s.setPde i frame).pte q = s.pte q) := by
  by_cases same : q / 1024 = i
  · subst same
    have zero : (s.setPde (q / 1024) frame).pte q = ⟨0, false⟩ := by
      simp [pte, Paging.setPde]
    have gone : ¬s.Present q := fun present => by simpa [absent] using present.1
    refine ⟨iff_of_false (fun present => ?_) gone, fun present => absurd present gone⟩
    have bit := present.2
    rw [zero] at bit
    cases bit
  · have entry : (s.setPde i frame).pde (q / 1024) = s.pde (q / 1024) := update_of_ne same _ _
    have kept (table : (s.pde (q / 1024)).present = true) : (s.setPde i frame).pte q = s.pte q := by
      rw [pte, entry]
      change update s.table frame _ (s.pde (q / 1024)).frame (q % 1024) = _
      rw [update_of_ne (other table)]
      rfl
    grind [Present]

theorem Reserved.setPde (reserved : s.Reserved frame) (absent : (s.pde i).present = false) (home : s.Home q) :
    ((s.setPde i frame).Present q ↔ s.Present q) ∧ (s.Present q → (s.setPde i frame).pte q = s.pte q) :=
  pages_setPde absent (reserved.tables _ home.covers)

theorem Reserved.locates (reserved : s.Reserved frame) (here : s.Locates pool k frame) :
    (s.poolBitmap pool).bit k = true := by
  obtain ⟨pool', k', there, taken⟩ := reserved.taken
  obtain ⟨rfl, rfl⟩ := here.unique there
  exact taken

theorem Consistent.newTable (consistent : s.Consistent pending) (apart : s.Apart) (reserved : s.Reserved frame)
    (absent : (s.pde i).present = false) :
    (s.setPde i frame).Consistent pending ∧ (s.setPde i frame).Apart := by
  have pages {q : Nat} (home : s.Home q) := reserved.setPde absent home
  have entry {j : Nat} (other : j ≠ i) : (s.setPde i frame).pde j = s.pde j := update_of_ne other _ _
  have new : (s.setPde i frame).pde i = ⟨frame, true⟩ := update_self _ _ _
  refine ⟨⟨fun pf p managed => ?_, fun p q home home' present present' same => ?_, fun p home present =>
    ?_, fun j covers present pool k there => ?_⟩,
    ⟨fun j j' covers covers' present present' same => ?_, fun j p covers present home there => ?_⟩⟩
  · exact (pages ⟨pf, managed⟩).1.trans (consistent.present_iff pf p managed)
  · have before := (pages home).1.mp present
    have before' := (pages home').1.mp present'
    rw [(pages home).2 before, (pages home').2 before'] at same
    exact consistent.distinct p q home home' before before' same
  · have before := (pages home).1.mp present
    rw [(pages home).2 before]
    exact consistent.mapped p home before
  · by_cases here : j = i
    · subst here
      rw [new] at there
      exact reserved.locates there
    · rw [entry here] at present there
      exact consistent.tables j covers present pool k there
  · by_cases here : j = i <;> by_cases here' : j' = i
    · exact here.trans here'.symm
    · rw [here, new, entry here'] at same
      rw [entry here'] at present'
      exact absurd same.symm (reserved.tables j' covers' present')
    · rw [here', new, entry here] at same
      rw [entry here] at present
      exact absurd same (reserved.tables j covers present)
    · rw [entry here, entry here'] at same
      rw [entry here] at present
      rw [entry here'] at present'
      exact apart.tables j j' covers covers' present present' same
  · have before := (pages home).1.mp there
    rw [(pages home).2 before]
    by_cases here : j = i
    · rw [here, new]
      exact (reserved.mapped p home before).symm
    · rw [entry here] at present ⊢
      exact apart.mapped j p covers present home before

theorem Reserved.newTable {other : Nat} (reserved : s.Reserved frame) (fresh : s.Reserved other)
    (apart : frame ≠ other) (absent : (s.pde i).present = false) :
    (s.setPde i other).Reserved frame := by
  refine ⟨reserved.taken, fun p home present => ?_, fun j covers present => ?_⟩
  · have before := (fresh.setPde absent home).1.mp present
    rw [(fresh.setPde absent home).2 before]
    exact reserved.mapped p home before
  · by_cases here : j = i
    · subst here
      rw [show (s.setPde j other).pde j = ⟨other, true⟩ from update_self _ _ _]
      exact apart.symm
    · rw [show (s.setPde i other).pde j = s.pde j from update_of_ne here _ _] at present ⊢
      exact reserved.tables j covers present

theorem Consistent.install (consistent : s.Consistent pending) (apart : s.Apart) (reserved : s.Reserved frame)
    (managed : s.Managed pf p) (marked : s.Marked pf p)
    (table : (s.pde (p / 1024)).present = true) :
    (s.setPte p ⟨frame, true⟩).Consistent (fun q => pending q ∧ q ≠ p) ∧ (s.setPte p ⟨frame, true⟩).Apart := by
  have home : s.Home p := ⟨pf, managed⟩
  have present_iff {q : Nat} (home' : s.Home q) : (s.setPte p ⟨frame, true⟩).Present q ↔ q = p ∨ s.Present q := by
    rw [apart.present_setPte home home' table]
    by_cases here : q = p <;> simp [here]
  have own : (s.setPte p ⟨frame, true⟩).pte p = ⟨frame, true⟩ := by
    rw [apart.pte_setPte home home table table, if_pos rfl]
  have others {q : Nat} (home' : s.Home q) (present : s.Present q) (other : q ≠ p) :
      (s.setPte p ⟨frame, true⟩).pte q = s.pte q := by
    rw [apart.pte_setPte home home' table present.1, if_neg other]
  refine ⟨⟨fun pf' q managed' => ?_, fun q q' home' home'' present present' same => ?_, fun q home' present =>
    ?_, consistent.tables⟩,
    ⟨apart.tables, fun i q covers there home' present => ?_⟩⟩
  · rw [present_iff ⟨pf', managed'⟩, consistent.present_iff pf' q managed']
    by_cases here : q = p
    · obtain rfl := here
      obtain rfl := managed.unique managed'
      simp only [true_or, ne_eq, not_true_eq_false, and_false, not_false_eq_true, and_true, true_iff]
      exact marked
    · simp only [here, false_or, ne_eq, not_false_eq_true, and_true]
      rfl
  · by_cases here : q = p <;> by_cases here' : q' = p
    · exact here.trans here'.symm
    · have before := ((present_iff home'').mp present').resolve_left here'
      rw [here, own, others home'' before here'] at same
      exact absurd same.symm (reserved.mapped q' home'' before)
    · have before := ((present_iff home').mp present).resolve_left here
      rw [here', own, others home' before here] at same
      exact absurd same (reserved.mapped q home' before)
    · have before := ((present_iff home').mp present).resolve_left here
      have before' := ((present_iff home'').mp present').resolve_left here'
      rw [others home' before here, others home'' before' here'] at same
      exact consistent.distinct q q' home' home'' before before' same
  · by_cases here : q = p
    · rw [here, own]
      exact reserved.taken
    · have before := ((present_iff home').mp present).resolve_left here
      rw [others home' before here]
      exact consistent.mapped q home' before
  · by_cases here : q = p
    · rw [here, own]
      exact reserved.tables i covers there
    · have before := ((present_iff home').mp present).resolve_left here
      rw [others home' before here]
      exact apart.mapped i q covers there home' before

/-- What mapping pages changes: the pages that are done have frames of the pool that were free, and the
other frames that are newly taken are those of new tables. -/
structure Gained (s t : Paging) (pool : PoolFlags) (done : Nat → Prop) : Prop where
  layout : t.allFreePages = s.allFreePages ∧ t.user = s.user
  vaddr : t.vaddr = s.vaddr
  pde : ∀ i, (s.pde i).present = true → t.pde i = s.pde i
  absent : ∀ p, done p → ¬s.Present p
  present : ∀ p, s.Home p → (t.Present p ↔ s.Present p ∨ done p)
  kept : ∀ p, s.Home p → s.Present p → t.pte p = s.pte p
  fresh : ∀ p, done p → s.Home p ∧ ∃ k, s.Locates pool k (t.pte p).frame ∧ (s.poolBitmap pool).bit k = false
  grows : ∀ pf k, (s.poolBitmap pf).bit k = true → (t.poolBitmap pf).bit k = true
  bits : ∀ pf k, (t.poolBitmap pf).bit k = true → (s.poolBitmap pf).bit k = true ∨
    (∃ p, done p ∧ s.Locates pf k (t.pte p).frame) ∨ ∃ i, (s.pde i).present = false ∧ (t.pde i).present = true ∧
      s.Locates pf k (t.pde i).frame

theorem Gained.home (grown : Gained s t pool pending) : t.Home p ↔ s.Home p := by
  obtain ⟨free, user⟩ := grown.layout
  simp only [Home, Managed, vaddrBytesLen, freePages, free, user]

theorem Gained.locates (grown : Gained s t pool pending) : t.Locates pf k frame ↔ s.Locates pf k frame := by
  obtain ⟨free, user⟩ := grown.layout
  cases pf <;> simp only [Locates, phyAddrStart, poolBitmap, freePages, free]

theorem Gained.refl (s : Paging) (pool : PoolFlags) : Gained s s pool fun _ => False where
  layout := ⟨rfl, rfl⟩
  vaddr := rfl
  pde _ _ := rfl
  absent _ no := no.elim
  present _ _ := (or_iff_left id).symm
  kept _ _ _ := rfl
  fresh _ no := no.elim
  grows _ _ := id
  bits _ _ := .inl

theorem Gained.trans {u : Paging} {more : Nat → Prop} (first : Gained s t pool pending)
    (second : Gained t u pool more) :
    Gained s u pool fun p => pending p ∨ more p := by
  have kept {p : Nat} (done : pending p) : u.pte p = t.pte p :=
    second.kept p (first.home.mpr (first.fresh p done).1) ((first.present p (first.fresh p done).1).mpr (.inr done))
  refine ⟨⟨second.layout.1.trans first.layout.1, second.layout.2.trans first.layout.2⟩,
    second.vaddr.trans first.vaddr, fun i present => ?_, fun p done => ?_,
    fun p home => ?_, fun p home present => ?_, fun p done => ?_, fun pf k taken =>
      second.grows pf k (first.grows pf k taken), fun pf k taken => ?_⟩
  · have same := first.pde i present
    exact (second.pde i (same ▸ present)).trans same
  · rcases done with done | done
    · exact first.absent p done
    · exact fun present =>
        second.absent p done ((first.present p (first.home.mp (second.fresh p done).1)).mpr (.inl present))
  · rw [second.present p (first.home.mpr home), first.present p home, or_assoc]
  · grind [second.kept, home, present, first.kept]
  · grind [kept, first.fresh, second.fresh, first.home, first.locates, first.grows]
  grind [second.bits, first.bits, second.pde, first.locates, first.pde]

/-- The entry of a page is written into a state that differs from the first one in the page's frame
and in the tables. -/
theorem Gained.of_install {u : Paging} (layout : u.allFreePages = s.allFreePages ∧ u.user = s.user)
    (vaddr : u.vaddr = s.vaddr)
    (pde : ∀ i, (s.pde i).present = true → u.pde i = s.pde i)
    (pages : ∀ q, s.Home q → (u.Present q ↔ s.Present q) ∧ (s.Present q → u.pte q = s.pte q))
    (grows : ∀ pf k, (s.poolBitmap pf).bit k = true → (u.poolBitmap pf).bit k = true)
    (bits : ∀ pf k, (u.poolBitmap pf).bit k = true → (s.poolBitmap pf).bit k = true ∨ s.Locates pf k frame ∨
      ∃ i, (s.pde i).present = false ∧ (u.pde i).present = true ∧ s.Locates pf k (u.pde i).frame)
    (apart : u.Apart) (home : s.Home p) (table : (u.pde (p / 1024)).present = true) (absent : ¬s.Present p)
    (free : ∃ k, s.Locates pool k frame ∧ (s.poolBitmap pool).bit k = false) :
    Gained s (u.setPte p ⟨frame, true⟩) pool (· = p) := by
  have homes {q : Nat} (home : s.Home q) : u.Home q := by
    simpa only [Home, Managed, vaddrBytesLen, freePages, layout.1, layout.2] using home
  have own : (u.setPte p ⟨frame, true⟩).pte p = ⟨frame, true⟩ := by
    rw [apart.pte_setPte (homes home) (homes home) table table, if_pos rfl]
  refine ⟨layout, vaddr, pde, fun q here => here ▸ absent, fun q home' => ?_, fun q home' present => ?_, fun q here =>
    ?_, grows, fun pf k taken => ?_⟩
  · grind [apart.present_setPte]
  · have there := (pages q home').1.mpr present
    rw [apart.pte_setPte (homes home) (homes home') table there.1, if_neg (by rintro rfl; exact absent present),
      (pages q home').2 present]
  · obtain rfl := here
    rw [own]
    exact ⟨home, free⟩
  · refine (bits pf k taken).imp_right fun new => new.imp_left fun there => ⟨p, rfl, ?_⟩
    rwa [own]

end Paging

theorem installPte_eq_ok {s t : Paging} {frame : Nat} (run : installPte page frame s = .ok ((), t)) :
    (s.pte page).present = false ∧ t = s.setPte page ⟨frame, true⟩ := by
  rw [installPte, get_bind] at run
  obtain ⟨absent, run⟩ := require_bind_eq_ok.mp run
  exact ⟨absent, (Prod.mk.inj (Except.ok.inj run)).2.symm⟩

theorem pageTableAdd_eq_ok {s t : Paging} {frame : Nat} (run : pageTableAdd page frame s = .ok ((), t)) :
    ¬s.Present page ∧ ((s.pde (page / 1024)).present = true ∧ t = s.setPte page ⟨frame, true⟩ ∨
      (s.pde (page / 1024)).present = false ∧ ∃ j ∈ s.freeFrames .kernel,
        t = ((s.setPool .kernel j true).setPde (page / 1024) (s.phyAddrStart .kernel + j)).setPte page
          ⟨frame, true⟩) := by
  rw [pageTableAdd, get_bind] at run
  split at run
  next table =>
    obtain ⟨absent, rfl⟩ := installPte_eq_ok run
    exact ⟨fun present => by simp [present.2] at absent, .inl ⟨table, rfl⟩⟩
  next table =>
    refine ⟨fun present => table present.1, .inr ⟨by simpa using table, ?_⟩⟩
    rcases palloc_cases s .kernel with ⟨-, error⟩ | ⟨j, free, taken⟩
    · rw [bind_of_error error] at run
      cases run
    · rw [bind_of_ok taken, modify_bind] at run
      obtain ⟨-, rfl⟩ := installPte_eq_ok run
      exact ⟨j, free, rfl⟩

section
open Paging
variable {s t : Paging} {pending : Nat → Prop} {p : Nat} {pf pool : PoolFlags}

theorem Paging.Consistent.mapPage (consistent : s.Consistent pending) (apart : s.Apart) (managed : s.Managed pf p)
    (marked : s.Marked pf p)
    (free : i ∈ s.freeFrames pool)
    (run : pageTableAdd p (s.phyAddrStart pool + i) (s.setPool pool i true) = .ok ((), t)) :
    t.Consistent (fun q => pending q ∧ q ≠ p) ∧ t.Apart ∧ Gained s t pool (· = p) := by
  obtain ⟨inside, clear⟩ := mem_freeFrames.mp free
  obtain ⟨taken, reserved⟩ := consistent.take free
  have apart₁ : (s.setPool pool i true).Apart := ⟨apart.tables, apart.mapped⟩
  have home : s.Home p := ⟨pf, managed⟩
  have first (pf' : PoolFlags) (k : Nat) (isSet : ((s.setPool pool i true).poolBitmap pf').bit k = true) :
      (s.poolBitmap pf').bit k = true ∨ s.Locates pf' k (s.phyAddrStart pool + i) := by
    rw [bit_setPool] at isSet
    split at isSet
    next here =>
      obtain ⟨rfl, rfl⟩ := here
      exact .inr ⟨rfl, inside⟩
    next => exact .inl isSet
  have grows (pf' : PoolFlags) (k : Nat) (isSet : (s.poolBitmap pf').bit k = true) :
      ((s.setPool pool i true).poolBitmap pf').bit k = true := by
    rw [bit_setPool, isSet, ite_self]
  obtain ⟨absent, ⟨table, rfl⟩ | ⟨table, j, free', rfl⟩⟩ := pageTableAdd_eq_ok run
  · obtain ⟨installed, apart'⟩ := taken.install apart₁ reserved managed marked table
    refine ⟨installed, apart', Gained.of_install ⟨rfl, rfl⟩ rfl (fun _ _ => rfl)
      (fun q _ => ⟨Iff.rfl, fun _ => rfl⟩) grows (fun pf' k isSet => ?_) apart₁ home table
      absent ⟨i, ⟨rfl, inside⟩, clear⟩⟩
    exact (first pf' k isSet).imp_right .inl
  · obtain ⟨taken', fresh⟩ := taken.take free'
    obtain ⟨reserved', other⟩ := reserved.take free'
    have apart₂ : ((s.setPool pool i true).setPool .kernel j true).Apart := ⟨apart.tables, apart.mapped⟩
    obtain ⟨tabled, apart₃⟩ := taken'.newTable apart₂ fresh table
    have new : ((((s.setPool pool i true).setPool .kernel j true).setPde (p / 1024) (s.phyAddrStart .kernel + j)).pde
        (p / 1024)) =
        ⟨s.phyAddrStart .kernel + j, true⟩ := update_self _ _ _
    obtain ⟨installed, apart'⟩ :=
      tabled.install apart₃ (reserved'.newTable fresh other table) managed marked (congrArg PageEntry.present new)
    refine ⟨installed, apart', Gained.of_install ⟨rfl, rfl⟩ rfl (fun i' present => ?_)
      (fun q home' => fresh.setPde table home') (fun pf' k isSet => ?_) (fun pf' k isSet => ?_)
      apart₃ home (congrArg PageEntry.present new) absent ⟨i, ⟨rfl, inside⟩, clear⟩⟩
    · refine update_of_ne ?_ _ _
      rintro rfl
      exact absurd (present.symm.trans table) (by decide)
    · change (((s.setPool pool i true).setPool .kernel j true).poolBitmap pf').bit k = true
      rw [bit_setPool, grows pf' k isSet, ite_self]
    · change (((s.setPool pool i true).setPool .kernel j true).poolBitmap pf').bit k = true at isSet
      rw [bit_setPool] at isSet
      split at isSet
      next here =>
        obtain ⟨rfl, rfl⟩ := here
        exact .inr (.inr ⟨p / 1024, table, congrArg PageEntry.present new, congrArg PageEntry.frame new,
          (mem_freeFrames.mp free').1⟩)
      next => exact (first pf' k isSet).imp_right .inl

theorem mapPages_consistent {cnt : Nat} (consistent : s.Consistent pending) (apart : s.Apart)
    (marked : ∀ k, k < cnt → s.Managed pf (page + k) ∧ s.Marked pf (page + k))
    (run : mapPages pf cnt page s = .ok (true, t)) :
    t.Consistent (fun q => pending q ∧ ¬(page ≤ q ∧ q < page + cnt)) ∧ t.Apart ∧ Gained s t pf fun q => page ≤ q ∧
      q < page + cnt := by
  induction cnt generalizing s page pending with
  | zero =>
    obtain rfl : s = t := (Prod.mk.inj (Except.ok.inj run)).2
    have none (q : Nat) : ¬(page ≤ q ∧ q < page + 0) := by omega
    simpa only [none, not_false_eq_true, and_true] using ⟨consistent, apart, Gained.refl s pf⟩
  | succ cnt ih =>
    rw [mapPages] at run
    rcases palloc_cases s pf with ⟨-, error⟩ | ⟨i, free, taken⟩
    · rw [bind_of_error error] at run
      cases run
    rw [bind_of_ok taken] at run
    obtain ⟨_, u, added, rest⟩ := bind_eq_ok.mp run
    obtain ⟨consistent', apart', grown⟩ :=
      consistent.mapPage apart (marked 0 (by omega)).1 (marked 0 (by omega)).2 free added
    have ahead (k : Nat) (hk : k < cnt) : u.Managed pf (page + 1 + k) ∧ u.Marked pf (page + 1 + k) := by
      have before := marked (k + 1) (by omega)
      rw [show page + 1 + k = page + (k + 1) by omega]
      simpa only [Managed, Marked, vaddrBitmap, vaddrBytesLen, freePages, grown.layout.1, grown.layout.2,
        grown.vaddr] using before
    obtain ⟨last, apart'', grown'⟩ := ih consistent' apart' ahead rest
    have run_iff (q : Nat) : (q = page + 0 ∨ page + 1 ≤ q ∧ q < page + 1 + cnt) ↔ page ≤ q ∧ q < page + (cnt + 1) :=
      by omega
    have pending_iff (q : Nat) : ((pending q ∧ q ≠ page + 0) ∧ ¬(page + 1 ≤ q ∧ q < page + 1 + cnt)) ↔ pending q ∧
        ¬(page ≤ q ∧ q < page + (cnt + 1)) := by
      rw [← run_iff, not_or, and_assoc]
    have whole := grown.trans grown'
    grind

end

end LaiMiniOs
