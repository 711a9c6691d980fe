import LaiMiniOs.Fs.CallUsers
import LaiMiniOs.Fs.DirHandles

/-! Two listings of one directory.

Each handle has its own position, so two readers do not see each other. But the address of
`root_dir` is given out to everybody who opens `/`, with the position that the last reader left.
-/

set_option autoImplicit false

namespace LaiMiniOs
open Foundation Prog Function

variable {i : Bool} {h : DirPtr} {t : DirFs} {s : Fs}

/-- Nothing but the users of inodes has changed, and new structures have come. -/
structure Fs.Undisturbed (s t : Fs) : Prop where
  disk : t.disk = s.disk
  part : t.part = s.part
  rootDir : t.rootDir = s.rootDir
  brk : s.brk ≤ t.brk
  heap : ∀ q, q < s.brk → (t.heap q).uncounted = (s.heap q).uncounted

theorem Fs.Undisturbed.inode {t : Fs} (same : s.Undisturbed t) {q : Nat} (old : q < s.brk) :
    (t.heap q).iSectors = (s.heap q).iSectors ∧ (t.heap q).iSize = (s.heap q).iSize := by
  have inodes := same.heap q old
  simp only [Inode.uncounted, Inode.mk.injEq] at inodes
  exact ⟨inodes.2.2.2.2.1, inodes.2.1⟩

theorem tracks_undisturbed (layout : Layout s.part) : Tracks fun _ t => s.Undisturbed t where
  opens := by
    intro held t t' n p same _ run
    obtain ⟨-, result⟩ := (inodeOpen_eq_ok (same.part ▸ layout)).mp run
    obtain ⟨rfl, rfl⟩ := Prod.mk.inj result
    refine ⟨same.disk, same.part, ?_, Nat.le_trans same.brk (Kernel.opened_brk _ _), fun q old => ?_⟩
    · rw [← same.rootDir]
      change (Kernel.opened _ _ _).2.rootDir = _
      unfold Kernel.opened
      cases t.toKernel.cached n <;> rfl
    · rw [← same.heap q old]
      exact t.toKernel.uncounted_opened n _ (Nat.lt_of_lt_of_le old same.brk)
  closes := by
    intro held t t' p same run
    rw [inodeClose_eq] at run
    obtain ⟨-, rfl⟩ := Prod.mk.inj (Except.ok.inj run)
    refine ⟨same.disk, same.part, same.rootDir, same.brk, fun q old => ?_⟩
    rw [← same.heap q old]
    exact t.toKernel.uncounted_closed p q

theorem sysOpendir_opened {t : Fs} (layout : Layout s.part) {stack : Stack} {name : List Byte}
    (other : name ≠ [slash]) {dir : Dir}
    (run : sysOpendir stack name s = .ok (some dir, t)) : (∃ p, dir = .opened p) ∧ s.Undisturbed t := by
  have tracks := tracks_undisturbed layout
  obtain ⟨-, run⟩ := require_bind_eq_ok.mp run
  rw [if_neg other] at run
  obtain ⟨⟨no, record⟩, s₁, search, run⟩ := bind_eq_ok.mp run
  have same : s.Undisturbed s₁ := tracks.searchFile ⟨rfl, rfl, rfl, Nat.le_refl _, fun _ _ => rfl⟩ search
  dsimp only at run
  split at run
  · obtain ⟨d, s₂, open_, run⟩ := bind_eq_ok.mp run
    obtain ⟨_, s₃, close, last⟩ := bind_eq_ok.mp run
    cases last
    obtain ⟨p, s₄, opened, last⟩ := bind_eq_ok.mp open_
    cases last
    exact ⟨⟨p, rfl⟩, tracks.finish (@Tracks.opens _ tracks [] _ _ _ _ same (Nat.zero_le _) opened) close⟩
  · obtain ⟨_, s₂, close, last⟩ := bind_eq_ok.mp run
    cases last

namespace DirFs

variable {s t : DirFs} {stack : Stack} {name : List Byte} {h : DirPtr}

theorem sysOpendir_root (stack : Stack) (s : DirFs) : sysOpendir stack [slash] s = .ok (some .root, s) := rfl

theorem sysOpendir_new (layout : Layout s.fs.part) (other : name ≠ [slash])
    (run : sysOpendir stack name s = .ok (some h, t)) :
    h = .alloc s.next ∧ (t.dirs h).dirPos = 0 ∧ t.next = s.next + 1 ∧ (∀ h', h' ≠ h → t.dirs h' = s.dirs h') ∧
      s.fs.Undisturbed t.fs := by
  obtain ⟨found, u, zoomed, rest⟩ := bind_eq_ok.mp run
  obtain ⟨fs, search, rfl⟩ := Prog.zoom_eq_ok.mp zoomed
  cases found with
  | none => cases rest
  | some dir =>
    obtain ⟨⟨p, rfl⟩, same⟩ := sysOpendir_opened layout other search
    cases rest
    refine ⟨rfl, ?_, rfl, fun h' apart => update_of_ne apart _ _, same⟩
    exact congrArg OpenDir.dirPos (dirs_setDir s (.alloc s.next) _)

end DirFs

/-- Two readers, what is left of their calls in progress, and what their calls have returned. -/
structure Readers where
  state : DirFs
  handle : Bool → Option DirPtr
  left : Bool → Option (DirM (Option DirEntry))
  results : Bool → List (Option DirEntry)

namespace Readers

def start (s : DirFs) : Readers := ⟨s, fun _ => none, fun _ => none, fun _ => []⟩

/-- One of the readers opens the directory `p` by its name, starts a `sys_readdir`, goes on with it to the next wait
or returns from it. -/
inductive Step (p : Nat) (locals : Bool → Stack) (names : Bool → List Byte) (m : Readers) : Readers → Prop where
  | opens (i : Bool) {h : DirPtr} {t : DirFs} (new : m.handle i = none)
      (run : DirFs.sysOpendir (locals i) (names i) m.state = .ok (some h, t)) (here : t.inode h = p) :
      Step p locals names m { m with state := t, handle := update m.handle i (some h) }
  | starts (i : Bool) {h : DirPtr} (held : m.handle i = some h) (idle : m.left i = none) :
      Step p locals names m { m with left := update m.left i (some (DirFs.sysReaddir (some h))) }
  | advances (i : Bool) {x : DirM (Option DirEntry)} (busy : m.left i = some x) :
      Step p locals names m
        { m with state := (x.advance m.state).2, left := update m.left i (some (x.advance m.state).1) }
  | returns (i : Bool) {r : Option DirEntry} (ended : m.left i = some (.done r)) :
      Step p locals names m { m with left := update m.left i none, results := update m.results i (m.results i ++ [r]) }

def expected (live : List DirEntry) (n : Nat) : List (Option DirEntry) := (List.range n).map fun k => live[k]?

/-- Each reader has got what it should, and a call in progress will return. -/
structure Exact (live : List DirEntry) (m : Readers) : Prop where
  results : ∀ i, m.results i = expected live (m.results i).length
  left : ∀ i x, m.left i = some x → ∃ r t, x m.state = .ok (r, t)

def Turn (h : DirPtr) (live : List DirEntry) (n : Nat) (r : Option DirEntry) (t : DirFs) : Prop :=
  r = live[n]? ∧ (t.dirs h).dirPos.toNat = 24 * min (n + 1) live.length

structure Reads (p : Nat) (live : List DirEntry) (m : Readers) (i : Bool) (h : DirPtr) : Prop where
  inode : m.state.inode h = p
  results : m.results i = expected live (m.results i).length
  idle : m.left i = none → (m.state.dirs h).dirPos.toNat = 24 * min (m.results i).length live.length
  busy : ∀ x, m.left i = some x →
    Prog.Rests (DirFs.Spares h p) (DirFs.Uses h) (Turn h live (m.results i).length) x m.state

structure Waits (names : Bool → List Byte) (m : Readers) (i : Bool) : Prop where
  idle : m.left i = none
  results : m.results i = []
  root : names i = [slash] → (m.state.dirs .root).dirPos = 0

/-- The state of the run is known from its start `s`. The directory is in memory, or nobody has opened it yet. -/
structure Inv (s : DirFs) (p : Nat) (names : Bool → List Byte) (live : List DirEntry) (m : Readers) : Prop where
  layout : Layout m.state.fs.part
  loaded : (m.state.fs.Listable p live ∧ p < m.state.fs.brk) ∨ ((∀ i, m.handle i = none) ∧ m.state = s)
  waits : ∀ i, m.handle i = none → m.Waits names i
  reads : ∀ i h, m.handle i = some h → m.Reads p live i h
  root : ∀ i h, m.handle i = some h → (h = .root ↔ names i = [slash])
  below : ∀ i a, m.handle i = some (.alloc a) → a < m.state.next
  apart : ∀ i j h, m.handle i = some h → m.handle j = some h → i = j

section
variable {s : DirFs} {p : Nat} {locals : Bool → Stack} {names : Bool → List Byte} {live : List DirEntry}
  {m m' : Readers}

theorem expected_succ (live : List DirEntry) (n : Nat) : expected live (n + 1) = expected live n ++ [live[n]?] := by
  rw [expected, List.range_succ, List.map_append, ← expected]
  rfl

theorem update_eq_some {A : Type} {f : Bool → Option A} {j : Bool} {a b : A} (held : update f i (some a) j = some b) :
    (j = i ∧ b = a) ∨ f j = some b := by grind

theorem update_eq_none {A : Type} {f : Bool → Option A} {j : Bool} {a : A} (none : update f i (some a) j = none) :
    j ≠ i ∧ f j = .none := by grind

theorem Reads.spared (reads : m.Reads p live i h) (spares : DirFs.Spares h p m.state m'.state)
    (left : m'.left i = m.left i) (results : m'.results i = m.results i) : m'.Reads p live i h where
  inode := by rw [spares.inode, reads.inode]
  results := by
    rw [results]
    exact reads.results
  idle := by
    rw [left, results, spares.dir]
    exact reads.idle
  busy := by
    intro x busy
    rw [left] at busy
    rw [results]
    exact (reads.busy x busy).mono (fun _ _ _ => .trans) spares

theorem Waits.spared (waits : m.Waits names i) (left : m'.left i = m.left i) (results : m'.results i = m.results i)
    (root : names i = [slash] → m'.state.dirs .root = m.state.dirs .root) : m'.Waits names i where
  idle := left.trans waits.idle
  results := results.trans waits.results
  root := by
    intro slash
    rw [root slash]
    exact waits.root slash

theorem spares_of_undisturbed (same : s.fs.Undisturbed t.fs) (dir : t.dirs h = s.dirs h) (old : p < s.fs.brk) :
    DirFs.Spares h p s t :=
  ⟨dir, DirFs.inode_congr same.rootDir (by rw [dir]), same.disk, same.part, (same.inode old).1, (same.inode old).2⟩

theorem Inv.opening (inv : Inv s p names live m) (single : ∀ i j, names i = [slash] → names j = [slash] → i = j)
    (new : m.handle i = none) {stack : Stack} (run : DirFs.sysOpendir stack (names i) m.state = .ok (some h, t)) :
    (h = .root ↔ names i = [slash]) ∧ (∀ a, h = .alloc a → a < t.next) ∧ m.state.next ≤ t.next ∧ (t.dirs h).dirPos = 0 ∧
      (∀ h', h' ≠ h → t.dirs h' = m.state.dirs h') ∧ m.state.fs.Undisturbed t.fs ∧ ∀ j h', m.handle j = some h' →
      h' ≠ h := by
  by_cases root : names i = [slash]
  · rw [root, DirFs.sysOpendir_root] at run
    cases run
    refine ⟨iff_of_true rfl root, nofun, Nat.le_refl _, (inv.waits i new).root root, fun _ _ =>
      rfl, ⟨rfl, rfl, rfl, Nat.le_refl _, fun _ _ => rfl⟩, ?_⟩
    grind [root]
  · obtain ⟨rfl, pos, next, others, same⟩ := DirFs.sysOpendir_new inv.layout root run
    refine ⟨iff_of_false nofun root, ?_, by omega, pos, others, same, ?_⟩
    · intro a here
      cases here
      omega
    · rintro j h' held rfl
      exact absurd (inv.below j _ held) (Nat.lt_irrefl _)

theorem Inv.opens (inv : Inv s p names live m) (single : ∀ i j, names i = [slash] → names j = [slash] → i = j)
    (lists : ∀ i h t, DirFs.sysOpendir (locals i) (names i) s = .ok (some h, t) → t.inode h = p →
    t.fs.Listable p live ∧ p < t.fs.brk) (new : m.handle i = none)
    (run : DirFs.sysOpendir (locals i) (names i) m.state = .ok (some h, t)) (inode : t.inode h = p) :
    Inv s p names live { m with state := t, handle := update m.handle i (some h) } := by
  obtain ⟨root, low, next, pos, others, same, unheld⟩ := inv.opening single new run
  have waits := inv.waits i new
  refine ⟨same.part ▸ inv.layout, .inl ?_, fun j none => ?_, fun j h' held => ?_, fun j h' held => ?_, fun j a held =>
    ?_, fun j j' h' held held' => ?_⟩
  · grind [inv.loaded, DirFs.listable_congr, same.disk, same.part, same.inode, same.brk]
  · obtain ⟨apart, none⟩ := update_eq_none none
    refine (inv.waits j none).spared rfl rfl fun slash => others _ ?_
    rintro rfl
    exact apart (single j i slash (root.mp rfl))
  · rcases update_eq_some held with ⟨rfl, rfl⟩ | held
    · refine ⟨inode, ?_, fun _ => ?_, fun x busy => ?_⟩
      · change m.results j = expected live (m.results j).length
        rw [waits.results]
        rfl
      · grind [waits.results]
      · change m.left j = some x at busy
        rw [waits.idle] at busy
        cases busy
    · rcases inv.loaded with ⟨-, old⟩ | ⟨none, -⟩
      · exact (inv.reads j h' held).spared (spares_of_undisturbed same (others h' (unheld j h' held)) old) rfl rfl
      · rw [none] at held
        cases held
  · grind [inv.root]
  · rcases update_eq_some held with ⟨rfl, here⟩ | held
    · exact low a here.symm
    · exact Nat.lt_of_lt_of_le (inv.below j a held) next
  grind [inv.apart]

theorem turn_of_min {n : Nat} {r : Option DirEntry} (turn : r = live[min n live.length]? ∧
      (t.dirs h).dirPos.toNat = 24 * if min n live.length < live.length then min n live.length + 1
      else min n live.length) :
    Turn h live n r t := by
  obtain ⟨result, pos⟩ := turn
  by_cases inside : n < live.length
  · rw [Nat.min_eq_left (Nat.le_of_lt inside)] at result pos
    rw [if_pos inside] at pos
    exact ⟨result, by rw [pos, Nat.min_eq_left inside]⟩
  · rw [Nat.min_eq_right (by omega)] at result pos
    rw [if_neg (Nat.lt_irrefl _)] at pos
    refine ⟨?_, by rw [pos, Nat.min_eq_right (by omega)]⟩
    rw [result, List.getElem?_eq_none (Nat.le_refl _), List.getElem?_eq_none (by omega)]

theorem Inv.others (inv : Inv s p names live m) (single : ∀ i j, names i = [slash] → names j = [slash] → i = j)
    (held : m.handle i = some h) (uses : DirFs.Uses h m.state m'.state) (handles : m'.handle = m.handle)
    (same : ∀ j, j ≠ i → m'.left j = m.left j ∧ m'.results j = m.results j) (mine : m'.Reads p live i h) :
    Inv s p names live m' := by
  have open_ : m.state.fs.Listable p live ∧ p < m.state.fs.brk := by grind [loaded]
  refine ⟨uses.fs ▸ inv.layout, .inl (uses.fs ▸ open_), fun j none => ?_, fun j h' held' => ?_, ?_, ?_, ?_⟩
  · rw [handles] at none
    have apart : j ≠ i := by
      rintro rfl
      rw [none] at held
      cases held
    refine (inv.waits j none).spared (same j apart).1 (same j apart).2 fun slash => uses.others _ ?_
    rintro rfl
    exact apart (single j i slash ((inv.root i _ held).mp rfl))
  · rw [handles] at held'
    by_cases here : j = i
    · subst here
      rw [held] at held'
      cases held'
      exact mine
    · have apart : h' ≠ h := by
        rintro rfl
        exact here (inv.apart j i _ held' held)
      exact (inv.reads j h' held').spared (uses.spares apart p) (same j here).1 (same j here).2
  · rw [handles]
    exact inv.root
  · rw [handles, uses.next]
    exact inv.below
  · rw [handles]
    exact inv.apart

theorem Inv.step (inv : Inv s p names live m) (single : ∀ i j, names i = [slash] → names j = [slash] → i = j)
    (lists : ∀ i h t, DirFs.sysOpendir (locals i) (names i) s = .ok (some h, t) → t.inode h = p →
    t.fs.Listable p live ∧ p < t.fs.brk)
    (step : Step p locals names m m') : Inv s p names live m' := by
  have handleOf {i : Bool} {x : DirM (Option DirEntry)} (busy : m.left i = some x) : ∃ h, m.handle i = some h := by
    cases held : m.handle i with
    | none =>
      rw [(inv.waits i held).idle] at busy
      cases busy
    | some h => exact ⟨h, rfl⟩
  cases step with
  | opens i new run here => exact inv.opens single lists new run here
  | @starts i h held idle =>
    have reads := inv.reads i h held
    refine inv.others single held (.refl h _) rfl (fun j apart => ⟨update_of_ne apart _ _, rfl⟩)
      ⟨reads.inode, reads.results, ?_, ?_⟩
    · intro none
      dsimp only at none
      rw [update_self] at none
      cases none
    · intro x busy t spares
      dsimp only at busy
      rw [update_self] at busy
      cases busy
      have listable : m.state.fs.Listable p live := by grind [loaded]
      have pos := reads.idle idle
      rw [← spares.dir] at pos
      refine (DirFs.dirRead_attains (spares.listable listable) (spares.inode.trans reads.inode) pos).mono fun r u
        turn => ?_
      exact turn_of_min turn
  | @advances i x busy =>
    obtain ⟨h, held⟩ := handleOf busy
    have reads := inv.reads i h held
    obtain ⟨uses, rests⟩ := (reads.busy x busy m.state (.refl h p _)).advance fun r s t spares turn =>
      ⟨turn.1, by rw [spares.dir]; exact turn.2⟩
    have uses' := DirFs.Uses.of_steps uses
    refine inv.others single held uses' rfl (fun j apart => ⟨update_of_ne apart _ _, rfl⟩) ⟨?_, reads.results, ?_, ?_⟩
    · rw [← reads.inode]
      exact DirFs.inode_congr (by rw [uses'.fs]) uses'.inode
    · intro none
      dsimp only at none
      rw [update_self] at none
      cases none
    grind
  | @returns i r ended =>
    obtain ⟨h, held⟩ := handleOf ended
    have reads := inv.reads i h held
    obtain ⟨result, pos⟩ := reads.busy _ ended m.state (.refl h p _)
    refine inv.others single held (.refl h _) rfl (fun j apart => ⟨update_of_ne apart _ _, update_of_ne apart _ _⟩)
      ⟨reads.inode, ?_, ?_, ?_⟩
    · grind [List.length_singleton, expected_succ, reads.results]
    · intro _
      dsimp only
      rw [update_self, List.length_append]
      exact pos
    · intro x busy
      dsimp only at busy
      rw [update_self] at busy
      cases busy

theorem Inv.exact (inv : Inv s p names live m) : m.Exact live := by
  constructor
  · intro i
    cases held : m.handle i with
    | none =>
      rw [(inv.waits i held).results]
      rfl
    | some h => exact (inv.reads i h held).results
  · intro i x busy
    cases held : m.handle i with
    | none =>
      rw [(inv.waits i held).idle] at busy
      cases busy
    | some h =>
      obtain ⟨r, t, run, -⟩ := ((inv.reads i h held).busy x busy m.state (.refl h p _)).run (.refl h p)
      exact ⟨r, t, run⟩

theorem Inv.run (inv : Inv s p names live m) (single : ∀ i j, names i = [slash] → names j = [slash] → i = j)
    (lists : ∀ i h t, DirFs.sysOpendir (locals i) (names i) s = .ok (some h, t) → t.inode h = p →
    t.fs.Listable p live ∧ p < t.fs.brk)
    (steps : Relation.ReflTransGen (Step p locals names) m m') : Inv s p names live m' := by
  induction steps with
  | refl => exact inv
  | tail _ step ih => exact ih.step single lists step

/-! The readers of `/` share one handle. -/

theorem opensRoot (locals : Bool → Stack) (new : m.handle i = none) (slash : names i = [slash])
    (here : m.state.fs.rootDir = p) :
    Step p locals names m { m with handle := update m.handle i (some .root) } := by
  refine .opens i new ?_ here
  rw [slash]
  exact DirFs.sysOpendir_root _ m.state

theorem call {r : Option DirEntry} (held : m.handle i = some h) (idle : m.left i = none)
    (run : DirFs.sysReaddir (some h) m.state = .ok (r, t)) :
    Relation.ReflTransGen (Step p locals names) m { m with
      state := t, left := update m.left i none, results := update m.results i (m.results i ++ [r]) } := by
  -- The machine with this much of the call left.
  let rest (q : DirM (Option DirEntry) × DirFs) : Readers := { m with state := q.2, left := update m.left i (some q.1) }
  have left (q : DirM (Option DirEntry) × DirFs) : (rest q).left i = some q.1 := update_self _ _ _
  have advances (n : Nat) (q : DirM (Option DirEntry) × DirFs) :
      Relation.ReflTransGen (Step p locals names) (rest q)
        (rest ((fun q : DirM (Option DirEntry) × DirFs => q.1.advance q.2)^[n] q)) := by
    induction n generalizing q with
    | zero => exact .refl
    | succ n ih =>
      refine .head ?_ (ih _)
      have step := @Step.advances p locals names (rest q) i q.1 (left q)
      grind [update_idem]
  obtain ⟨n, ends⟩ := Prog.advances_of_ok run
  have through := advances (n + 1) (DirFs.sysReaddir (some h), m.state)
  rw [ends] at through
  have last := @Step.returns p locals names (rest (.done r, t)) i r (left (.done r, t))
  rw [show update (rest (.done r, t)).left i none = update m.left i none from update_idem _ _ _] at last
  exact .head (.starts i held idle) (through.tail last)

end

end Readers

section

open Readers

/-- In every interleaving each of the two readers gets every entry once and then `NULL`, exactly when
they do not both open the directory as `/`, and one that does finds `root_dir` at its first entry. -/
theorem listings_exact_iff {s : DirFs} {p : Nat} {locals : Bool → Stack} {names : Bool → List Byte}
    {live : List DirEntry} (layout : Layout s.fs.part)
    (lists : ∀ i h t, DirFs.sysOpendir (locals i) (names i) s = .ok (some h, t) → t.inode h = p →
    t.fs.Listable p live ∧ p < t.fs.brk)
    (root : ∀ i, names i = [slash] → s.fs.rootDir = p) (counts : ∃ c, (s.dirs .root).dirPos.toNat = 24 * c)
    (some : live ≠ []) (nodup : live.Nodup) :
    (∀ m, Relation.ReflTransGen (Step p locals names) (start s) m → m.Exact live) ↔
      ¬(names false = [slash] ∧ names true = [slash]) ∧ ∀ i, names i = [slash] → (s.dirs .root).dirPos = 0 := by
  have positive := List.length_pos_iff.mpr some
  have opened (i : Bool) (slash : names i = [slash]) : s.fs.Listable p live := by
    refine (lists i .root s ?_ (root i slash)).1
    rw [slash]
    exact DirFs.sysOpendir_root _ s
  constructor
  · intro exact_
    have first : ∀ i, names i = [slash] → (s.dirs .root).dirPos = 0 := by
      intro i slash
      obtain ⟨c, counts⟩ := counts
      have listable := opened i slash
      obtain ⟨r, t, run, ⟨result, -⟩, -⟩ :=
        (DirFs.dirRead_attains (h := .root) listable (root i slash) counts).run (.refl _ p)
      have steps := (Relation.ReflTransGen.single (opensRoot locals (m := start s) rfl slash (root i slash))).trans
        (call (i := i) (update_self _ _ _) rfl run)
      have got := (exact_ _ steps).results i
      dsimp only at got
      rw [update_self] at got
      have same : live[c]? = live[0]? := result.symm.trans (List.singleton_inj.mp got)
      have zero : 0 = c := (List.getElem?_inj positive nodup).mp same.symm
      exact BitVec.eq_of_toNat_eq (by rw [counts, ← zero]; rfl)
    refine ⟨?_, first⟩
    rintro ⟨one, two⟩
    -- The second reader starts where the first one has stopped.
    have listable := opened false one
    have start_ : (s.dirs .root).dirPos.toNat = 24 * 0 := by rw [first false one]; rfl
    obtain ⟨r, t, run, ⟨-, pos⟩, uses⟩ :=
      (DirFs.dirRead_attains (h := .root) listable (root false one) start_).run (.refl _ p)
    have same := (DirFs.Uses.of_steps uses).fs
    rw [if_pos positive] at pos
    rw [← same] at listable
    have inode : t.inode .root = p := (congrArg Kernel.rootDir (congrArg Fs.toKernel same)).trans (root false one)
    obtain ⟨r', t', run', ⟨result, -⟩, -⟩ := (DirFs.dirRead_attains (h := .root) listable inode pos).run (.refl _ p)
    have opens := (Relation.ReflTransGen.single (opensRoot locals (m := start s) rfl one (root false one))).tail
      (opensRoot locals rfl two (root true two))
    have steps := (opens.trans (call (i := false) rfl rfl run)).trans (call (i := true) rfl rfl run')
    have got := (exact_ _ steps).results true
    have same : live[1]? = live[0]? := result.symm.trans (List.singleton_inj.mp got)
    exact absurd ((List.getElem?_inj positive nodup).mp same.symm) Nat.zero_ne_one
  · rintro ⟨apart, first⟩ m steps
    have single (i j : Bool) (one : names i = [slash]) (two : names j = [slash]) : i = j := by
      cases i <;> cases j
      · rfl
      · exact absurd ⟨one, two⟩ apart
      · exact absurd ⟨two, one⟩ apart
      · rfl
    have inv : Inv s p names live (start s) :=
      ⟨layout, .inr ⟨fun _ => rfl, rfl⟩, fun i _ => ⟨rfl, rfl, first i⟩, fun _ _ held =>
        (nomatch held), fun _ _ held => (nomatch held),
        fun _ _ held => (nomatch held), fun _ _ _ held => (nomatch held)⟩
    exact (inv.run single lists steps).exact

def smallTreeDirs : DirFs := ⟨smallTree, fun _ => ⟨0, 0, Memory.zero⟩, 0⟩

instance (s : Fs) (p : Nat) (live : List DirEntry) : Decidable (s.Listable p live) :=
  decidable_of_iff (s.part.sb.dirEntrySize = 24 ∧ ((s.heap p).sector 12 ≠ 0 → ((s.heap p).sector 12).toNat ≤ maxLba) ∧
      (∀ k, k < 140 → s.dirPointer p k ≠ 0 → (s.dirPointer p k).toNat ≤ maxLba) ∧ s.listing p = live ∧
        (s.heap p).iSize.toNat = 24 * live.length)
    ⟨fun ⟨entrySize, table, onDisk, listing, size⟩ => ⟨entrySize, table, onDisk, listing, size⟩,
      fun listable => ⟨listable.entrySize, listable.table, listable.onDisk, listable.listing, listable.size⟩⟩

theorem listings_exact_twice :
    (∃ h t, DirFs.sysOpendir ⟨0, 0, 0⟩ [0x2f, 0x61] smallTreeDirs = .ok (some h, t) ∧ t.inode h = 2) ∧
    ∀ m, Relation.ReflTransGen (Step 2 (fun _ => ⟨0, 0, 0⟩) fun _ => [0x2f, 0x61]) (start smallTreeDirs) m →
      m.Exact (smallTreeEntries 1) := by
  obtain ⟨found, t, run, check⟩ := exists_of_yields (x := DirFs.sysOpendir ⟨0, 0, 0⟩ [0x2f, 0x61]) (s := smallTreeDirs)
    (c := fun found t => decide (found = some (.alloc 0) ∧ t.inode (.alloc 0) = 2 ∧
      t.fs.Listable 2 (smallTreeEntries 1) ∧ 2 < t.fs.brk)) (by decide +kernel)
  obtain ⟨rfl, here, listable⟩ := of_decide_eq_true check
  refine ⟨⟨_, t, run, here⟩,
    (listings_exact_iff (layout_smallPartition.congr rfl) ?_ (fun _ same => absurd same (by decide)) ⟨0, rfl⟩
    (by decide) (by decide)).mpr
    ⟨by decide, fun _ same => absurd same (by decide)⟩⟩
  intro _ h t' again _
  rw [run] at again
  cases again
  exact listable

/-- Two readers of `/`: the first call of the second reader returns the second entry. -/
theorem listings_share_root : ∃ m, Relation.ReflTransGen (Step 0 (fun _ => ⟨0, 0, 0⟩) fun _ => [slash])
    (start smallTreeDirs) m ∧
    m.results false = [some (.make dot 0 .directory)] ∧ m.results true = [some (.make dotDot 0 .directory)] ∧
    ¬ m.Exact (smallTreeEntries 0) := by
  obtain ⟨r, t, run, check⟩ := exists_of_yields (x := DirFs.sysReaddir (some .root)) (s := smallTreeDirs)
    (c := fun r t => decide (r = some (.make dot 0 .directory) ∧ (DirFs.sysReaddir (some .root)).yields t (fun r' _ =>
      decide (r' = some (.make dotDot 0 .directory))) = true)) (by decide +kernel)
  obtain ⟨rfl, second⟩ := of_decide_eq_true check
  obtain ⟨r', t', run', check'⟩ := exists_of_yields second
  obtain rfl := of_decide_eq_true check'
  have opens : Relation.ReflTransGen (Step 0 (fun _ => ⟨0, 0, 0⟩) fun _ => [slash]) (start smallTreeDirs) _ :=
    .tail (.single (opensRoot _ (i := false) rfl rfl rfl)) (opensRoot _ (i := true) rfl rfl rfl)
  have steps := (opens.trans (call (i := false) rfl rfl run)).trans (call (i := true) rfl rfl run')
  refine ⟨_, steps, rfl, rfl, fun exact_ => ?_⟩
  have got : [some (.make dotDot 0 .directory)] = [some (DirEntry.make dot 0 .directory)] := exact_.results true
  exact absurd got (by decide)

end

/-! One listing, from its first call on. -/

namespace DirFs

def dirReads (h : DirPtr) : Nat → DirM (List (Option DirEntry))
  | 0 => return []
  | n + 1 => do
    let r ← dirRead h
    return r :: (← dirReads h n)

/-- From position `k` on the entries that are left come one by one, and then `NULL`. -/
theorem dirReads_from {s : DirFs} {p k : Nat} {live : List DirEntry} (n : Nat) (listable : s.fs.Listable p live)
    (inode : s.inode h = p)
    (pos : (s.dirs h).dirPos.toNat = 24 * k) :
    ∃ t, dirReads h n s = .ok (((live.drop k).take n).map some ++ List.replicate (n - (live.length - k)) none, t) ∧
      t.fs = s.fs := by
  induction n generalizing s k with
  | zero => exact ⟨s, by rw [List.take_zero, Nat.zero_sub]; rfl, rfl⟩
  | succ n ih =>
    obtain ⟨r, u, run, ⟨rfl, moved⟩, steps⟩ := (dirRead_attains listable inode pos).run (.refl h p)
    have uses := Uses.of_steps steps
    have inode' : u.inode h = p := (inode_congr (congrArg (fun fs => fs.rootDir) uses.fs) uses.inode).trans inode
    obtain ⟨t, rest, same⟩ := ih (uses.fs ▸ listable) inode' moved
    refine ⟨t, ?_, same.trans uses.fs⟩
    rw [dirReads, bind_of_ok run, bind_of_ok rest]
    by_cases more : k < live.length
    · rw [if_pos more, List.drop_eq_getElem_cons more, List.getElem?_eq_getElem more, List.take_succ_cons,
        show n + 1 - (live.length - k) = n - (live.length - (k + 1)) by omega]
      rfl
    · rw [if_neg more, List.drop_eq_nil_of_le (by omega), List.getElem?_eq_none (by omega), List.take_nil,
        List.take_nil,
        show n + 1 - (live.length - k) = n - (live.length - k) + 1 by omega]
      rfl

/-- Whatever blocks and slots of a directory are in use, as long as its size counts its entries:
successive calls on a handle at its start return every entry once, in the order of the blocks and slots,
and then `NULL`. -/
theorem dirReads_lists {s : DirFs} {h : DirPtr} (listable : s.fs.Listable (s.inode h) (s.fs.listing (s.inode h)))
    (start : (s.dirs h).dirPos = 0) (n : Nat) :
    ∃ t, dirReads h n s = .ok (((s.fs.listing (s.inode h)).take n).map some ++ List.replicate
      (n - (s.fs.listing (s.inode h)).length) none, t) ∧ t.fs = s.fs := by
  have first : (s.dirs h).dirPos.toNat = 24 * 0 := by rw [start]; rfl
  have lists := dirReads_from n listable rfl first
  rwa [List.drop_zero, Nat.sub_zero] at lists

theorem dirReads_lists_root :
    ∃ t, dirReads .root 6 smallTreeDirs = .ok ((smallTreeEntries 0).map some ++ [none], t) := by
  have listable : smallTree.Listable 0 (smallTreeEntries 0) := by decide +kernel
  have same : smallTree.listing 0 = smallTreeEntries 0 := listable.listing
  obtain ⟨t, run, -⟩ := dirReads_lists (s := smallTreeDirs) (h := .root) (same.symm ▸ listable) rfl 6
  refine ⟨t, run.trans ?_⟩
  change Except.ok
    ((((smallTree.listing 0).take 6).map some ++ List.replicate (6 - (smallTree.listing 0).length) none), t) = _
  rw [same]
  rfl

end DirFs

end LaiMiniOs
