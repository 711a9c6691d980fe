import LaiMiniOs.Kernel.HeapRuns

/-! The heaps of a parent and its child after `sys_fork`.

`copy_pcb_vaddrbitmap_stack0` copies the PCB and gives the child empty descriptors; `copy_body_stack3`
copies the pages, and with them the headers of the arenas, which still name the descriptors of the
parent. The pages of the two are apart from then on, but every descriptor is in kernel memory.
-/

set_option autoImplicit false

namespace LaiMiniOs
open Foundation Prog Function

def forkHeap (parent : Heap) (child : Nat) : Heap := { parent with me := child }.blockDescInit

namespace Heap

/-- The invariant of the allocator, for the arenas that a task has in its pages: its free lists hold
exactly the blocks that are not live, the counts agree with them, and what `sys_malloc` hands out was
not live. -/
structure Allocator (poolSize : Nat) (s : Heap) (live : Nat → Option Nat) : Prop where
  nodup : ∀ d, (s.freeList s.me d).Nodup
  free : ∀ d b, b ∈ s.freeList s.me d ↔
    ∃ p idx, Holds live p ∧ (∃ t, (s.arena p).desc = some (t, d)) ∧ idx < blocksPerArena d ∧ b = arena2block p d idx ∧
      live b = none
  cnt : ∀ p t d, Holds live p → (s.arena p).desc = some (t, d) →
    (s.arena p).cnt = ((s.freeList s.me d).filter fun b => block2arena b = p).length
  once : ∀ size supply ptr s', 0 < size ∧ size < poolSize → (∀ q, supply = some q → s.Supplies q (pagesFor size)) →
    sysMalloc poolSize supply size s = .ok (some ptr, s') → live ptr = none

variable {s s' : Heap} {kin base : Nat → Prop} {arenas : Nat → Option ArenaUse} {live : Nat → Option Nat}
  {poolSize : Nat}

/-- An arena of another task's descriptor is full, so it makes no difference to the free lists. -/
theorem Sound.allocator (sound : s.Sound kin base live) (mine : kin s.me) : s.Allocator poolSize live := by
  have whole := sound
  obtain ⟨arenas, inv, tight, -⟩ := sound
  refine ⟨inv.nodup, fun d b => ?_, fun p t d holds header => ?_, fun size supply ptr s' range pages run =>
    (sysMalloc_eq_ok whole mine range pages run).2.1⟩
  · rw [inv.free]
    constructor
    · rintro ⟨p, idx, here, inside, rest⟩
      obtain ⟨holds, header⟩ := (inv.small_iff tight).mpr here
      exact ⟨p, idx, holds, ⟨s.me, header⟩, inside, rest⟩
    · rintro ⟨p, idx, holds, ⟨t, header⟩, inside, rfl, dead⟩
      have here := (inv.small_iff tight).mp ⟨holds, header⟩
      by_cases own : t = s.me
      · subst own
        exact ⟨p, idx, here, inside, rfl, dead⟩
      · have member : idx ∈ freeBlocks live p d := mem_freeBlocks.mpr ⟨inside, dead⟩
        rw [inv.foreign p (t, d) here own] at member
        exact absurd member (Finset.notMem_empty idx)
  · have here := (inv.small_iff tight).mp ⟨holds, header⟩
    by_cases own : t = s.me
    · subst own
      exact inv.cnt_eq here
    · rw [(inv.small p (t, d) here).2, inv.foreign p (t, d) here own, Finset.card_empty, eq_comm,
        List.length_eq_zero_iff, List.filter_eq_nil_iff]
      grind [inv.free, block2arena_arena2block]

theorem Sound.congr (sound : s.Sound kin base live) (freeList : Nat → Nat → List Nat)
    (same : freeList s.me = s.freeList s.me) :
    { s with freeList := freeList }.Sound kin base live := by
  obtain ⟨arenas, ⟨layout, small, large, nodup, free, foreign, isLive⟩, rest⟩ := sound
  refine ⟨arenas, ⟨layout.congr rfl rfl, small, large, fun d => ?_, fun d b => ?_, foreign, isLive⟩, rest⟩
  · change (freeList s.me d).Nodup
    rw [same]
    exact nodup d
  · change b ∈ freeList s.me d ↔ _
    rw [same]
    exact free d b

end Heap

/-- A step of a task that frees only large blocks and blocks of its own descriptors. -/
inductive OwnStep (poolSize : Nat) : Heap × (Nat → Option Nat) → Heap × (Nat → Option Nat) → Prop where
  | malloc {s s' : Heap} {live : Nat → Option Nat} {supply : Option Nat} {size ptr : Nat}
      (range : 0 < size ∧ size < poolSize)
      (pages : ∀ q, supply = some q → s.Supplies q (pagesFor size))
        (run : sysMalloc poolSize supply size s = .ok (some ptr, s')) :
      OwnStep poolSize (s, live) (s', update live ptr (some size))
  | free {s s' : Heap} {live : Nat → Option Nat} {ptr size : Nat} (isLive : live ptr = some size)
      (own : ∀ desc, (s.arena (block2arena ptr)).desc = some desc → desc.1 = s.me)
        (run : sysFree ptr s = .ok ((), s')) :
      OwnStep poolSize (s, live) (s', update live ptr none)

section
open Heap
variable {s s' parent : Heap} {kin base : Nat → Prop} {live : Nat → Option Nat} {poolSize child : Nat}

/-- The child's heap starts sound when no arena of the parent has a free block. -/
theorem forkHeap_sound (sound : parent.Sound (· = parent.me) base live) (other : child ≠ parent.me)
    (full : ∀ d, parent.freeList parent.me d = []) :
    (forkHeap parent child).Sound (fun t => t = child ∨ t = parent.me) base live := by
  obtain ⟨arenas, inv, tight, family⟩ := sound
  have empty (d : Nat) : (forkHeap parent child).freeList child d = [] := by simp [forkHeap, blockDescInit]
  refine ⟨arenas, ⟨inv.layout.congr rfl rfl, inv.small, inv.large, fun d => ?_, fun d b => ?_, fun p desc here _ =>
    ?_, inv.live⟩, tight, fun p desc here => .inr (family p desc here)⟩
  · change ((forkHeap parent child).freeList child d).Nodup
    rw [empty]
    exact List.nodup_nil
  · change b ∈ (forkHeap parent child).freeList child d ↔ _
    rw [empty]
    refine iff_of_false List.not_mem_nil ?_
    rintro ⟨p, idx, here, -⟩
    exact other (family p _ here)
  · -- A free block would be in a free list of the parent.
    refine Finset.eq_empty_of_forall_notMem fun idx member => ?_
    obtain ⟨inside, dead⟩ := mem_freeBlocks.mp member
    obtain ⟨t, d⟩ := desc
    obtain rfl : t = parent.me := family p _ here
    have listed := (inv.free d _).mpr ⟨p, idx, here, inside, rfl, dead⟩
    rw [full d] at listed
    cases listed

theorem OwnStep.sound {a b : Heap × (Nat → Option Nat)} (step : OwnStep poolSize a b) (sound : a.1.Sound kin base a.2)
    (mine : kin a.1.me) :
    b.1.Sound kin base b.2 ∧ b.1.me = a.1.me ∧ ∀ t, t ≠ a.1.me → b.1.freeList t = a.1.freeList t := by
  cases step with
  | malloc range pages run =>
    obtain ⟨frame, -, sound', -⟩ := sysMalloc_eq_ok sound mine range pages run
    exact ⟨sound', frame⟩
  | free isLive own run =>
    obtain ⟨s'', run', frame, sound', -⟩ := sysFree_sound sound isLive own
    obtain rfl := (Prod.mk.inj (Except.ok.inj (run.symm.trans run'))).2
    exact ⟨sound', frame⟩

theorem OwnStep.run_sound {a b : Heap × (Nat → Option Nat)} (steps : Relation.ReflTransGen (OwnStep poolSize) a b)
    (sound : a.1.Sound kin base a.2) (mine : kin a.1.me) :
    b.1.Sound kin base b.2 ∧ b.1.me = a.1.me ∧ ∀ t, t ≠ a.1.me → b.1.freeList t = a.1.freeList t := by
  induction steps with
  | refl => exact ⟨sound, rfl, fun _ _ => rfl⟩
  | tail _ step ih =>
    grind [step.sound]

/-- Freeing a block of another task's arena puts it into a free list of that task. -/
theorem sysFree_foreign (sound : s.Sound kin base live) {ptr size t d : Nat} (isLive : live ptr = some size)
    (header : (s.arena (block2arena ptr)).desc = some (t, d))
    (foreign : t ≠ s.me) (run : sysFree ptr s = .ok ((), s')) : s'.freeList t d = s.freeList t d ++ [ptr] := by
  obtain ⟨arenas, inv, tight, -⟩ := sound
  obtain ⟨positive, high, present⟩ := inv.address isLive
  have here := (inv.small_iff tight).mp ⟨⟨ptr, size, isLive, rfl⟩, header⟩
  obtain ⟨bound, arena⟩ := inv.small _ (t, d) here
  have start := (sysFree_eq s rfl positive high present).trans (freeIn_small header ptr)
  rw [inv.foreign _ (t, d) here foreign, Finset.card_empty] at arena
  have several : ∀ d, d < descCnt → ¬0 + 1 = blocksPerArena d := by decide
  grind [run_when_of_not, setFreeList_self]

end

/-- After `sys_fork` the child's allocator starts in order exactly when no arena of the parent has a
free block; then it stays so, with the parent's free lists unchanged, as long as the child frees no
small block from before the fork; and each free of one changes the parent's free lists. -/
theorem forked_heaps_kept {s₀ parent : Heap} {live : Nat → Option Nat} {poolSize child : Nat}
    (steps : Relation.ReflTransGen (HeapStep poolSize) (s₀.blockDescInit, fun _ => none) (parent, live))
    (other : child ≠ parent.me) :
    ((forkHeap parent child).Allocator poolSize live ↔ ∀ d, parent.freeList parent.me d = []) ∧
    ((∀ d, parent.freeList parent.me d = []) →
    ∀ c live', Relation.ReflTransGen (OwnStep poolSize) (forkHeap parent child, live) (c, live') →
      c.freeList parent.me = parent.freeList parent.me ∧ c.Allocator poolSize live' ∧
        { parent with freeList := c.freeList }.Allocator poolSize live ∧
      ∀ ptr size s', live' ptr = some size → sysFree ptr c = .ok ((), s') →
        (s'.freeList parent.me = parent.freeList parent.me ↔ ∀ desc, (c.arena (block2arena ptr)).desc = some desc →
        desc.1 = c.me)) := by
  obtain ⟨me, sound⟩ := HeapStep.run_sound steps
  rw [← me] at sound
  change parent.Sound (· = parent.me) _ live at sound
  have mine : (forkHeap parent child).me = child := rfl
  refine ⟨⟨fun allocator d => List.eq_nil_iff_forall_not_mem.mpr fun b member => ?_, fun full => ?_⟩,
    fun full c live' run => ?_⟩
  · obtain ⟨p, idx, holds, header, rest⟩ := (sound.ordered.free d b).mp member
    have listed := (allocator.free d b).mpr ⟨p, idx, holds, ⟨_, header⟩, rest⟩
    simp [forkHeap, Heap.blockDescInit] at listed
  · exact (forkHeap_sound sound other full).allocator (.inl mine)
  · obtain ⟨sound', me', frame⟩ := OwnStep.run_sound run (forkHeap_sound sound other full) (.inl mine)
    have kept : c.freeList parent.me = parent.freeList parent.me :=
      (frame parent.me (Ne.symm other)).trans (update_of_ne (Ne.symm other) _ _)
    refine ⟨kept, sound'.allocator (.inl me'), (sound.congr c.freeList kept).allocator rfl,
      fun ptr size s' isLive free => ⟨fun same desc header => ?_, fun own => ?_⟩⟩
    · by_contra foreign
      obtain ⟨t, d⟩ := desc
      obtain rfl : t = parent.me := (sound'.family isLive header).resolve_left fun own => foreign (own.trans me'.symm)
      have appended := sysFree_foreign sound' isLive header foreign free
      rw [congrFun same d, kept] at appended
      simp at appended
    · obtain ⟨s'', free', frame', -⟩ := sysFree_sound sound' isLive own
      grind

def filledHeap : Nat → Heap
  | 0 => bareHeap.blockDescInit
  | n + 1 => (sysMalloc 0x100000 (if n = 0 then some 0x8048 else none) 1000).final (filledHeap n)

def filledLive : Nat → Nat → Option Nat
  | 0 => fun _ => none
  | n + 1 => update (filledLive n) (arena2block 0x8048 6 n) (some 1000)

theorem filledHeap_step {n : Nat}
    (run : (sysMalloc 0x100000 (if n = 0 then some 0x8048 else none) 1000).yields (filledHeap n)
    (fun r _ => r == some (arena2block 0x8048 6 n)) = true)
    (fresh : n = 0 → (filledHeap n).Supplies 0x8048 1) :
    HeapStep 0x100000 (filledHeap n, filledLive n) (filledHeap (n + 1), filledLive (n + 1)) := by
  obtain ⟨r, ran, found⟩ := run_final run
  obtain rfl : r = some (arena2block 0x8048 6 n) := by simpa using found
  refine .malloc (by decide) (fun q same => ?_) ran
  split at same
  next first =>
    obtain rfl := Option.some.inj same
    exact fresh first
  next => cases same

theorem filledHeap_one : HeapStep 0x100000 (filledHeap 0, filledLive 0) (filledHeap 1, filledLive 1) :=
  filledHeap_step (by decide +kernel) fun _ =>
    ⟨fun _ _ => rfl, by decide, fun user => absurd user.symm Bool.false_ne_true⟩

theorem filledHeap_three : Relation.ReflTransGen (HeapStep 0x100000) (bareHeap.blockDescInit, fun _ => none)
    (filledHeap 3, filledLive 3) :=
  .tail (.tail (.single filledHeap_one) (filledHeap_step (by decide +kernel) fun zero => absurd zero (by decide)))
    (filledHeap_step (by decide +kernel) fun zero => absurd zero (by decide))

theorem Heap.Sound.freeList_of_ge {s : Heap} {kin base : Nat → Prop} {live : Nat → Option Nat}
    (sound : s.Sound kin base live) {d : Nat} (high : descCnt ≤ d) :
    s.freeList s.me d = [] := by
  obtain ⟨arenas, inv, -⟩ := sound
  refine List.eq_nil_iff_forall_not_mem.mpr fun b member => ?_
  obtain ⟨p, -, here, -⟩ := (inv.free d b).mp member
  have := (inv.small p _ here).1
  omega

theorem forked_heaps_kept_full : (forkHeap (filledHeap 3) 2).Allocator 0x100000 (filledLive 3) ∧
    ∀ c live, Relation.ReflTransGen (OwnStep 0x100000) (forkHeap (filledHeap 3) 2, filledLive 3) (c, live) →
      c.freeList 1 = (filledHeap 3).freeList 1 ∧ c.Allocator 0x100000 live := by
  have me : (filledHeap 3).me = 1 := by decide +kernel
  have low : ∀ d, d < descCnt → (filledHeap 3).freeList 1 d = [] := by decide +kernel
  have full (d : Nat) : (filledHeap 3).freeList (filledHeap 3).me d = [] := by
    rcases Nat.lt_or_ge d descCnt with below | above
    · rw [me]
      exact low d below
    · exact (HeapStep.run_sound filledHeap_three).2.freeList_of_ge above
  obtain ⟨starts, runs⟩ := forked_heaps_kept filledHeap_three (show 2 ≠ (filledHeap 3).me by rw [me]; decide)
  refine ⟨starts.mpr full, fun c live steps => ?_⟩
  obtain ⟨kept, order, -⟩ := runs full c live steps
  rw [me] at kept
  exact ⟨kept, order⟩

/-- A child that frees a block from before the fork puts it into a free list of the parent, for whom
it is live; and a child of a parent with a free block starts with a free block in no list. -/
theorem child_frees_into_parent :
    (∃ c, HeapStep 0x100000 (forkHeap (filledHeap 3) 2, filledLive 3) (c, update (filledLive 3) 0x804800c none) ∧
      (filledHeap 3).freeList 1 6 = [] ∧ c.freeList 1 6 = [0x804800c] ∧ filledLive 3 0x804800c = some 1000) ∧
    ¬(forkHeap (filledHeap 1) 2).Allocator 0x100000 (filledLive 1) := by
  refine ⟨⟨(sysFree 0x804800c).final (forkHeap (filledHeap 3) 2), ?_,
    by decide +kernel, by decide +kernel, by decide +kernel⟩, fun allocator => ?_⟩
  · obtain ⟨⟨⟩, run, -⟩ :=
      run_final (x := sysFree 0x804800c) (s := forkHeap (filledHeap 3) 2) (c := fun _ => true) (by decide +kernel)
    have isLive : filledLive 3 0x804800c = some 1000 := by decide +kernel
    exact .free isLive run
  · have header : ((forkHeap (filledHeap 1) 2).arena 0x8048).desc = some (1, 6) := by decide +kernel
    have listed :=
      (allocator.free 6 0x804840c).mpr ⟨0x8048, 1, ⟨0x804800c, 1000, by decide +kernel, by decide⟩, ⟨1, header⟩,
      by decide, by decide, by decide +kernel⟩
    simp [forkHeap, Heap.blockDescInit] at listed

end LaiMiniOs
