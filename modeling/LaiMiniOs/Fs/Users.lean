import LaiMiniOs.Fs.Steady

/-! The users of cached inodes.

`i_open_cnts` counts the handles on an inode, and the inode leaves `open_inodes` with the last
of them. Between its start and its end a call holds some handles of its own: `Held` says that
the cache is the one at the start of the call, with these handles added.
-/

set_option autoImplicit false

namespace LaiMiniOs
open Foundation

variable {p : Nat}

def Inode.uncounted (inode : Inode) : Inode := { inode with iOpenCnts := 0 }

theorem Inode.eq_of_uncounted {a b : Inode} (same : a.uncounted = b.uncounted) (counts : a.iOpenCnts = b.iOpenCnts) :
    a = b := by
  cases a
  cases b
  simp only [uncounted, mk.injEq] at same counts ⊢
  tauto

namespace Kernel

/-- The number of handles on an inode structure, `0` when it is not in the cache. -/
def users (k : Kernel) (p : Nat) : Nat := if p ∈ k.openInodes then (k.heap p).iOpenCnts.toNat else 0

/-- No count is about to wrap: every handle takes memory, which ends long before. -/
def Roomy (k : Kernel) : Prop := ∀ p, k.users p < 2 ^ 32 - 8

structure Held (k : Kernel) (held : List Nat) (k' : Kernel) : Prop where
  sound : k'.Sound
  brk : k.brk ≤ k'.brk
  list : ∃ new, k'.openInodes = new ++ k.openInodes ∧ ∀ p ∈ new, k.brk ≤ p
  users : ∀ p, k'.users p = k.users p + held.count p
  iNo : ∀ p ∈ k.openInodes, (k'.heap p).iNo = (k.heap p).iNo

variable {k k' k'' : Kernel} {held : List Nat}

theorem users_of_mem (member : p ∈ k.openInodes) : k.users p = (k.heap p).iOpenCnts.toNat := if_pos member

theorem users_of_notMem (missing : p ∉ k.openInodes) : k.users p = 0 := if_neg missing

theorem Sound.users_pos (sound : k.Sound) (member : p ∈ k.openInodes) : 0 < k.users p := by
  rw [users_of_mem member]
  have some := sound.counted p member
  exact Nat.pos_of_ne_zero fun zero => some (BitVec.eq_of_toNat_eq zero)

theorem Sound.mem_of_users (p : Nat) (some : k.users p ≠ 0) : p ∈ k.openInodes := by
  by_contra missing
  exact some (users_of_notMem missing)

theorem Held.refl (sound : k.Sound) : Held k [] k :=
  ⟨sound, Nat.le_refl _, ⟨[], rfl, fun _ member => nomatch member⟩, fun _ => rfl, fun _ _ => rfl⟩

theorem Held.perm {held' : List Nat} (holds : Held k held k') (same : held.Perm held') : Held k held' k' :=
  ⟨holds.sound, holds.brk, holds.list, fun p => by rw [holds.users p, same.count_eq], holds.iNo⟩

theorem Held.congr (holds : Held k held k') (brk : k'.brk ≤ k''.brk) (list : k''.openInodes = k'.openInodes)
    (same : ∀ p ∈ k'.openInodes, (k''.heap p).iOpenCnts = (k'.heap p).iOpenCnts ∧ (k''.heap p).iNo = (k'.heap p).iNo) :
    Held k held k'' := by
  have member (p : Nat) (old : p ∈ k.openInodes) : p ∈ k'.openInodes := by grind [holds.list]
  refine ⟨⟨fun p hp => ?_, list ▸ holds.sound.nodup, fun p hp => ?_⟩, Nat.le_trans holds.brk brk, ?_, fun p =>
    ?_, fun p old => ?_⟩
  · rw [list] at hp
    exact Nat.lt_of_lt_of_le (holds.sound.fresh p hp) brk
  · rw [list] at hp
    rw [(same p hp).1]
    exact holds.sound.counted p hp
  · obtain ⟨new, list', fresh⟩ := holds.list
    exact ⟨new, list.trans list', fresh⟩
  · rw [← holds.users p]
    grind [users_of_mem, list, users_of_notMem]
  · rw [(same p (member p old)).2, holds.iNo p old]

theorem Held.bound (holds : Held k held k') (roomy : k.Roomy) (few : held.length ≤ 6) (p : Nat) :
    k'.users p + 1 < 2 ^ 32 := by
  have most := roomy p
  have count := List.count_le_length (a := p) (l := held)
  rw [holds.users p]
  omega

theorem Held.again (holds : Held k held k') (roomy : k.Roomy) (few : held.length ≤ 6) (member : p ∈ k'.openInodes)
    {inode : Inode} (number : inode.iNo = (k'.heap p).iNo) (count : inode.iOpenCnts = (k'.heap p).iOpenCnts + 1) :
    Held k (p :: held) (k'.setInode p inode) := by
  have more : inode.iOpenCnts.toNat = k'.users p + 1 := by grind [bound, users_of_mem]
  refine ⟨⟨holds.sound.fresh, holds.sound.nodup, fun q hq => ?_⟩, holds.brk, holds.list, fun q => ?_, fun q old => ?_⟩
  · by_cases here : q = p
    · grind [heap_setInode_self]
    · rw [heap_setInode_of_ne _ _ here]
      exact holds.sound.counted q hq
  · by_cases here : q = p
    · subst here
      rw [List.count_cons_self, ← Nat.add_assoc, ← holds.users q, ← more]
      exact (users_of_mem (k := k'.setInode q inode) member).trans (by rw [heap_setInode_self])
    · rw [List.count_cons_of_ne (Ne.symm here), ← holds.users q]
      unfold Kernel.users
      rw [heap_setInode_of_ne _ _ here]
      rfl
  grind [heap_setInode_self, holds.iNo, heap_setInode_of_ne]

theorem Held.push (k'' : Kernel) (holds : Held k held k') (new : k.brk ≤ p) (low : p < k''.brk)
    (missing : p ∉ k'.openInodes) (brk : k'.brk ≤ k''.brk)
    (list : k''.openInodes = p :: k'.openInodes) (count : (k''.heap p).iOpenCnts = 1)
    (others : ∀ q ∈ k'.openInodes, (k''.heap q).iOpenCnts = (k'.heap q).iOpenCnts ∧
    (k''.heap q).iNo = (k'.heap q).iNo) :
    Held k (p :: held) k'' := by
  have member (q : Nat) (old : q ∈ k.openInodes) : q ∈ k'.openInodes := by grind [holds.list]
  refine ⟨⟨fun q hq => ?_, ?_, fun q hq => ?_⟩, Nat.le_trans holds.brk brk, ?_, fun q => ?_, fun q old => ?_⟩
  · rw [list] at hq
    rcases List.mem_cons.mp hq with rfl | old
    · exact low
    · exact Nat.lt_of_lt_of_le (holds.sound.fresh q old) brk
  · rw [list]
    exact List.nodup_cons.mpr ⟨missing, holds.sound.nodup⟩
  · grind [holds.sound.counted]
  · grind [list]
  · by_cases here : q = p
    · subst here
      have none := holds.users q
      grind [users_of_notMem, users_of_mem]
    · rw [List.count_cons_of_ne (Ne.symm here), ← holds.users q]
      grind [users_of_mem, users_of_notMem]
  · rw [(others q (member q old)).2, holds.iNo q old]

theorem opened_brk (n : Word) (record : Inode) : k.brk ≤ (k.opened n record).2.brk := by
  unfold opened
  cases k.cached n with
  | none => exact Nat.le_succ _
  | some p => exact Nat.le_refl _

theorem Held.open (holds : Held k held k') (roomy : k.Roomy) (few : held.length ≤ 6) (n : Word) (record : Inode) :
    Held k ((k'.opened n record).1 :: held) (k'.opened n record).2 := by
  unfold opened
  cases found : k'.cached n with
  | some p => exact holds.again roomy few (cached_mem found).1 rfl rfl
  | none =>
    have apart (q : Nat) (hq : q ∈ k'.openInodes) : q ≠ k'.brk := Nat.ne_of_lt (holds.sound.fresh q hq)
    grind [Held.push, holds.brk, heap_setInode_self, k'.heap_setInode_of_ne]

theorem heap_closed_self (k : Kernel) (p : Nat) :
    (k.closed p).heap p = { k.heap p with iOpenCnts := (k.heap p).iOpenCnts - 1 } :=
  heap_setInode_self _ _ _

theorem heap_closed_of_ne (k : Kernel) {q : Nat} (other : q ≠ p) : (k.closed p).heap q = k.heap q :=
  heap_setInode_of_ne k { k.heap p with iOpenCnts := (k.heap p).iOpenCnts - 1 } other

theorem iNo_closed (k : Kernel) (p q : Nat) : ((k.closed p).heap q).iNo = (k.heap q).iNo := by
  by_cases here : q = p
  · subst here
    rw [heap_closed_self]
  · rw [heap_closed_of_ne k here]

/-- Opening and closing change nothing but the number of users of a structure that is there. -/
theorem uncounted_opened (k : Kernel) (n : Word) (record : Inode) {q : Nat} (old : q < k.brk) :
    ((k.opened n record).2.heap q).uncounted = (k.heap q).uncounted := by
  unfold opened
  cases k.cached n with
  | some p =>
    grind [Inode.uncounted, k.heap_setInode_self, k.heap_setInode_of_ne]
  | none => exact congrArg Inode.uncounted (k.heap_setInode_of_ne _ (Nat.ne_of_lt old))

theorem uncounted_closed (k : Kernel) (p q : Nat) : ((k.closed p).heap q).uncounted = (k.heap q).uncounted := by
  by_cases here : q = p
  · subst here
    exact (congrArg Inode.uncounted (k.heap_closed_self q)).trans rfl
  · exact congrArg Inode.uncounted (k.heap_closed_of_ne here)

theorem last_iff (member : p ∈ k.openInodes) : (k.heap p).iOpenCnts - 1 = 0 ↔ k.users p = 1 := by
  have zero : (0 : Word).toNat = 0 := rfl
  rw [users_of_mem member, ← BitVec.toNat_inj, zero]
  constructor <;> intro h <;> bv_omega

theorem openInodes_closed (member : p ∈ k.openInodes) :
    (k.closed p).openInodes = if k.users p = 1 then k.openInodes.erase p else k.openInodes :=
  if_congr (last_iff member) rfl rfl

theorem mem_closed (sound : k.Sound) (member : p ∈ k.openInodes) (q : Nat) :
    q ∈ (k.closed p).openInodes ↔ q ∈ k.openInodes ∧ (q = p → k.users p ≠ 1) := by
  rw [openInodes_closed member]
  split
  next last =>
    rw [sound.nodup.mem_erase_iff]
    exact ⟨fun ⟨other, inside⟩ => ⟨inside, fun same => absurd same other⟩, fun ⟨inside, stays⟩ =>
      ⟨fun same => stays same last, inside⟩⟩
  next more => exact ⟨fun inside => ⟨inside, fun _ => more⟩, And.left⟩

theorem Sound.closed (sound : k.Sound) (member : p ∈ k.openInodes) : (k.closed p).Sound := by
  refine ⟨fun q inside => sound.fresh q ((mem_closed sound member q).mp inside).1, ?_, fun q inside => ?_⟩
  · rw [openInodes_closed member]
    split
    · exact sound.nodup.erase p
    · exact sound.nodup
  grind [mem_closed, heap_closed_self, last_iff, heap_closed_of_ne, sound.counted]

theorem users_closed (sound : k.Sound) (member : p ∈ k.openInodes) (q : Nat) :
    (k.closed p).users q = k.users q - if q = p then 1 else 0 := by
  by_cases inside : q ∈ (k.closed p).openInodes
  · obtain ⟨old, -⟩ := (mem_closed sound member q).mp inside
    rw [users_of_mem inside, users_of_mem old]
    by_cases here : q = p
    · subst here
      have some := sound.counted q old
      rw [heap_closed_self, if_pos rfl]
      bv_omega
    · rw [heap_closed_of_ne k here, if_neg here]
      rfl
  grind [users_of_notMem, mem_closed]

theorem Held.close (holds : Held k held k') (start : k.Sound) (mine : p ∈ held) :
    Held k (held.erase p) (k'.closed p) := by
  have pos : 0 < held.count p := List.count_pos_iff.mpr mine
  have total := holds.users p
  have member : p ∈ k'.openInodes := Sound.mem_of_users p (by omega)
  refine ⟨holds.sound.closed member, holds.brk, ?_, fun q => ?_, fun q old =>
    (iNo_closed k' p q).trans (holds.iNo q old)⟩
  · obtain ⟨new, list, fresh⟩ := holds.list
    rw [openInodes_closed member, list]
    split
    next last =>
      -- Only a structure that was not there at the start can leave.
      have inNew : p ∈ new := by
        rw [list] at member
        refine (List.mem_append.mp member).resolve_right fun old => ?_
        have := start.users_pos old
        omega
      grind
    next => exact ⟨new, rfl, fresh⟩
  grind [users_closed, holds.sound, holds.users]

end Kernel

end LaiMiniOs
