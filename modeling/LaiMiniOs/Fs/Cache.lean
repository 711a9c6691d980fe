import LaiMiniOs.Fs.Volume

/-! The inode cache.

`inode_open` and `inode_close` change the kernel's memory and nothing else, so their effect
is stated on it alone. Opening an inode and closing it again leaves what was there.
-/

set_option autoImplicit false

namespace LaiMiniOs
open Foundation Prog Function

namespace Kernel

def setInode (k : Kernel) (p : Nat) (inode : Inode) : Kernel :=
  { k with heap := update k.heap p inode }

@[simp] theorem heap_setInode_self (k : Kernel) (p : Nat) (inode : Inode) : (k.setInode p inode).heap p = inode :=
  update_self _ _ _

theorem heap_setInode_of_ne (k : Kernel) {p q : Nat} (inode : Inode) (other : q ≠ p) :
    (k.setInode p inode).heap q = k.heap q :=
  update_of_ne other _ _

theorem setInode_self (k : Kernel) (p : Nat) : k.setInode p (k.heap p) = k := by
  unfold setInode
  rw [update_eq_self]

theorem setInode_setInode (k : Kernel) (p : Nat) (inode inode' : Inode) :
    (k.setInode p inode).setInode p inode' = k.setInode p inode' := by
  unfold setInode
  rw [update_idem]

def cached (k : Kernel) (n : Word) : Option Nat := k.openInodes.find? fun p => (k.heap p).iNo == n

def seen (k : Kernel) (n : Word) (record : Inode) : Inode :=
  match k.cached n with
  | some p => k.heap p
  | none => record

def opened (k : Kernel) (n : Word) (record : Inode) : Nat × Kernel :=
  match k.cached n with
  | some p => (p, k.setInode p { k.heap p with iOpenCnts := (k.heap p).iOpenCnts + 1 })
  | none => (k.brk, { k.setInode k.brk { record with iOpenCnts := 1 } with
      brk := k.brk + 1, openInodes := k.brk :: k.openInodes })

def closed (k : Kernel) (p : Nat) : Kernel :=
  { k.setInode p { k.heap p with iOpenCnts := (k.heap p).iOpenCnts - 1 } with
    openInodes := if (k.heap p).iOpenCnts - 1 = 0 then k.openInodes.erase p else k.openInodes }

structure Sound (k : Kernel) : Prop where
  fresh : ∀ p ∈ k.openInodes, p < k.brk
  nodup : k.openInodes.Nodup
  counted : ∀ p ∈ k.openInodes, (k.heap p).iOpenCnts ≠ 0

structure Extends (k k' : Kernel) : Prop where
  heap : ∀ p, p < k.brk → k'.heap p = k.heap p
  brk : k.brk ≤ k'.brk
  openInodes : k'.openInodes = k.openInodes
  rootDir : k'.rootDir = k.rootDir
  fileTable : k'.fileTable = k.fileTable
  fdTable : k'.fdTable = k.fdTable
  cwdInodeNr : k'.cwdInodeNr = k.cwdInodeNr
  freedPages : k'.freedPages = k.freedPages

theorem Extends.refl (k : Kernel) : Extends k k :=
  ⟨fun _ _ => rfl, Nat.le_refl _, rfl, rfl, rfl, rfl, rfl, rfl⟩

theorem Extends.trans {k k' k'' : Kernel} (first : Extends k k') (second : Extends k' k'') : Extends k k'' where
  heap p h := (second.heap p (Nat.lt_of_lt_of_le h first.brk)).trans (first.heap p h)
  brk := Nat.le_trans first.brk second.brk
  openInodes := second.openInodes.trans first.openInodes
  rootDir := second.rootDir.trans first.rootDir
  fileTable := second.fileTable.trans first.fileTable
  fdTable := second.fdTable.trans first.fdTable
  cwdInodeNr := second.cwdInodeNr.trans first.cwdInodeNr
  freedPages := second.freedPages.trans first.freedPages

section
variable {k : Kernel}

theorem cached_mem {n : Word} {p : Nat} (found : k.cached n = some p) :
    p ∈ k.openInodes ∧ (k.heap p).iNo = n := by
  have same := List.find?_some found
  exact ⟨List.mem_of_find?_eq_some found, by simpa using same⟩

theorem Sound.extends {k' : Kernel} (sound : k.Sound) (extends_ : Extends k k') : k'.Sound where
  fresh p h := by
    rw [extends_.openInodes] at h
    exact Nat.lt_of_lt_of_le (sound.fresh p h) extends_.brk
  nodup := extends_.openInodes ▸ sound.nodup
  counted p h := by
    rw [extends_.openInodes] at h
    rw [extends_.heap p (sound.fresh p h)]
    exact sound.counted p h

theorem Extends.cached {k' : Kernel} (extends_ : Extends k k') (sound : k.Sound) (n : Word) :
    k'.cached n = k.cached n := by
  unfold Kernel.cached
  rw [extends_.openInodes]
  apply find?_congr
  intro p member
  rw [extends_.heap p (sound.fresh p member)]

theorem Extends.seen {k' : Kernel} (extends_ : Extends k k') (sound : k.Sound) (n : Word) (record : Inode) :
    k'.seen n record = k.seen n record := by
  unfold Kernel.seen
  rw [extends_.cached sound]
  cases found : k.cached n with
  | none => rfl
  | some p => exact extends_.heap p (sound.fresh p (cached_mem found).1)

theorem heap_opened (n : Word) (record : Inode) :
    ∃ cnts, (k.opened n record).2.heap (k.opened n record).1 = { k.seen n record with iOpenCnts := cnts } := by
  unfold opened seen
  cases k.cached n with
  | none => exact ⟨_, update_self _ _ _⟩
  | some p => exact ⟨_, update_self _ _ _⟩

theorem closed_opened (sound : k.Sound) (n : Word) (record : Inode) :
    Extends k ((k.opened n record).2.closed (k.opened n record).1) := by
  unfold opened
  cases found : k.cached n with
  | some p =>
    have used := sound.counted p (cached_mem found).1
    have back : (k.heap p).iOpenCnts + 1 - 1 = (k.heap p).iOpenCnts := by bv_omega
    have same : (k.setInode p { k.heap p with iOpenCnts := (k.heap p).iOpenCnts + 1 }).closed p = k := by
      unfold closed setInode
      simp only [update_self, update_idem, back, used, ite_false, update_eq_self]
    simp only [same]
    exact Extends.refl k
  | none =>
    refine ⟨fun p h => ?_, ?_, ?_, rfl, rfl, rfl, rfl, rfl⟩
    · have apart : p ≠ k.brk := by omega
      simp [closed, setInode, apart]
    · simp only [closed, setInode]
      omega
    · simp [closed, setInode]

end

end Kernel

def Fs.withKernel (s : Fs) (k : Kernel) : Fs := { s with toKernel := k }

@[simp] theorem toKernel_withKernel (s : Fs) (k : Kernel) : (s.withKernel k).toKernel = k := rfl

@[simp] theorem volume_withKernel (s : Fs) (k : Kernel) : (s.withKernel k).volume = s.volume := rfl

@[simp] theorem part_withKernel (s : Fs) (k : Kernel) : (s.withKernel k).part = s.part := rfl

@[simp] theorem toKernel_setInode (s : Fs) (p : Nat) (inode : Inode) :
    (s.setInode p inode).toKernel = s.toKernel.setInode p inode := rfl

theorem inodeOpen_eq_ok {s : Fs} (layout : Layout s.part) {n : Word} {r : Nat × Fs} :
    inodeOpen n s = .ok r ↔ (s.toKernel.cached n = none → n.toNat < 4096) ∧
      r = ((s.toKernel.opened n (s.volume.record n.toNat)).1,
        s.withKernel (s.toKernel.opened n (s.volume.record n.toNat)).2) := by
  unfold inodeOpen Kernel.opened
  rw [get_bind]
  have lookup : s.openInodes.find? (fun p => (s.heap p).iNo == n) = s.toKernel.cached n := rfl
  simp only [lookup]
  cases found : s.toKernel.cached n with
  | some p =>
    simp only [reduceCtorEq, false_implies, true_and]
    rw [set_bind, run_pure, Except.ok.injEq, eq_comm]
    rfl
  | none =>
    simp only [true_implies]
    rw [set_bind]
    constructor
    · intro run
      have small : n.toNat < 4096 := by
        obtain ⟨_, _, read, -⟩ := bind_eq_ok.mp run
        obtain ⟨_, _, locate, -⟩ := bind_eq_ok.mp read
        exact (inodeLocate_eq_ok.mp locate).1
      rw [bind_of_ok (inodeRead_eq (s := { s with brk := s.brk + 1 }) layout small),
        modify_bind, run_pure, Except.ok.injEq] at run
      subst run
      refine ⟨small, ?_⟩
      simp only [Fs.volume, small, ite_true]
      rfl
    · rintro ⟨small, rfl⟩
      rw [bind_of_ok (inodeRead_eq (s := { s with brk := s.brk + 1 }) layout small),
        modify_bind, run_pure]
      simp only [Fs.volume, small, ite_true]
      rfl

theorem inodeClose_eq (p : Nat) (s : Fs) :
    inodeClose p s = .ok ((), s.withKernel (s.toKernel.closed p)) := rfl

end LaiMiniOs
