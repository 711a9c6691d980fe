import Mathlib.Data.Set.Insert
import LaiMiniOs.Kernel.BitmapScan
import LaiMiniOs.Kernel.PageCalls
import LaiMiniOs.Fs.Alloc
import LaiMiniOs.Thread.Thread

/-! The resources that are counted in bitmaps.

Pids, page frames, inodes and blocks are handed out and taken back through one bit each. A pool is a
bitmap with the names of its units and the two functions on them; what a history of calls does is
proved for any pool whose functions set and clear the right bit.
-/

set_option autoImplicit false

namespace LaiMiniOs
open Foundation Prog

variable {i : Nat} {t : BitmapType} {s : Fs}

/-- A bitmap in the state, the unit that each bit stands for, and the functions that hand a unit out
and take it back. -/
structure Pool (S U : Type) where
  bitmap : S → Bitmap
  unit : S → Nat → U
  allocate : Prog S U
  release : U → Prog S Unit

namespace Pool

variable {S U : Type} (pool : Pool S U)

def size (s : S) : Nat := 8 * (pool.bitmap s).btmpBytesLen

def taken (s : S) : Set U := {u | ∃ i, i < pool.size s ∧ (pool.bitmap s).bit i = true ∧ pool.unit s i = u}

/-- A history of calls, with the units that are outstanding. A unit is asked for only while there is
one, and only an outstanding one is given back. -/
inductive Run (s : S) (start : Set U) : S → Set U → Prop where
  | start : Run s start s start
  | allocate {t t' : S} {out : Set U} {u : U} (run : Run s start t out) (free : ∃ i, i < pool.size t ∧
      (pool.bitmap t).bit i = false)
      (call : pool.allocate t = .ok (u, t')) : Run s start t' (insert u out)
  | release {t t' : S} {out : Set U} {u : U} (run : Run s start t out) (member : u ∈ out)
      (call : pool.release u t = .ok ((), t')) : Run s start t' (out \ {u})

structure Marks (s s' : S) (i : Nat) (value : Bool) : Prop where
  bitmap : pool.bitmap s' = (pool.bitmap s).set i value
  unit : pool.unit s' = pool.unit s

/-- The bitmap tells which units are outstanding, and each call changes the bit of one unit. -/
structure Exact (s : S) (out : Set U) : Prop where
  distinct : ∀ i j, i < pool.size s → j < pool.size s → pool.unit s i = pool.unit s j → i = j
  outstanding : out = pool.taken s
  /-- The lowest unit that is not outstanding is handed out. -/
  allocates : (∃ i, i < pool.size s ∧ (pool.bitmap s).bit i = false) → ∃ i s', i < pool.size s ∧
    pool.allocate s = .ok (pool.unit s i, s') ∧
    pool.unit s i ∉ out ∧ (∀ j, j < i → pool.unit s j ∈ out) ∧ pool.Marks s s' i true
  releases : ∀ u ∈ out, ∃ i s', i < pool.size s ∧ pool.unit s i = u ∧ pool.release u s = .ok ((), s') ∧
    pool.Marks s s' i false

structure Lawful (valid : S → Prop) : Prop where
  distinct : ∀ {s i j}, valid s → i < pool.size s → j < pool.size s → pool.unit s i = pool.unit s j → i = j
  allocate : ∀ {s i}, valid s → LowestFree (pool.bitmap s).bit (pool.size s) i →
    ∃ s', pool.allocate s = .ok (pool.unit s i, s') ∧ pool.Marks s s' i true ∧ valid s'
  release : ∀ {s i}, valid s → i < pool.size s →
    ∃ s', pool.release (pool.unit s i) s = .ok ((), s') ∧ pool.Marks s s' i false ∧ valid s'

variable {pool} {valid : S → Prop} {s s' t : S} {out : Set U} {i : Nat}

theorem Marks.size {value : Bool} (marks : pool.Marks s s' i value) : pool.size s' = pool.size s := by
  rw [Pool.size, marks.bitmap, Bitmap.btmpBytesLen_set]
  rfl

theorem Marks.bit {value : Bool} (marks : pool.Marks s s' i value) (j : Nat) :
    (pool.bitmap s').bit j = if j = i then value else (pool.bitmap s).bit j := by
  rw [marks.bitmap, Bitmap.bit_set]

theorem taken_mark (inside : i < pool.size s) (marks : pool.Marks s s' i true) :
    pool.taken s' = insert (pool.unit s i) (pool.taken s) := by
  ext u
  simp only [taken, Set.mem_insert_iff, Set.mem_ofPred_eq, marks.size, marks.bit, marks.unit]
  grind

section
variable (lawful : pool.Lawful valid) (holds : valid s)
include lawful holds

theorem unit_mem_taken {j : Nat} (inside : j < pool.size s) : pool.unit s j ∈ pool.taken s ↔
    (pool.bitmap s).bit j = true := by
  constructor
  · rintro ⟨k, below, isSet, same⟩
    obtain rfl := lawful.distinct holds below inside same
    exact isSet
  · exact fun isSet => ⟨j, inside, isSet, rfl⟩

theorem exact_taken : pool.Exact s (pool.taken s) where
  distinct i j hi hj := lawful.distinct holds hi hj
  outstanding := rfl
  allocates free := by
    obtain ⟨i, -, inside, clear, below⟩ := Bitmap.exists_lowest free
    obtain ⟨s', call, marks, -⟩ := lawful.allocate holds ⟨inside, clear, below⟩
    grind [unit_mem_taken]
  releases u member := by
    obtain ⟨i, inside, isSet, rfl⟩ := member
    grind [lawful.release]

theorem taken_unmark (inside : i < pool.size s) (marks : pool.Marks s s' i false) :
    pool.taken s' = pool.taken s \ {pool.unit s i} := by
  ext u
  simp only [taken, Set.mem_sdiff, Set.mem_singleton_iff, Set.mem_ofPred_eq, marks.size, marks.bit, marks.unit]
  grind [lawful.distinct]

theorem Run.taken (run : pool.Run s (pool.taken s) t out) : valid t ∧ out = pool.taken t := by
  induction run with
  | start => exact ⟨holds, rfl⟩
  | allocate run free call ih =>
    obtain ⟨holds, rfl⟩ := ih
    obtain ⟨i, -, inside, clear, below⟩ := Bitmap.exists_lowest free
    obtain ⟨_, call', marks, after⟩ := lawful.allocate holds ⟨inside, clear, below⟩
    cases call'.symm.trans call
    exact ⟨after, (taken_mark inside marks).symm⟩
  | release run member call ih =>
    obtain ⟨holds, rfl⟩ := ih
    obtain ⟨i, inside, isSet, rfl⟩ := member
    grind [lawful.release, taken_unmark]

theorem Run.exact (run : pool.Run s (pool.taken s) t out) : pool.Exact t out := by
  obtain ⟨after, rfl⟩ := run.taken lawful holds
  exact exact_taken lawful after

end

end Pool

def pidPool : Pool Threads Nat where
  bitmap := Threads.pidBitmap
  unit _ i := i + pidStart
  allocate := allocatePid
  release := releasePid

def framePool (pf : PoolFlags) : Pool Paging (Option Nat) where
  bitmap s := s.poolBitmap pf
  unit s i := some (s.phyAddrStart pf + i)
  allocate := palloc pf
  release frame := pfree (frame.getD 0)

def inodePool : Pool Fs Word where
  bitmap s := s.part.bitmap .inode
  unit _ i := BitVec.ofNat 32 i
  allocate := inodeBitmapAlloc
  release inodeNo := bitmapSet .inode inodeNo false

/-- `block_bitmap_alloc`, and `bitmap_set` to 0 with the index that its callers compute from the sector. -/
def blockPool : Pool Fs Word where
  bitmap s := s.part.bitmap .block
  unit s i := s.part.sb.dataStartLba + BitVec.ofNat 32 i
  allocate := blockBitmapAlloc
  release lba := do bitmapSet .block (lba - (← get).part.sb.dataStartLba) false

theorem LowestFree.scan {btmp : Bitmap} (lowest : LowestFree btmp.bit (8 * btmp.btmpBytesLen) i) :
    btmp.scan 1 = .ok (some i) :=
  Bitmap.scan_one_eq_ok.mpr ⟨i, rfl, lowest.inside, lowest.free, lowest.below⟩

theorem pidPool_lawful : pidPool.Lawful fun _ => True where
  distinct _ _ _ same := Nat.add_right_cancel same
  allocate {s i} _ lowest := by
    refine ⟨{ s with pidBitmap := s.pidBitmap.set i true }, ?_, ⟨rfl, rfl⟩, trivial⟩
    change allocatePid s = _
    rw [allocatePid, get_bind]
    simp only [show s.pidBitmap.scan 1 = _ from lowest.scan]
    rfl
  release {s i} _ inside := by
    refine ⟨{ s with pidBitmap := s.pidBitmap.set i false }, ?_, ⟨rfl, rfl⟩, trivial⟩
    change releasePid (i + pidStart) s = _
    rw [releasePid, run_modify, Nat.add_sub_cancel]

theorem Paging.inPool_of_size {s : Paging} {pf : PoolFlags} (inside : i < 8 * (s.poolBitmap pf).btmpBytesLen) :
    s.InPool pf (s.phyAddrStart pf + i) := by
  have whole : 8 * (s.poolBitmap pf).btmpBytesLen ≤ s.freePages pf := Nat.mul_div_le _ 8
  cases pf with
  | kernel =>
    refine ⟨Nat.le_add_right _ _, ?_⟩
    simp only [Paging.phyAddrStart]
    omega
  | user => exact Nat.le_add_right _ _

theorem framePool_marks (s : Paging) (pf : PoolFlags) (i : Nat) (value : Bool) :
    (framePool pf).Marks s (s.setPool pf i value) i value where
  bitmap := by
    change (s.setPool pf i value).poolBitmap pf = _
    rw [poolBitmap_setPool, if_pos rfl]
    rfl
  unit := rfl

theorem framePool_lawful (pf : PoolFlags) : (framePool pf).Lawful fun _ => True where
  distinct _ _ _ same := Nat.add_left_cancel (Option.some.inj same)
  allocate {s i} _ lowest := by
    refine ⟨s.setPool pf i true, ?_, framePool_marks s pf i true, trivial⟩
    change palloc pf s = _
    rw [palloc, get_bind]
    simp only [show (s.poolBitmap pf).scan 1 = _ from lowest.scan]
    rfl
  release {s i} _ inside := by
    refine ⟨s.setPool pf i false, ?_, framePool_marks s pf i false, trivial⟩
    change pfree (s.phyAddrStart pf + i) s = _
    rw [pfree_run (Paging.inPool_of_size inside), Nat.add_sub_cancel_left]

theorem bitmap_setBit (s : Fs) (t : BitmapType) (i : Nat) (value : Bool) :
    (s.setBit t i value).part.bitmap t = (s.part.bitmap t).set i value := by
  rw [Fs.setBit, bitmap_setBitmap, if_pos rfl]

def Fs.Numbered (t : BitmapType) (s : Fs) : Prop := s.part.bitCount t ≤ 2 ^ 32

theorem Fs.Numbered.toNat (numbered : s.Numbered t) (inside : i < s.part.bitCount t) :
    (BitVec.ofNat 32 i).toNat = i := by
  rw [BitVec.toNat_ofNat]
  exact Nat.mod_eq_of_lt (Nat.lt_of_lt_of_le inside numbered)

theorem Fs.Numbered.inj (numbered : s.Numbered t) {j : Nat} (hi : i < s.part.bitCount t) (hj : j < s.part.bitCount t)
    (same : BitVec.ofNat 32 i = BitVec.ofNat 32 j) : i = j := by
  rw [← numbered.toNat hi, ← numbered.toNat hj, same]

theorem Fs.Numbered.setBit (numbered : s.Numbered t) (i : Nat) (value : Bool) : (s.setBit t i value).Numbered t := by
  rw [Fs.Numbered, bitCount_congr (geometry_setBit s t i value)]
  exact numbered

theorem Fs.Numbered.clears (numbered : s.Numbered t) (inside : i < s.part.bitCount t) :
    bitmapSet t (BitVec.ofNat 32 i) false s = .ok ((), s.setBit t i false) := by
  have index := numbered.toNat inside
  exact bitmapSet_eq_ok.mpr ⟨by rw [index]; exact inside, by rw [index]⟩

theorem inodePool_lawful : inodePool.Lawful (Fs.Numbered .inode) where
  distinct numbered hi hj same := numbered.inj hi hj same
  allocate {s i} numbered lowest :=
    ⟨s.setBit .inode i true, inodeBitmapAlloc_eq_ok.mpr ⟨i, lowest, rfl⟩, ⟨bitmap_setBit s .inode i true, rfl⟩,
      numbered.setBit i true⟩
  release {s i} numbered inside :=
    ⟨s.setBit .inode i false, numbered.clears inside, ⟨bitmap_setBit s .inode i false, rfl⟩, numbered.setBit i false⟩

theorem blockPool_lawful : blockPool.Lawful (Fs.Numbered .block) where
  distinct numbered hi hj same := numbered.inj hi hj (BitVec.add_right_inj _ |>.mp same)
  allocate {s i} numbered lowest :=
    ⟨s.setBit .block i true, blockBitmapAlloc_eq_ok.mpr ⟨i, lowest, rfl⟩, ⟨bitmap_setBit s .block i true, rfl⟩,
      numbered.setBit i true⟩
  release {s i} numbered inside := by
    refine ⟨s.setBit .block i false, ?_, ⟨bitmap_setBit s .block i false, rfl⟩, numbered.setBit i false⟩
    have index : s.part.sb.dataStartLba + BitVec.ofNat 32 i - s.part.sb.dataStartLba = BitVec.ofNat 32 i := by
      rw [BitVec.add_comm, BitVec.add_sub_cancel]
    change bitmapSet .block (s.part.sb.dataStartLba + BitVec.ofNat 32 i - s.part.sb.dataStartLba) false s = _
    rw [index]
    exact numbered.clears inside

inductive KernelPool where
  | pid
  | frame (pf : PoolFlags)
  | inode
  | block

namespace KernelPool

def State : KernelPool → Type
  | pid => Threads
  | frame _ => Paging
  | inode => Fs
  | block => Fs

def Item : KernelPool → Type
  | pid => Nat
  | frame _ => Option Nat
  | inode => Word
  | block => Word

def pool : (kind : KernelPool) → Pool kind.State kind.Item
  | pid => pidPool
  | frame pf => framePool pf
  | inode => inodePool
  | block => blockPool

def Valid : (kind : KernelPool) → kind.State → Prop
  | pid => fun _ => True
  | frame _ => fun _ => True
  | inode => Fs.Numbered .inode
  | block => Fs.Numbered .block

theorem lawful : (kind : KernelPool) → kind.pool.Lawful kind.Valid
  | pid => pidPool_lawful
  | frame pf => framePool_lawful pf
  | inode => inodePool_lawful
  | block => blockPool_lawful

end KernelPool

/-- After any history of single allocations and releases of outstanding units, the set bits are those
of the outstanding units, and the next call again changes the bit of one unit, the lowest free one or
the one that is given back. -/
theorem pools_exact (kind : KernelPool) {s t : kind.State} {out : Set kind.Item} (valid : kind.Valid s)
    (run : kind.pool.Run s (kind.pool.taken s) t out) : kind.pool.Exact t out :=
  run.exact kind.lawful valid

theorem pools_exact_first :
    inodePool.Exact (blankFs.setBit .inode 0 true) (insert (0 : Word) (inodePool.taken blankFs)) :=
  pools_exact .inode (s := blankFs) (by decide : 8 * 512 ≤ 2 ^ 32)
    (.allocate .start ⟨0, by decide, by decide⟩
      (inodeBitmapAlloc_eq_ok.mpr ⟨0, ⟨by decide, by decide, fun j low => absurd low (Nat.not_lt_zero j)⟩, rfl⟩))

end LaiMiniOs
