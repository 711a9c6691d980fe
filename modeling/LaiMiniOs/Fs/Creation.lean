import LaiMiniOs.Fs.DirEntries
import LaiMiniOs.Fs.Steady

/-! What `file_create` and `sys_mkdir` do after the search.

Both take an inode number first and enter the new name in the directory before they store the
inodes. The tests for `-1` and for a directory without room are never met: `bitmap_scan` stops
on a full map, and `sync_dir_entry` finds a place or stops.
-/

set_option autoImplicit false

namespace LaiMiniOs
open Foundation Prog Function

variable {k : Kernel} {g : Nat}

def Kernel.freeSlot (k : Kernel) : Option Nat :=
  let fdIdx := skipWhile (fun i => (k.fileTable i).fdInode.isSome) (maxFileOpen - 3) 3
  if fdIdx = maxFileOpen then none else some fdIdx

def Kernel.freeFd (k : Kernel) : Option Nat :=
  let localFdIdx := skipWhile (fun i => (k.fdTable i).isSome) (maxFilesOpenPerProc - 3) 3
  if localFdIdx < maxFilesOpenPerProc then some localFdIdx else none

def Fs.setFd (s : Fs) (fd : Nat) (globalFd : Option Nat) : Fs := { s with fdTable := update s.fdTable fd globalFd }

theorem freeSlot_some (slot : k.freeSlot = some g) :
    3 ≤ g ∧ g < maxFileOpen ∧ (k.fileTable g).fdInode = none := by
  unfold Kernel.freeSlot at slot
  dsimp only at slot
  split at slot
  · cases slot
  · next inside =>
    obtain rfl := Option.some.inj slot
    have high := skipWhile_le (p := fun i => (k.fileTable i).fdInode.isSome) (maxFileOpen - 3) 3
    have short : skipWhile (fun i => (k.fileTable i).fdInode.isSome) (maxFileOpen - 3) 3 < maxFileOpen := by
      unfold maxFileOpen at inside high ⊢
      omega
    have stop := skipWhile_stop (p := fun i => (k.fileTable i).fdInode.isSome) (n := maxFileOpen - 3) (i := 3) short
    exact ⟨skipWhile_ge _ _, short, by simpa using stop⟩

theorem exists_freeFd {d : Nat} (high : 3 ≤ d) (low : d < maxFilesOpenPerProc) (free : k.fdTable d = none) :
    ∃ d', k.freeFd = some d' := by
  refine ⟨_, if_pos (Nat.lt_of_not_le fun full => ?_)⟩
  have taken := skipWhile_before (p := fun i => (k.fdTable i).isSome) high (Nat.lt_of_lt_of_le low full)
  simp [free] at taken

theorem freeFd_some {d : Nat} (free : k.freeFd = some d) : 3 ≤ d ∧ d < maxFilesOpenPerProc ∧ k.fdTable d = none := by
  unfold Kernel.freeFd at free
  dsimp only at free
  split at free
  · next inside =>
    obtain rfl := Option.some.inj free
    have stop := skipWhile_stop (p := fun i => (k.fdTable i).isSome) (n := maxFilesOpenPerProc - 3) (i := 3) inside
    exact ⟨skipWhile_ge _ _, inside, by simpa using stop⟩
  · cases free

def Fs.place (s : Fs) (inode : Inode) : Fs := { s.setInode s.brk inode with brk := s.brk + 1 }

structure Enters (p : Nat) (entry : DirEntry) (s u : Fs) : Prop where
  whole : (s.heap p).iSize.toNat % 24 = 0
  syncs : Syncs p entry s 0 u

def Fs.storeInode (s : Fs) (inode : Inode) : Fs := putRecord s (syncSlot inode) inode.pureInode.image

def Fs.newNode (s : Fs) (i : Nat) : Fs := (s.setBit .inode i true).place (inodeInit (BitVec.ofNat 32 i) (s.heap s.brk))

def Fs.newFile (s : Fs) (i g : Nat) (flag : Word) : Fs := (s.newNode i).setFile g ⟨0, flag, some s.brk⟩

def Fs.fileCreated (u : Fs) (p q i : Nat) : Fs :=
  let v := ((u.storeInode (u.heap p)).storeInode (u.heap q)).syncBits .inode i
  { v.setInode q { u.heap q with iOpenCnts := 1 } with openInodes := q :: u.openInodes }

/-- The state in which `sys_mkdir` enters the name: the inode and the block are taken, and the block is written. -/
def Fs.newDir (s : Fs) (i b : Nat) (parentNo : Word) : Fs :=
  ((s.setBit .inode i true).mark .block b true).putSector (s.lbaOf b).toNat (newDirBuf (BitVec.ofNat 32 i) parentNo)

def Fs.dirCreated (u : Fs) (p i : Nat) (lba : Word) : Fs :=
  ((u.storeInode (u.heap p)).storeInode (mkdirInode (BitVec.ofNat 32 i) lba 48)).syncBits .inode i

section
variable {s : Fs}

theorem getFreeSlotInGlobal_eq (s : Fs) : getFreeSlotInGlobal s = .ok (s.toKernel.freeSlot, s) := by
  unfold getFreeSlotInGlobal Kernel.freeSlot
  rw [get_bind]
  dsimp only
  split <;> rfl

theorem pcbFdInstall_some {d : Nat} (free : s.toKernel.freeFd = some d) (g : Nat) :
    pcbFdInstall g s = .ok ((d : Int), s.setFd d (some g)) := by
  unfold Kernel.freeFd at free
  unfold pcbFdInstall
  rw [get_bind]
  dsimp only at free ⊢
  split at free
  · next inside =>
    obtain rfl := Option.some.inj free
    rw [if_pos inside]
    rfl
  · cases free

theorem pcbFdInstall_none (full : s.toKernel.freeFd = none) (g : Nat) : pcbFdInstall g s = .ok (-1, s) := by
  unfold Kernel.freeFd at full
  unfold pcbFdInstall
  rw [get_bind]
  dsimp only at full ⊢
  split at full
  · cases full
  · next outside =>
    rw [if_neg outside]
    rfl

theorem createDirEntry_eq_ok {filename : List Byte} {n : Word} {kind : FileType} {r : DirEntry × Fs} :
    createDirEntry filename n kind s = .ok r ↔ filename.length ≤ 16 ∧ r = (.make filename n kind, s) := by
  unfold createDirEntry
  rw [require_bind_eq_ok]
  constructor
  · rintro ⟨short, last⟩
    exact ⟨short, (Except.ok.inj last).symm⟩
  · rintro ⟨short, rfl⟩
    exact ⟨short, rfl⟩

theorem number_small (layout : Layout s.part) {i : Nat} (inside : i < s.part.bitCount .inode) : i < 4096 := by
  have bits : s.part.bitCount .inode = 8 * s.part.inodeBitmap.btmpBytesLen := rfl
  rwa [bits, layout.inodeBytes] at inside

theorem toNat_number (layout : Layout s.part) {i : Nat} (inside : i < s.part.bitCount .inode) :
    (BitVec.ofNat 32 i).toNat = i := by
  have small := number_small layout inside
  rw [BitVec.toNat_ofNat]
  omega

theorem number_ne_fail (layout : Layout s.part) {i : Nat} (inside : i < s.part.bitCount .inode) :
    BitVec.ofNat 32 i ≠ -1 := by
  intro same
  have number := toNat_number layout inside
  have small := number_small layout inside
  rw [same] at number
  change 2 ^ 32 - 1 = i at number
  omega

/-- The new structure is clear, so that clearing `write_deny` again changes nothing. -/
theorem newFile_again (s : Fs) (i g : Nat) (flag : Word) :
    (s.newFile i g flag).setInode s.brk { (s.newFile i g flag).heap s.brk with writeDeny := 0 } =
    s.newFile i g flag := by
  have placed : (s.newFile i g flag).heap s.brk = inodeInit (BitVec.ofNat 32 i) (s.heap s.brk) := update_self _ _ _
  have same : { (s.newFile i g flag).heap s.brk with writeDeny := 0 } = (s.newFile i g flag).heap s.brk := by
    rw [placed]
    rfl
  rw [same, Fs.setInode, update_eq_self]

theorem geometry_newNode (s : Fs) (i : Nat) : (s.newNode i).part.geometry = s.part.geometry :=
  geometry_setBit s .inode i true

theorem geometry_newFile (s : Fs) (i g : Nat) (flag : Word) : (s.newFile i g flag).part.geometry = s.part.geometry :=
  geometry_newNode s i

theorem Enters.steady {p : Nat} {entry : DirEntry} {u : Fs} (enters : Enters p entry s u) (layout : Layout s.part) :
    s.Steady u :=
  .run (syncDirEntry_keeps .steady p entry) ((syncDirEntry_eq_ok layout).mpr ⟨enters.whole, u, rfl, enters.syncs⟩)

theorem bitmapSync_number {u : Fs} (layout : Layout s.part) {i : Nat} (inside : i < s.part.bitCount .inode)
    (geometry : u.part.geometry = s.part.geometry) :
    bitmapSync (BitVec.ofNat 32 i) .inode u = .ok ((), u.syncBits .inode i) := by
  refine (bitmapSync_eq_ok (layout.congr geometry)).mpr ⟨?_, ?_⟩
  · rw [toNat_number layout inside, bitCount_congr geometry]
    exact inside
  · rw [toNat_number layout inside]

theorem inodeSync_run (layout : Layout s.part) (inode : Inode) : inodeSync inode s = .ok ((), s.storeInode inode) :=
  inodeSync_eq layout inode

theorem layout_storeInode (layout : Layout s.part) (inode : Inode) : Layout (s.storeInode inode).part := layout

theorem storeFile_eq (layout : Layout s.part) {i : Nat} (inside : i < s.part.bitCount .inode) (p q : Nat)
    (rest : FsM Int) : (do
      inodeSync ((← get).heap p)
      inodeSync ((← get).heap q)
      bitmapSync (BitVec.ofNat 32 i) .inode
      modify fun s => { s.setInode q { s.heap q with iOpenCnts := 1 } with openInodes := q :: s.openInodes }
      rest : FsM Int) s = rest (s.fileCreated p q i) := by
  have layout₁ := layout_storeInode layout (s.heap p)
  have sync := bitmapSync_number (u := (s.storeInode (s.heap p)).storeInode (s.heap q)) layout inside rfl
  rw [get_bind, bind_of_ok (inodeSync_run layout _), get_bind,
    bind_of_ok (inodeSync_run layout₁ _)]
  refine (bind_of_ok sync).trans ?_
  rw [modify_bind]
  rfl

abbrev Fs.Creates (s : Fs) (p : Nat) (filename : List Byte) (flag : Word) (i : Nat) (r : Int × Fs) : Prop :=
  (s.toKernel.freeSlot = none ∧ r = (-1, (s.newNode i).setBit .inode i false)) ∨
    ∃ g u, s.toKernel.freeSlot = some g ∧ filename.length ≤ 16 ∧
      Enters p (.make filename (BitVec.ofNat 32 i) .regular) (s.newFile i g flag) u ∧
        pcbFdInstall g (u.fileCreated p s.brk i) = .ok r

theorem fileCreate_of_free (layout : Layout s.part) {p i : Nat} {filename : List Byte} {flag : Word} {r : Int × Fs}
    (lowest : s.FirstFree .inode i) :
    fileCreate p filename flag s = .ok r ↔ s.Creates p filename flag i r := by
  unfold Fs.Creates
  have number := toNat_number layout lowest.inside
  unfold fileCreate
  rw [bind_of_ok (inodeBitmapAlloc_eq_ok.mpr ⟨i, lowest, rfl⟩), if_neg (number_ne_fail layout lowest.inside),
    get_bind, modify_bind]
  change Prog.run (getFreeSlotInGlobal >>= _) (s.newNode i) = _ ↔ _
  rw [bind_of_ok (getFreeSlotInGlobal_eq _)]
  have slots : (s.newNode i).toKernel.freeSlot = s.toKernel.freeSlot := rfl
  rw [slots]
  cases s.toKernel.freeSlot with
  | none =>
    have clear : bitmapSet .inode (BitVec.ofNat 32 i) false (s.newNode i) =
        .ok ((), (s.newNode i).setBit .inode i false) := by
        grind [bitmapSet_eq_ok, bitCount_congr, geometry_newNode, lowest.inside]
    dsimp only
    rw [bind_of_ok clear, run_pure, Except.ok.injEq]
    simp [eq_comm]
  | some g =>
    dsimp only
    rw [modify_bind]
    change Prog.run (_ >>= _) (s.newFile i g flag) = _ ↔ _
    rw [modify_bind]
    have again := newFile_again s i g flag
    change Prog.run (_ >>= _)
      ((s.newFile i g flag).setInode s.brk { (s.newFile i g flag).heap s.brk with writeDeny := 0 }) = _ ↔ _
    rw [again]
    have layout₀ := layout.congr (geometry_newFile s i g flag)
    simp only [Option.some.injEq, reduceCtorEq, false_and, false_or]
    have tail {u : Fs} (enters : Enters p (.make filename (BitVec.ofNat 32 i) .regular) (s.newFile i g flag) u)
        (rest : FsM Int) := by
      have geometry := (enters.steady layout₀).geometry.trans (geometry_newFile s i g flag)
      have inside := lowest.inside
      rw [← bitCount_congr geometry] at inside
      exact storeFile_eq (layout.congr geometry) inside p s.brk rest
    constructor
    · intro run
      obtain ⟨entry, _, create, run⟩ := bind_eq_ok.mp run
      obtain ⟨short, here⟩ := createDirEntry_eq_ok.mp create
      cases here
      obtain ⟨done, _, sync, run⟩ := bind_eq_ok.mp run
      obtain ⟨whole, u, here, syncs⟩ := (syncDirEntry_eq_ok layout₀).mp sync
      obtain ⟨rfl, rfl⟩ := Prod.mk.inj here
      rw [if_pos rfl] at run
      exact ⟨g, _, rfl, short, ⟨whole, syncs⟩, (tail ⟨whole, syncs⟩ _).symm.trans run⟩
    · rintro ⟨g', u, rfl, short, enters, install⟩
      rw [bind_of_ok (createDirEntry_eq_ok.mpr ⟨short, rfl⟩),
        bind_of_ok ((syncDirEntry_eq_ok layout₀).mpr ⟨enters.whole, u, rfl, enters.syncs⟩), if_pos rfl]
      exact (tail enters _).trans install

theorem fileCreate_eq_ok (layout : Layout s.part) {p : Nat} {filename : List Byte} {flag : Word} {r : Int × Fs} :
    fileCreate p filename flag s = .ok r ↔ ∃ i, s.FirstFree .inode i ∧ s.Creates p filename flag i r := by
  constructor
  · intro run
    have alloc : ∃ i, s.FirstFree .inode i := by
      unfold fileCreate at run
      obtain ⟨_, _, alloc, -⟩ := bind_eq_ok.mp run
      obtain ⟨i, lowest, -⟩ := inodeBitmapAlloc_eq_ok.mp alloc
      exact ⟨i, lowest⟩
    obtain ⟨i, lowest⟩ := alloc
    exact ⟨i, lowest, (fileCreate_of_free layout lowest).mp run⟩
  · rintro ⟨i, lowest, outcome⟩
    exact (fileCreate_of_free layout lowest).mpr outcome

theorem geometry_newDir (s : Fs) (i b : Nat) (parentNo : Word) :
    (s.newDir i b parentNo).part.geometry = s.part.geometry :=
  (geometry_mark (s.setBit .inode i true) .block b true).trans (geometry_setBit s .inode i true)

theorem storeDir_eq {u : Fs} (layout : Layout u.part) {i : Nat} (inside : i < u.part.bitCount .inode) (p : Nat)
    (lba : Word) (rest : FsM Int) : (do
      inodeSync ((← get).heap p)
      inodeSync (mkdirInode (BitVec.ofNat 32 i) lba 48)
      bitmapSync (BitVec.ofNat 32 i) .inode
      rest : FsM Int) u = rest (u.dirCreated p i lba) := by
  have layout₁ := layout_storeInode layout (u.heap p)
  have sync := bitmapSync_number (u := (u.storeInode (u.heap p)).storeInode (mkdirInode (BitVec.ofNat 32 i) lba 48))
    layout inside rfl
  rw [get_bind, bind_of_ok (inodeSync_run layout _), bind_of_ok (inodeSync_run layout₁ _)]
  exact (bind_of_ok sync).trans rfl

abbrev Fs.Makes (s : Fs) (parentDir : Dir) (dirname : List Byte) (i b : Nat) (r : Int × Fs) : Prop :=
  0 < b ∧ (s.lbaOf b).toNat ≤ maxLba ∧ dirname.length ≤ 16 ∧
    ∃ u t, Enters (parentDir.inode s) (.make dirname (BitVec.ofNat 32 i) .directory)
        (s.newDir i b (s.heap (parentDir.inode s)).iNo) u ∧
      dirClose parentDir (u.dirCreated (parentDir.inode s) i (s.lbaOf b)) = .ok ((), t) ∧ r = (0, t)

theorem makeDir_of_free (layout : Layout s.part) {i b : Nat} {parentDir : Dir} {dirname : List Byte} {r : Int × Fs}
    (lowest : s.FirstFree .inode i) (lowest' : s.FirstFree .block b) :
    makeDir parentDir dirname s = .ok r ↔ s.Makes parentDir dirname i b r := by
  have layout₁ : Layout (s.setBit .inode i true).part := layout.congr (geometry_setBit s .inode i true)
  have geometry := geometry_newDir s i b (s.heap (parentDir.inode s)).iNo
  have size : (2 : Word) * s.part.sb.dirEntrySize = 48 := by rw [layout.entrySize]; rfl
  have away : s.lbaOf b - s.part.sb.dataStartLba ≠ 0 ↔ 0 < b := by
    have index := lbaOf_sub lowest'.inside layout.bitCount_lt
    rw [ne_eq, ← BitVec.toNat_inj, index, Nat.pos_iff_ne_zero]
    rfl
  have sync := sync_setBit (s := s.setBit .inode i true) layout₁ lowest'.inside
    (t := (s.setBit .inode i true).setBit .block b true) rfl
  have tail {u : Fs} (enters : Enters (parentDir.inode s) (.make dirname (BitVec.ofNat 32 i) .directory)
      (s.newDir i b (s.heap (parentDir.inode s)).iNo) u) (rest : FsM Int) := by
    have geometry' := (enters.steady (layout.congr geometry)).geometry.trans geometry
    have inside := lowest.inside
    rw [← bitCount_congr geometry'] at inside
    have stored := storeDir_eq (layout.congr geometry') inside (parentDir.inode s) (s.lbaOf b) rest
    rw [← size] at stored
    exact stored
  unfold makeDir
  rw [bind_of_ok (inodeBitmapAlloc_eq_ok.mpr ⟨i, lowest, rfl⟩), if_neg (number_ne_fail layout lowest.inside),
    bind_of_ok (blockBitmapAlloc_ok (s := s.setBit .inode i true) lowest'),
      if_neg (lbaOf_ne_fail layout₁ lowest'.inside), get_bind,
    require_bind_eq_ok, bind_of_ok sync, get_bind]
  refine and_congr away ?_
  rw [bind_eq_ok]
  constructor
  · rintro ⟨_, _, write, run⟩
    obtain ⟨onDisk, here⟩ := ideWrite_eq_ok.mp write
    obtain ⟨-, rfl⟩ := Prod.mk.inj here
    obtain ⟨entry, _, create, run⟩ := bind_eq_ok.mp run
    obtain ⟨short, here⟩ := createDirEntry_eq_ok.mp create
    cases here
    obtain ⟨done, _, enter, run⟩ := bind_eq_ok.mp run
    obtain ⟨whole, u, here, syncs⟩ := (syncDirEntry_eq_ok (layout.congr geometry)).mp enter
    obtain ⟨rfl, rfl⟩ := Prod.mk.inj here
    rw [if_pos rfl] at run
    obtain ⟨_, t, close, last⟩ := bind_eq_ok.mp ((tail ⟨whole, syncs⟩ _).symm.trans run)
    cases last
    exact ⟨addressable_one.mp onDisk, short, _, t, ⟨whole, syncs⟩, close, rfl⟩
  · rintro ⟨onDisk, short, u, t, enters, close, rfl⟩
    refine ⟨_, _, ideWrite_eq_ok.mpr ⟨addressable_one.mpr onDisk, rfl⟩, ?_⟩
    rw [bind_of_ok (createDirEntry_eq_ok.mpr ⟨short, rfl⟩)]
    refine (bind_of_ok ((syncDirEntry_eq_ok (layout.congr geometry)).mpr ⟨enters.whole, u, rfl, enters.syncs⟩)).trans ?_
    rw [if_pos rfl]
    refine (tail enters _).trans ?_
    rw [bind_of_ok close]
    rfl
theorem makeDir_eq_ok (layout : Layout s.part) {parentDir : Dir} {dirname : List Byte} {r : Int × Fs} :
    makeDir parentDir dirname s = .ok r ↔
      ∃ i b, s.FirstFree .inode i ∧ s.FirstFree .block b ∧ s.Makes parentDir dirname i b r := by
  constructor
  · intro run
    obtain ⟨_, _, alloc, rest⟩ := bind_eq_ok.mp run
    obtain ⟨i, lowest, same⟩ := inodeBitmapAlloc_eq_ok.mp alloc
    cases same
    rw [if_neg (number_ne_fail layout lowest.inside)] at rest
    obtain ⟨_, _, alloc', -⟩ := bind_eq_ok.mp rest
    obtain ⟨b, lowest', -⟩ := blockBitmapAlloc_eq_ok.mp alloc'
    exact ⟨i, b, lowest, lowest', (makeDir_of_free layout lowest lowest').mp run⟩
  · rintro ⟨i, b, lowest, lowest', makes⟩
    exact (makeDir_of_free layout lowest lowest').mpr makes

section
variable {p : Nat}

theorem enters_iff_room (entry : DirEntry) (layout : Layout s.part) (owns : s.Owns (s.heap p))
    (onDisk : ∀ k, k ≤ 140 → (s.volume.pointer (s.heap p) k).toNat ≤ maxLba) :
    (∃ u, Enters p entry s u) ↔ (s.heap p).iSize.toNat % 24 = 0 ∧ s.volume.entryBlocks (s.heap p) ≤ s.free.card := by
  rw [← owns.syncs_iff_room layout onDisk]
  exact ⟨fun ⟨u, enters⟩ => ⟨enters.whole, u, enters.syncs⟩, fun ⟨whole, u, syncs⟩ => ⟨u, whole, syncs⟩⟩

variable (layout : Layout s.part) (owns : s.Owns (s.heap p))
  (onDisk : ∀ k, k ≤ 140 → (s.volume.pointer (s.heap p) k).toNat ≤ maxLba)
include layout owns onDisk

theorem fileCreate_returns_iff {filename : List Byte} (flag : Word) (old : p < s.brk) (short : filename.length ≤ 16) :
    (∃ r, fileCreate p filename flag s = .ok r) ↔ (∃ i, s.FirstFree .inode i) ∧
      (s.toKernel.freeSlot = none ∨ (s.heap p).iSize.toNat % 24 = 0 ∧
      s.volume.entryBlocks (s.heap p) ≤ s.free.card) := by
  have room (i g : Nat) : (∃ u, Enters p (.make filename (BitVec.ofNat 32 i) .regular) (s.newFile i g flag) u) ↔
      (s.heap p).iSize.toNat % 24 = 0 ∧ s.volume.entryBlocks (s.heap p) ≤ s.free.card := by
    have heap : (s.newFile i g flag).heap p = s.heap p := update_of_ne (Nat.ne_of_lt old) _ _
    have enters := enters_iff_room (s := s.newFile i g flag) (p := p) (.make filename (BitVec.ofNat 32 i) .regular)
      (layout.congr (geometry_newFile s i g flag))
    rw [heap] at enters
    exact enters ⟨owns.used, owns.apart⟩ onDisk
  simp only [fileCreate_eq_ok layout]
  constructor
  · rintro ⟨r, i, lowest, ⟨none, -⟩ | ⟨g, u, slot, -, enters, -⟩⟩
    · exact ⟨⟨i, lowest⟩, .inl none⟩
    · exact ⟨⟨i, lowest⟩, .inr ((room i g).mp ⟨u, enters⟩)⟩
  · rintro ⟨⟨i, lowest⟩, space⟩
    cases slot : s.toKernel.freeSlot with
    | none => exact ⟨_, i, lowest, .inl ⟨slot, rfl⟩⟩
    | some g =>
      rw [slot] at space
      obtain ⟨u, enters⟩ := (room i g).mpr (space.resolve_left (Option.some_ne_none g))
      obtain ⟨r, install⟩ : ∃ r, pcbFdInstall g (u.fileCreated p s.brk i) = .ok r := by
        cases free : (u.fileCreated p s.brk i).toKernel.freeFd with
        | none => exact ⟨_, pcbFdInstall_none free g⟩
        | some d => exact ⟨_, pcbFdInstall_some free g⟩
      exact ⟨r, i, lowest, .inr ⟨g, u, slot, short, enters, install⟩⟩

section
variable (i : Nat) {b : Nat} (no : Word)

omit owns onDisk in
theorem volume_newDir (inside : b < s.part.bitCount .block) : (s.newDir i b no).volume =
    ((s.volume.setBit .inode i true).mark .block b true).putBlock (s.lbaOf b).toNat
    (newDirBuf (BitVec.ofNat 32 i) no) := by
  have layout₁ : Layout (s.setBit .inode i true).part := layout.congr (geometry_setBit s .inode i true)
  rw [Fs.newDir, volume_putSector (layout₁.congr (geometry_mark _ .block b true)), volume_mark layout₁ inside,
    volume_setBit]
  rw [toNat_lbaOf layout inside]
  exact Nat.le_add_right _ _

omit owns onDisk in
theorem bit_newDir (inside : b < s.part.bitCount .block) (j : Nat) :
    (s.newDir i b no).volume.bit .block j = true ↔ s.volume.bit .block j = true ∨ j = b := by
  rw [volume_newDir layout i no inside]
  change ((s.volume.setBit .inode i true).mark .block b true).bit .block j = true ↔ _
  have other : (s.volume.setBit .inode i true).bit .block = s.volume.bit .block := by simp [Volume.setBit]
  rw [Volume.bit_mark, other]
  by_cases here : j = b <;> simp [here]

variable (lowest : s.FirstFree .block b)
include lowest

omit onDisk in
theorem block_newDir {k : Nat} (hk : k ≤ 140) (some : s.volume.pointer (s.heap p) k ≠ 0) :
    (s.newDir i b no).volume.block (s.volume.pointer (s.heap p) k).toNat =
    s.volume.block (s.volume.pointer (s.heap p) k).toNat := by
  rw [volume_newDir layout i no lowest.inside]
  exact update_of_ne (owns.ne_free layout lowest.inside lowest.free hk some) _ _

omit onDisk in
theorem pointer_newDir (k : Nat) : (s.newDir i b no).volume.pointer (s.heap p) k = s.volume.pointer (s.heap p) k :=
  Volume.pointer_congr (fun _ => rfl)
    (fun table => Volume.pointer_table s.volume (s.heap p) ▸ block_newDir layout owns i no lowest
      (Nat.le_refl 140) table) k

omit onDisk in
theorem owns_newDir : (s.newDir i b no).Owns (s.heap p) :=
  owns.mono (geometry_newDir s i b no) (fun j used => (bit_newDir layout i no lowest.inside j).mpr (.inl used))
    (pointer_newDir layout owns i no lowest)

/-- The new directory's own block is written before the name is entered, so it is missing then. -/
theorem newDir_room (entry : DirEntry) (high : (s.lbaOf b).toNat ≤ maxLba) :
    (∃ u, Enters p entry (s.newDir i b no) u) ↔
      (s.heap p).iSize.toNat % 24 = 0 ∧ s.volume.entryBlocks (s.heap p) + 1 ≤ s.free.card := by
  have geometry := geometry_newDir s i b no
  have pointer := pointer_newDir layout owns i no lowest
  have blocks : (s.newDir i b no).volume.entryBlocks (s.heap p) = s.volume.entryBlocks (s.heap p) :=
    Volume.entryBlocks_congr (fun _ _ => rfl) fun k j direct =>
      Volume.slot_congr (pointer k) (block_newDir layout owns i no lowest (by omega)) j
  have member : b ∈ s.free := mem_free.mpr ⟨lowest.inside, lowest.free, toNat_lbaOf layout lowest.inside ▸ high⟩
  have room := enters_iff_room (s := s.newDir i b no) (p := p) entry (layout.congr geometry)
    (owns_newDir layout owns i no lowest) (fun k hk => pointer k ▸ onDisk k hk)
  have card := Finset.card_erase_add_one member
  rw [free_erase geometry (bit_newDir layout i no lowest.inside)] at room
  rw [room]
  change _ ∧ (s.newDir i b no).volume.entryBlocks (s.heap p) ≤ _ ↔ _
  rw [blocks, ← card, Nat.add_le_add_iff_right]
  rfl

end

omit owns onDisk in
theorem makeDir_returns_iff {parentDir : Dir} {dirname : List Byte} (owns : s.Owns (s.heap (parentDir.inode s)))
    (onDisk : ∀ k, k ≤ 140 → (s.volume.pointer (s.heap (parentDir.inode s)) k).toNat ≤ maxLba)
    (first : s.volume.bit .block 0 = true) (short : dirname.length ≤ 16) :
    (∃ r, makeDir parentDir dirname s = .ok r) ↔ (∃ i, s.FirstFree .inode i) ∧
      (s.heap (parentDir.inode s)).iSize.toNat % 24 = 0 ∧ s.volume.entryBlocks (s.heap (parentDir.inode s)) + 1 ≤
      s.free.card := by
  simp only [makeDir_eq_ok layout]
  constructor
  · rintro ⟨r, i, b, lowest, lowest', -, high, -, u, t, enters, -, -⟩
    exact ⟨⟨i, lowest⟩, (newDir_room layout owns onDisk i _ lowest' _ high).mp ⟨u, enters⟩⟩
  · rintro ⟨⟨i, lowest⟩, space⟩
    obtain ⟨b, lowest', member⟩ := exists_lowestFree (Nat.lt_of_lt_of_le (Nat.succ_pos _) space.2)
    have high : (s.lbaOf b).toNat ≤ maxLba := toNat_lbaOf layout lowest'.inside ▸ (mem_free.mp member).2.2
    have away : 0 < b := by
      refine Nat.pos_of_ne_zero fun zero => ?_
      have clear := lowest'.free
      rw [zero, first] at clear
      cases clear
    obtain ⟨u, enters⟩ := (newDir_room layout owns onDisk i (s.heap (parentDir.inode s)).iNo lowest'
      (.make dirname (BitVec.ofNat 32 i) .directory) high).mpr space
    obtain ⟨t, close⟩ : ∃ t, dirClose parentDir (u.dirCreated (parentDir.inode s) i (s.lbaOf b)) = .ok ((), t) := by
      cases parentDir <;> exact ⟨_, rfl⟩
    exact ⟨_, i, b, lowest, lowest', away, high, short, u, t, enters, close, rfl⟩
end

end

end LaiMiniOs
