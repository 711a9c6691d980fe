import Mathlib.Algebra.Group.Int.Defs
import Mathlib.Logic.Relation
import LaiMiniOs.Fs.Creation
import LaiMiniOs.Fs.FileLimits
import LaiMiniOs.Fs.Slots

/-! The positions of open files.

A position is set by an open, moved by a read or a seek, and set to the last byte by a write; the
size of a file only grows. So a position stays within its file, whoever else has the file open,
with one exception: a write of nothing to an empty file has no last byte, and leaves the position
at `2 ^ 32 - 1`.
-/

set_option autoImplicit false

namespace LaiMiniOs
open Foundation Prog Function

variable {p g : Nat} {r fd : Int} {count offset pos : Word} {buf : Memory} {inode : Inode} {whence : Whence}

def Kernel.Regular (k : Kernel) (g p : Nat) : Prop := (k.fileTable g).fdInode = some p ∧
  (k.fileTable g).fdFlag ≠ pipeFlag

def Kernel.PositionsInside (k : Kernel) : Prop :=
  ∀ g p, k.Regular g p → (k.fileTable g).fdPos.toNat ≤ (k.heap p).iSize.toNat

/-- A slot whose position is inside, and whose size fits the signed comparisons of `sys_lseek`; its structure lies
below the next free address. -/
def Kernel.Placed (k : Kernel) (file : File) : Prop :=
  ∀ p, file.fdInode = some p → p < k.brk ∧
    (file.fdFlag ≠ pipeFlag → file.fdPos.toNat ≤ (k.heap p).iSize.toNat ∧ (k.heap p).iSize.toNat < 2 ^ 31)

structure Kernel.Positioned (k : Kernel) : Prop where
  slots : ∀ g, k.Placed (k.fileTable g)
  cached : ∀ p ∈ k.openInodes, p < k.brk

namespace Kernel.Positioned

variable {k k' : Kernel}
variable (positioned : k.Positioned)
include positioned

theorem inside : k.PositionsInside :=
  fun g p regular => ((positioned.slots g p regular.1).2 regular.2).1

theorem small (regular : k.Regular g p) : (k.heap p).iSize.toNat < 2 ^ 31 :=
  ((positioned.slots g p regular.1).2 regular.2).2

theorem congr (fileTable : k'.fileTable = k.fileTable)
    (sizes : ∀ p, p < k.brk → (k'.heap p).iSize = (k.heap p).iSize) (brk : k.brk ≤ k'.brk)
    (cached : ∀ p ∈ k'.openInodes, p < k'.brk) : k'.Positioned where
  slots := by
    intro g p held
    rw [fileTable] at held ⊢
    obtain ⟨below, inside⟩ := positioned.slots g p held
    rw [sizes p below]
    exact ⟨Nat.lt_of_lt_of_le below brk, inside⟩
  cached := cached

theorem setInode (grows : (k.heap p).iSize.toNat ≤ inode.iSize.toNat)
    (small : ∀ g, k.Regular g p → inode.iSize.toNat < 2 ^ 31) : (k.setInode p inode).Positioned where
  slots := by
    intro g q held
    obtain ⟨below, inside⟩ := positioned.slots g q held
    refine ⟨below, fun plain => ?_⟩
    by_cases here : q = p
    · subst here
      rw [heap_setInode_self]
      exact ⟨Nat.le_trans (inside plain).1 grows, small g ⟨held, plain⟩⟩
    · rw [heap_setInode_of_ne k inode here]
      exact inside plain
  cached := positioned.cached

theorem setInode_same (same : inode.iSize = (k.heap p).iSize) :
    (k.setInode p inode).Positioned :=
  positioned.setInode (by rw [same]) fun g regular => by
    rw [same]
    exact positioned.small regular

theorem setFile {file : File} (placed : k.Placed file) :
    { k with fileTable := update k.fileTable g file }.Positioned where
  slots := by
    intro g'
    change k.Placed (update k.fileTable g file g')
    grind [positioned.slots]
  cached := positioned.cached

theorem moveTo (regular : k.Regular g p) (inside : pos.toNat ≤ (k.heap p).iSize.toNat) :
    { k with fileTable := update k.fileTable g { k.fileTable g with fdPos := pos } }.Positioned :=
  positioned.setFile fun p' held => by
    obtain rfl := Option.some.inj (regular.1.symm.trans held)
    exact ⟨(positioned.slots g p held).1, fun _ => ⟨inside, positioned.small regular⟩⟩

theorem place (inode : Inode) : { k.setInode k.brk inode with brk := k.brk + 1 }.Positioned :=
  positioned.congr rfl (fun p below => by
    exact congrArg Inode.iSize (k.heap_setInode_of_ne inode (Nat.ne_of_lt below))) (Nat.le_succ _)
    fun p member => Nat.lt_succ_of_lt (positioned.cached p member)

theorem opened (n : Word) (record : Inode) :
    (k.opened n record).2.Positioned ∧ (k.opened n record).1 < (k.opened n record).2.brk := by
  unfold Kernel.opened
  cases found : k.cached n with
  | some p => exact ⟨positioned.setInode_same rfl, positioned.cached p (List.mem_of_find?_eq_some found)⟩
  | none =>
    have placed := positioned.place { record with iOpenCnts := 1 }
    refine ⟨placed.congr rfl (fun _ _ => rfl) (Nat.le_refl _) fun p member => ?_, Nat.lt_succ_self _⟩
    rcases List.mem_cons.mp member with rfl | old
    · exact Nat.lt_succ_self _
    · exact Nat.lt_succ_of_lt (positioned.cached p old)

theorem closed (p : Nat) : (k.closed p).Positioned := by
  have counted : (k.setInode p { k.heap p with iOpenCnts := (k.heap p).iOpenCnts - 1 }).Positioned :=
    positioned.setInode_same rfl
  refine counted.congr rfl (fun _ _ => rfl) (Nat.le_refl _) fun q member => positioned.cached q ?_
  change q ∈ (if _ then _ else _) at member
  split at member
  · exact List.mem_of_mem_erase member
  · exact member

end Kernel.Positioned

structure Fs.Positioned (s : Fs) : Prop where
  layout : Layout s.part
  kernel : s.toKernel.Positioned

structure Fs.Names (s : Fs) (fd : Int) (g p : Nat) : Prop where
  table : s.fdTable fd.toNat = some g
  regular : s.toKernel.Regular g p

section
variable {s t u : Fs}

theorem Fs.Positioned.inodeOpen (positioned : s.Positioned) {n : Word} (run : inodeOpen n s = .ok (p, t)) :
    t.Positioned ∧ p < t.brk := by
  obtain ⟨-, result⟩ := (inodeOpen_eq_ok positioned.layout).mp run
  obtain ⟨rfl, rfl⟩ := Prod.mk.inj result
  obtain ⟨kernel, below⟩ := positioned.kernel.opened n (s.volume.record n.toNat)
  exact ⟨⟨positioned.layout, kernel⟩, below⟩

theorem tracks_positioned : Tracks fun _ t => t.Positioned where
  opens positioned _ run := (positioned.inodeOpen run).1
  closes := by
    intro held t t' p positioned run
    rw [inodeClose_eq] at run
    obtain ⟨-, rfl⟩ := Prod.mk.inj (Except.ok.inj run)
    exact ⟨positioned.layout, positioned.kernel.closed p⟩

theorem Fs.Positioned.pcbFdInstall (positioned : s.Positioned) (run : pcbFdInstall g s = .ok (r, t)) :
    t.Positioned := by
  have same : s.Positioned → (s.setFd r.toNat (some g)).Positioned := fun positioned =>
    ⟨positioned.layout, positioned.kernel.congr rfl (fun _ _ => rfl) (Nat.le_refl _) positioned.kernel.cached⟩
  cases free : s.toKernel.freeFd with
  | none =>
    rw [pcbFdInstall_none free] at run
    cases run
    exact positioned
  | some d =>
    rw [pcbFdInstall_some free] at run
    cases run
    exact same positioned

/-! Opening. -/

/-- What `sys_open` comes to has a size below 2 GiB: the inode that it opens, or the directory that gets
the new entry. -/
def Fs.OpensSmall (s : Fs) (stack : Stack) (path : List Byte) (flags : Word) : Prop :=
  ∀ no record u, openChecks stack path flags s = .ok (some (no, record), u) →
    if creates flags then (u.heap (record.parentDir.inode u)).iSize.toNat + 24 < 2 ^ 31
    else ∀ p v, inodeOpen no u = .ok (p, v) → (v.heap p).iSize.toNat < 2 ^ 31

theorem Fs.Positioned.fileOpen (positioned : s.Positioned) {n flag : Word} (small : ∀ p v, LaiMiniOs.inodeOpen n s =
    .ok (p, v) → (v.heap p).iSize.toNat < 2 ^ 31) (run : fileOpen n flag s = .ok (r, t)) : t.Positioned := by
  rw [LaiMiniOs.fileOpen, bind_of_ok (getFreeSlotInGlobal_eq s)] at run
  cases slot : s.toKernel.freeSlot with
  | none =>
    rw [slot] at run
    cases run
    exact positioned
  | some g =>
    rw [slot] at run
    obtain ⟨p, v, open_, run⟩ := bind_eq_ok.mp run
    obtain ⟨opened, below⟩ := positioned.inodeOpen open_
    have entered : (v.setFile g ⟨0, flag, some p⟩).Positioned := by
      refine ⟨opened.layout, opened.kernel.setFile fun p' held => ?_⟩
      obtain rfl := Option.some.inj held
      exact ⟨below, fun _ => ⟨Nat.zero_le _, small p v open_⟩⟩
    rw [modify_bind] at run
    split at run
    · rw [get_bind] at run
      split at run
      · rw [set_bind] at run
        have denied : ((v.setFile g ⟨0, flag, some p⟩).setInode p
            { (v.setFile g ⟨0, flag, some p⟩).heap p with writeDeny := 1 }).Positioned :=
          ⟨entered.layout, entered.kernel.setInode_same rfl⟩
        exact denied.pcbFdInstall run
      · cases run
        exact entered
    · exact entered.pcbFdInstall run

/-- A new entry makes its directory longer by one entry, and changes no other inode. -/
theorem Syncs.kernel {b : Nat} {entry : DirEntry} (syncs : Syncs p entry s b t) :
    ∃ inode, t.toKernel = s.toKernel.setInode p inode ∧ inode.iSize = (s.heap p).iSize + 24 := by
  cases syncs with
  | slot => exact ⟨_, rfl, rfl⟩
  | @block k i =>
    refine ⟨(((s.heap p).setSector k (s.lbaOf i))).grown, ?_, rfl⟩
    have taken : (s.takeBlock p k i).heap p = (s.heap p).setSector k (s.lbaOf i) := update_self _ _ _
    change (s.takeBlock p k i).toKernel.setInode p ((s.takeBlock p k i).heap p).grown = _
    rw [taken]
    exact s.toKernel.setInode_setInode p _ _
  | @table i i' =>
    refine ⟨(((s.heap p).setSector 12 (s.lbaOf i))).grown, ?_, rfl⟩
    have taken : (s.takeBlock p 12 i).heap p = (s.heap p).setSector 12 (s.lbaOf i) := update_self _ _ _
    change (s.takeBlock p 12 i).toKernel.setInode p ((s.takeBlock p 12 i).heap p).grown = _
    rw [taken]
    exact s.toKernel.setInode_setInode p _ _

theorem Fs.Positioned.enters (positioned : s.Positioned) {entry : DirEntry} (enters : Enters p entry s t)
    (small : (s.heap p).iSize.toNat + 24 < 2 ^ 31) : t.Positioned := by
  obtain ⟨inode, kernel, size⟩ := enters.syncs.kernel
  have longer : inode.iSize.toNat = (s.heap p).iSize.toNat + 24 := by
    rw [size, BitVec.toNat_add]
    exact Nat.mod_eq_of_lt (Nat.lt_trans small (by decide))
  refine ⟨positioned.layout.congr (enters.steady positioned.layout).geometry, ?_⟩
  rw [kernel]
  exact positioned.kernel.setInode (by omega) fun _ _ => by omega

theorem Fs.Positioned.fileCreate (positioned : s.Positioned) {filename : List Byte} {flag : Word}
    (small : (s.heap p).iSize.toNat + 24 < 2 ^ 31) (run : fileCreate p filename flag s = .ok (r, t)) :
    t.Positioned := by
  obtain ⟨i, -, ⟨-, result⟩ | ⟨g, u, -, -, enters, install⟩⟩ := (fileCreate_eq_ok positioned.layout).mp run
  all_goals have node : (s.newNode i).Positioned :=
    ⟨positioned.layout.congr (geometry_newNode s i), positioned.kernel.place _⟩
  · obtain ⟨-, rfl⟩ := Prod.mk.inj result
    exact ⟨node.layout.congr (geometry_setBit _ .inode i false), node.kernel⟩
  · have new : (s.newNode i).heap s.brk = inodeInit (BitVec.ofNat 32 i) (s.heap s.brk) := update_self _ _ _
    have file : (s.newFile i g flag).Positioned := by
      refine ⟨node.layout, node.kernel.setFile fun q held => ?_⟩
      obtain rfl := Option.some.inj held
      refine ⟨Nat.lt_succ_self _, fun _ => ⟨Nat.zero_le _, ?_⟩⟩
      rw [new]
      exact Nat.two_pow_pos 31
    -- The directory may only be the new structure itself if that is empty.
    have parent : ((s.newFile i g flag).heap p).iSize.toNat + 24 < 2 ^ 31 := by
      by_cases here : p = s.brk
      · subst here
        have empty : ((s.newFile i g flag).heap s.brk).iSize = 0 := congrArg Inode.iSize new
        rw [empty]
        decide
      · rw [show (s.newFile i g flag).heap p = s.heap p from update_of_ne here _ _]
        exact small
    have entered := file.enters enters parent
    have brk : s.brk < u.brk := by
      obtain ⟨inode, kernel, -⟩ := enters.syncs.kernel
      rw [kernel]
      exact Nat.lt_succ_self _
    have created : (u.fileCreated p s.brk i).Positioned := by
      have counted : (u.toKernel.setInode s.brk { u.heap s.brk with iOpenCnts := 1 }).Positioned :=
        entered.kernel.setInode_same rfl
      refine ⟨entered.layout, counted.congr rfl (fun _ _ => rfl) (Nat.le_refl _) fun q member => ?_⟩
      rcases List.mem_cons.mp member with rfl | old
      · exact brk
      · exact entered.kernel.cached q old
    exact created.pcbFdInstall install

theorem Fs.Positioned.sysOpen (positioned : s.Positioned) {stack : Stack} {path : List Byte} {flags : Word}
    (small : s.OpensSmall stack path flags) (run : sysOpen stack path flags s = .ok (r, t)) : t.Positioned := by
  obtain ⟨found, u, checks, run⟩ := bind_eq_ok.mp run
  have searched : u.Positioned := tracks_positioned.openChecks positioned checks
  cases found with
  | none =>
    cases run
    exact searched
  | some found =>
    have limit := small _ _ _ checks
    dsimp only [openFound] at run
    split at run
    · next create =>
      rw [if_pos create] at limit
      split at run
      · cases run
      · rw [get_bind] at run
        obtain ⟨fd, u₁, made, run⟩ := bind_eq_ok.mp run
        obtain ⟨_, u₂, close, last⟩ := bind_eq_ok.mp run
        cases last
        exact tracks_positioned.finish (searched.fileCreate limit made) close
    · next open_ =>
      rw [if_neg open_] at limit
      exact searched.fileOpen limit run

/-! Reading, writing and seeking. -/

theorem readLoop_state {fdIdx size from_ : Nat} {blocks : Nat → Word} {r : List Byte}
    (run : readLoop fdIdx blocks size from_ s = .ok (r, t)) :
    t = s.seekBy fdIdx (size - from_) := by
  generalize left : size - from_ = n
  induction n using Nat.strongRecOn generalizing s from_ r with
  | ind n ih =>
    by_cases more : from_ < size
    · obtain ⟨-, -, rest, s', loop, here⟩ := (readLoop_step more rfl).mp run
      cases here
      have ends := chunkSize_ends (z := (s.fileTable fdIdx).fdPos.toNat) (n := n) (by omega)
      rw [left] at loop
      have rest := ih (n - chunkSize (s.fileTable fdIdx).fdPos.toNat n) (by omega) loop (by omega)
      rw [rest, seekBy_seekBy, Nat.add_sub_cancel' (by omega)]
    · rw [readLoop_done (by omega)] at run
      cases run
      rw [show n = 0 by omega, seekBy_zero]

theorem readFrom_state {fdIdx : Nat} {size : Word} {r : Option (List Byte)}
    (run : readFrom fdIdx inode pos size s = .ok (r, t)) : t = s.seekBy fdIdx size.toNat := by
  obtain ⟨-, rest⟩ := require_bind_eq_ok.mp run
  obtain ⟨blocks, _, collect, loop⟩ := bind_eq_ok.mp rest
  obtain rfl := collectForRead_state collect
  obtain ⟨_, s', read, last⟩ := bind_eq_ok.mp loop
  have same : s' = t := congrArg Prod.snd (Except.ok.inj last)
  rw [← same, readLoop_state read, Nat.sub_zero]

theorem fileRead_moves {r : Option (List Byte)} (held : (s.fileTable g).fdInode = some p)
    (inside : (s.fileTable g).fdPos.toNat ≤ (s.heap p).iSize.toNat) (run : fileRead g count s = .ok (r, t)) :
    ∃ n, t = s.seekBy g n ∧ (s.fileTable g).fdPos.toNat + n ≤ (s.heap p).iSize.toNat := by
  by_cases wraps : (s.fileTable g).fdPos.toNat + count.toNat < 2 ^ 32
  · obtain ⟨size, cut, same⟩ := fileRead_cut held rfl rfl inside wraps
    rw [same] at run
    split at run
    · cases run
      exact ⟨0, (seekBy_zero s g).symm, inside⟩
    · exact ⟨_, readFrom_state run, by omega⟩
  · -- A sum that wraps has a count too long for the array of blocks.
    rw [fileRead_wraps held rfl rfl inside (by omega)] at run
    have limit := readFrom_bound rfl (by omega) run
    omega

/-- What `sys_read` and `sys_write` have in common once `is_pipe` says no. -/
theorem names_of_plain {pipe : Bool} {s₁ s₂ : Fs} (check : isPipe fd.toNat s = .ok (pipe, s₁)) (plain : pipe ≠ true)
    (find : fdLocal2Global fd.toNat s₁ = .ok (g, s₂)) :
    s = s₂ ∧ ∀ p, (s.fileTable g).fdInode = some p → s.Names fd g p := by
  obtain ⟨rfl, -, g', table, -, rfl⟩ := isPipe_eq_ok check
  obtain ⟨-, table', -, rfl⟩ := fdLocal2Global_eq_ok.mp find
  obtain rfl := Option.some.inj (table.symm.trans table')
  exact ⟨rfl, fun p held => ⟨table, held, fun same => plain (beq_iff_eq.mpr same)⟩⟩

theorem sysRead_state {r : Option (List Byte)} (run : sysRead fd count s = .ok (r, t)) :
    t = s ∨ ∃ g p, s.Names fd g p ∧ fileRead g count s = .ok (r, t) := by
  unfold sysRead at run
  split at run
  · cases run
    exact .inl rfl
  · obtain ⟨pipe, s₁, check, run⟩ := bind_eq_ok.mp run
    split at run
    · cases run
    · next plain =>
      obtain ⟨g, s₂, find, run⟩ := bind_eq_ok.mp run
      obtain ⟨rfl, names⟩ := names_of_plain check (fun pipe => plain (.inl pipe)) find
      refine .inr ?_
      cases held : (s.fileTable g).fdInode with
      | none =>
        rw [fileRead, get_bind] at run
        simp only [held] at run
        cases run
      | some p => exact ⟨g, p, names p held, run⟩

theorem Fs.Positioned.sysRead (positioned : s.Positioned) {r : Option (List Byte)}
    (run : sysRead fd count s = .ok (r, t)) : t.Positioned := by
  rcases sysRead_state run with rfl | ⟨g, p, names, read⟩
  · exact positioned
  · obtain ⟨n, rfl, below⟩ := fileRead_moves names.regular.1 (positioned.kernel.inside g p names.regular) read
    refine ⟨positioned.layout, positioned.kernel.moveTo names.regular ?_⟩
    rw [BitVec.toNat_add, BitVec.toNat_ofNat]
    omega

theorem sysWrite_state (run : sysWrite fd buf count s = .ok (r, t)) :
    (r = -1 ∧ t = s) ∨ ∃ g p, s.Names fd g p ∧ fileWrite g buf count s = .ok (r, t) := by
  unfold sysWrite at run
  split at run
  · cases run
    exact .inl ⟨rfl, rfl⟩
  · obtain ⟨pipe, s₁, check, run⟩ := bind_eq_ok.mp run
    split at run
    · cases run
    · next plain =>
      obtain ⟨g, s₂, find, run⟩ := bind_eq_ok.mp run
      obtain ⟨rfl, names⟩ := names_of_plain check (fun pipe => plain (.inl pipe)) find
      rw [get_bind] at run
      split at run
      · refine .inr ?_
        cases held : (s.fileTable g).fdInode with
        | none =>
          rw [fileWrite, get_bind] at run
          simp only [held] at run
          cases run
        | some p => exact ⟨g, p, names p held, run⟩
      · cases run
        exact .inl ⟨rfl, rfl⟩

theorem Writes.geometry {s₁ s₂ s₃ : Fs} {blocks : Nat → Word}
    (writes : Writes g p buf count s s₁ blocks s₂ s₃ t) (layout : Layout s.part) :
    t.part.geometry = s.part.geometry := by
  have data : t.part = s₂.part := by
    have moved : s₃.part = (s₂.seekLast g p).part := part_writeLoop writes.moves
    rw [writes.last]
    exact moved
  rw [data, writes.collects.geometry (layout.congr writes.first.geometry), writes.first.geometry]

/-- A write that is not refused keeps the positions inside exactly when there is a last byte afterwards. -/
theorem Fs.Positioned.fileWrite (positioned : s.Positioned) (regular : s.toKernel.Regular g p)
    (run : fileWrite g buf count s = .ok (r, t)) :
    (r = -1 ∧ t = s) ∨ (0 ≤ r ∧ (count ≠ 0 ∨ (s.heap p).iSize ≠ 0 → t.Positioned) ∧
      (t.toKernel.PositionsInside → count ≠ 0 ∨ (s.heap p).iSize ≠ 0)) := by
  rcases (fileWrite_returns positioned.layout regular.1).mp run with ⟨-, same⟩ | ⟨s₁, blocks, s₂, s₃, s', same, writes⟩
  · cases same
    exact .inl ⟨rfl, rfl⟩
  · cases same
    have below := writes.below positioned.layout
    have kernel := writes.kernel positioned.layout
    have one : (1 : Word).toNat = 1 := rfl
    have longer : ((s.heap p).iSize + count).toNat = (s.heap p).iSize.toNat + count.toNat := by
      rw [BitVec.toNat_add]
      omega
    have last : ((s.heap p).iSize - 1 + count).toNat = (2 ^ 32 - 1 + (s.heap p).iSize.toNat + count.toNat) % 2 ^ 32 :=
      by
      rw [BitVec.toNat_add, BitVec.toNat_sub, one]
      omega
    have some : (count ≠ 0 ∨ (s.heap p).iSize ≠ 0) ↔ 0 < (s.heap p).iSize.toNat + count.toNat := by
      grind [BitVec.toNat_inj]
    rw [some]
    refine .inr ⟨Int.natCast_nonneg _, fun positive => ⟨?_, ?_⟩, fun inside => ?_⟩
    · exact positioned.layout.congr (writes.geometry positioned.layout)
    · rw [kernel]
      let inode : Inode := { (s.heap p).withSectors (t.heap p).iSectors with iSize := (s.heap p).iSize + count }
      have grown : (s.toKernel.setInode p inode).Positioned :=
        positioned.kernel.setInode (by rw [longer]; omega) fun _ _ => by rw [longer]; omega
      refine grown.moveTo regular ?_
      rw [Kernel.heap_setInode_self, longer, last]
      omega
    · by_contra nothing
      have slot : t.fileTable g = { s.fileTable g with fdPos := (s.heap p).iSize - 1 + count } := by
        rw [kernel]
        exact update_self _ _ _
      have size : (t.heap p).iSize = (s.heap p).iSize + count := by
        rw [kernel]
        exact congrArg Inode.iSize (s.toKernel.heap_setInode_self p _)
      have ends := inside g p ⟨by rw [slot]; exact regular.1, by rw [slot]; exact regular.2⟩
      rw [slot, size, longer] at ends
      dsimp only at ends
      rw [last] at ends
      omega

def Whence.base (whence : Whence) (file : File) (size : Word) : Int :=
  match whence with
  | .seekSet => 0
  | .seekCur => file.fdPos.toNat
  | .seekEnd => size.toNat

def SeeksExactly (s : Fs) (g p : Nat) (offset : Word) (whence : Whence) (r : Int) (t : Fs) : Prop :=
  (r = -1 ∧ t = s) ∨
    (r = whence.base (s.fileTable g) (s.heap p).iSize + offset.toInt ∧ 0 ≤ r ∧ r < (s.heap p).iSize.toNat ∧
      ∃ pos : Word, (pos.toNat : Int) = r ∧ t = s.setFile g { s.fileTable g with fdPos := pos })

/-- The comparisons of `sys_lseek` are signed. While sizes are below 2 GiB they let only an exact sum through. -/
theorem seek_exact {base : Int} {size : Word} (low : 0 ≤ base) (high : base < 2 ^ 31) (small : size.toNat < 2 ^ 31)
    (sum : ((pos.toNat : Int) - (base + offset.toInt)) % 2 ^ 32 = 0)
    (inside : ¬(pos.toInt < 0 ∨ (size - 1).toInt < pos.toInt)) :
    pos.toInt = base + offset.toInt ∧ 0 ≤ pos.toInt ∧ pos.toInt < size.toNat ∧ (pos.toNat : Int) = pos.toInt := by
  have one : (1 : Word).toNat = 1 := rfl
  have bound := pos.isLt
  have less : ((size - 1).toInt : Int) = size.toNat - 1 := by
    rw [BitVec.toInt_eq_toNat_cond, BitVec.toNat_sub, one]
    split <;> omega
  have exact_ : pos.toInt = pos.toNat := by
    rw [BitVec.toInt_eq_toNat_cond] at inside ⊢
    split at inside <;> omega
  have offsets : -2 ^ 31 ≤ offset.toInt ∧ offset.toInt < 2 ^ 31 := by
    have limit := offset.isLt
    rw [BitVec.toInt_eq_toNat_cond]
    split <;> omega
  rw [less, exact_] at inside
  omega

def Whence.target (whence : Whence) (file : File) (size offset : Word) : Word :=
  match whence with
  | .seekSet => offset
  | .seekCur => file.fdPos + offset
  | .seekEnd => size + offset

theorem Whence.target_exact (whence : Whence) (file : File) (size offset : Word) :
    (((whence.target file size offset).toNat : Int) - (whence.base file size + offset.toInt)) % 2 ^ 32 = 0 := by
  rw [BitVec.toInt_eq_toNat_cond]
  cases whence with
  | seekSet =>
    rw [target, base]
    split <;> omega
  | seekCur =>
    rw [target, base, BitVec.toNat_add]
    split <;> omega
  | seekEnd =>
    rw [target, base, BitVec.toNat_add]
    split <;> omega

theorem sysLseek_state (run : sysLseek fd offset whence s = .ok (r, t)) :
    (r = -1 ∧ t = s) ∨ ∃ g p pos, s.fdTable fd.toNat = some g ∧ (s.fileTable g).fdInode = some p ∧
      pos = whence.target (s.fileTable g) (s.heap p).iSize offset ∧
        ¬(pos.toInt < 0 ∨ ((s.heap p).iSize - 1).toInt < pos.toInt) ∧
      r = pos.toInt ∧ t = s.setFile g { s.fileTable g with fdPos := pos } := by
  unfold sysLseek at run
  split at run
  · cases run
    exact .inl ⟨rfl, rfl⟩
  · obtain ⟨g, s₁, find, run⟩ := bind_eq_ok.mp run
    obtain ⟨-, table, -, rfl⟩ := fdLocal2Global_eq_ok.mp find
    rw [get_bind] at run
    cases held : (s.fileTable g).fdInode with
    | none =>
      simp only [held] at run
      cases run
    | some p =>
      simp only [held] at run
      generalize target : whence.target (s.fileTable g) (s.heap p).iSize offset = pos
      change Prog.run (if (whence.target (s.fileTable g) (s.heap p).iSize offset).toInt < 0 ∨
          ((s.heap p).iSize - 1).toInt < (whence.target (s.fileTable g) (s.heap p).iSize offset).toInt then return -1
        else do
          set (s.setFile g ⟨whence.target (s.fileTable g) (s.heap p).iSize offset, (s.fileTable g).fdFlag, some p⟩)
          return (whence.target (s.fileTable g) (s.heap p).iSize offset).toInt) s = .ok (r, t) at run
      rw [target] at run
      split at run
      · cases run
        exact .inl ⟨rfl, rfl⟩
      · next inside =>
        rw [set_bind] at run
        cases run
        refine .inr ⟨g, p, pos, table, held, target.symm, inside, rfl, ?_⟩
        rw [← held]

theorem Fs.Positioned.seeks (positioned : s.Positioned) (names : s.Names fd g p)
    (run : sysLseek fd offset whence s = .ok (r, t)) : SeeksExactly s g p offset whence r t := by
  have small := positioned.kernel.small names.regular
  have inside := positioned.kernel.inside g p names.regular
  have low : 0 ≤ whence.base (s.fileTable g) (s.heap p).iSize ∧
      whence.base (s.fileTable g) (s.heap p).iSize < 2 ^ 31 := by
    cases whence <;> dsimp only [Whence.base] <;> omega
  rcases sysLseek_state run with failed | ⟨g', p', pos, table, held, target, admitted, rfl, rfl⟩
  · exact .inl failed
  · obtain rfl := Option.some.inj (names.table.symm.trans table)
    obtain rfl := Option.some.inj (names.regular.1.symm.trans held)
    have sum := whence.target_exact (s.fileTable g) (s.heap p).iSize offset
    rw [← target] at sum
    obtain ⟨goal, positive, below, same⟩ := seek_exact low.1 low.2 small sum admitted
    exact .inr ⟨goal, positive, below, pos, same, rfl⟩

theorem Fs.Positioned.sysLseek (positioned : s.Positioned)
    (run : sysLseek fd offset whence s = .ok (r, t)) : t.Positioned := by
  rcases sysLseek_state run with ⟨-, rfl⟩ | ⟨g, p, pos, table, held, -, -, -, rfl⟩
  · exact positioned
  · by_cases pipe : (s.fileTable g).fdFlag = pipeFlag
    · -- The number of descriptors of a pipe is not a position.
      refine ⟨positioned.layout, positioned.kernel.setFile fun p' same => ⟨?_, fun plain => absurd pipe plain⟩⟩
      exact (positioned.kernel.slots g p' same).1
    · have regular : s.toKernel.Regular g p := ⟨held, pipe⟩
      rcases positioned.seeks ⟨table, regular⟩ run with ⟨-, same⟩ | ⟨-, -, below, pos', same, moved⟩
      · rw [same]
        exact positioned
      · rw [moved]
        exact ⟨positioned.layout, positioned.kernel.moveTo regular (by omega)⟩

theorem Fs.Positioned.sysWrite (positioned : s.Positioned)
    (some : ∀ g p, s.Names fd g p → count ≠ 0 ∨ (s.heap p).iSize ≠ 0) (run : sysWrite fd buf count s = .ok (r, t)) :
    t.Positioned := by
  rcases sysWrite_state run with ⟨-, rfl⟩ | ⟨g, p, names, write⟩
  · exact positioned
  · rcases positioned.fileWrite names.regular write with ⟨-, rfl⟩ | ⟨-, kept, -⟩
    · exact positioned
    · exact kept (some g p names)

end

/-- The calls on files, by whichever task runs. A write is not an empty one to an empty file, and an
open comes to an inode of a legal size. -/
inductive FileCall (s : Fs) : Fs → Prop where
  | opens {stack : Stack} {path : List Byte} {flags : Word} {r : Int} {t : Fs} (small : s.OpensSmall stack path flags)
      (run : sysOpen stack path flags s = .ok (r, t)) : FileCall s t
  | reads {fd : Int} {count : Word} {r : Option (List Byte)} {t : Fs} (run : sysRead fd count s = .ok (r, t)) :
      FileCall s t
  | writes {fd : Int} {buf : Memory} {count : Word} {r : Int} {t : Fs}
      (some : ∀ g p, s.Names fd g p → count ≠ 0 ∨ (s.heap p).iSize ≠ 0) (run : sysWrite fd buf count s = .ok (r, t)) :
        FileCall s t
  | seeks {fd : Int} {offset : Word} {whence : Whence} {r : Int} {t : Fs}
      (run : sysLseek fd offset whence s = .ok (r, t)) : FileCall s t
  /-- Another task runs. -/
  | switches (fdTable : Nat → Option Nat) (cwdInodeNr : Word) :
      FileCall s { s with fdTable := fdTable, cwdInodeNr := cwdInodeNr }

theorem Fs.Positioned.call {s t : Fs} (positioned : s.Positioned) (call : FileCall s t) : t.Positioned := by
  cases call with
  | opens small run => exact positioned.sysOpen small run
  | reads run => exact positioned.sysRead run
  | writes some run => exact positioned.sysWrite some run
  | seeks run => exact positioned.sysLseek run
  | switches fdTable cwdInodeNr => exact ⟨positioned.layout, ⟨positioned.kernel.slots, positioned.kernel.cached⟩⟩

theorem Fs.Positioned.calls {s t : Fs} (positioned : s.Positioned) (calls : Relation.ReflTransGen FileCall s t) :
    t.Positioned := by
  induction calls with
  | refl => exact positioned
  | tail _ call ih => exact ih.call call

/-- After every run of such calls the positions are inside their files and a seek is exact. A write to a
regular file then keeps the positions inside exactly when it is refused, or writes something, or the
file is not empty. -/
theorem positions_inside {s t : Fs} (start : s.Positioned) (calls : Relation.ReflTransGen FileCall s t) :
    t.toKernel.PositionsInside ∧
    (∀ fd g p offset whence r u, t.Names fd g p → sysLseek fd offset whence t = .ok (r, u) →
    SeeksExactly t g p offset whence r u) ∧
    ∀ fd g p buf count r u, t.Names fd g p → sysWrite fd buf count t = .ok (r, u) →
      (u.toKernel.PositionsInside ↔ r = -1 ∨ count ≠ 0 ∨ (t.heap p).iSize ≠ 0) := by
  have positioned := start.calls calls
  refine ⟨positioned.kernel.inside, fun fd g p offset whence r u names run => positioned.seeks names run, ?_⟩
  intro fd g p buf count r u names run
  rcases sysWrite_state run with ⟨refused, rfl⟩ | ⟨g', p', names', write⟩
  · exact iff_of_true positioned.kernel.inside (.inl refused)
  · obtain rfl := Option.some.inj (names.table.symm.trans names'.table)
    obtain rfl := Option.some.inj (names.regular.1.symm.trans names'.regular.1)
    rcases positioned.fileWrite names.regular write with ⟨refused, rfl⟩ | ⟨done, kept, broken⟩
    · exact iff_of_true positioned.kernel.inside (.inl refused)
    · constructor
      · exact fun inside => .inr (broken inside)
      · rintro (refused | some)
        · omega
        · exact (kept some).kernel.inside

theorem smallTree_positioned : smallTree.Positioned where
  layout := smallTree_ready.layout
  kernel := ⟨fun _ _ held => (nomatch held), smallTree_sound.fresh⟩

/-- `/f` is opened and a byte is written to it. -/
theorem positions_inside_opened : ∃ t u, sysOpen ⟨0, 0, 0⟩ [0x2f, 0x66] 2 smallTree = .ok (3, t) ∧
    t.toKernel.PositionsInside ∧
    sysWrite 3 (bufferOf [7]) 1 t = .ok (1, u) ∧ u.toKernel.PositionsInside := by
  obtain ⟨fd, t, run, found⟩ := exists_of_yields (x := sysOpen ⟨0, 0, 0⟩ [0x2f, 0x66] 2) (s := smallTree)
    (c := fun fd t =>
      decide (fd = 3 ∧ t.fdTable 3 = some 3 ∧ (t.fileTable 3).fdInode = some 1 ∧ (t.fileTable 3).fdFlag = 2 ∧
      (sysWrite 3 (bufferOf [7]) 1).yields t (fun r _ => decide (r = 1)) = true)) (by decide +kernel)
  obtain ⟨rfl, table, held, flag, write⟩ := of_decide_eq_true found
  obtain ⟨r, u, write, one⟩ := exists_of_yields write
  obtain rfl := of_decide_eq_true one
  have small : smallTree.OpensSmall ⟨0, 0, 0⟩ [0x2f, 0x66] 2 := by
    obtain ⟨found, u, checks, fits⟩ := exists_of_yields (x := openChecks ⟨0, 0, 0⟩ [0x2f, 0x66] 2) (s := smallTree)
      (c := fun found u => found.all fun f => (inodeOpen f.1).yields u fun p v => decide ((v.heap p).iSize = 0))
        (by decide +kernel)
    intro no record u' other
    rw [checks] at other
    cases other
    obtain ⟨p, v, open_, size⟩ := exists_of_yields fits
    intro p' v' again
    rw [open_] at again
    cases again
    rw [of_decide_eq_true size]
    exact Nat.two_pow_pos 31
  obtain ⟨inside, -, writes⟩ := positions_inside smallTree_positioned (.single (.opens small run))
  have names : t.Names 3 3 1 := ⟨table, held, by rw [flag]; decide⟩
  exact ⟨t, u, run, inside, write, (writes 3 3 1 _ _ _ _ names write).mpr (.inr (.inl (by decide)))⟩

/-- `/f` is opened and nothing is written to it: the position is behind the end of the file. -/
theorem positions_leave_file : smallTree.Positioned ∧ ∃ s t, sysOpen ⟨0, 0, 0⟩ [0x2f, 0x66] 2 smallTree = .ok (3, s) ∧
    sysWrite 3 (bufferOf []) 0 s = .ok (0, t) ∧ ¬ t.toKernel.PositionsInside := by
  obtain ⟨fd, s, run, found⟩ := exists_of_yields (x := sysOpen ⟨0, 0, 0⟩ [0x2f, 0x66] 2) (s := smallTree)
    (c := fun fd s => decide
      (fd = 3 ∧ (sysWrite 3 (bufferOf []) 0).yields s (fun r t => decide (r = 0 ∧ (t.fileTable 3).fdInode = some 1 ∧
      (t.fileTable 3).fdFlag = 2 ∧ (t.fileTable 3).fdPos = 0xffffffff ∧ (t.heap 1).iSize = 0)) = true))
        (by decide +kernel)
  obtain ⟨rfl, write⟩ := of_decide_eq_true found
  obtain ⟨r, t, write, after⟩ := exists_of_yields write
  obtain ⟨rfl, held, flag, pos, size⟩ := of_decide_eq_true after
  refine ⟨smallTree_positioned, s, t, run, write, fun inside => ?_⟩
  have ends := inside 3 1 ⟨held, by rw [flag]; decide⟩
  rw [pos, size] at ends
  exact absurd ends (by decide)

end LaiMiniOs
