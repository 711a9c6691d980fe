import LaiMiniOs.Fs.CallUsers
import LaiMiniOs.Fs.OpenChecks

/-! The handles that `sys_open` takes and gives back.

The call enters the inode in a slot of `file_table` before it knows whether it can return a
descriptor, and it does not close the directory in which it has found an existing file.
-/

set_option autoImplicit false

namespace LaiMiniOs
open Foundation Prog Function

variable {flag flags : Word} {fd : Int} {p g : Nat} {path : List Byte} {k : Kernel} {deny : Prop}

section
variable {s t t' : Fs} {held : List Nat}

/-- The inode structure `p` has been entered in slot `g`, with a handle of its own. -/
structure Fs.Entered (s : Fs) (held : List Nat) (flag : Word) (g p : Nat) (s' : Fs) : Prop where
  cache : s.toKernel.Held (p :: held) s'.toKernel
  geometry : s'.part.geometry = s.part.geometry
  rootDir : s'.rootDir = s.rootDir
  fileTable : s'.fileTable = update s.fileTable g ⟨0, flag, some p⟩
  fdTable : s'.fdTable = s.fdTable
  freedPages : s'.freedPages = s.freedPages

/-- How an attempt to open the structure `p` ends. It is turned down when the condition `deny` holds. -/
inductive Fs.Opens (s : Fs) (held : List Nat) (flag : Word) (deny : Prop) : Nat → Int → Fs → Prop where
  | full {p : Nat} {t : Fs} (none : s.toKernel.freeSlot = none) (holds : s.Holds held t) :
      Opens s held flag deny p (-1) t
  | kept {p g : Nat} {t : Fs} (slot : s.toKernel.freeSlot = some g) (why : s.toKernel.freeFd = none ∨ deny)
      (entered : s.Entered held flag g p t) : Opens s held flag deny p (-1) t
  | given {p g d : Nat} {t : Fs} (slot : s.toKernel.freeSlot = some g) (free : s.toKernel.freeFd = some d)
      (allowed : ¬ deny)
      (entered : s.Entered held flag g p t) : Opens s held flag deny p d (t.setFd d (some g))

theorem Fs.Holds.freeSlot (holds : s.Holds held t) : t.toKernel.freeSlot = s.toKernel.freeSlot := by
  unfold Kernel.freeSlot
  rw [holds.fileTable]

theorem Fs.Entered.freeFd (entered : s.Entered held flag g p t) :
    t.toKernel.freeFd = s.toKernel.freeFd := by
  unfold Kernel.freeFd
  rw [entered.fdTable]

theorem Fs.Entered.install (entered : s.Entered held flag g p t)
    (slot : s.toKernel.freeSlot = some g) (allowed : ¬ deny) (run : pcbFdInstall g t = .ok (fd, t')) :
    s.Opens held flag deny p fd t' := by
  cases free : t.toKernel.freeFd with
  | none =>
    rw [pcbFdInstall_none free, Except.ok.injEq, Prod.mk.injEq] at run
    obtain ⟨rfl, rfl⟩ := run
    exact .kept slot (.inl (by rw [← entered.freeFd, free])) entered
  | some d =>
    rw [pcbFdInstall_some free, Except.ok.injEq, Prod.mk.injEq] at run
    obtain ⟨rfl, rfl⟩ := run
    exact .given slot (by rw [← entered.freeFd, free]) allowed entered

theorem Fs.Holds.enter (holds : s.Holds (p :: held) t) (g : Nat) (flag : Word) :
    s.Entered held flag g p (t.setFile g ⟨0, flag, some p⟩) where
  cache := holds.cache.congr (Nat.le_refl _) rfl fun _ _ => ⟨rfl, rfl⟩
  geometry := holds.geometry
  rootDir := holds.rootDir
  fileTable := by rw [← holds.fileTable]; rfl
  fdTable := holds.fdTable
  freedPages := holds.freedPages

theorem Fs.Entered.steady (entered : s.Entered held flag g p t) {inode : Inode}
    (count : inode.iOpenCnts = (t.heap p).iOpenCnts) (number : inode.iNo = (t.heap p).iNo) :
    s.Entered held flag g p (t.setInode p inode) where
  cache := entered.cache.congr (Nat.le_refl _) rfl fun q _ =>
    by grind [toKernel_setInode, Kernel.heap_setInode_self, Kernel.heap_setInode_of_ne]
  geometry := entered.geometry
  rootDir := entered.rootDir
  fileTable := entered.fileTable
  fdTable := entered.fdTable
  freedPages := entered.freedPages

def Fs.Denied (s : Fs) (inodeNo flag : Word) : Prop :=
  (flag = 1 ∨ flag = 2) ∧ (s.toKernel.seen inodeNo (s.volume.record inodeNo.toNat)).writeDeny ≠ 0

theorem fileOpen_opens (ready : s.Ready) (holds : s.Holds held t) (few : held.length ≤ 6) {n : Word}
    (run : fileOpen n flag t = .ok (fd, t')) :
    s.Opens held flag (t.Denied n flag) (t.toKernel.opened n (t.volume.record n.toNat)).1 fd t' := by
  unfold fileOpen at run
  rw [bind_of_ok (getFreeSlotInGlobal_eq t)] at run
  cases slot : t.toKernel.freeSlot with
  | none =>
    rw [slot] at run
    cases run
    exact .full (by rw [← holds.freeSlot, slot]) holds
  | some g =>
    have slot' : s.toKernel.freeSlot = some g := by rw [← holds.freeSlot, slot]
    rw [slot] at run
    obtain ⟨p, t₁, open_, run⟩ := bind_eq_ok.mp run
    have opened := holds.inodeOpen ready few open_
    obtain ⟨-, result⟩ := (inodeOpen_eq_ok (holds.layout ready)).mp open_
    obtain ⟨rfl, rfl⟩ := Prod.mk.inj result
    obtain ⟨cnts, heap⟩ := t.toKernel.heap_opened n (t.volume.record n.toNat)
    have deny : t.Denied n flag ↔ (flag = 1 ∨ flag = 2) ∧
        ((t.toKernel.opened n (t.volume.record n.toNat)).2.heap
          (t.toKernel.opened n (t.volume.record n.toNat)).1).writeDeny ≠ 0 := by
      rw [heap]
      exact Iff.rfl
    rw [modify_bind] at run
    have entered := opened.enter g flag
    split at run
    next writes =>
      rw [get_bind] at run
      split at run
      next free =>
        rw [set_bind] at run
        refine (entered.steady ?_ ?_).install slot' (fun denied => (deny.mp denied).2 free) run
        · rfl
        · rfl
      next taken =>
        cases run
        exact .kept slot' (.inr (deny.mpr ⟨writes, taken⟩)) entered
    next reads => exact entered.install slot' (fun denied => reads (deny.mp denied).1) run

theorem Fs.Holds.place (holds : s.Holds held t) (inode : Inode) : s.Holds held (t.place inode) := by
  have missing : t.brk ∉ t.openInodes := fun member => absurd (holds.cache.sound.fresh _ member) (Nat.lt_irrefl _)
  refine ⟨holds.cache.congr (Nat.le_succ _) rfl fun q old => ?_, holds.geometry, holds.rootDir, holds.fileTable,
    holds.fdTable,
    holds.freedPages⟩
  have same := Kernel.heap_setInode_of_ne t.toKernel inode fun here : q = t.brk => missing (here ▸ old)
  exact ⟨congrArg Inode.iOpenCnts same, congrArg Inode.iNo same⟩

theorem Fs.Holds.enterNew {inode : Inode} (holds : s.Holds held t) {u : Fs}
    (steady : ((t.place inode).setFile g ⟨0, flag, some t.brk⟩).Steady u) :
    s.Entered held flag g t.brk
      { u.setInode t.brk { u.heap t.brk with iOpenCnts := 1 } with openInodes := t.brk :: u.openInodes } := by
  have missing : t.brk ∉ t.openInodes := fun member => absurd (holds.cache.sound.fresh _ member) (Nat.lt_irrefl _)
  have brk : u.brk = t.brk + 1 := steady.brk
  refine ⟨holds.cache.push _ holds.cache.brk ?_ missing ?_ ?_ ?_ fun q old => ?_, ?_, ?_, ?_, ?_, ?_⟩
  · exact Nat.lt_of_lt_of_eq (Nat.lt_succ_self _) brk.symm
  · exact Nat.le_of_lt (Nat.lt_of_lt_of_eq (Nat.lt_succ_self _) brk.symm)
  · exact congrArg (t.brk :: ·) steady.openInodes
  · exact congrArg Inode.iOpenCnts (Kernel.heap_setInode_self u.toKernel t.brk _)
  · have other : q ≠ t.brk := fun same => missing (same ▸ old)
    have last := Kernel.heap_setInode_of_ne u.toKernel { u.heap t.brk with iOpenCnts := 1 } other
    have first := Kernel.heap_setInode_of_ne t.toKernel inode other
    have middle := steady.heap q
    constructor
    · exact (congrArg Inode.iOpenCnts last).trans (middle.iOpenCnts.trans (congrArg Inode.iOpenCnts first))
    · exact (congrArg Inode.iNo last).trans (middle.iNo.trans (congrArg Inode.iNo first))
  · exact steady.geometry.trans holds.geometry
  · exact steady.rootDir.trans holds.rootDir
  · rw [← holds.fileTable]
    exact steady.fileTable
  · exact steady.fdTable.trans holds.fdTable
  · exact steady.freedPages.trans holds.freedPages

/-- `file_create` is turned down only by full tables: running out of inodes stops the machine. -/
theorem fileCreate_opens (ready : s.Ready) (holds : s.Holds held t) {parent : Nat} {filename : List Byte}
    (run : fileCreate parent filename flag t = .ok (fd, t')) : s.Opens held flag False t.brk fd t' := by
  have layout := holds.layout ready
  obtain ⟨i, -, ⟨none, result⟩ | ⟨g, u, slot, -, enters, install⟩⟩ := (fileCreate_eq_ok layout).mp run
  · cases result
    exact .full (holds.freeSlot ▸ none)
      (((holds.steady (.setBit .inode i true t)).place _).steady (.setBit .inode i false _))
  · have entered := enters.steady (layout.congr (geometry_newFile t i g flag))
    have stored : u.Steady (((u.storeInode (u.heap parent)).storeInode (u.heap t.brk)).syncBits .inode i) :=
      .of_kernel rfl rfl
    exact ((holds.steady (.setBit .inode i true t)).enterNew (entered.trans stored)).install
      (holds.freeSlot ▸ slot) not_false install

theorem openChecks_holds (ready : s.Ready) {stack : Stack} {found : Option (Word × PathSearchRecord)}
    (run : openChecks stack path flags s = .ok (found, t)) :
    s.Holds (found.elim [] fun f => f.2.parentDir.handles) t := (tracks_holds ready).openChecks (.refl ready) run

theorem Fs.Entered.dirClose (ready : s.Ready) {d : Dir} (entered : s.Entered d.handles flag g p t)
    (run : dirClose d t = .ok ((), t')) : s.Entered [] flag g p t' := by
  cases d with
  | root =>
    cases run
    exact entered
  | opened q =>
    change LaiMiniOs.inodeClose q t = _ at run
    rw [inodeClose_eq] at run
    obtain ⟨-, rfl⟩ := Prod.mk.inj (Except.ok.inj run)
    have closed := (entered.cache.perm (List.Perm.swap q p [])).close ready.sound List.mem_cons_self
    rw [List.erase_cons_head] at closed
    exact ⟨closed, entered.geometry, entered.rootDir, entered.fileTable, entered.fdTable, entered.freedPages⟩

theorem Fs.Opens.dirClose (ready : s.Ready) {d : Dir}
    (opens : s.Opens d.handles flag deny p fd t) (run : dirClose d t = .ok ((), t')) :
    s.Opens [] flag deny p fd t' := by
  cases opens with
  | full none holds => exact .full none (holds.finish ready run)
  | kept slot why entered => exact .kept slot why (entered.dirClose ready run)
  | @given g fd u slot free allowed entered =>
    cases d with
    | root =>
      cases run
      exact .given slot free allowed entered
    | opened q =>
      change LaiMiniOs.inodeClose q (u.setFd fd (some g)) = _ at run
      rw [inodeClose_eq] at run
      obtain ⟨-, rfl⟩ := Prod.mk.inj (Except.ok.inj run)
      have close : LaiMiniOs.dirClose (.opened q) u = .ok ((), u.withKernel (u.toKernel.closed q)) := inodeClose_eq q u
      exact .given slot free allowed (entered.dirClose ready close)

/-- The attempt that `sys_open` makes after its checks, and the handles it still has at its end. -/
theorem openFound_opens (ready : s.Ready) {no : Word} {record : PathSearchRecord}
    (holds : s.Holds record.parentDir.handles t) (run : openFound path flags no record t = .ok (fd, t')) :
    if creates flags then s.Opens [] flags False t.brk fd t'
    else s.Opens record.parentDir.handles flags (t.Denied no flags)
      (t.toKernel.opened no (t.volume.record no.toNat)).1 fd t' := by
  unfold openFound at run
  split
  · next create =>
    rw [if_pos create] at run
    cases name : afterLastSlash path with
    | none =>
      rw [name] at run
      cases run
    | some filename =>
      rw [name] at run
      dsimp only at run
      rw [get_bind] at run
      obtain ⟨fd', t₁, create, run⟩ := bind_eq_ok.mp run
      obtain ⟨_, t₂, close, last⟩ := bind_eq_ok.mp run
      cases last
      exact (fileCreate_opens ready holds create).dirClose ready close
  · next existing =>
    rw [if_neg existing] at run
    exact fileOpen_opens ready holds (few_handles .root _) run

end

structure Kernel.SameCache (k : Kernel) (except : List Nat) (k' : Kernel) : Prop where
  present : ∀ p, p ∉ except → (p ∈ k'.openInodes ↔ p ∈ k.openInodes)
  same : ∀ p ∈ k.openInodes, p ∉ except →
    (k'.heap p).iNo = (k.heap p).iNo ∧ (k'.heap p).iOpenCnts = (k.heap p).iOpenCnts

/-- The cache is the same exactly when the handles left over are among the exceptions. -/
theorem Kernel.Held.sameCache_iff {k' : Kernel} {held except : List Nat} (sound : k.Sound) (holds : k.Held held k') :
    k.SameCache except k' ↔ ∀ p ∈ held, p ∈ except := by
  have present (p : Nat) (missing : p ∉ held) : p ∈ k'.openInodes ↔ p ∈ k.openInodes := by
    have users : k'.users p = k.users p := by rw [holds.users p, List.count_eq_zero_of_not_mem missing, Nat.add_zero]
    constructor
    · intro member
      exact Sound.mem_of_users p (users ▸ (holds.sound.users_pos member).ne')
    · intro member
      exact Sound.mem_of_users p (users ▸ (sound.users_pos member).ne')
  constructor
  · intro cache p mine
    by_contra outside
    have count : 0 < held.count p := List.count_pos_iff.mpr mine
    have users := holds.users p
    have member' : p ∈ k'.openInodes := Sound.mem_of_users p (by omega)
    have member := (cache.present p outside).mp member'
    rw [users_of_mem member', users_of_mem member, (cache.same p member outside).2] at users
    omega
  · intro inside
    have apart (p : Nat) (outside : p ∉ except) : p ∉ held := fun mine => outside (inside p mine)
    refine ⟨fun p outside => present p (apart p outside), fun p member outside => ⟨holds.iNo p member, ?_⟩⟩
    have member' := (present p (apart p outside)).mpr member
    have users := holds.users p
    grind [users_of_mem, BitVec.eq_of_toNat_eq]

inductive PathCall where
  | open (flags : Word)
  | unlink
  | mkdir
  | rmdir
  | opendir
  | chdir
  | stat

def Kernel.behindFd (k : Kernel) (fd : Int) : List Nat :=
  if fd < 0 then [] else ((k.fdTable fd.toNat).bind fun g => (k.fileTable g).fdInode).toList

def PathCall.run (stack : Stack) (path : List Byte) : PathCall → FsM (List Nat)
  | .open flags => do
    let fd ← sysOpen stack path flags
    return (← get).behindFd fd
  | .unlink => do
    let _ ← sysUnlink stack path
    return []
  | .mkdir => do
    let _ ← sysMkdir stack path
    return []
  | .rmdir => do
    let _ ← sysRmdir stack path
    return []
  | .opendir => do
    let dir ← sysOpendir stack path
    return dir.elim [] Dir.handles
  | .chdir => do
    let _ ← sysChdir stack path
    return []
  | .stat => do
    let _ ← sysStat stack path
    return []

/-- What `sys_open` needs after its checks to give back what it does not return. -/
def Fs.OpenGivesBack (s : Fs) (flags inodeNo : Word) (record : PathSearchRecord) : Prop :=
  if creates flags then s.toKernel.freeSlot ≠ none → s.toKernel.freeFd ≠ none
  else if s.toKernel.freeSlot = none then record.parentDir = .root
  else s.toKernel.freeFd ≠ none ∧ ¬ s.Denied inodeNo flags ∧
    (record.parentDir = .root ∨ ∃ q, record.parentDir = .opened q ∧ s.toKernel.cached inodeNo = some q)

def PathCall.GivesBack (stack : Stack) (path : List Byte) (s : Fs) : PathCall → Prop
  | .open flags => ∀ no record t, openChecks stack path flags s = .ok (some (no, record), t) →
      t.OpenGivesBack flags no record
  | _ => True

/-- The same by what the path names: an existing file is in the root directory. -/
def PathCall.GivesBackNamed (stack : Stack) (path : List Byte) (s : Fs) : PathCall → Prop
  | .open flags => s.Passes stack path flags →
    if creates flags then s.toKernel.freeSlot ≠ none → s.toKernel.freeFd ≠ none
    else (components path).length = 1 ∧
      (s.toKernel.freeSlot ≠ none → s.toKernel.freeFd ≠ none ∧ ¬ s.Denied (s.found stack path).no flags)
  | _ => True

theorem Fs.Holds.opened_eq_iff {s t : Fs} {q : Nat} (holds : s.Holds [q] t) (n : Word) (record : Inode) :
    q = (t.toKernel.opened n record).1 ↔ t.toKernel.cached n = some q := by
  have member : q ∈ t.openInodes := by grind [Kernel.Sound.mem_of_users, holds.cache.users]
  unfold Kernel.opened
  cases t.toKernel.cached n with
  | none =>
    have low := holds.cache.sound.fresh q member
    grind
  | some p => exact ⟨fun same => congrArg some same.symm, fun same => (Option.some.inj same).symm⟩

section
variable {s t t' : Fs} (ready : s.Ready)
include ready

theorem Fs.Opens.sameCache_iff {held : List Nat} (opens : s.Opens held flag deny p fd t) :
    s.toKernel.SameCache (t.toKernel.behindFd fd) t.toKernel ↔
      if s.toKernel.freeSlot = none then held = []
      else s.toKernel.freeFd ≠ none ∧ ¬ deny ∧ ∀ q ∈ held, q = p := by
  cases opens with
  | full none holds =>
    have behind : t.toKernel.behindFd (-1) = [] := rfl
    rw [behind, holds.cache.sameCache_iff ready.sound, if_pos none]
    constructor
    · intro inside
      exact List.eq_nil_iff_forall_not_mem.mpr fun q member => absurd (inside q member) List.not_mem_nil
    · rintro rfl q member
      exact member
  | kept slot why entered =>
    have behind : t.toKernel.behindFd (-1) = [] := rfl
    grind [entered.cache.sameCache_iff, ready.sound, List.mem_cons_self]
  | @given g d u slot free allowed entered =>
    have behind : (u.setFd d (some g)).toKernel.behindFd d = [p] := by
      have fdTable : (u.setFd d (some g)).fdTable d = some g := update_self _ _ _
      have fileTable : ((u.setFd d (some g)).fileTable g).fdInode = some p := by
        change (u.fileTable g).fdInode = some p
        rw [entered.fileTable, update_self]
      unfold Kernel.behindFd
      rw [if_neg (Int.not_lt.mpr (Int.natCast_nonneg d)), Int.toNat_natCast, fdTable, Option.bind_some, fileTable]
      rfl
    have cache : s.toKernel.Held (p :: held) (u.setFd d (some g)).toKernel :=
      entered.cache.congr (Nat.le_refl _) rfl fun _ _ => ⟨rfl, rfl⟩
    grind [cache.sameCache_iff, ready.sound]

theorem openFound_sameCache_iff {no : Word} {record : PathSearchRecord}
    (holds : s.Holds record.parentDir.handles t) (run : openFound path flags no record t = .ok (fd, t')) :
    s.toKernel.SameCache (t'.toKernel.behindFd fd) t'.toKernel ↔ t.OpenGivesBack flags no record := by
  have opens := openFound_opens ready holds run
  have fds : t.toKernel.freeFd = s.toKernel.freeFd := by
    unfold Kernel.freeFd
    rw [holds.fdTable]
  unfold Fs.OpenGivesBack
  rw [holds.freeSlot, fds]
  split at opens
  · grind [opens.sameCache_iff]
  · next existing =>
    rw [opens.sameCache_iff ready, if_neg existing]
    split
    · cases record.parentDir with
      | root => exact ⟨fun _ => rfl, fun _ => rfl⟩
      | opened q => exact ⟨(nomatch ·), (nomatch ·)⟩
    · refine and_congr_right fun _ => and_congr_right fun _ => ?_
      cases parent : record.parentDir with
      | root => exact ⟨fun _ => .inl rfl, fun _ q member => nomatch member⟩
      | opened q =>
        rw [parent] at holds
        have same := holds.opened_eq_iff no (t.volume.record no.toNat)
        constructor
        · intro all
          exact .inr ⟨q, rfl, same.mp (all q List.mem_cons_self)⟩
        · rintro (root | ⟨q', here, cached⟩) r member
          · cases root
          · cases here
            obtain rfl := List.mem_singleton.mp member
            exact same.mpr cached

theorem sysOpen_sameCache_iff {stack : Stack}
    (run : sysOpen stack path flags s = .ok (fd, t')) :
    s.toKernel.SameCache (t'.toKernel.behindFd fd) t'.toKernel ↔ (PathCall.open flags).GivesBack stack path s := by
  obtain ⟨found, t, checks, run⟩ := bind_eq_ok.mp run
  have holds := openChecks_holds ready checks
  cases found with
  | none =>
    cases run
    constructor
    · intro _ no record u passed
      rw [checks] at passed
      cases passed
    · intro _
      exact (holds.cache.sameCache_iff ready.sound).mpr fun p member => nomatch member
  | some found =>
    obtain ⟨no, record⟩ := found
    rw [openFound_sameCache_iff ready holds run]
    constructor
    · intro gives no' record' t₁ passed
      rw [checks] at passed
      cases passed
      exact gives
    · intro gives
      exact gives no record t checks

omit ready in
theorem Fs.At.denied_iff {d no : Word} {h : Dir} {u : Fs} (at_ : s.At d h u) (tree : s.Tree) (dir : s.IsDir d)
    (flags : Word) :
    u.Denied no flags ↔ s.Denied no flags := by
  obtain ⟨cnts, seen⟩ := at_.seen tree dir no
  unfold Fs.Denied
  rw [seen]
  exact Iff.rfl

theorem Fs.Tree.givesBack_iff (tree : s.Tree) {stack : Stack} {path : List Byte} (isPath : IsPath path) {flags : Word}
    {fd : Int}
    (run : sysOpen stack path flags s = .ok (fd, t')) :
    (PathCall.open flags).GivesBack stack path s ↔ (PathCall.open flags).GivesBackNamed stack path s := by
  obtain ⟨found, t, checks, -⟩ := bind_eq_ok.mp run
  have holds := openChecks_holds ready checks
  unfold PathCall.GivesBack PathCall.GivesBackNamed
  dsimp only
  rw [checks]
  by_cases known : flags.toNat ≤ 7
  · obtain ⟨found', u, checks', dropped, went⟩ := tree.openChecks_eq isPath stack known
    cases checks.symm.trans checks'
    by_cases passes : s.Passes stack path flags
    · obtain ⟨searched, h, rfl, at_, root⟩ := went passes
      have dir : s.IsDir (s.found stack path).dirNo := Fs.Tree.isDir_walk _ .start .start
      have fds : t.toKernel.freeFd = s.toKernel.freeFd := by
        unfold Kernel.freeFd
        rw [holds.fdTable]
      -- The directory that is left open is not the file that is opened.
      have apart (q : Nat) (handle : h = .opened q) (existing : creates flags = false) :
          t.toKernel.cached (s.found stack path).no ≠ some q := by
        rintro cached
        obtain ⟨k, rfl, cnts, heap⟩ := at_.heap tree
        have own : ((s.withKernel k).heap q).iNo = (s.found stack path).no := (Kernel.cached_mem cached).2
        subst handle
        change k.heap q = _ at heap
        change (k.heap q).iNo = _ at own
        rw [heap] at own
        have there : (s.found stack path).no ≠ -1 := fun missing =>
          Bool.noConfusion (existing.symm.trans (passes.2.2.2.2.mp missing))
        exact tree.walk_apart _ .start passes.2.2.1 there (own.symm.trans (tree.number _ dir))
      have gives : t.OpenGivesBack flags (s.found stack path).no ⟨searched, h, (s.found stack path).kind⟩ ↔
          if creates flags then s.toKernel.freeSlot ≠ none → s.toKernel.freeFd ≠ none
          else (components path).length = 1 ∧
            (s.toKernel.freeSlot ≠ none → s.toKernel.freeFd ≠ none ∧ ¬ s.Denied (s.found stack path).no flags) := by
        unfold Fs.OpenGivesBack
        rw [holds.freeSlot, fds, at_.denied_iff tree dir, ← root]
        grind
      rw [imp_iff_right passes, ← gives]
      exact ⟨fun all => all _ _ _ rfl, fun one no record u same => by cases same; exact one⟩
    · obtain rfl := dropped passes
      exact iff_of_true (fun no record u same => nomatch same) fun other => absurd other passes
  · -- Other flags come to the assertion, unless the path ends in a slash.
    obtain ⟨-, rest⟩ := require_bind_eq_ok.mp checks
    split at rest
    · next slash =>
      cases rest
      exact iff_of_true (fun no record u same => nomatch same) fun passes => absurd slash passes.1
    · exact absurd (require_bind_eq_ok.mp rest).1 known

theorem Fs.Holds.sameCache {held : List Nat} (holds : s.Holds held t) : s.toKernel.SameCache held t.toKernel :=
  (holds.cache.sameCache_iff ready.sound).mpr fun _ member => member

/-- The calls on paths leave the cache as it was, up to the handle that they return, exactly when
`sys_open` does not open an existing file in a subdirectory and does not fail halfway. -/
theorem pathCall_keeps_cache_iff {stack : Stack} {path : List Byte} {call : PathCall} {handle : List Nat}
    (run : call.run stack path s = .ok (handle, t')) :
    (s.toKernel.SameCache handle t'.toKernel ↔ call.GivesBack stack path s) ∧
      (s.Tree → IsPath path → (call.GivesBack stack path s ↔ call.GivesBackNamed stack path s)) := by
  cases call with
  | «open» flags =>
    obtain ⟨fd, t, open_, last⟩ := bind_eq_ok.mp run
    cases last
    exact ⟨sysOpen_sameCache_iff ready open_, fun tree isPath => tree.givesBack_iff ready isPath open_⟩
  | opendir =>
    obtain ⟨dir, t, open_, last⟩ := bind_eq_ok.mp run
    cases last
    exact ⟨iff_of_true ((sysOpendir_holds ready open_).sameCache ready) trivial, fun _ _ => Iff.rfl⟩
  | unlink =>
    obtain ⟨_, t, call, last⟩ := bind_eq_ok.mp run
    cases last
    exact ⟨iff_of_true ((sysUnlink_holds ready call).sameCache ready) trivial, fun _ _ => Iff.rfl⟩
  | mkdir =>
    obtain ⟨_, t, call, last⟩ := bind_eq_ok.mp run
    cases last
    exact ⟨iff_of_true ((sysMkdir_holds ready call).sameCache ready) trivial, fun _ _ => Iff.rfl⟩
  | rmdir =>
    obtain ⟨_, t, call, last⟩ := bind_eq_ok.mp run
    cases last
    exact ⟨iff_of_true ((sysRmdir_holds ready call).sameCache ready) trivial, fun _ _ => Iff.rfl⟩
  | chdir =>
    obtain ⟨_, t, call, last⟩ := bind_eq_ok.mp run
    cases last
    exact ⟨iff_of_true ((sysChdir_holds ready call).sameCache ready) trivial, fun _ _ => Iff.rfl⟩
  | stat =>
    obtain ⟨_, t, call, last⟩ := bind_eq_ok.mp run
    cases last
    exact ⟨iff_of_true ((sysStat_holds ready call).sameCache ready) trivial, fun _ _ => Iff.rfl⟩

end

theorem smallTree_ready : smallTree.Ready where
  layout := layout_smallPartition.congr rfl
  sound := smallTree_sound
  roomy := by
    intro p
    by_cases here : p = 0
    · subst here
      decide
    · rw [Kernel.users_of_notMem fun member => here (List.mem_singleton.mp member)]
      decide

theorem pathCall_keeps_cache_mkdir : smallTree.Ready ∧ ∃ t', PathCall.mkdir.run ⟨0, 0, 0⟩ [0x2f, 0x63] smallTree =
    .ok ([], t') ∧
    smallTree.toKernel.SameCache [] t'.toKernel := by
  have passed : (PathCall.mkdir.run ⟨0, 0, 0⟩ [0x2f, 0x63]).yields smallTree (fun handle _ => handle == []) = true := by
    decide +kernel
  obtain ⟨handle, t', run, check⟩ := exists_of_yields passed
  obtain rfl := eq_of_beq check
  exact ⟨smallTree_ready, t', run, (pathCall_keeps_cache_iff smallTree_ready run).1.mpr trivial⟩

/-- Opening `/a/g` leaves the inode of `/a` in the cache. -/
theorem sysOpen_leaks_directory : smallTree.Ready ∧
    ∃ handle t', (PathCall.open 0).run ⟨0, 0, 0⟩ [0x2f, 0x61, 0x2f, 0x67] smallTree = .ok (handle, t') ∧
    ¬ smallTree.toKernel.SameCache handle t'.toKernel := by
  have passed : ((PathCall.open 0).run ⟨0, 0, 0⟩ [0x2f, 0x61, 0x2f, 0x67]).yields smallTree
      (fun handle t => handle == [2] && t.openInodes == [2, 1, 0]) = true := by
    decide +kernel
  obtain ⟨handle, t', run, check⟩ := exists_of_yields passed
  obtain ⟨handle_eq, list⟩ := Bool.and_eq_true_iff.mp check
  obtain rfl := eq_of_beq handle_eq
  refine ⟨smallTree_ready, [2], t', run, fun cache => ?_⟩
  have member : 1 ∈ t'.openInodes := by
    rw [eq_of_beq list]
    decide
  exact absurd ((cache.present 1 (by decide)).mp member) (by decide)

end LaiMiniOs
