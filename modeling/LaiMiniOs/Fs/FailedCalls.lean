import LaiMiniOs.Fs.OpenChecks
import LaiMiniOs.Fs.OpenUsers

/-! What a call of `sys_open` or `sys_mkdir` that returns -1 has changed.

The searches open directories and close them again. A creation that finds no free slot takes its
inode number back, and `sys_mkdir` fails only before it has taken anything. But `file_open` does not
give back the slot and the inode when the file has a writer or when the process has no descriptor
left, and without a free slot the directory that the search has left open stays open.
-/

set_option autoImplicit false

namespace LaiMiniOs
open Foundation Prog

structure Fs.Unchanged (s t : Fs) : Prop where
  fileTable : t.fileTable = s.fileTable
  fdTable : t.fdTable = s.fdTable
  openInodes : t.openInodes = s.openInodes
  heap : ∀ p ∈ s.openInodes, t.heap p = s.heap p
  part : t.part = s.part
  disk : t.disk = s.disk

structure Fs.Only (s : Fs) (held : List Nat) (t : Fs) : Prop where
  holds : s.Holds held t
  heap : ∀ p ∈ s.openInodes, (t.heap p).uncounted = (s.heap p).uncounted
  part : t.part = s.part
  disk : t.disk = s.disk

section
variable {s t t' u : Fs} {held : List Nat}

theorem Fs.Only.refl (ready : s.Ready) : s.Only [] s := ⟨.refl ready, fun _ _ => rfl, rfl, rfl⟩

theorem tracks_only (ready : s.Ready) : Tracks s.Only where
  opens := by
    intro held t t' n p only few run
    have holds := only.holds.inodeOpen ready few run
    obtain ⟨-, result⟩ := (inodeOpen_eq_ok (only.holds.layout ready)).mp run
    obtain ⟨rfl, rfl⟩ := Prod.mk.inj result
    refine ⟨holds, fun q old => ?_, only.part, only.disk⟩
    rw [← only.heap q old]
    exact t.toKernel.uncounted_opened n _ (Nat.lt_of_lt_of_le (ready.sound.fresh q old) only.holds.cache.brk)
  closes := by
    intro held t t' p only run
    have holds := only.holds.inodeClose ready List.mem_cons_self run
    rw [List.erase_cons_head] at holds
    rw [inodeClose_eq] at run
    obtain ⟨-, rfl⟩ := Prod.mk.inj (Except.ok.inj run)
    refine ⟨holds, fun q old => ?_, only.part, only.disk⟩
    rw [← only.heap q old]
    exact t.toKernel.uncounted_closed p q

theorem Fs.Only.unchanged (ready : s.Ready) (only : s.Only [] t) : s.Unchanged t := by
  have cache : s.toKernel.SameCache [] t.toKernel := (only.holds.cache.sameCache_iff ready.sound).mpr fun p none =>
    absurd none List.not_mem_nil
  obtain ⟨new, list, fresh⟩ := only.holds.cache.list
  have none : new = [] := by
    refine List.eq_nil_iff_forall_not_mem.mpr fun p member => ?_
    have member' : p ∈ t.toKernel.openInodes := list ▸ List.mem_append_left _ member
    have old := (cache.present p List.not_mem_nil).mp member'
    exact absurd (ready.sound.fresh p old) (Nat.not_lt.mpr (fresh p member))
  refine ⟨only.holds.fileTable, only.holds.fdTable,
    by rw [list, none, List.nil_append], fun p old => ?_, only.part, only.disk⟩
  exact Inode.eq_of_uncounted (only.heap p old) (cache.same p old List.not_mem_nil).2

theorem Fs.Unchanged.sameCache (unchanged : s.Unchanged t) : s.toKernel.SameCache [] t.toKernel :=
  ⟨fun p _ => by rw [unchanged.openInodes], fun p member _ => by rw [unchanged.heap p member]; exact ⟨rfl, rfl⟩⟩

theorem Fs.Entered.changed {flag : Word} {g p : Nat} (entered : s.Entered held flag g p t)
    (slot : s.toKernel.freeSlot = some g) : t.fileTable ≠ s.fileTable := by
  intro same
  have free : (s.fileTable g).fdInode = none := (freeSlot_some slot).2.2
  rw [← same, entered.fileTable, Function.update_self] at free
  cases free

theorem Fs.Only.newNode (ready : s.Ready) (only : s.Only held t) {i : Nat} (clear : t.volume.bit .inode i = false) :
    s.Only held ((t.newNode i).setBit .inode i false) := by
  refine ⟨((only.holds.steady (.setBit .inode i true t)).place _).steady (.setBit .inode i false _), fun q old =>
    ?_, ?_, only.disk⟩
  · rw [← only.heap q old]
    have other : q ≠ t.brk := by
      have below : q < s.brk := ready.sound.fresh q old
      have above : s.brk ≤ t.brk := only.holds.cache.brk
      omega
    exact congrArg Inode.uncounted (t.toKernel.heap_setInode_of_ne _ other)
  · rw [← only.part]
    exact congrArg (t.part.setBitmap .inode) (Bitmap.set_back clear)

theorem Fs.Opens.unchanged_iff {flag : Word} {deny : Prop} {p : Nat} {fd : Int}
    (opens : s.Opens held flag deny p fd t) (some : s.toKernel.freeSlot ≠ none) :
    (fd = -1 → s.Unchanged t) ↔ s.toKernel.freeFd ≠ none ∧ ¬deny := by
  cases opens with
  | full none => exact absurd none some
  | kept slot why entered =>
    refine iff_of_false (fun undone => entered.changed slot (undone rfl).fileTable) fun both => ?_
    exact why.elim both.1 both.2
  | given slot free allowed entered =>
    grind

theorem openFound_unchanged_iff (ready : s.Ready) {path : List Byte} {flags no : Word} {record : PathSearchRecord}
    {fd : Int}
    (only : s.Only record.parentDir.handles u) (run : openFound path flags no record u = .ok (fd, t)) :
    (fd = -1 → s.Unchanged t) ↔ if s.toKernel.freeSlot = none then creates flags = true ∨ record.parentDir.handles = []
      else s.toKernel.freeFd ≠ none ∧ (creates flags = true ∨ ¬u.Denied no flags) := by
  have opens := openFound_opens ready only.holds run
  split
  · next full =>
    have none : u.toKernel.freeSlot = none := by rw [only.holds.freeSlot, full]
    unfold openFound at run
    split at run
    · next create =>
      refine iff_of_true (fun _ => ?_) (.inl create)
      split at run
      · cases run
      · rw [get_bind] at run
        obtain ⟨fd', u₁, made, run⟩ := bind_eq_ok.mp run
        obtain ⟨_, u₂, close, last⟩ := bind_eq_ok.mp run
        cases last
        obtain ⟨i, lowest, ⟨-, result⟩ | ⟨g, _, slot, -⟩⟩ := (fileCreate_eq_ok (only.holds.layout ready)).mp made
        · obtain ⟨rfl, rfl⟩ := Prod.mk.inj result
          exact ((tracks_only ready).finish (only.newNode ready lowest.free) close).unchanged ready
        · rw [none] at slot
          cases slot
    · next open_ =>
      rw [fileOpen, bind_of_ok (getFreeSlotInGlobal_eq u), none] at run
      cases run
      simp only [open_, Bool.false_eq_true, false_or, true_imp_iff]
      constructor
      · intro unchanged
        have inside := (only.holds.cache.sameCache_iff ready.sound).mp unchanged.sameCache
        exact List.eq_nil_iff_forall_not_mem.mpr fun p mine => List.not_mem_nil (inside p mine)
      · intro root
        rw [root] at only
        exact only.unchanged ready
  · next some =>
    split at opens
    · next create =>
      rw [opens.unchanged_iff some]
      simp [create]
    · next open_ =>
      rw [opens.unchanged_iff some]
      simp [open_]

theorem fileOpen_returns (layout : Layout s.part) {n : Word} (small : n.toNat < 4096) (flag : Word) :
    ∃ r, fileOpen n flag s = .ok r := by
  have install (g : Nat) (u : Fs) : ∃ r, pcbFdInstall g u = .ok r := by
    cases free : u.toKernel.freeFd with
    | none => exact ⟨_, pcbFdInstall_none free g⟩
    | some d => exact ⟨_, pcbFdInstall_some free g⟩
  rw [fileOpen, bind_of_ok (getFreeSlotInGlobal_eq s)]
  cases s.toKernel.freeSlot with
  | none => exact ⟨_, rfl⟩
  | some g =>
    dsimp only
    rw [bind_of_ok ((inodeOpen_eq_ok layout).mpr ⟨fun _ => small, rfl⟩), modify_bind]
    split
    · rw [get_bind]
      split
      · rw [set_bind]
        exact install g _
      · exact ⟨_, rfl⟩
    · exact install g _

/-- There are an inode and the blocks for a new name in the directory `d`, besides `spare` blocks. -/
def Fs.HasRoom (s : Fs) (d : Word) (spare : Nat) : Prop :=
  (∃ i < s.part.bitCount .inode, s.volume.bit .inode i = false) ∧ (s.inodeOf d).iSize.toNat % 24 = 0 ∧
    s.volume.entryBlocks (s.inodeOf d) + spare ≤ s.free.card

/-- A `sys_open` that has passed its checks succeeds, or leaves no trace. -/
def Fs.OpensCleanly (s : Fs) (stack : Stack) (path : List Byte) (flags : Word) : Prop :=
  if s.toKernel.freeSlot = none then
    if creates flags then ∃ i < s.part.bitCount .inode, s.volume.bit .inode i = false else (components path).length = 1
  else s.toKernel.freeFd ≠ none ∧
    if creates flags then s.HasRoom (s.found stack path).dirNo 0 else ¬s.Denied (s.found stack path).no flags

section
variable (tree : s.Tree) {stack : Stack} {path : List Byte}
include tree

theorem Fs.At.dir {d : Word} {h : Dir} (at_ : s.At d h t) (dir : s.IsDir d) : t.DirOk (t.heap (h.inode t)) ∧
    (t.heap (h.inode t)).iSize = (s.inodeOf d).iSize ∧
    t.volume.entryBlocks (t.heap (h.inode t)) = s.volume.entryBlocks (s.inodeOf d) := by
  obtain ⟨k, rfl, cnts, heap⟩ := at_.heap tree
  have here : (s.withKernel k).heap (h.inode (s.withKernel k)) = { s.inodeOf d with iOpenCnts := cnts } := heap
  rw [here]
  refine ⟨(tree.dirOk d dir).withKernel k fun _ => rfl, rfl, Volume.entryBlocks_congr (fun _ _ => rfl) fun i j _ => ?_⟩
  exact Volume.slot_congr (Volume.pointer_congr (fun _ => rfl) (fun _ => rfl) i) (fun _ => rfl) j

theorem Fs.Tree.found_small (file : (s.found stack path).kind ≠ .directory) (there : (s.found stack path).no ≠ -1) :
    (s.found stack path).no.toNat < 4096 := by
  by_cases clear : Clear s.look (.node 0) (components path)
  · have same := Fs.Tree.walk_of_clear 0 stack.entryNo .start clear fun none =>
      absurd (by rw [Fs.found, none]; rfl) file
    change answer _ = ((s.found stack path).no, (s.found stack path).kind) at same
    obtain ⟨number, kind⟩ := Prod.mk.inj same
    cases object : resolve s.look (.node 0) (components path) with
    | none =>
      rw [object] at number
      exact absurd number.symm there
    | some item =>
      have small := tree.resolve_small object
      rw [object] at number kind
      cases item with
      | node n => exact absurd kind.symm file
      | leaf n => rw [← number]; exact small
  · exact (tree.walk_of_not_clear 0 stack.entryNo .start clear).2.1

theorem openFound_returns_iff {flags : Word} {h : Dir} (searched : List Byte) (isPath : IsPath path)
    (passes : s.Passes stack path flags)
    (at_ : s.At (s.found stack path).dirNo h t) (slots : t.toKernel.freeSlot = s.toKernel.freeSlot) :
    (∃ r, openFound path flags (s.found stack path).no ⟨searched, h, (s.found stack path).kind⟩ t = .ok r) ↔
      (creates flags = true → (∃ i < s.part.bitCount .inode, s.volume.bit .inode i = false) ∧
        (s.toKernel.freeSlot = none ∨ s.HasRoom (s.found stack path).dirNo 0)) := by
  obtain ⟨ok, size, blocks⟩ := at_.dir tree (Fs.Tree.isDir_walk _ .start .start)
  have old := at_.old tree
  obtain ⟨k, rfl, -⟩ := at_.heap tree
  by_cases create : creates flags = true
  · obtain ⟨name, behind, member⟩ := isPath.filename passes.1
    have short := Nat.le_of_lt (isPath.names name member)
    have returns := fileCreate_returns_iff (s := s.withKernel k) tree.layout ok.owns ok.onDisk flags old short
    rw [exists_lowestFree_iff, slots, size, blocks] at returns
    rw [openFound, if_pos create, behind, imp_iff_right create]
    dsimp only
    rw [get_bind]
    constructor
    · rintro ⟨r, run⟩
      obtain ⟨fd, u, made, -⟩ := bind_eq_ok.mp run
      obtain ⟨inode, space⟩ := returns.mp ⟨_, made⟩
      exact ⟨inode, space.imp_right fun space => ⟨inode, space⟩⟩
    · rintro ⟨inode, space⟩
      obtain ⟨⟨fd, u⟩, made⟩ := returns.mpr ⟨inode, space.imp_right fun space => space.2⟩
      rw [bind_of_ok made]
      cases h <;> exact ⟨_, rfl⟩
  · rw [openFound, if_neg create]
    have there : (s.found stack path).no ≠ -1 := fun missing => create (passes.2.2.2.2.mp missing)
    exact iff_of_true (fileOpen_returns (s := s.withKernel k) tree.layout (tree.found_small passes.2.2.1 there) flags)
      (absurd · create)

theorem sysOpen_cleanly_iff {flags : Word} (roomy : s.toKernel.Roomy) (isPath : IsPath path) (known : flags.toNat ≤ 7) :
    (∃ fd t, sysOpen stack path flags s = .ok (fd, t) ∧ (fd = -1 → s.Unchanged t)) ↔
      (s.Passes stack path flags → s.OpensCleanly stack path flags) := by
  have ready : s.Ready := ⟨tree.layout, tree.sound, roomy⟩
  obtain ⟨found, u, checks, dropped, went⟩ := tree.openChecks_eq isPath stack known
  have only := (tracks_only ready).openChecks (.refl ready) checks
  rw [sysOpen, bind_of_ok checks]
  by_cases passes : s.Passes stack path flags
  · obtain ⟨searched, h, rfl, at_, root⟩ := went passes
    have handles : h.handles = [] ↔ (components path).length = 1 := by
      rw [← root]
      cases h <;> simp [Dir.handles]
    have denied : u.Denied (s.found stack path).no flags ↔ s.Denied (s.found stack path).no flags :=
      at_.denied_iff tree (Fs.Tree.isDir_walk _ .start .start) flags
    have returns := openFound_returns_iff tree searched isPath passes at_ only.holds.freeSlot
    have undone {fd : Int} {t : Fs}
        (run : openFound path flags (s.found stack path).no ⟨searched, h, (s.found stack path).kind⟩ u = .ok (fd, t)) :=
      openFound_unchanged_iff ready only run
    simp only [handles, denied] at undone
    rw [imp_iff_right passes, Fs.OpensCleanly]
    constructor
    · rintro ⟨fd, t, run, unchanged⟩
      have room := returns.mp ⟨_, run⟩
      have clean := (undone run).mp unchanged
      grind
    · intro clean
      obtain ⟨⟨fd, t⟩, run⟩ := returns.mpr (by grind [Fs.HasRoom])
      exact ⟨fd, t, run, (undone run).mpr (by grind)⟩
  · obtain rfl := dropped passes
    exact iff_of_true ⟨-1, u, rfl, fun _ => only.unchanged ready⟩ (absurd · passes)

theorem sysMkdir_returns_iff (first : s.volume.bit .block 0 = true) (isPath : IsPath path)
    (named : components path = [] → isRootPath path = true ∨ stack.entryNo ≠ -1) :
    (∃ r t, sysMkdir stack path s = .ok (r, t)) ↔ (s.Missing stack path → s.HasRoom (s.found stack path).dirNo 1) := by
  obtain ⟨refused, went⟩ := tree.sysMkdir_eq isPath stack named
  by_cases missing : s.Missing stack path
  · obtain ⟨name, h, u, short, at_, same⟩ := went missing
    obtain ⟨ok, size, blocks⟩ := at_.dir tree (Fs.Tree.isDir_walk _ .start .start)
    obtain ⟨k, rfl, -⟩ := at_.heap tree
    have returns := makeDir_returns_iff (s := s.withKernel k) tree.layout ok.owns ok.onDisk first (Nat.le_of_lt short)
    rw [exists_lowestFree_iff, size, blocks] at returns
    rw [same, imp_iff_right missing]
    refine Iff.trans ?_ returns
    exact ⟨fun ⟨r, t, run⟩ => ⟨(r, t), run⟩, fun ⟨(r, t), run⟩ => ⟨r, t, run⟩⟩
  · obtain ⟨t, run⟩ := refused missing
    exact iff_of_true ⟨-1, t, run⟩ (absurd · missing)

end

theorem sysMkdir_unchanged (ready : s.Ready) {stack : Stack} {path : List Byte} {r : Int}
    (run : sysMkdir stack path s = .ok (r, t)) :
    r = -1 → s.Unchanged t := by
  intro failed
  obtain ⟨⟨no, record⟩, s₁, search, run⟩ := bind_eq_ok.mp run
  have only := (tracks_only ready).searchFile (.refl ready) search
  dsimp only at run
  have drop {u : Fs} (only : s.Only record.parentDir.handles u) (run : refuse record u = .ok (r, t)) : s.Unchanged t :=
    ((tracks_only ready).refuse only run).2.unchanged ready
  split at run
  · exact drop only run
  · obtain ⟨_, s₂, count, run⟩ := bind_eq_ok.mp run
    obtain rfl := eq_of_keeps (pathDepthCnt_keeps _ _) count
    obtain ⟨_, s₃, count', run⟩ := bind_eq_ok.mp run
    obtain rfl := eq_of_keeps (pathDepthCnt_keeps _ _) count'
    split at run
    · exact drop only run
    · -- After its search the call does not return -1: it stops when an inode or a block is missing.
      split at run
      · cases run
      · obtain ⟨i, b, -, -, -, -, -, u, t', -, -, result⟩ := (makeDir_eq_ok (only.holds.layout ready)).mp run
        cases result
        cases failed

end

/-- A call returns, and returns -1 only with everything as it was, exactly when after its checks there
is what it needs: an inode and blocks for a new name, and, for `sys_open`, free places in both tables and no
other writer, or no free slot at all where this leaves no directory open. -/
theorem failed_calls_iff {s : Fs} (tree : s.Tree) (roomy : s.toKernel.Roomy) (first : s.volume.bit .block 0 = true)
    {path : List Byte} (isPath : IsPath path) {stack : Stack}
    (named : components path = [] → isRootPath path = true ∨ stack.entryNo ≠ -1) {flags : Word}
    (known : flags.toNat ≤ 7) :
    ((∃ fd t, sysOpen stack path flags s = .ok (fd, t) ∧ (fd = -1 → s.Unchanged t)) ↔
      (s.Passes stack path flags → s.OpensCleanly stack path flags)) ∧
    ((∃ r t, sysMkdir stack path s = .ok (r, t) ∧ (r = -1 → s.Unchanged t)) ↔
      (s.Missing stack path → s.HasRoom (s.found stack path).dirNo 1)) := by
  refine ⟨sysOpen_cleanly_iff tree roomy isPath known, ?_⟩
  rw [← sysMkdir_returns_iff tree first isPath named]
  constructor
  · rintro ⟨r, t, run, -⟩
    exact ⟨r, t, run⟩
  · rintro ⟨r, t, run⟩
    exact ⟨r, t, run, sysMkdir_unchanged ⟨tree.layout, tree.sound, roomy⟩ run⟩

theorem failed_calls_existing :
    (∃ t, sysOpen ⟨0, 0, 0⟩ [0x2f, 0x66] 6 smallTree = .ok (-1, t) ∧ smallTree.Unchanged t) ∧
    ∃ t, sysMkdir ⟨0, 0, 0⟩ [0x2f, 0x66] smallTree = .ok (-1, t) ∧ smallTree.Unchanged t := by
  have isPath : IsPath [0x2f, 0x66] := ⟨rfl, by decide, by decide, by decide⟩
  have member : smallTree.volume.HasEntry (smallTree.inodeOf 0) (.make [0x66] 2 .regular) :=
    ((smallTree_listsIn 0 (by decide)).hasEntry _).mpr (by decide +kernel)
  have here : smallTree.find 0 [0x66] = some (.make [0x66] 2 .regular) :=
    (smallTree_tree.dirOk 0 .start).find_eq_some.mpr ⟨member, by decide +kernel⟩
  have found : (smallTree.found ⟨0, 0, 0⟩ [0x2f, 0x66]).no = 2 := by
    have names : components [0x2f, 0x66] = [[0x66]] := by decide
    rw [Fs.found, names, Fs.walk_file here (by decide)]
    rfl
  obtain ⟨opens, makes⟩ := @failed_calls_iff smallTree smallTree_tree smallTree_ready.roomy (by decide +kernel) _ isPath
    ⟨0, 0, 0⟩ (by decide) 6 (by decide)
  obtain ⟨fd, t, run, unchanged⟩ :=
    opens.mpr fun passes => absurd (passes.2.2.2.2.mpr (by decide)) (by rw [found]; decide)
  obtain ⟨r, t', run', unchanged'⟩ := makes.mpr fun missing => absurd missing.2.1 (by rw [found]; decide)
  have open_ : sysOpen ⟨0, 0, 0⟩ [0x2f, 0x66] 6 smallTree = .ok (-1, _) := run_final_of (by decide +kernel)
  have mkdir : sysMkdir ⟨0, 0, 0⟩ [0x2f, 0x66] smallTree = .ok (-1, _) := run_final_of (by decide +kernel)
  cases open_.symm.trans run
  cases mkdir.symm.trans run'
  exact ⟨⟨_, run, unchanged rfl⟩, _, run', unchanged' rfl⟩

/-- A second writer is turned down and keeps a slot; without a free inode `sys_mkdir` does not return. -/
theorem failed_calls_change : (∃ s t, sysOpen ⟨0, 0, 0⟩ [0x2f, 0x66] 2 smallTree = .ok (3, s) ∧
    sysOpen ⟨0, 0, 0⟩ [0x2f, 0x66] 2 s = .ok (-1, t) ∧
      (s.fileTable 4).fdInode = none ∧ (t.fileTable 4).fdInode ≠ none) ∧
    sysMkdir ⟨0, 0, 0⟩ [0x2f, 0x63] { smallTree with
      part := { smallTree.part with inodeBitmap := ⟨512, fun _ => 0xff⟩ } } = .error .assertion := by
  obtain ⟨s, first, second⟩ : ∃ s, sysOpen ⟨0, 0, 0⟩ [0x2f, 0x66] 2 smallTree = .ok (3, s) ∧
      ((s.fileTable 4).fdInode = none ∧ (sysOpen ⟨0, 0, 0⟩ [0x2f, 0x66] 2).yields s
        (fun fd t => decide (fd = -1 ∧ (t.fileTable 4).fdInode ≠ none)) = true) := by
    obtain ⟨fd, s, run, found⟩ :=
      exists_of_yields (x := sysOpen ⟨0, 0, 0⟩ [0x2f, 0x66] 2) (s := smallTree) (c := fun fd s =>
      decide (fd = 3 ∧ (s.fileTable 4).fdInode = none ∧ (sysOpen ⟨0, 0, 0⟩ [0x2f, 0x66] 2).yields s
        (fun fd t => decide (fd = -1 ∧ (t.fileTable 4).fdInode ≠ none)) = true))
      (by decide +kernel)
    obtain ⟨rfl, rest⟩ := of_decide_eq_true found
    exact ⟨s, run, rest⟩
  obtain ⟨fd, t, run, found⟩ := exists_of_yields second.2
  obtain ⟨rfl, taken⟩ := of_decide_eq_true found
  exact ⟨⟨s, t, first, run, second.1, taken⟩, eq_error_of_stops (by decide +kernel)⟩

end LaiMiniOs
