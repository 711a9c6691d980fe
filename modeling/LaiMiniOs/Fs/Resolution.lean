import LaiMiniOs.Fs.OpenUsers

/-! What `search_file` and the calls that use it act on.

The reference walk looks up all components. `search_file` stops at the first regular file,
and returns a number from the stack for a path without a component.
-/

set_option autoImplicit false

namespace LaiMiniOs
open Foundation Prog Function

def Fs.resolvePath (s : Fs) (path : List Byte) : Option (Item Word) := resolve s.look (.node 0) (components path)

def Fs.SearchAgrees (s : Fs) (stack : Stack) (path : List Byte) : Prop :=
  ∃ no record t, searchFile stack path s = .ok ((no, record), t) ∧
    match s.resolvePath path with
    | some (.node n) => no = n ∧ record.fileType = .directory
    | some (.leaf n) => no = n ∧ record.fileType = .regular
    | none => no = -1

def Fs.StatAgrees (s : Fs) (stack : Stack) (path : List Byte) : Prop :=
  ∃ r t, sysStat stack path s = .ok (r, t) ∧
    r = match s.resolvePath path with
      | some (.node n) => some ⟨n, (s.inodeOf n).iSize, .directory⟩
      | some (.leaf n) => some ⟨n, (s.inodeOf n).iSize, .regular⟩
      | none => none

def Fs.UnlinkAgrees (s : Fs) (stack : Stack) (path : List Byte) : Prop :=
  ∀ r t, sysUnlink stack path s = .ok (r, t) →
    (r = 0 ∧ ∃ n, s.resolvePath path = some (.leaf n) ∧
      ∀ i, t.volume.bit .inode i = if i = n.toNat then false else s.volume.bit .inode i) ∨
    (r = -1 ∧ t.volume = s.volume)

def Fs.Searchable (s : Fs) (stack : Stack) (path : List Byte) : Prop :=
  (components path = [] → isRootPath path = true ∨ stack.entryNo = 0) ∧ Clear s.look (.node 0) (components path)

section
variable {s : Fs} (tree : s.Tree) {stack : Stack} {path : List Byte} (isPath : IsPath path)
include tree

theorem Fs.Tree.resolve_rootPath (root : isRootPath path = true) : s.resolvePath path = some (.node 0) := by
  have known : path = [slash] ∨ path = slash :: dot ∨ path = slash :: dotDot := by
    simpa [isRootPath, or_assoc] using root
  unfold Fs.resolvePath
  rcases known with rfl | rfl | rfl
  · rfl
  · have names : components (slash :: dot) = [dot] := by decide
    rw [names, resolve_node_cons, tree.isTree.itself 0 .start]
    rfl
  · have names : components (slash :: dotDot) = [dotDot] := by decide
    rw [names, resolve_node_cons, tree.isTree.above_root]
    rfl

include isPath

theorem Fs.Tree.searchFile_answer (ok : s.Searchable stack path) :
    ∃ record t d, searchFile stack path s = .ok (((answer (s.resolvePath path)).1, record), t) ∧
      record.fileType = (answer (s.resolvePath path)).2 ∧ s.IsDir d ∧ s.At d record.parentDir t := by
  cases root : isRootPath path with
  | true =>
    refine ⟨⟨[], .root, .directory⟩, s, 0, ?_, ?_, .start, .root (.refl _)⟩
    · rw [tree.resolve_rootPath root, searchFile_root s stack root]
      rfl
    · rw [tree.resolve_rootPath root]
      rfl
  | false =>
    obtain ⟨h, t, run, at_, -⟩ := tree.searchFile_eq stack isPath root
    have start (none : components path = []) : stack.entryNo = 0 :=
      (ok.1 none).resolve_left (by rw [root]; exact Bool.false_ne_true)
    have same := Fs.Tree.walk_of_clear 0 _ .start ok.2 start
    rw [Fs.resolvePath, same]
    exact ⟨_, t, _, run, rfl, Fs.Tree.isDir_walk _ .start .start, at_⟩

theorem Fs.Tree.searchFile_differs (not : ¬ s.Searchable stack path) : ¬ s.SearchAgrees stack path := by
  rintro ⟨no, record, t, run, agrees⟩
  cases root : isRootPath path with
  | true =>
    -- The known spellings of the root have at most one component.
    refine not ⟨fun _ => .inl root, ?_⟩
    exact Clear.of_resolve (tree.resolve_rootPath root)
  | false =>
    obtain ⟨h, t', run', -⟩ := tree.searchFile_eq stack isPath root
    rw [run] at run'
    have number := congrArg (fun r => r.1.1) (Except.ok.inj run')
    dsimp only [Fs.found] at number
    by_cases clear : Clear s.look (.node 0) (components path)
    · -- There is no component, and the stack holds another number.
      have left : components path = [] ∧ stack.entryNo ≠ 0 := by
        by_contra both
        rw [not_and, not_not] at both
        exact not ⟨fun none => .inr (both none), clear⟩
      rw [Fs.resolvePath, left.1] at agrees
      rw [left.1] at number
      exact left.2 (number.symm.trans agrees.1)
    · obtain ⟨none, small, -⟩ := tree.walk_of_not_clear 0 stack.entryNo .start clear
      grind [Fs.resolvePath]

theorem Fs.Tree.searchAgrees (ok : s.Searchable stack path) : s.SearchAgrees stack path := by
  obtain ⟨record, t, d, run, kind, -, -⟩ := tree.searchFile_answer isPath ok
  refine ⟨_, record, t, run, ?_⟩
  cases object : s.resolvePath path with
  | none => rfl
  | some item =>
    rw [object] at kind
    cases item with
    | leaf n => exact ⟨rfl, kind⟩
    | node n => exact ⟨rfl, kind⟩

omit isPath in
theorem Fs.Tree.number_ne {item : Item Word} (object : s.resolvePath path = some item) : item.number ≠ -1 := by
  intro same
  have small := tree.resolve_small object
  rw [same] at small
  exact absurd small (by decide)

omit isPath in
theorem Fs.Tree.inodeOpen_at {d n : Word} {h : Dir} {t : Fs} (dir : s.IsDir d) (at_ : s.At d h t)
    (small : n.toNat < 4096) :
    ∃ p t', inodeOpen n t = .ok (p, t') ∧ (t'.heap p).iSize = (s.inodeOf n).iSize := by
  have layout : Layout t.part := by
    obtain ⟨k, rfl, -⟩ := at_.heap tree
    exact tree.layout
  refine ⟨_, _, (inodeOpen_eq_ok layout).mpr ⟨fun _ => small, rfl⟩, ?_⟩
  obtain ⟨cnts, heap⟩ := t.toKernel.heap_opened n (t.volume.record n.toNat)
  obtain ⟨cnts', seen⟩ := at_.seen tree dir n
  rw [toKernel_withKernel, heap, seen]

theorem Fs.Tree.statAgrees (ok : s.Searchable stack path) : s.StatAgrees stack path := by
  unfold Fs.StatAgrees
  cases root : isRootPath path with
  | true =>
    refine ⟨_, s, by rw [sysStat, if_pos root, get_bind]; rfl, ?_⟩
    grind [Fs.inodeOf, Kernel.seen, tree.resolve_rootPath, root]
  | false =>
    obtain ⟨record, t, d, run, kind, dir, at_⟩ := tree.searchFile_answer isPath ok
    rw [sysStat, if_neg (by rw [root]; exact Bool.false_ne_true), bind_of_ok run]
    dsimp only
    cases object : s.resolvePath path with
    | none =>
      obtain ⟨k, -, close⟩ := at_.close tree.sound
      refine ⟨none, s.withKernel k, ?_, rfl⟩
      rw [answer, if_neg (not_not.mpr rfl), bind_of_ok close]
      rfl
    | some item =>
      have number := tree.number_ne object
      have small := tree.resolve_small object
      obtain ⟨p, t', open_, size⟩ := tree.inodeOpen_at dir at_ small
      rw [object] at kind
      have same : (answer (some item)).1 = item.number := by cases item <;> rfl
      obtain ⟨t'', close⟩ : ∃ t'', dirClose record.parentDir (t'.withKernel (t'.toKernel.closed p)) =
        .ok ((), t'') := by
        cases record.parentDir <;> exact ⟨_, rfl⟩
      refine ⟨some ⟨item.number, (s.inodeOf item.number).iSize, record.fileType⟩, t'', ?_, ?_⟩
      · rw [same, if_pos number, bind_of_ok open_, get_bind, bind_of_ok (inodeClose_eq p t'),
          bind_of_ok close, size]
        rfl
      · rw [kind]
        cases item <;> rfl

end

def Fs.SameInodeBits (s t : Fs) : Prop := t.part.inodeBitmap = s.part.inodeBitmap

theorem Fs.Tolerant.sameInodeBits : Fs.Tolerant Fs.SameInodeBits where
  disk _ _ := rfl
  blockBit _ _ _ := rfl
  inode _ _ _ _ := rfl

theorem Fs.SameInodeBits.run {A : Type} {x : FsM A} (keeps : Prog.Keeps Fs.SameInodeBits x) {s t : Fs} {a : A}
    (returns : x s = .ok (a, t)) :
    s.SameInodeBits t :=
  (keeps.within s).run (fun _ => rfl) (fun _ _ _ first second => Eq.trans second first) returns

section
variable {s t : Fs}

theorem inodeRelease_bits {n : Word} (layout : Layout s.part) (run : inodeRelease n s = .ok ((), t)) (i : Nat) :
    t.volume.bit .inode i = if i = n.toNat then false else s.volume.bit .inode i := by
  obtain ⟨p, s₁, open_, run⟩ := bind_eq_ok.mp run
  obtain ⟨-, result⟩ := (inodeOpen_eq_ok layout).mp open_
  obtain ⟨-, rfl⟩ := Prod.mk.inj result
  rw [get_bind] at run
  obtain ⟨-, run⟩ := require_bind_eq_ok.mp run
  obtain ⟨_, s₂, table, run⟩ := bind_eq_ok.mp run
  obtain ⟨_, s₃, blocks, run⟩ := bind_eq_ok.mp run
  obtain ⟨_, s₄, clear, run⟩ := bind_eq_ok.mp run
  obtain ⟨_, s₅, sync, run⟩ := bind_eq_ok.mp run
  obtain ⟨_, s₆, delete, close⟩ := bind_eq_ok.mp run
  rw [inodeClose_eq] at close
  obtain ⟨-, rfl⟩ := Prod.mk.inj (Except.ok.inj close)
  have read := Fs.SameInodeBits.run (readTable_keeps _) table
  have before : s₃.part.inodeBitmap = s.part.inodeBitmap :=
    (Fs.SameInodeBits.run (releaseBlocks_keeps .sameInodeBits _ _) blocks).trans read
  have after : s₆.part.inodeBitmap = s₄.part.inodeBitmap :=
    (Fs.SameInodeBits.run (inodeDelete_keeps .sameInodeBits _) delete).trans
      (Fs.SameInodeBits.run (bitmapSync_keeps .sameInodeBits _ _) sync)
  obtain ⟨-, cleared⟩ := bitmapSet_eq_ok.mp clear
  obtain ⟨-, rfl⟩ := Prod.mk.inj cleared
  have bits : (s₃.setBit .inode n.toNat false).volume.bit .inode i = if i = n.toNat then false
      else s₃.volume.bit .inode i := by
    rw [volume_setBit]
    simp only [Volume.setBit, update_self, update_apply]
  have last : s₆.volume.bit .inode i = (s₃.setBit .inode n.toNat false).volume.bit .inode i :=
    congrArg (fun b => Bitmap.bit b i) after
  have first : s₃.volume.bit .inode i = s.volume.bit .inode i := congrArg (fun b => Bitmap.bit b i) before
  rw [volume_withKernel, last, bits, first]

theorem Fs.Tree.unlinkAgrees (tree : s.Tree) {stack : Stack} {path : List Byte} (isPath : IsPath path)
    (ok : s.Searchable stack path) :
    s.UnlinkAgrees stack path := by
  intro r t run
  obtain ⟨record, t₁, d, search, kind, dir, at_⟩ := tree.searchFile_answer isPath ok
  obtain ⟨k, rfl, -⟩ := at_.heap tree
  obtain ⟨k', -, close⟩ := at_.close tree.sound
  obtain ⟨-, run⟩ := require_bind_eq_ok.mp run
  rw [bind_of_ok search] at run
  obtain ⟨-, run⟩ := require_bind_eq_ok.mp run
  -- Every way to give up closes the directory and nothing else.
  have refused (run : refuse record (s.withKernel k) = .ok (r, t)) : r = -1 ∧ t.volume = s.volume := by
    rw [refuse, bind_of_ok close] at run
    cases run
    exact ⟨rfl, rfl⟩
  split at run
  · exact .inr (refused run)
  · next found =>
    rw [get_bind] at run
    split at run
    · exact .inr (refused run)
    · rw [get_bind] at run
      obtain ⟨_, t₂, delete, run⟩ := bind_eq_ok.mp run
      obtain ⟨_, t₃, release, run⟩ := bind_eq_ok.mp run
      obtain ⟨_, t₄, close', last⟩ := bind_eq_ok.mp run
      cases last
      rw [not_or] at found
      cases object : s.resolvePath path with
      | none =>
        rw [object] at found
        exact absurd rfl found.1
      | some item =>
        rw [object] at found kind
        cases item with
        | node n => exact absurd kind found.2
        | leaf n =>
          refine .inl ⟨rfl, n, rfl, fun i => ?_⟩
          rw [object] at release delete
          have steady := Fs.Steady.run (deleteDirEntry_keeps .steady _ _) delete
          have deleted := Fs.SameInodeBits.run (deleteDirEntry_keeps .sameInodeBits _ _) delete
          have released := inodeRelease_bits (tree.layout.congr steady.geometry) release i
          have closed : t.volume.bit .inode i = t₃.volume.bit .inode i := by
            cases parent : record.parentDir with
            | root =>
              rw [parent] at close'
              cases close'
              rfl
            | opened p =>
              rw [parent] at close'
              obtain ⟨-, rfl⟩ := Prod.mk.inj (Except.ok.inj ((inodeClose_eq p t₃).symm.trans close'))
              rfl
          have first : t₂.volume.bit .inode i = s.volume.bit .inode i := congrArg (fun b => Bitmap.bit b i) deleted
          rw [closed, released, first]
          rfl

end

/-- `search_file`, `sys_stat` and `sys_unlink` act on what the whole path names exactly when no
component before the last names a regular file and a path without components is one of the
known spellings of the root, or the stack happens to hold 0. -/
theorem searchFile_agrees_iff {s : Fs} (tree : s.Tree) (stack : Stack) {path : List Byte} (isPath : IsPath path) :
    s.SearchAgrees stack path ∧ s.StatAgrees stack path ∧ s.UnlinkAgrees stack path ↔ s.Searchable stack path := by
  constructor
  · intro agrees
    by_contra not
    exact tree.searchFile_differs isPath not agrees.1
  · intro ok
    exact ⟨tree.searchAgrees isPath ok, tree.statAgrees isPath ok, tree.unlinkAgrees isPath ok⟩

/-- `/a/g` names a file. -/
theorem searchFile_agrees_nested : smallTree.resolvePath [0x2f, 0x61, 0x2f, 0x67] = some (.leaf 3) ∧
    smallTree.SearchAgrees ⟨0, 0, 0⟩ [0x2f, 0x61, 0x2f, 0x67] ∧
      smallTree.StatAgrees ⟨0, 0, 0⟩ [0x2f, 0x61, 0x2f, 0x67] ∧
      smallTree.UnlinkAgrees ⟨0, 0, 0⟩ [0x2f, 0x61, 0x2f, 0x67] := by
  have isPath : IsPath [0x2f, 0x61, 0x2f, 0x67] := ⟨rfl, by decide, by decide, by decide⟩
  have path : smallTree.resolvePath [0x2f, 0x61, 0x2f, 0x67] = some (.leaf 3) := by decide +kernel
  exact ⟨path, (searchFile_agrees_iff smallTree_tree ⟨0, 0, 0⟩ isPath).mpr ⟨(nomatch ·), .of_resolve path⟩⟩

/-- `/f/x` names nothing, since `/f` is a file; the search returns `/f`. -/
theorem searchFile_returns_file : smallTree.Tree ∧ IsPath [0x2f, 0x66, 0x2f, 0x78] ∧
    ¬ smallTree.SearchAgrees ⟨0, 0, 0⟩ [0x2f, 0x66, 0x2f, 0x78] := by
  have isPath : IsPath [0x2f, 0x66, 0x2f, 0x78] := ⟨rfl, by decide, by decide, by decide⟩
  refine ⟨smallTree_tree, isPath, smallTree_tree.searchFile_differs isPath fun ok => ?_⟩
  have names : components [0x2f, 0x66, 0x2f, 0x78] = [[0x66], [0x78]] := by decide
  have clear := ok.2
  rw [names] at clear
  have member : smallTree.volume.HasEntry (smallTree.inodeOf 0) (.make [0x66] 2 .regular) :=
    ((smallTree_listsIn 0 (by decide)).hasEntry _).mpr (by decide +kernel)
  have found : smallTree.find 0 [0x66] = some (.make [0x66] 2 .regular) :=
    (smallTree_tree.dirOk 0 .start).find_eq_some.mpr ⟨member, by decide +kernel⟩
  exact clear (.leaf 2) (by rw [Fs.look, found]; rfl)

end LaiMiniOs
