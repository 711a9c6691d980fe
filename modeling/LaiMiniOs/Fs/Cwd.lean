import LaiMiniOs.Shell.Wash

/-! The working directory.

`sys_getcwd` climbs from a directory to the root: the second entry of a directory gives its
parent, and a search by number in the parent gives the name. The names come out in reverse
order and are put right at the end.
-/

set_option autoImplicit false

namespace LaiMiniOs
open Foundation Prog

variable {names : List (List Byte)}

theorem length_nameFrom {m : Memory} {a n : Nat} (ends : ∃ i, i < n ∧ m (a + i) = 0) : (nameFrom m a n).length < n := by
  induction n generalizing a with
  | zero =>
    obtain ⟨i, below, -⟩ := ends
    omega
  | succ n ih =>
    rw [nameFrom]
    split
    · exact Nat.succ_pos n
    · next more =>
      obtain ⟨i, below, zero⟩ := ends
      cases i with
      | zero => exact absurd zero more
      | succ i =>
        grind

theorem DirEntry.Named.valid {entry : DirEntry} (named : entry.Named) : ValidName entry.name := by
  obtain ⟨i, below, zero⟩ := named.ends
  exact ⟨named.some, entry.plain_name, length_nameFrom ⟨i, below, by rwa [Nat.zero_add]⟩⟩

section
variable {s : Fs}

theorem inodeOpen_within {k : Kernel} {n : Word} (layout : Layout s.part) (sound : s.toKernel.Sound)
    (ext : s.toKernel.Extends k)
    (small : n.toNat < 4096) :
    ∃ p t, inodeOpen n (s.withKernel k) = .ok (p, t) ∧ t = s.withKernel t.toKernel ∧
      (∃ cnts, t.heap p = { s.inodeOf n with iOpenCnts := cnts }) ∧
      s.toKernel.Extends (t.toKernel.closed p) := by
  refine ⟨_, _, (inodeOpen_eq_ok (s := s.withKernel k) layout).mpr ⟨fun _ => small, rfl⟩, rfl, ?_, ?_⟩
  · obtain ⟨cnts, heap⟩ := k.heap_opened n (s.volume.record n.toNat)
    refine ⟨cnts, ?_⟩
    rw [ext.seen sound] at heap
    exact heap
  · exact ext.trans (Kernel.closed_opened (sound.extends ext) n _)

end

namespace Fs.Tree

variable {s : Fs} (tree : s.Tree) {d m : Word} {k : Kernel}
include tree

theorem slot_above (dir : s.IsDir d) (above : s.look d dotDot = some (.node m)) :
    (s.volume.slot (s.inodeOf d) 0 1).fType = FileType.directory.code ∧ (s.volume.slot (s.inodeOf d) 0 1).iNo = m := by
  have named := (tree.first d dir).2
  have live : (s.volume.slot (s.inodeOf d) 0 1).fType ≠ 0 := fun dead => by
    rw [(tree.dirOk d dir).dead 0 1 (by omega) (by omega) dead] at named
    exact absurd named (by decide)
  have found : s.find d dotDot = some (s.volume.slot (s.inodeOf d) 0 1) :=
    (tree.dirOk d dir).find_eq_some.mpr ⟨⟨live, 0, 1, by omega, by omega, rfl⟩, named⟩
  grind [Fs.look, DirEntry.item]

theorem getParentDirInodeNr_eq (ext : s.toKernel.Extends k) (dir : s.IsDir d)
    (above : s.look d dotDot = some (.node m)) (small : m.toNat < 4096) :
    ∃ k', s.toKernel.Extends k' ∧ getParentDirInodeNr d (s.withKernel k) = .ok (m, s.withKernel k') := by
  obtain ⟨p, t, open_, same, ⟨cnts, heap⟩, ext'⟩ := inodeOpen_within tree.layout tree.sound ext (tree.small dir)
  have ok := tree.dirOk d dir
  have sector : (t.heap p).sector 0 = (s.inodeOf d).sector 0 := by rw [heap]; rfl
  have pointer : s.volume.pointer (s.inodeOf d) 0 = (s.inodeOf d).sector 0 := Volume.pointer_direct _ _ (by omega)
  obtain ⟨isDir, number⟩ := tree.slot_above dir above
  have present : s.volume.pointer (s.inodeOf d) 0 ≠ 0 := fun none => by
    rw [Volume.slot_of_none none] at isDir
    exact absurd isDir (by decide)
  have low := ok.owns.low (Nat.zero_le _) present
  have read : DirEntry.read (sectors s.disk ((s.inodeOf d).sector 0).toNat 1) 24 = s.volume.slot (s.inodeOf d) 0 1 :=
    by grind [Volume.slot_of_some, ok.owns.sectors_pointer]
  have onDisk := ok.onDisk 0 (Nat.zero_le _)
  rw [pointer] at low onDisk
  refine ⟨t.toKernel.closed p, ext', ?_⟩
  have reads : ideRead ((s.inodeOf d).sector 0) 1 (t.withKernel (t.toKernel.closed p)) =
      .ok (sectors s.disk ((s.inodeOf d).sector 0).toNat 1, s.withKernel (t.toKernel.closed p)) := by
    rw [same]
    exact ideRead_eq (s := s.withKernel (t.toKernel.closed p)) (addressable_one.mpr onDisk)
  have check : t.part.sb.dataStartLba.toNat ≤ ((s.inodeOf d).sector 0).toNat := by
    rw [same]
    exact low
  rw [getParentDirInodeNr, bind_of_ok open_, get_bind]
  dsimp only
  rw [sector, require_bind check, bind_of_ok (inodeClose_eq p t), bind_of_ok reads, read]
  rw [require_bind ⟨by rw [number]; exact small, isDir⟩, number]
  rfl

theorem name_of_number {last : List Byte} (proper : Proper dot dotDot (names ++ [last]))
    (before : resolve s.look (.node 0) names = some (.node m)) (here : s.look m last = some (.node d)) {i j : Nat}
    (hi : i < 140) (hj : j < 21)
    (number : (s.volume.slot (s.inodeOf m) i j).iNo = d) : (s.volume.slot (s.inodeOf m) i j).name = last := by
  have dir : s.IsDir m := ⟨names, before⟩
  have whole : resolve s.look (.node 0) (names ++ [last]) = some (.node d) :=
    resolve_concat_eq_some.mpr ⟨m, before, here⟩
  have front : Proper dot dotDot names := fun name member => proper name (List.mem_append_left _ member)
  obtain ⟨notDot, notDotDot⟩ := proper last List.mem_concat_self
  have notRoot : d ≠ 0 := tree.isTree.not_root m last _ dir notDot notDotDot here
  have ok := tree.dirOk m dir
  have live : (s.volume.slot (s.inodeOf m) i j).fType ≠ 0 := fun dead => by
    rw [ok.dead i j hi hj dead] at number
    exact notRoot number.symm
  generalize entry : s.volume.slot (s.inodeOf m) i j = e at number live ⊢
  have found : s.look m e.name = some e.item := by
    rw [Fs.look, ok.find_eq_some.mpr ⟨⟨live, i, j, hi, hj, entry⟩, rfl⟩]
    rfl
  have same : e.item.number = d := e.number_item.trans number
  by_cases isDot : e.name = dot
  · -- The directory above is not the directory itself.
    rw [isDot, tree.isTree.itself m dir] at found
    rw [← Option.some.inj found] at same
    subst same
    have equal := tree.isTree.proper_unique front proper before whole
    exact absurd (congrArg List.length equal) (by simp)
  · by_cases isDotDot : e.name = dotDot
    · obtain ⟨g, up, shorter⟩ := tree.isTree.above_dropLast front before
      rw [isDotDot, up] at found
      rw [← Option.some.inj found] at same
      subst same
      have equal := tree.isTree.proper_unique (fun name member => front name (List.dropLast_subset names member))
        proper shorter whole
      grind [List.length_append]
    · exact (tree.isTree.unique m e.name _ m last _ dir dir isDot isDotDot notDot notDotDot found here same).2

theorem getChildDirName_eq {last : List Byte} (path : List Byte) (ext : s.toKernel.Extends k)
    (proper : Proper dot dotDot (names ++ [last]))
    (before : resolve s.look (.node 0) names = some (.node m)) (here : s.look m last = some (.node d))
    (short : (path ++ slash :: last).length < maxPathLen) :
    ∃ k', s.toKernel.Extends k' ∧
      getChildDirName m d path (s.withKernel k) = .ok (some (path ++ slash :: last), s.withKernel k') := by
  have dir : s.IsDir m := ⟨names, before⟩
  have ok := tree.dirOk m dir
  obtain ⟨p, t, open_, same, ⟨cnts, heap⟩, ext'⟩ := inodeOpen_within tree.layout tree.sound ext (tree.small dir)
  have sectors' (i : Nat) : (t.heap p).sector i = (s.inodeOf m).sector i := by rw [heap]; rfl
  have table : readTable (t.heap p) t = .ok (s.volume.table (s.inodeOf m), t) := by
    have ok' : t.DirOk (t.heap p) := by
      rw [same]
      exact ok.withKernel t.toKernel sectors'
    rw [ok'.readTable]
    congr 2
    rw [same]
    unfold Volume.table
    rw [← sectors' 12]
    rfl
  have blocks (i : Nat) (hi : i < 140) : allBlocks (t.heap p) (s.volume.table (s.inodeOf m)) i =
      s.volume.pointer (s.inodeOf m) i := by
    rw [Volume.pointer, if_neg (Nat.ne_of_lt hi), allBlocks, allBlocks, sectors' i]
  obtain ⟨r, run, found, missing⟩ := entryLoop_eq (s := s.withKernel (t.toKernel.closed p))
    (childBlocks (allBlocks (t.heap p) (s.volume.table (s.inodeOf m))) d)
    (fun buf k => (DirEntry.read buf (24 * k)).iNo != d) rfl (fun _ => rfl) tree.layout
      (ok.withKernel _ fun _ => rfl).owns ok.onDisk blocks (Nat.le_refl 140)
  rw [volume_withKernel] at found missing
  obtain ⟨entry, foundEntry, isDir⟩ := Option.map_eq_some_iff.mp here
  obtain ⟨⟨live, i, j, hi, hj, place⟩, named⟩ := ok.find_eq_some.mp foundEntry
  have number : entry.iNo = d := by
    rw [← entry.number_item, isDir]
    rfl
  have valid : ValidName last := by
    rw [← named, ← place]
    exact (ok.named i j hi hj (by rw [place]; exact live)).valid
  refine ⟨t.toKernel.closed p, ext', ?_⟩
  have close : inodeClose p t = .ok ((), s.withKernel (t.toKernel.closed p)) := by
    rw [inodeClose_eq]
    congr 2
    rw [same]
    rfl
  rw [getChildDirName, bind_of_ok open_, get_bind, bind_of_ok table, bind_of_ok close, bind_of_ok run]
  cases r with
  | none =>
    have present : s.volume.pointer (s.inodeOf m) i ≠ 0 := fun none => by
      rw [Volume.slot_of_none none] at place
      rw [← place] at live
      exact live rfl
    rw [Volume.slot_of_some present] at place
    have other := missing rfl i j (by omega) hi hj present
    rw [place, number] at other
    exact absurd other (by simp)
  | some first =>
    obtain ⟨i', j', hi', hj', present', equal, rfl⟩ := found first rfl
    rw [← Volume.slot_of_some present', bne_eq_false_iff_eq] at equal
    have name : (s.volume.slot (s.inodeOf m) i' j').name = last := by grind [tree.name_of_number]
    dsimp only
    rw [name, require_bind ⟨valid.short, short⟩]
    rfl

/-- From a directory up to the root the loop gathers the names of its path, the last one first. -/
theorem climb_eq (path : List Byte) {rounds : Nat} (ext : s.toKernel.Extends k) (proper : Proper dot dotDot names)
    (resolves : resolve s.look (.node 0) names = some (.node d)) (enough : names.length < rounds)
    (short : path.length + (joinPath names).length < maxPathLen) :
    ∃ k', s.toKernel.Extends k' ∧
      climb rounds d path (s.withKernel k) = .ok (some (path ++ joinPath names.reverse), s.withKernel k') := by
  induction names using List.reverseRecOn generalizing d path rounds k with
  | nil =>
    obtain ⟨rounds, rfl⟩ : ∃ n, rounds = n + 1 := ⟨rounds - 1, by simp only [List.length_nil] at enough; omega⟩
    cases resolves
    refine ⟨k, ext, ?_⟩
    rw [climb, if_pos rfl]
    simp [joinPath]
  | append_singleton names last ih =>
    obtain ⟨rounds, rfl⟩ : ∃ n, rounds = n + 1 :=
      ⟨rounds - 1, by simp only [List.length_append, List.length_singleton] at enough; omega⟩
    obtain ⟨m, before, here⟩ := resolve_concat_eq_some.mp resolves
    obtain ⟨notDot, notDotDot⟩ := proper last List.mem_concat_self
    have dir : s.IsDir m := ⟨names, before⟩
    have notRoot : d ≠ 0 := tree.isTree.not_root m last _ dir notDot notDotDot here
    have above := tree.isTree.above m last d dir notDot notDotDot here
    rw [joinPath_concat, List.length_append, List.length_cons] at short
    obtain ⟨k₁, ext₁, parent⟩ := tree.getParentDirInodeNr_eq ext (dir.step here) above (tree.small dir)
    obtain ⟨k₂, ext₂, child⟩ :=
      tree.getChildDirName_eq path ext₁ proper before here (by rw [List.length_append, List.length_cons]; omega)
    obtain ⟨k₃, ext₃, rest⟩ :=
      ih (path ++ slash :: last) ext₂ (fun name member => proper name (List.mem_append_left _ member)) before
      (show names.length < rounds by simp only [List.length_append, List.length_singleton] at enough; omega)
        (by rw [List.length_append, List.length_cons]; omega)
    refine ⟨k₃, ext₃, ?_⟩
    rw [climb, if_neg notRoot, bind_of_ok parent, bind_of_ok child]
    dsimp only
    rw [rest]
    simp [joinPath]

omit tree in
/-- Moving the last component to the end of the buffer, again and again, turns the path round. -/
theorem reverseLoop_eq (plain : ∀ name ∈ names, slash ∉ name) {rounds : Nat} (enough : names.length ≤ rounds)
    (buf : List Byte) : reverseLoop rounds (joinPath names) buf = buf ++ joinPath names.reverse := by
  induction names using List.reverseRecOn generalizing rounds buf with
  | nil =>
    cases rounds with
    | zero => simp [reverseLoop, joinPath]
    | succ rounds => simp [reverseLoop, joinPath, afterLastSlash]
  | append_singleton names name ih =>
    obtain ⟨rounds, rfl⟩ : ∃ n, rounds = n + 1 :=
      ⟨rounds - 1, by simp only [List.length_append, List.length_singleton] at enough; omega⟩
    rw [joinPath_concat, reverseLoop, afterLastSlash_concat _ (plain name List.mem_concat_self)]
    dsimp only
    rw [List.length_append, List.length_cons, Nat.add_sub_cancel, List.take_left,
      ih (fun name member => plain name (List.mem_append_left _ member))
        (by simp only [List.length_append, List.length_singleton] at enough; omega)]
    simp [joinPath]

omit tree in
theorem length_joinPath_reverse (names : List (List Byte)) :
    (joinPath names.reverse).length = (joinPath names).length :=
  ((List.reverse_perm names).flatMap_right (slash :: ·)).length_eq

omit tree in
theorem length_le_joinPath (names : List (List Byte)) : names.length ≤ (joinPath names).length := by
  induction names with
  | nil => exact Nat.zero_le _
  | cons name names ih =>
    grind [joinPath]

theorem valid_of_resolve {item : Item Word} (resolves : resolve s.look (.node 0) names = some item) :
    ∀ name ∈ names, ValidName name ∧ slash ∉ name := by
  induction names using List.reverseRecOn generalizing item with
  | nil => exact fun _ member => nomatch member
  | append_singleton names last ih =>
    obtain ⟨m, before, here⟩ := resolve_concat_eq_some.mp resolves
    intro name member
    rcases List.mem_append.mp member with old | new
    · exact ih before name old
    · obtain rfl := List.mem_singleton.mp new
      obtain ⟨entry, found, -⟩ := Option.map_eq_some_iff.mp here
      obtain ⟨has, named⟩ := (tree.dirOk m ⟨names, before⟩).find_eq_some.mp found
      have plain := (tree.typed m entry ⟨names, before⟩ has).2.2
      obtain ⟨live, i, j, hi, hj, rfl⟩ := has
      rw [← named]
      exact ⟨((tree.dirOk m ⟨names, before⟩).named i j hi hj live).valid, plain⟩

theorem sysGetcwd_eq (ext : s.toKernel.Extends k) (proper : Proper dot dotDot names)
    (resolves : resolve s.look (.node 0) names = some (.node s.cwdInodeNr))
    (short : (joinPath names).length < maxPathLen) :
    ∃ k', s.toKernel.Extends k' ∧
      sysGetcwd maxPathLen (s.withKernel k) = .ok (some (spell names), s.withKernel k') := by
  have cwd : (s.withKernel k).cwdInodeNr = s.cwdInodeNr := ext.cwdInodeNr
  have small := tree.small ⟨names, resolves⟩
  rw [sysGetcwd, get_bind, cwd, require_bind small]
  by_cases root : s.cwdInodeNr = 0
  · have none : names = [] :=
      tree.isTree.proper_unique proper (fun _ member => nomatch member) resolves (by rw [root]; rfl)
    refine ⟨k, ext, ?_⟩
    rw [if_pos root, require_bind (by decide), none]
    rfl
  · have some : names ≠ [] := by
      rintro rfl
      exact root (Item.node.inj (Option.some.inj resolves)).symm
    have most := length_le_joinPath names
    obtain ⟨k', ext', run⟩ := tree.climb_eq [] ext proper resolves (show names.length < maxPathLen + 1 by omega)
      (by rwa [List.length_nil, Nat.zero_add])
    rw [List.nil_append] at run
    refine ⟨k', ext', ?_⟩
    have length := length_joinPath_reverse names
    rw [if_neg root, bind_of_ok run]
    dsimp only
    rw [require_bind (by omega), require_bind (by omega),
      reverseLoop_eq (fun name member => (tree.valid_of_resolve resolves name (List.mem_reverse.mp member)).2)
        (by rw [List.length_reverse]; omega), List.reverse_reverse, spell, if_neg some]
    rfl

theorem setCwd (d : Word) : ({ s with cwdInodeNr := d } : Fs).Tree :=
  ⟨tree.layout, ⟨tree.sound.fresh, tree.sound.nodup, tree.sound.counted⟩, tree.root, fun d dir =>
    (tree.dirOk d dir).withKernel _ fun _ => rfl,
    tree.number, tree.typed, tree.first, tree.isTree⟩

omit tree in
theorem isPath_of_searchFile {stack : Stack} {path : List Byte} (plain : (0 : Byte) ∉ path)
    (names : ∀ name ∈ components path, name.length < 16)
    {found : Word × PathSearchRecord} {t : Fs} (run : searchFile stack path s = .ok (found, t)) : IsPath path := by
  unfold searchFile at run
  split at run
  · next root =>
    unfold isRootPath at root
    simp only [Bool.or_eq_true, beq_iff_eq] at root
    rcases root with (rfl | rfl) | rfl
    · exact ⟨rfl, by decide, plain, names⟩
    · exact ⟨rfl, by decide, plain, names⟩
    · exact ⟨rfl, by decide, plain, names⟩
  · obtain ⟨⟨absolute, -, short⟩, -⟩ := require_bind_eq_ok.mp run
    exact ⟨absolute, short, plain, names⟩

theorem sysChdir_accepts {stack : Stack} {path : List Byte} (plain : (0 : Byte) ∉ path)
    (names : ∀ name ∈ components path, name.length < 16) (known : path = [slash] ∨ components path ≠ []) {t : Fs}
    (run : sysChdir stack path s = .ok (0, t)) :
    ∃ d, s.IsDir d ∧ ∃ k, s.toKernel.Extends k ∧ t = s.withKernel { k with cwdInodeNr := d } := by
  have isPath : IsPath path := by
    obtain ⟨found, t₁, search, -⟩ := bind_eq_ok.mp run
    exact isPath_of_searchFile plain names search
  cases root : isRootPath path with
  | true =>
    rw [sysChdir, bind_of_ok (searchFile_root s stack root)] at run
    cases run
    exact ⟨0, .start, s.toKernel, .refl _, rfl⟩
  | false =>
    have some : components path ≠ [] := by
      rcases known with rfl | some
      · cases root
      · exact some
    obtain ⟨h, t₁, search, at_, -⟩ := tree.searchFile_eq stack isPath root
    rw [sysChdir, bind_of_ok search] at run
    dsimp only [Fs.found] at run at_
    split at run
    · next accepted =>
      have clear : Clear s.look (.node 0) (components path) := by
        by_contra file
        obtain ⟨-, -, kind⟩ := tree.walk_of_not_clear 0 stack.entryNo .start file
        rw [kind] at accepted
        exact FileType.noConfusion accepted.2
      have same := Fs.Tree.walk_of_clear 0 stack.entryNo .start clear fun none => absurd none some
      generalize s.walk 0 stack.entryNo 0 (components path) = found at *
      refine ⟨found.no, ⟨components path, ?_⟩, ?_⟩
      · cases object : resolve s.look (.node 0) (components path) with
        | none =>
          rw [object] at same
          exact absurd (Prod.mk.inj same).1.symm accepted.1
        | some item =>
          rw [object] at same
          cases item with
          | leaf n => exact FileType.noConfusion ((Prod.mk.inj same).2.trans accepted.2)
          | node n => rw [← (Prod.mk.inj same).1]
      · rw [modify_bind] at run
        generalize found.dirNo = dirNo at at_
        cases at_ with
        | root ext =>
          cases run
          exact ⟨_, ext, rfl⟩
        | opened dirNo ext =>
          cases run
          exact ⟨_, ext.trans (Kernel.closed_opened (tree.sound.extends ext) dirNo _), rfl⟩
    · obtain ⟨_, t₂, -, last⟩ := bind_eq_ok.mp run
      cases last

end Fs.Tree

/-- The canonical path of a directory: no component is empty, `.` or `..`. -/
structure Fs.Canonical (s : Fs) (d : Word) (names : List (List Byte)) : Prop where
  proper : Proper dot dotDot names
  valid : ∀ name ∈ names, ValidName name ∧ slash ∉ name
  resolves : resolve s.look (.node 0) names = some (.node d)

/-- After `sys_chdir` the working directory has one canonical path, `sys_getcwd` returns it, and
`search_file` finds the directory by it. -/
theorem sysGetcwd_sysChdir {s : Fs} (tree : s.Tree) (short : ∀ d names, s.Canonical d names →
    (spell names).length < maxPathLen)
    (stack stack' : Stack) {path : List Byte} (plain : (0 : Byte) ∉ path)
    (few : ∀ name ∈ components path, name.length < 16)
    (known : path = [slash] ∨ components path ≠ []) {s₁ : Fs} (run : sysChdir stack path s = .ok (0, s₁)) :
    ∃ names, s.Canonical s₁.cwdInodeNr names ∧ (∀ names', s.Canonical s₁.cwdInodeNr names' → names' = names) ∧
      ∃ s₂, sysGetcwd maxPathLen s₁ = .ok (some (spell names), s₂) ∧
      ∃ record s₃, searchFile stack' (spell names) s₂ = .ok ((s₁.cwdInodeNr, record), s₃) ∧
        record.fileType = .directory := by
  obtain ⟨d, dir, k, ext, rfl⟩ := tree.sysChdir_accepts plain few known run
  obtain ⟨names, proper, resolves⟩ := tree.isTree.exists_proper dir
  have canonical : s.Canonical d names := ⟨proper, tree.valid_of_resolve resolves, resolves⟩
  have length := short d names canonical
  refine ⟨names, canonical, fun names' other =>
    tree.isTree.proper_unique other.proper proper other.resolves resolves, ?_⟩
  -- The tree with the new working directory.
  have tree' := tree.setCwd d
  have ext' : ({ s with cwdInodeNr := d } : Fs).toKernel.Extends { k with cwdInodeNr := d } :=
    ⟨ext.heap, ext.brk, ext.openInodes, ext.rootDir, ext.fileTable, ext.fdTable, rfl, ext.freedPages⟩
  have joined : (joinPath names).length < maxPathLen := by
    unfold spell at length
    split at length
    · next none =>
      rw [none]
      decide
    · exact length
  obtain ⟨k', ext'', getcwd⟩ := tree'.sysGetcwd_eq ext' proper resolves joined
  refine ⟨_, getcwd, ?_⟩
  obtain ⟨tree'', look⟩ := tree'.withKernel ext''
  obtain ⟨isPath', components'⟩ := isPath_spell canonical.valid length
  have resolves' : (({ s with cwdInodeNr := d } : Fs).withKernel k').resolvePath (spell names) = some (.node d) := by
    unfold Fs.resolvePath
    rw [components', look]
    exact resolves
  obtain ⟨record, s₃, -, search, kind, -, -⟩ := tree''.searchFile_answer isPath'
    (show Fs.Searchable _ stack' _ from Fs.Tree.searchable_of_resolves resolves' fun none =>
      by rw [components'] at none; rw [none]; decide)
  rw [resolves'] at search kind
  exact ⟨record, s₃, search, kind⟩

theorem smallTree_canonical_short (d : Word) (names : List (List Byte)) (canonical : smallTree.Canonical d names) :
    (spell names).length < maxPathLen := by
  have one (names' : List (List Byte)) (proper : Proper dot dotDot names')
      (resolves : resolve smallTree.look (.node 0) names' = some (.node d))
      (short : (spell names').length < maxPathLen) : (spell names).length < maxPathLen := by
    rwa [smallTree_tree.isTree.proper_unique canonical.proper proper canonical.resolves resolves]
  have dir := smallTree_isDir ⟨names, canonical.resolves⟩
  simp only [List.mem_cons, List.not_mem_nil, or_false] at dir
  rcases dir with rfl | rfl | rfl
  · exact one [] (by unfold Proper; decide) rfl (by decide)
  · exact one [[0x61]] (by unfold Proper; decide) (by decide +kernel) (by decide)
  · exact one [[0x62]] (by unfold Proper; decide) (by decide +kernel) (by decide)

/-- After `chdir("/b/../a")` the answer is `/a`, and `/a` is the directory again. -/
theorem sysGetcwd_sysChdir_dots : smallTree.Tree ∧
    (∀ d names, smallTree.Canonical d names → (spell names).length < maxPathLen) ∧
    ∃ s₁, sysChdir ⟨0, 0, 0⟩ [0x2f, 0x62, 0x2f, 0x2e, 0x2e, 0x2f, 0x61] smallTree = .ok (0, s₁) ∧
    ∃ names, smallTree.Canonical s₁.cwdInodeNr names ∧
      (∀ names', smallTree.Canonical s₁.cwdInodeNr names' → names' = names) ∧
      ∃ s₂, sysGetcwd maxPathLen s₁ = .ok (some (spell names), s₂) ∧
      ∃ record s₃, searchFile ⟨0, 0, 0⟩ (spell names) s₂ = .ok ((s₁.cwdInodeNr, record), s₃) ∧
        record.fileType = .directory := by
  obtain ⟨r, s₁, run, accepted⟩ :=
    exists_of_yields (x := sysChdir ⟨0, 0, 0⟩ [0x2f, 0x62, 0x2f, 0x2e, 0x2e, 0x2f, 0x61]) (s := smallTree)
    (c := fun r _ => r == 0) (by decide +kernel)
  rw [eq_of_beq accepted] at run
  exact ⟨smallTree_tree, smallTree_canonical_short, s₁, run,
    sysGetcwd_sysChdir smallTree_tree smallTree_canonical_short ⟨0, 0, 0⟩ ⟨0, 0, 0⟩ (by decide) (by decide)
      (.inr (by decide)) run⟩

end LaiMiniOs
