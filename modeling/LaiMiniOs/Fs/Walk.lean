import LaiMiniOs.Foundation.Namespace
import LaiMiniOs.Fs.DirEntries
import LaiMiniOs.Fs.Syscalls

/-! Directories as a tree of names, and the walk of `search_file` through it. -/

set_option autoImplicit false

namespace LaiMiniOs
open Foundation Prog

variable {d : Word} {entry : DirEntry} {k : Kernel} {names : List (List Byte)} {name path : List Byte} {h : Dir}

def Fs.inodeOf (s : Fs) (n : Word) : Inode := s.toKernel.seen n (s.volume.record n.toNat)

def Volume.slots (v : Volume) (inode : Inode) : List DirEntry :=
  (List.range 140).flatMap fun k => (List.range 21).map (v.slot inode k)

def Fs.find (s : Fs) (d : Word) (name : List Byte) : Option DirEntry :=
  (s.volume.slots (s.inodeOf d)).find? fun entry => entry.fType != 0 && entry.name == name

def DirEntry.item (entry : DirEntry) : Item Word :=
  if entry.fType = FileType.directory.code then .node entry.iNo else .leaf entry.iNo

def Fs.look (s : Fs) (d : Word) (name : List Byte) : Option (Item Word) := (s.find d name).map DirEntry.item

abbrev Fs.IsDir (s : Fs) (d : Word) : Prop := Reaches s.look 0 d

structure Fs.Tree (s : Fs) : Prop where
  layout : Layout s.part
  sound : s.toKernel.Sound
  /-- `root_dir` is in the cache. -/
  root : s.toKernel.cached 0 = some s.rootDir
  dirOk : ∀ d, s.IsDir d → s.DirOk (s.inodeOf d)
  number : ∀ d, s.IsDir d → (s.inodeOf d).iNo = d
  typed : ∀ d entry, s.IsDir d → s.volume.HasEntry (s.inodeOf d) entry →
    (entry.fType = FileType.regular.code ∨ entry.fType = FileType.directory.code) ∧ entry.iNo.toNat < 4096 ∧
      slash ∉ entry.name
  /-- The first two entries of a directory name it and the directory above. -/
  first : ∀ d, s.IsDir d → (s.volume.slot (s.inodeOf d) 0 0).name = dot ∧
    (s.volume.slot (s.inodeOf d) 0 1).name = dotDot
  isTree : IsTree s.look 0 dot dotDot

theorem Volume.mem_slots {v : Volume} {inode : Inode} :
    entry ∈ v.slots inode ↔ ∃ k j, k < 140 ∧ j < 21 ∧ v.slot inode k j = entry := by
  simp only [Volume.slots, List.mem_flatMap, List.mem_range, List.mem_map]
  constructor
  · rintro ⟨k, hk, j, hj, same⟩
    exact ⟨k, j, hk, hj, same⟩
  · rintro ⟨k, j, hk, hj, same⟩
    exact ⟨k, hk, j, hj, same⟩

section
variable {s t : Fs}

theorem Fs.DirOk.withKernel {inode inode' : Inode} (ok : s.DirOk inode) (k : Kernel)
    (sectors : ∀ k, inode'.sector k = inode.sector k) : (s.withKernel k).DirOk inode' := by
  have pointer (k : Nat) : s.volume.pointer inode' k = s.volume.pointer inode k :=
    Volume.pointer_congr sectors (fun _ => rfl) k
  have slot (k j : Nat) : s.volume.slot inode' k j = s.volume.slot inode k j := by
    unfold Volume.slot
    rw [pointer k]
  have owns := ok.owns.of_sectors sectors
  refine ⟨⟨owns.used, owns.apart⟩, fun k hk => ?_, fun k j hk hj => ?_, fun k j hk hj =>
    ?_, fun k j k' j' hk hj hk' hj' => ?_⟩
  · rw [volume_withKernel, pointer k]
    exact ok.onDisk k hk
  · rw [volume_withKernel, slot k j]
    exact ok.dead k j hk hj
  · rw [volume_withKernel, slot k j]
    exact ok.named k j hk hj
  · rw [volume_withKernel, slot k j, slot k' j']
    exact ok.distinct k j k' j' hk hj hk' hj'

theorem Fs.DirOk.find_eq_some (ok : s.DirOk (s.inodeOf d)) :
    s.find d name = some entry ↔ s.volume.HasEntry (s.inodeOf d) entry ∧ entry.name = name := by
  have some_iff {entry : DirEntry} (found : s.find d name = some entry) : s.volume.HasEntry (s.inodeOf d) entry ∧
      entry.name = name := by
    have test := List.find?_some found
    rw [Bool.and_eq_true, bne_iff_ne, beq_iff_eq] at test
    exact ⟨⟨test.1, Volume.mem_slots.mp (List.mem_of_find?_eq_some found)⟩, test.2⟩
  refine ⟨some_iff, fun ⟨⟨live, k, j, hk, hj, slot⟩, named⟩ => ?_⟩
  cases found : s.find d name with
  | none =>
    have not := List.find?_eq_none.mp found entry (Volume.mem_slots.mpr ⟨k, j, hk, hj, slot⟩)
    rw [Bool.and_eq_true, bne_iff_ne, beq_iff_eq] at not
    exact absurd ⟨live, named⟩ not
  | some other =>
    obtain ⟨⟨live', k', j', hk', hj', slot'⟩, named'⟩ := some_iff found
    grind [ok.distinct]

theorem searchDirEntry_find {p : Nat} (layout : Layout s.part) (ok : s.DirOk (s.inodeOf d))
    (sectors : ∀ i, (k.heap p).sector i = (s.inodeOf d).sector i) (some : name ≠ []) (plain : (0 : Byte) ∉ name) :
    searchDirEntry p name (s.withKernel k) = .ok (s.find d name, s.withKernel k) := by
  obtain ⟨r, run, found⟩ := searchDirEntry_eq (s := s.withKernel k) (p := p) layout (ok.withKernel k sectors) some plain
  have same (entry : DirEntry) : s.volume.HasEntry (k.heap p) entry ↔ s.volume.HasEntry (s.inodeOf d) entry := by
    unfold Volume.HasEntry Volume.slot
    simp only [Volume.pointer_congr (v := s.volume) sectors (fun _ => (rfl : s.volume.block _ = _))]
  rw [run]
  congr 2
  apply Option.ext
  intro entry
  exact (found entry).trans ((and_congr_left' (same entry)).trans ok.find_eq_some.symm)

/-- The directory `d` is open through the handle `h`, and nothing else is. -/
inductive Fs.At (s : Fs) : Word → Dir → Fs → Prop where
  | root {k : Kernel} (ext : s.toKernel.Extends k) : s.At 0 .root (s.withKernel k)
  | opened {k : Kernel} (d : Word) (ext : s.toKernel.Extends k) :
      s.At d (.opened (k.opened d (s.volume.record d.toNat)).1) (s.withKernel (k.opened d (s.volume.record d.toNat)).2)

theorem Fs.At.heap (at_ : s.At d h t) (tree : s.Tree) :
    ∃ k, t = s.withKernel k ∧ ∃ cnts, k.heap (h.inode t) = { s.inodeOf d with iOpenCnts := cnts } := by
  cases at_ with
  | @root k ext =>
    refine ⟨k, rfl, (s.inodeOf 0).iOpenCnts, ?_⟩
    have member := (Kernel.cached_mem tree.root).1
    have root : s.inodeOf 0 = s.heap s.rootDir := by
      unfold Fs.inodeOf Kernel.seen
      rw [tree.root]
    have handle : Dir.root.inode (s.withKernel k) = s.rootDir := ext.rootDir
    rw [root, handle, ext.heap _ (tree.sound.fresh _ member)]
  | @opened k d ext =>
    obtain ⟨cnts, heap⟩ := Kernel.heap_opened (k := k) d (s.volume.record d.toNat)
    refine ⟨_, rfl, cnts, ?_⟩
    rw [ext.seen tree.sound] at heap
    exact heap

theorem Kernel.cached_opened (sound : k.Sound) {record : Inode} (number : (k.seen d record).iNo = d) {n : Word}
    (old : n ≠ d ∨ k.cached d ≠ none) : (k.opened d record).2.cached n = k.cached n := by
  unfold Kernel.opened
  cases found : k.cached d with
  | some p =>
    refine find?_congr fun q _ => ?_
    by_cases here : q = p
    · subst here
      rw [heap_setInode_self]
    · rw [heap_setInode_of_ne _ _ here]
  | none =>
    have record_no : record.iNo = d := by
      unfold Kernel.seen at number
      rwa [found] at number
    have other : n ≠ d := old.resolve_right fun some => some found
    have apart (q : Nat) (member : q ∈ k.openInodes) : q ≠ k.brk := Nat.ne_of_lt (sound.fresh q member)
    unfold Kernel.cached
    rw [List.find?_cons_of_neg]
    · refine find?_congr fun q member => ?_
      grind [heap_setInode_of_ne]
    · grind [heap_setInode_self]

theorem Kernel.seen_opened (sound : k.Sound) {n : Word} {record record' : Inode} (number : (k.seen d record).iNo = d)
    (same : n = d → record' = record) :
    ∃ cnts, (k.opened d record).2.seen n record' = { k.seen n record' with iOpenCnts := cnts } := by
  by_cases old : n ≠ d ∨ k.cached d ≠ none
  · have cached := Kernel.cached_opened sound number old
    unfold Kernel.seen
    rw [cached]
    cases listed : k.cached n with
    | none => exact ⟨_, rfl⟩
    | some q =>
      unfold Kernel.opened
      cases k.cached d with
      | some p =>
        by_cases here : q = p
        · subst here
          exact ⟨_, heap_setInode_self _ _ _⟩
        · exact ⟨_, heap_setInode_of_ne _ _ here⟩
      | none => exact ⟨_, heap_setInode_of_ne k _ (Nat.ne_of_lt (sound.fresh q (cached_mem listed).1))⟩
  · -- The inode comes onto the list.
    obtain ⟨here, found⟩ := not_or.mp old
    rw [not_not] at here found
    obtain rfl := same here
    subst here
    refine ⟨1, ?_⟩
    grind [Kernel.cached, heap_setInode_self, Kernel.seen, Kernel.opened]

theorem Fs.At.seen (at_ : s.At d h t) (tree : s.Tree) (dir : s.IsDir d) (n : Word) :
    ∃ cnts, t.toKernel.seen n (t.volume.record n.toNat) = { s.inodeOf n with iOpenCnts := cnts } := by
  cases at_ with
  | root ext => exact ⟨_, ext.seen tree.sound n _⟩
  | opened d ext =>
    have number := tree.number d dir
    unfold Fs.inodeOf at number ⊢
    rw [← ext.seen tree.sound] at number ⊢
    exact Kernel.seen_opened (tree.sound.extends ext) number fun same => by
      rw [same]
      rfl

theorem Fs.At.cached (at_ : s.At d h t) (tree : s.Tree) (dir : s.IsDir d) {n : Word} (other : n ≠ d) :
    t.toKernel.cached n = s.toKernel.cached n := by
  cases at_ with
  | root ext => exact ext.cached tree.sound n
  | opened d ext =>
    have number := tree.number d dir
    unfold Fs.inodeOf at number
    rw [← ext.seen tree.sound] at number
    exact (Kernel.cached_opened (tree.sound.extends ext) number (.inl other)).trans (ext.cached tree.sound n)

theorem Fs.At.old (at_ : s.At d h t) (tree : s.Tree) : h.inode t < t.brk := by
  cases at_ with
  | @root k ext =>
    have handle : Dir.root.inode (s.withKernel k) = s.rootDir := ext.rootDir
    rw [handle]
    exact Nat.lt_of_lt_of_le (tree.sound.fresh _ (Kernel.cached_mem tree.root).1) ext.brk
  | @opened k d ext =>
    change (k.opened d (s.volume.record d.toNat)).1 < (k.opened d (s.volume.record d.toNat)).2.brk
    unfold Kernel.opened
    cases found : k.cached d with
    | none => exact Nat.lt_succ_self _
    | some p => exact (tree.sound.extends ext).fresh p (Kernel.cached_mem found).1

theorem Fs.At.close (at_ : s.At d h t) (sound : s.toKernel.Sound) :
    ∃ k, s.toKernel.Extends k ∧ dirClose h t = .ok ((), s.withKernel k) := by
  cases at_ with
  | root ext => exact ⟨_, ext, rfl⟩
  | opened d ext => exact ⟨_, ext.trans (Kernel.closed_opened (sound.extends ext) d _), rfl⟩

theorem dirOpen_at (layout : Layout s.part) (ext : s.toKernel.Extends k) (small : d.toNat < 4096) :
    ∃ p t, dirOpen d (s.withKernel k) = .ok (.opened p, t) ∧ s.At d (.opened p) t := by
  refine ⟨_, _, ?_, .opened d ext⟩
  have run := (inodeOpen_eq_ok (s := s.withKernel k) layout (n := d)).mpr ⟨fun _ => small, rfl⟩
  rw [dirOpen, bind_of_ok run]
  rfl

end

/-- What the loop of `search_file` comes to: the number it returns, the type, the directory that
stays open, and how many components it has gone over. -/
structure Found where
  no : Word
  kind : FileType
  dirNo : Word
  count : Nat

def Fs.walk (s : Fs) (parentNo last d : Word) : List (List Byte) → Found
  | [] => ⟨last, .directory, parentNo, 0⟩
  | name :: names =>
    match s.find d name with
    | none => ⟨-1, .unknown, d, 1⟩
    | some entry =>
      if entry.fType = FileType.directory.code then
        { s.walk d entry.iNo entry.iNo names with count := (s.walk d entry.iNo entry.iNo names).count + 1 }
      else ⟨entry.iNo, .regular, d, 1⟩

/-- The handle is the one that the walk started from exactly when it has gone over one component. -/
def Found.Leaves (f : Found) (start h : Dir) : Prop :=
  f.kind ≠ .directory → f.count = 1 ∧ h = start ∨ 1 < f.count ∧ h ≠ .root

def Fs.found (s : Fs) (stack : Stack) (path : List Byte) : Found := s.walk 0 stack.entryNo 0 (components path)

section
variable {s : Fs} {parentNo last d : Word} {name : List Byte} {names : List (List Byte)}

theorem Fs.walk_missing (missing : s.find d name = none) :
    s.walk parentNo last d (name :: names) = ⟨-1, .unknown, d, 1⟩ := by
  rw [Fs.walk, missing]

theorem Fs.walk_dir (found : s.find d name = some entry) (isDir : entry.fType = FileType.directory.code) :
    s.walk parentNo last d (name :: names) =
      { s.walk d entry.iNo entry.iNo names with count := (s.walk d entry.iNo entry.iNo names).count + 1 } := by
  rw [Fs.walk, found]
  exact if_pos isDir

theorem Fs.walk_file (found : s.find d name = some entry) (isFile : entry.fType ≠ FileType.directory.code) :
    s.walk parentNo last d (name :: names) = ⟨entry.iNo, .regular, d, 1⟩ := by
  rw [Fs.walk, found]
  exact if_neg isFile

end

/-- An absolute path that the file system takes: the string without its final 0. -/
structure IsPath (path : List Byte) : Prop where
  absolute : path.head? = some slash
  short : path.length < maxPathLen
  plain : (0 : Byte) ∉ path
  names : ∀ name ∈ components path, name.length < 16

theorem IsPath.valid (isPath : IsPath path) : ∀ name ∈ components path, ValidName name := by
  intro name member
  obtain ⟨some, -, inside⟩ := mem_components member
  exact ⟨some, fun zero => isPath.plain (inside 0 zero), isPath.names name member⟩

def answer : Option (Item Word) → Word × FileType
  | none => (-1, .unknown)
  | some (.leaf n) => (n, .regular)
  | some (.node n) => (n, .directory)

theorem Fs.inodeOf_withKernel {s : Fs} (sound : s.toKernel.Sound) (ext : s.toKernel.Extends k) :
    (s.withKernel k).inodeOf = s.inodeOf := by
  funext n
  exact ext.seen sound n _

theorem searchFile_root (s : Fs) (stack : Stack) (root : isRootPath path = true) :
    searchFile stack path s = .ok ((0, ⟨[], .root, .directory⟩), s) := by
  rw [searchFile, if_pos root]
  rfl

namespace Fs.Tree

variable {s : Fs} (tree : s.Tree)
include tree

theorem withKernel (ext : s.toKernel.Extends k) : (s.withKernel k).Tree ∧ (s.withKernel k).look = s.look := by
  have inode := Fs.inodeOf_withKernel tree.sound ext
  have look : (s.withKernel k).look = s.look := by
    funext d name
    unfold Fs.look Fs.find
    rw [inode]
    rfl
  refine ⟨⟨tree.layout, tree.sound.extends ext, ?_, ?_, ?_, ?_, ?_, ?_⟩, look⟩
  · exact (ext.cached tree.sound 0).trans (tree.root.trans (congrArg some ext.rootDir.symm))
  · intro d dir
    rw [Fs.IsDir, look] at dir
    rw [inode]
    exact (tree.dirOk d dir).withKernel k fun _ => rfl
  · intro d dir
    rw [Fs.IsDir, look] at dir
    rw [inode]
    exact tree.number d dir
  · intro d entry dir
    rw [Fs.IsDir, look] at dir
    rw [inode]
    exact tree.typed d entry dir
  · intro d dir
    rw [Fs.IsDir, look] at dir
    rw [inode]
    exact tree.first d dir
  · rw [look]
    exact tree.isTree

theorem small (dir : s.IsDir d) : d.toNat < 4096 := by
  refine Reaches.induct (P := fun d => d.toNat < 4096) (by decide) (fun d e name dir _ here => ?_) dir
  obtain ⟨entry, found, item⟩ := Option.map_eq_some_iff.mp here
  have small := (tree.typed d entry dir ((tree.dirOk d dir).find_eq_some.mp found).1).2.1
  unfold DirEntry.item at item
  split at item
  · cases item
    exact small
  · cases item

omit tree in
theorem enter (dir : s.IsDir d) (found : s.find d name = some entry)
    (isDir : entry.fType = FileType.directory.code) : s.IsDir entry.iNo := by
  refine dir.step (?_ : s.look d name = some _)
  rw [Fs.look, found, Option.map_some, DirEntry.item, if_pos isDir]

omit tree in
theorem parseNext_eq {sub : Option (List Byte)} (valid : ∀ name ∈ restComponents sub, ValidName name) (t : Fs) :
    ∃ name sub', parseNext sub t = .ok ((name, sub'), t) ∧
      (name = [] ∧ restComponents sub = [] ∨ restComponents sub = name :: restComponents sub') := by
  cases rest : restComponents sub with
  | nil => exact ⟨[], none, parseNext_nil rest, .inl ⟨rfl, rfl⟩⟩
  | cons name names =>
    rw [rest] at valid
    obtain ⟨sub', parse, rest'⟩ :=
      parseNext_cons (s := t) rest fun other member => Nat.le_of_lt (valid other member).short
    exact ⟨name, sub', parse, .inr (by rw [rest'])⟩

theorem searchLoop_eq {fuel : Nat} {w : SearchState} {t : Fs} (dir : s.IsDir d)
    (above : s.IsDir w.parentInodeNo) (at_ : s.At d w.parentDir t) (enough : names.length < fuel)
    (next : w.name = [] ∧ names = [] ∨ names = w.name :: restComponents w.subPath)
    (valid : ∀ name ∈ names, ValidName name) (short : w.searchedPath.length + (joinPath names).length < maxPathLen) :
    ∃ h t', searchLoop fuel w t = .ok (((s.walk w.parentInodeNo w.iNo d names).no,
        ⟨w.searchedPath ++ joinPath (names.take (s.walk w.parentInodeNo w.iNo d names).count), h,
          (s.walk w.parentInodeNo w.iNo d names).kind⟩), t') ∧
      s.At (s.walk w.parentInodeNo w.iNo d names).dirNo h t' ∧
      (s.walk w.parentInodeNo w.iNo d names).Leaves w.parentDir h := by
  induction names generalizing fuel w d t with
  | nil =>
    obtain ⟨fuel, rfl⟩ : ∃ n, fuel = n + 1 := ⟨fuel - 1, by simp only [List.length_nil] at enough; omega⟩
    have done : w.name = [] := by
      rcases next with ⟨done, -⟩ | cons
      · exact done
      · cases cons
    obtain ⟨k, ext, close⟩ := at_.close tree.sound
    obtain ⟨p, t', open_, at'⟩ := dirOpen_at tree.layout ext (tree.small above)
    refine ⟨.opened p, t', ?_, at', fun other => absurd rfl other⟩
    rw [searchLoop, if_pos done, bind_of_ok close, bind_of_ok open_, run_pure]
    simp [Fs.walk, joinPath]
  | cons name names ih =>
    obtain ⟨fuel, rfl⟩ : ∃ n, fuel = n + 1 := ⟨fuel - 1, by simp only [List.length_cons] at enough; omega⟩
    obtain ⟨rfl, rfl⟩ : name = w.name ∧ names = restComponents w.subPath := by
      rcases next with ⟨-, nil⟩ | cons
      · cases nil
      · exact List.cons.inj cons
    have this := valid w.name List.mem_cons_self
    obtain ⟨k, rfl, cnts, heap⟩ := at_.heap tree
    have search := searchDirEntry_find tree.layout (tree.dirOk d dir) (k := k) (p := w.parentDir.inode (s.withKernel k))
      (fun i => by rw [heap]; rfl) this.some this.plain
    have joined : joinPath (w.name :: restComponents w.subPath) = slash :: w.name ++ joinPath
        (restComponents w.subPath) := rfl
    rw [joined, List.length_append, ← Nat.add_assoc] at short
    have room : w.searchedPath.length < maxPathLen := by omega
    have fits : (w.searchedPath ++ slash :: w.name).length < maxPathLen ∧ w.name.length < 16 := by
      rw [List.length_append]
      exact ⟨by omega, this.short⟩
    rw [searchLoop, if_neg this.some, require_bind room, require_bind fits,
      get_bind, bind_of_ok search]
    cases found : s.find d w.name with
    | none =>
      rw [Fs.walk_missing found]
      refine ⟨w.parentDir, _, ?_, at_, fun _ => .inl ⟨rfl, rfl⟩⟩
      simp [joinPath]
    | some entry =>
      obtain ⟨name', sub', parse, next'⟩ :=
        parseNext_eq (fun name member => valid name (List.mem_cons_of_mem _ member)) (s.withKernel k)
      dsimp only
      rw [bind_of_ok parse]
      dsimp only
      obtain ⟨kind, small, -⟩ := tree.typed d entry dir ((tree.dirOk d dir).find_eq_some.mp found).1
      by_cases isDir : entry.fType = FileType.directory.code
      · obtain ⟨k', ext, close⟩ := at_.close tree.sound
        obtain ⟨p, t', open_, at'⟩ := dirOpen_at tree.layout ext small
        have number : ((s.withKernel k).heap (w.parentDir.inode (s.withKernel k))).iNo = d := by
          have same : ((s.withKernel k).heap (w.parentDir.inode (s.withKernel k))) = { s.inodeOf d with
              iOpenCnts := cnts } := heap
          rw [same]
          exact tree.number d dir
        rw [if_pos isDir, Fs.walk_dir found isDir, get_bind, number, bind_of_ok close, bind_of_ok open_]
        obtain ⟨h', t'', run, at'', leaves⟩ :=
          ih (w := ⟨name', sub', .opened p, d, entry.iNo, w.searchedPath ++ slash :: w.name⟩)
          (enter dir found isDir) dir at' (Nat.lt_of_succ_lt_succ enough) next'
            (fun name member => valid name (List.mem_cons_of_mem _ member))
          (by rw [List.length_append]; exact short)
        refine ⟨h', t'', ?_, at'', fun other => .inr ?_⟩
        · rw [run]
          simp [joinPath]
        · rcases leaves other with ⟨once, rfl⟩ | ⟨more, apart⟩
          · exact ⟨Nat.lt_succ_of_le (Nat.le_of_eq once.symm), Dir.noConfusion⟩
          · exact ⟨Nat.lt_succ_of_lt more, apart⟩
      · have regular := kind.resolve_right isDir
        rw [if_neg isDir, if_pos regular, Fs.walk_file found isDir]
        refine ⟨w.parentDir, _, ?_, at_, fun _ => .inl ⟨rfl, rfl⟩⟩
        simp [joinPath]

/-- `search_file` is the walk from the root, except that some spellings of the root are known. -/
theorem searchFile_eq (stack : Stack) (isPath : IsPath path) (other : isRootPath path = false) :
    ∃ h t, searchFile stack path s = .ok (((s.found stack path).no,
        ⟨joinPath ((components path).take (s.found stack path).count), h, (s.found stack path).kind⟩), t) ∧
      s.At (s.found stack path).dirNo h t ∧ (s.found stack path).Leaves .root h := by
  have valid := isPath.valid
  have long : 1 < path.length := by
    rcases path with _ | ⟨c, _ | ⟨c', rest⟩⟩
    · cases isPath.absolute
    · have first : c = slash := Option.some.inj isPath.absolute
      subst first
      cases other
    · exact Nat.succ_lt_succ (Nat.succ_pos _)
  have checks : path.head? = some slash ∧ 1 < path.length ∧ path.length < maxPathLen :=
    ⟨isPath.absolute, long, isPath.short⟩
  obtain ⟨name, sub, parse, next⟩ : ∃ name sub, pathParse path = (name, sub) ∧
      (name = [] ∧ components path = [] ∨ components path = name :: restComponents sub) := by grind [pathParse_spec]
  have parse' :=
    parseName_eq (s := s) (show ShortNames (components path) from fun name member =>
    Nat.le_of_lt (valid name member).short)
  have most := length_components path
  rw [searchFile, if_neg (by rw [other]; exact Bool.false_ne_true), require_bind checks, bind_of_ok parse', parse]
  exact tree.searchLoop_eq (w := ⟨name, sub, .root, 0, stack.entryNo, []⟩) .start .start (.root (.refl _))
    (by omega) next valid
    (by rw [List.length_nil, Nat.zero_add]; exact Nat.lt_of_le_of_lt (length_joinPath_le isPath.absolute) isPath.short)

omit tree in
theorem walk_of_clear (parentNo last : Word) (dir : s.IsDir d) (clear : Clear s.look (.node d) names)
    (start : names = [] → last = d) :
    answer (resolve s.look (.node d) names) =
      ((s.walk parentNo last d names).no, (s.walk parentNo last d names).kind) := by
  induction names generalizing d parentNo last with
  | nil => rw [resolve_nil, Fs.walk, start rfl]; rfl
  | cons name names ih =>
    rw [resolve_node_cons]
    cases found : s.find d name with
    | none =>
      rw [Fs.look, found, Fs.walk_missing found]
      rfl
    | some entry =>
      have here : s.look d name = some entry.item := by rw [Fs.look, found]; rfl
      have clear' := clear entry.item here
      rw [here, Option.bind_some]
      unfold DirEntry.item at clear' ⊢
      split
      · grind [Fs.walk_dir, enter]
      · next isFile =>
        rw [if_neg isFile] at clear'
        rw [Fs.walk_file found isFile]
        cases names with
        | nil => rfl
        | cons name' names => cases clear'

omit tree in
theorem isDir_walk {parentNo last : Word} (names : List (List Byte)) (dir : s.IsDir d) (above : s.IsDir parentNo) :
    s.IsDir (s.walk parentNo last d names).dirNo := by
  induction names generalizing d parentNo last with
  | nil => exact above
  | cons name names ih =>
    cases found : s.find d name with
    | none =>
      rw [Fs.walk_missing found]
      exact dir
    | some entry =>
      by_cases isDir : entry.fType = FileType.directory.code
      · rw [Fs.walk_dir found isDir]
        exact ih (enter dir found isDir) dir
      · rw [Fs.walk_file found isDir]
        exact dir

theorem resolve_small {item : Item Word} (path : resolve s.look (.node 0) names = some item) :
    item.number.toNat < 4096 := by
  induction names using List.reverseRecOn with
  | nil =>
    cases path
    decide
  | append_singleton names name _ =>
    obtain ⟨d, before, here⟩ := resolve_concat_eq_some.mp path
    obtain ⟨entry, found, rfl⟩ := Option.map_eq_some_iff.mp here
    have small := (tree.typed d entry ⟨names, before⟩ ((tree.dirOk d ⟨names, before⟩).find_eq_some.mp found).1).2.1
    unfold DirEntry.item
    split <;> exact small

/-- A file in the middle of the path is returned in place of what the path names. -/
theorem walk_of_not_clear (parentNo last : Word) (dir : s.IsDir d) (file : ¬ Clear s.look (.node d) names) :
    resolve s.look (.node d) names = none ∧ (s.walk parentNo last d names).no.toNat < 4096 ∧
      (s.walk parentNo last d names).kind = .regular := by
  induction names generalizing d parentNo last with
  | nil => exact absurd trivial file
  | cons name names ih =>
    rw [resolve_node_cons]
    cases found : s.find d name with
    | none =>
      refine absurd (fun item here => ?_) file
      rw [Fs.look, found] at here
      cases here
    | some entry =>
      have here : s.look d name = some entry.item := by rw [Fs.look, found]; rfl
      have file' : ¬ Clear s.look entry.item names := fun clear => file fun item same => by
        rw [here] at same
        cases same
        exact clear
      have small := (tree.typed d entry dir ((tree.dirOk d dir).find_eq_some.mp found).1).2.1
      rw [here, Option.bind_some]
      unfold DirEntry.item at file' ⊢
      split
      · next isDir =>
        rw [if_pos isDir] at file'
        rw [Fs.walk_dir found isDir]
        exact ih _ _ (enter dir found isDir) file'
      · next isFile =>
        rw [if_neg isFile] at file'
        rw [Fs.walk_file found isFile]
        cases names with
        | nil => exact absurd trivial file'
        | cons name' names => exact ⟨rfl, small, rfl⟩

end Fs.Tree

theorem read_dirBlock (entries : List DirEntry) (j : Nat) :
    DirEntry.read (dirBlock entries) (24 * j) = (entries[j]?).getD .empty := by
  rw [← DirEntry.read_splice_image Memory.zero 0 ((entries[j]?).getD .empty)]
  grind [DirEntry.read_congr, dirEntrySize, Memory.splice_inside, dirBlock]

structure Fs.ListsIn (s : Fs) (inode : Inode) (entries : List DirEntry) : Prop where
  some : inode.sector 0 ≠ 0
  rest : ∀ k, k ≤ 12 → 0 < k → inode.sector k = 0
  used : ∃ i, s.BlockNo (inode.sector 0) i ∧ s.volume.bit .block i = true
  onDisk : (inode.sector 0).toNat ≤ maxLba
  block : ∀ a, a < 504 → s.volume.block (inode.sector 0).toNat a = dirBlock entries a
  few : entries.length ≤ 21
  named : ∀ e ∈ entries, e.fType ≠ 0 ∧ e.Named
  nodup : (entries.map DirEntry.name).Nodup

namespace Fs.ListsIn

variable {s : Fs} {inode : Inode} {entries : List DirEntry} (lists : s.ListsIn inode entries)
include lists

omit lists in
theorem pointer_zero : s.volume.pointer inode 0 = inode.sector 0 := Volume.pointer_direct _ _ (by omega)

theorem pointer_pos {k : Nat} (pos : 0 < k) : s.volume.pointer inode k = 0 := by
  by_cases direct : k < 12
  · rw [Volume.pointer_direct _ _ direct, lists.rest k (Nat.le_of_lt direct) pos]
  · exact Volume.pointer_of_no_table (lists.rest 12 (Nat.le_refl _) (by omega)) (by omega)

theorem slot {k j : Nat} (hj : j < 21) :
    s.volume.slot inode k j = if k = 0 then (entries[j]?).getD .empty else .empty := by
  rcases Nat.eq_zero_or_pos k with rfl | pos
  · have present : s.volume.pointer inode 0 ≠ 0 := by rw [pointer_zero]; exact lists.some
    rw [Volume.slot_of_some present, pointer_zero, if_pos rfl, ← read_dirBlock]
    exact DirEntry.read_congr fun i hi => lists.block _ (by omega)
  · rw [Volume.slot_of_none (lists.pointer_pos pos), if_neg (Nat.ne_of_gt pos)]

theorem slot_live {k j : Nat} (hj : j < 21) (live : (s.volume.slot inode k j).fType ≠ 0) :
    k = 0 ∧ entries[j]? = .some (s.volume.slot inode k j) := by
  rw [lists.slot hj] at live ⊢
  split at live
  · next first =>
    subst first
    rw [if_pos rfl]
    cases found : entries[j]? with
    | none =>
      rw [found] at live
      exact absurd rfl live
    | some e => exact ⟨rfl, rfl⟩
  · exact absurd rfl live

theorem hasEntry (e : DirEntry) : s.volume.HasEntry inode e ↔ e ∈ entries := by
  constructor
  · rintro ⟨live, k, j, hk, hj, rfl⟩
    exact List.mem_of_getElem? (lists.slot_live hj live).2
  · intro member
    obtain ⟨j, found⟩ := List.mem_iff_getElem?.mp member
    have inside : j < 21 := Nat.lt_of_lt_of_le (List.getElem?_eq_some_iff.mp found).1 lists.few
    refine ⟨(lists.named e member).1, 0, j, by omega, inside, ?_⟩
    rw [lists.slot inside, if_pos rfl, found]
    rfl

theorem dirOk : s.DirOk inode := by
  refine ⟨⟨fun k hk present => ?_, fun k k' hk hk' present same => ?_⟩, fun k hk => ?_, fun k j hk hj dead =>
    ?_, fun k j hk hj live => ?_,
    fun k j k' j' hk hj hk' hj' live live' same => ?_⟩
  · rcases Nat.eq_zero_or_pos k with rfl | pos
    · rw [pointer_zero]
      exact lists.used
    · exact absurd (lists.pointer_pos pos) present
  · grind [lists.pointer_pos]
  · rcases Nat.eq_zero_or_pos k with rfl | pos
    · rw [pointer_zero]
      exact lists.onDisk
    · rw [lists.pointer_pos pos]
      exact Nat.zero_le _
  · grind [lists.slot, lists.named]
  · exact (lists.named _ (List.mem_of_getElem? (lists.slot_live hj live).2)).2
  · obtain ⟨rfl, found⟩ := lists.slot_live hj live
    obtain ⟨rfl, found'⟩ := lists.slot_live hj' live'
    refine ⟨rfl, ?_⟩
    refine (List.getElem?_inj (by rw [List.length_map]; exact (List.getElem?_eq_some_iff.mp found).1) lists.nodup).mp ?_
    rw [List.getElem?_map, List.getElem?_map, found, found', Option.map_some, Option.map_some, same]

end Fs.ListsIn

theorem DirEntry.number_item (e : DirEntry) : e.item.number = e.iNo := by
  unfold DirEntry.item
  split <;> rfl

theorem DirEntry.item_eq_node {e : DirEntry} {n : Word} (same : e.item = .node n) :
    e.fType = FileType.directory.code ∧ e.iNo = n := by
  unfold DirEntry.item at same
  split at same
  · next isDir =>
    cases same
    exact ⟨isDir, rfl⟩
  · cases same

section Lists

variable {s : Fs} {dirs : List Word} {live : Word → List DirEntry}
  (lists : ∀ d ∈ dirs, s.ListsIn (s.inodeOf d) (live d))
include lists

theorem Fs.look_of_lists (dir : d ∈ dirs) (name : List Byte) (item : Item Word) :
    s.look d name = some item ↔ ∃ e ∈ live d, e.name = name ∧ e.item = item := by
  rw [Fs.look, Option.map_eq_some_iff]
  constructor
  · rintro ⟨e, found, same⟩
    obtain ⟨member, named⟩ := (lists d dir).dirOk.find_eq_some.mp found
    exact ⟨e, ((lists d dir).hasEntry e).mp member, named, same⟩
  · rintro ⟨e, member, named, same⟩
    exact ⟨e, (lists d dir).dirOk.find_eq_some.mpr ⟨((lists d dir).hasEntry e).mpr member, named⟩, same⟩

theorem Fs.isDir_of_lists (start : 0 ∈ dirs) (closed : ∀ d ∈ dirs, ∀ e ∈ live d, e.fType = FileType.directory.code →
    e.iNo ∈ dirs)
    (dir : s.IsDir d) : d ∈ dirs := by
  refine Reaches.induct (P := fun d => d ∈ dirs) start (fun d m name _ dir here => ?_) dir
  obtain ⟨e, member, -, same⟩ := (Fs.look_of_lists lists dir name _).mp here
  obtain ⟨isDir, rfl⟩ := e.item_eq_node same
  exact closed d dir e member isDir

/-- A tree from the lists of the entries of its directories. Everything about the lists can be computed. -/
theorem Fs.Tree.of_lists (layout : Layout s.part) (sound : s.toKernel.Sound)
    (root : s.toKernel.cached 0 = some s.rootDir) (start : 0 ∈ dirs)
    (closed : ∀ d ∈ dirs, ∀ e ∈ live d, e.fType = FileType.directory.code → e.iNo ∈ dirs)
    (number : ∀ d ∈ dirs, (s.inodeOf d).iNo = d)
    (typed : ∀ d ∈ dirs, ∀ e ∈ live d, (e.fType = FileType.regular.code ∨ e.fType = FileType.directory.code) ∧
    e.iNo.toNat < 4096 ∧
      slash ∉ e.name)
    (first : ∀ d ∈ dirs, ∃ e e' rest, live d = e :: e' :: rest ∧ e.name = dot ∧ e'.name = dotDot ∧ e.item = .node d)
    (aboveRoot : ∃ e ∈ live 0, e.name = dotDot ∧ e.item = .node 0)
    (above : ∀ d ∈ dirs, ∀ e ∈ live d, e.name ≠ dot → e.name ≠ dotDot → e.fType = FileType.directory.code →
      ∃ e' ∈ live e.iNo, e'.name = dotDot ∧ e'.item = .node d)
    (unique : ∀ d ∈ dirs, ∀ d' ∈ dirs, ∀ e ∈ live d, ∀ e' ∈ live d', e.name ≠ dot → e.name ≠ dotDot → e'.name ≠ dot →
    e'.name ≠ dotDot →
      e.iNo = e'.iNo → d = d' ∧ e.name = e'.name)
    (notRoot : ∀ d ∈ dirs, ∀ e ∈ live d, e.name ≠ dot → e.name ≠ dotDot → e.iNo ≠ 0) : s.Tree := by
  have reach (d : Word) (dir : s.IsDir d) : d ∈ dirs := Fs.isDir_of_lists lists start closed dir
  have look {d : Word} (dir : d ∈ dirs) := Fs.look_of_lists lists dir
  refine ⟨layout, sound, root, fun d dir => (lists d (reach d dir)).dirOk, fun d dir => number d (reach d dir),
    fun d e dir member => ?_,
    fun d dir => ?_, ?_, ?_, ?_, ?_, ?_⟩
  · exact typed d (reach d dir) e (((lists d (reach d dir)).hasEntry e).mp member)
  · obtain ⟨e, e', rest, same, named, named', -⟩ := first d (reach d dir)
    rw [(lists d (reach d dir)).slot (by omega), (lists d (reach d dir)).slot (by omega), if_pos rfl, if_pos rfl, same]
    exact ⟨named, named'⟩
  · intro d dir
    obtain ⟨e, e', rest, same, named, -, item⟩ := first d (reach d dir)
    exact (look (reach d dir) dot _).mpr ⟨e, by rw [same]; exact List.mem_cons_self, named, item⟩
  · exact (look start dotDot _).mpr aboveRoot
  · intro d name m dir notDot notDotDot here
    obtain ⟨e, member, rfl, same⟩ := (look (reach d dir) name _).mp here
    grind [e.item_eq_node]
  · intro d name item d' name' item' dir dir' notDot notDotDot notDot' notDotDot' here here' same
    obtain ⟨e, member, rfl, rfl⟩ := (look (reach d dir) name _).mp here
    obtain ⟨e', member', rfl, rfl⟩ := (look (reach d' dir') name' _).mp here'
    grind [e.number_item, e'.number_item]
  · intro d name item dir notDot notDotDot here
    obtain ⟨e, member, rfl, rfl⟩ := (look (reach d dir) name _).mp here
    rw [e.number_item]
    exact notRoot d (reach d dir) e member notDot notDotDot

end Lists

theorem forall_mem_of_all {A : Type} {p : A → Prop} [DecidablePred p] {l : List A}
    (all : l.all (fun a => decide (p a)) = true) :
    ∀ a ∈ l, p a :=
  fun a member => of_decide_eq_true (List.all_eq_true.mp all a member)

theorem smallTree_listsIn :
    ∀ d ∈ ([0, 1, 4] : List Word), smallTree.ListsIn (smallTree.inodeOf d) (smallTreeEntries d) := by
  have one (d lba : Word) (i : Nat) (sector : (smallTree.inodeOf d).sector 0 = lba) (rest : ∀ k, k ≤ 12 → 0 < k →
      (smallTree.inodeOf d).sector k = 0)
      (number : smallTree.BlockNo lba i) (used : smallTree.volume.bit .block i = true) (onDisk : lba.toNat ≤ maxLba)
      (block : ∀ a, a < 512 → smallTree.disk (512 * lba.toNat + a) = dirBlock (smallTreeEntries d) a)
        (few : (smallTreeEntries d).length ≤ 21)
      (named : ∀ e ∈ smallTreeEntries d, e.fType ≠ 0 ∧ (∃ i, i < 16 ∧ e.image i = 0) ∧ e.name ≠ [])
      (nodup : ((smallTreeEntries d).map DirEntry.name).Nodup) :
        smallTree.ListsIn (smallTree.inodeOf d) (smallTreeEntries d) := by
    refine ⟨fun zero => ?_, rest, ⟨i, by rwa [sector], used⟩, by rwa [sector], fun a ha => ?_, few,
      fun e member => ⟨(named e member).1, (named e member).2.1, (named e member).2.2⟩, nodup⟩
    · have low := number.2
      rw [← sector, zero] at low
      exact absurd low.symm (Nat.ne_of_gt (Nat.add_pos_left (by decide) i))
    · have low : smallTree.part.sb.dataStartLba.toNat ≤ lba.toNat := by
        have sum := number.2
        omega
      rw [sector]
      exact (congrFun (if_pos low) a).trans ((sectors_apply (by omega)).trans (block a (by omega)))
  have at_ (lba a : Nat) (ha : a < 512) : (512 * lba + a) / 512 = lba ∧ (512 * lba + a) % 512 = a := by omega
  intro d member
  simp only [List.mem_cons, List.not_mem_nil, or_false] at member
  rcases member with rfl | rfl | rfl
  · refine one 0 612 0 (by decide +kernel) (by decide +kernel) ⟨by decide, by decide⟩ (by decide) (by decide)
      (fun a ha => ?_) (by decide)
      (forall_mem_of_all (by decide +kernel)) (by decide +kernel)
    obtain ⟨sector, offset⟩ := at_ 612 a ha
    simp [smallTree, sector, offset]
  · refine one 1 613 1 (by decide +kernel) (by decide +kernel) ⟨by decide, by decide⟩ (by decide) (by decide)
      (fun a ha => ?_) (by decide)
      (forall_mem_of_all (by decide +kernel)) (by decide +kernel)
    obtain ⟨sector, offset⟩ := at_ 613 a ha
    simp [smallTree, sector, offset]
  · refine one 4 614 2 (by decide +kernel) (by decide +kernel) ⟨by decide, by decide⟩ (by decide) (by decide)
      (fun a ha => ?_) (by decide)
      (forall_mem_of_all (by decide +kernel)) (by decide +kernel)
    obtain ⟨sector, offset⟩ := at_ 614 a ha
    simp [smallTree, sector, offset]

theorem smallTree_sound : smallTree.toKernel.Sound := by
  refine ⟨fun p member => ?_, by decide, fun p member => ?_⟩
  · obtain rfl := List.mem_singleton.mp member
    decide
  · obtain rfl := List.mem_singleton.mp member
    decide

theorem smallTree_closed : ∀ d ∈ ([0, 1, 4] : List Word), ∀ e ∈ smallTreeEntries d,
    e.fType = FileType.directory.code → e.iNo ∈ ([0, 1, 4] : List Word) :=
  forall_mem_of_all (by decide +kernel)

theorem smallTree_isDir (dir : smallTree.IsDir d) : d ∈ ([0, 1, 4] : List Word) :=
  Fs.isDir_of_lists smallTree_listsIn (by decide) smallTree_closed dir

theorem smallTree_tree : smallTree.Tree := by
  refine Fs.Tree.of_lists smallTree_listsIn (layout_smallPartition.congr rfl) smallTree_sound rfl (by decide)
    smallTree_closed
    ?_ ?_ ?_ ?_ ?_ ?_ ?_
  · exact forall_mem_of_all (by decide +kernel)
  · exact forall_mem_of_all (by decide +kernel)
  · intro d member
    simp only [List.mem_cons, List.not_mem_nil, or_false] at member
    rcases member with rfl | rfl | rfl
    · exact ⟨_, _, _, rfl, by decide +kernel, by decide +kernel, by decide +kernel⟩
    · exact ⟨_, _, _, rfl, by decide +kernel, by decide +kernel, by decide +kernel⟩
    · exact ⟨_, _, _, rfl, by decide +kernel, by decide +kernel, by decide +kernel⟩
  · decide +kernel
  · exact forall_mem_of_all (by decide +kernel)
  · intro d member
    simp only [List.mem_cons, List.not_mem_nil, or_false] at member
    rcases member with rfl | rfl | rfl
    · exact forall_mem_of_all (by decide +kernel)
    · exact forall_mem_of_all (by decide +kernel)
    · exact forall_mem_of_all (by decide +kernel)
  · exact forall_mem_of_all (by decide +kernel)

end LaiMiniOs
