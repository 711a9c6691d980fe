import LaiMiniOs.Fs.Walk

/-! What the checks of `sys_open` and `sys_mkdir` come to, in terms of what the path names. -/

set_option autoImplicit false

namespace LaiMiniOs
open Foundation Prog

variable {s : Fs} {stack : Stack} {path : List Byte} {flags : Word}

/-- `sys_open` goes on after its checks: the path names a file, or, with `O_CREAT`, only the last
component is missing. -/
def Fs.Passes (s : Fs) (stack : Stack) (path : List Byte) (flags : Word) : Prop :=
  path.getLast? ≠ some slash ∧ isRootPath path = false ∧ (s.found stack path).kind ≠ .directory ∧
    (s.found stack path).count = (components path).length ∧ ((s.found stack path).no = -1 ↔ creates flags = true)

/-- `sys_mkdir` goes on after its checks: only the last component is missing. -/
def Fs.Missing (s : Fs) (stack : Stack) (path : List Byte) : Prop :=
  isRootPath path = false ∧ (s.found stack path).no = -1 ∧ (s.found stack path).count = (components path).length

theorem Fs.walk_count_le (parentNo last d : Word) (names : List (List Byte)) :
    (s.walk parentNo last d names).count ≤ names.length := by
  induction names generalizing parentNo last d with
  | nil => exact Nat.le_refl 0
  | cons name names ih =>
    rw [List.length_cons]
    cases found : s.find d name with
    | none =>
      rw [Fs.walk_missing found]
      exact Nat.succ_le_succ (Nat.zero_le _)
    | some entry =>
      by_cases isDir : entry.fType = FileType.directory.code
      · rw [Fs.walk_dir found isDir]
        exact Nat.succ_le_succ (ih _ _ _)
      · rw [Fs.walk_file found isDir]
        exact Nat.succ_le_succ (Nat.zero_le _)

theorem Fs.walk_count_pos (parentNo last d : Word) {names : List (List Byte)} (some : names ≠ []) :
    0 < (s.walk parentNo last d names).count := by
  obtain ⟨name, names, rfl⟩ := List.exists_cons_of_ne_nil some
  cases found : s.find d name with
  | none => rw [Fs.walk_missing found]; exact Nat.one_pos
  | some entry =>
    by_cases isDir : entry.fType = FileType.directory.code
    · rw [Fs.walk_dir found isDir]
      exact Nat.succ_pos _
    · rw [Fs.walk_file found isDir]
      exact Nat.one_pos

theorem Fs.Tree.file_apart (tree : s.Tree) {d : Word} {name : List Byte} {entry : DirEntry} (dir : s.IsDir d)
    (found : s.find d name = some entry) (file : entry.fType ≠ FileType.directory.code) : entry.iNo ≠ d := by
  have leaf : s.look d name = some (.leaf entry.iNo) := by
    rw [Fs.look, found, Option.map_some, DirEntry.item, if_neg file]
  have plain {name' : List Byte} {n : Word} (node : s.look d name' = some (.node n)) : name ≠ name' := by
    rintro rfl
    cases leaf.symm.trans node
  obtain ⟨names, proper, path⟩ := tree.isTree.exists_proper dir
  rcases List.eq_nil_or_concat' names with rfl | ⟨front, last, rfl⟩
  · cases path
    exact tree.isTree.not_root 0 name _ dir (plain (tree.isTree.itself 0 dir)) (plain tree.isTree.above_root) leaf
  · -- The directory is named too, by another entry.
    obtain ⟨n, path', here⟩ := resolve_concat_eq_some.mp path
    obtain ⟨notCur, notPar⟩ := proper last (List.mem_append_right _ (List.mem_singleton_self last))
    intro same
    obtain ⟨rfl, rfl⟩ := tree.isTree.unique d name _ n last _ dir ⟨front, path'⟩ (plain (tree.isTree.itself d dir))
      (plain (tree.isTree.above n last d ⟨front, path'⟩ notCur notPar here)) notCur notPar leaf here same
    cases leaf.symm.trans here

theorem Fs.Tree.walk_apart (tree : s.Tree) {parentNo last d : Word} (names : List (List Byte)) (dir : s.IsDir d)
    (file : (s.walk parentNo last d names).kind ≠ .directory) (there : (s.walk parentNo last d names).no ≠ -1) :
    (s.walk parentNo last d names).no ≠ (s.walk parentNo last d names).dirNo := by
  induction names generalizing d parentNo last with
  | nil => exact absurd rfl file
  | cons name names ih =>
    cases found : s.find d name with
    | none =>
      rw [Fs.walk_missing found] at there
      exact absurd rfl there
    | some entry =>
      by_cases isDir : entry.fType = FileType.directory.code
      · rw [Fs.walk_dir found isDir] at file there ⊢
        exact ih (Fs.Tree.enter dir found isDir) file there
      · rw [Fs.walk_file found isDir]
        exact tree.file_apart dir found isDir

theorem IsPath.last (isPath : IsPath path) : ∃ start name, path = start ++ slash :: name ∧ slash ∉ name := by
  have member : slash ∈ path.reverse := List.mem_reverse.mpr (List.mem_of_mem_head? (by rw [isPath.absolute]; rfl))
  obtain ⟨back, front, split, first⟩ := List.eq_append_cons_of_mem member
  refine ⟨front.reverse, back.reverse, ?_, fun inside => first (List.mem_reverse.mp inside)⟩
  rw [← List.reverse_reverse path, split]
  simp

theorem IsPath.filename (isPath : IsPath path) (open_ : path.getLast? ≠ some slash) :
    ∃ name, afterLastSlash path = some name ∧ name ∈ components path := by
  obtain ⟨start, name, rfl, plain⟩ := isPath.last
  have some : name ≠ [] := by
    rintro rfl
    exact open_ (by simp)
  refine ⟨name, afterLastSlash_concat start plain, ?_⟩
  rw [components_append_slash, components_name some plain]
  exact List.mem_append_right _ (List.mem_singleton_self name)

theorem IsPath.searchedDepth (isPath : IsPath path) (s : Fs) (stack : Stack) (junk : Byte) (t : Fs)
    (some : 0 < (s.found stack path).count) :
    pathDepthCnt junk (joinPath ((components path).take (s.found stack path).count)) t =
      .ok ((s.found stack path).count, t) := by
  have names : components (joinPath ((components path).take (s.found stack path).count)) = (components path).take
      (s.found stack path).count :=
    components_joinPath fun name member =>
      ⟨(mem_components (List.mem_of_mem_take member)).1, (mem_components (List.mem_of_mem_take member)).2.1⟩
  have most : (s.found stack path).count ≤ (components path).length := Fs.walk_count_le _ _ _ _
  have run := @pathDepthCnt_eq (joinPath ((components path).take (s.found stack path).count)) t
    (fun none => ?_) (fun name member => ?_) junk
  · rwa [names, List.length_take, Nat.min_eq_left most] at run
  · rw [names] at none
    have length := congrArg List.length none
    rw [List.length_take, Nat.min_eq_left most, List.length_nil] at length
    omega
  · rw [names] at member
    exact Nat.le_of_lt (isPath.names name (List.mem_of_mem_take member))

/-- `sys_open` returns `-1` from its checks, or goes on with what the path names, in a directory that
is open through the handle of the root exactly when the path has one component. -/
theorem Fs.Tree.openChecks_eq (tree : s.Tree) (isPath : IsPath path) (stack : Stack) (known : flags.toNat ≤ 7) :
    ∃ found u, openChecks stack path flags s = .ok (found, u) ∧ (¬s.Passes stack path flags → found = none) ∧
      (s.Passes stack path flags →
      ∃ searched h, found = some ((s.found stack path).no, ⟨searched, h, (s.found stack path).kind⟩) ∧
        s.At (s.found stack path).dirNo h u ∧ (h = .root ↔ (components path).length = 1)) := by
  have start : path ≠ [] := by
    rintro rfl
    cases isPath.absolute
  rw [openChecks, require_bind start]
  by_cases last : path.getLast? = some slash
  · rw [if_pos last]
    exact ⟨none, s, rfl, fun _ => rfl, fun passes => absurd last passes.1⟩
  obtain ⟨name, -, member⟩ := isPath.filename last
  have depth := pathDepthCnt_eq (s := s) (List.ne_nil_of_mem member)
    (fun name member => Nat.le_of_lt (isPath.names name member))
    stack.pathChar
  rw [if_neg last, require_bind known, bind_of_ok depth]
  cases root : isRootPath path with
  | true =>
    rw [bind_of_ok (searchFile_root s stack root)]
    exact ⟨none, s, rfl, fun _ => rfl, fun passes => Bool.noConfusion (root.symm.trans passes.2.1)⟩
  | false =>
    obtain ⟨h, t, search, at_, leaves⟩ := tree.searchFile_eq stack isPath root
    obtain ⟨k, -, close⟩ := at_.close tree.sound
    rw [bind_of_ok search]
    dsimp only
    have drop (record : PathSearchRecord) (handle : record.parentDir = h) :
        dropSearch record t = .ok (none, s.withKernel k) := by
      rw [dropSearch, handle, bind_of_ok close]
      rfl
    by_cases dir : (s.found stack path).kind = .directory
    · rw [if_pos dir, drop _ rfl]
      exact ⟨none, _, rfl, fun _ => rfl, fun passes => absurd dir passes.2.2.1⟩
    have gone := leaves dir
    rw [if_neg dir, bind_of_ok (isPath.searchedDepth s stack _ t (by omega))]
    split
    · next other =>
      rw [drop _ rfl]
      exact ⟨none, _, rfl, fun _ => rfl, fun passes => absurd passes.2.2.2.1.symm other⟩
    next whole =>
    rw [not_not] at whole
    split
    · next missing =>
      rw [drop _ rfl]
      refine ⟨none, _, rfl, fun _ => rfl, fun passes => ?_⟩
      simp [passes.2.2.2.2.mp missing.1] at missing
    split
    · next there =>
      rw [drop _ rfl]
      exact ⟨none, _, rfl, fun _ => rfl, fun passes => absurd (passes.2.2.2.2.mpr there.2) there.1⟩
    · next free taken =>
      have passes : s.Passes stack path flags := ⟨last, root, dir, whole.symm, by grind⟩
      refine ⟨_, t, rfl, fun other => absurd passes other, fun _ => ⟨_, h, rfl, at_, ?_⟩⟩
      rw [whole]
      rcases gone with ⟨once, start⟩ | ⟨more, apart⟩
      · exact ⟨fun _ => once, fun _ => start⟩
      · exact ⟨fun start => absurd start apart, fun once => by omega⟩

theorem Fs.Tree.sysMkdir_eq (tree : s.Tree) (isPath : IsPath path) (stack : Stack)
    (named : components path = [] → isRootPath path = true ∨ stack.entryNo ≠ -1) :
    (¬s.Missing stack path → ∃ t, sysMkdir stack path s = .ok (-1, t)) ∧
      (s.Missing stack path → ∃ name h u, name.length < 16 ∧ s.At (s.found stack path).dirNo h u ∧
        sysMkdir stack path s = makeDir h name u) := by
  rw [sysMkdir]
  cases root : isRootPath path with
  | true =>
    rw [bind_of_ok (searchFile_root s stack root)]
    exact ⟨fun _ => ⟨s, rfl⟩, fun missing => Bool.noConfusion (root.symm.trans missing.1)⟩
  | false =>
    obtain ⟨h, t, search, at_, -⟩ := tree.searchFile_eq stack isPath root
    obtain ⟨k, -, close⟩ := at_.close tree.sound
    have refused (record : PathSearchRecord) (handle : record.parentDir = h) :
        refuse record t = .ok (-1, s.withKernel k) := by
      rw [refuse, handle, bind_of_ok close]
      rfl
    rw [bind_of_ok search]
    dsimp only
    by_cases there : (s.found stack path).no ≠ -1
    · rw [if_pos there, refused _ rfl]
      exact ⟨fun _ => ⟨_, rfl⟩, fun missing => absurd missing.2.1 there⟩
    have some : components path ≠ [] := by
      intro none
      have entry := (named none).resolve_left (by rw [root]; exact Bool.false_ne_true)
      rw [not_not, Fs.found, none] at there
      exact entry there
    have depth := pathDepthCnt_eq (s := t) some (fun name member => Nat.le_of_lt (isPath.names name member))
      stack.pathChar
    rw [if_neg there, bind_of_ok depth, bind_of_ok (isPath.searchedDepth s stack _ t (Fs.walk_count_pos _ _ _ some))]
    by_cases whole : (components path).length = (s.found stack path).count
    · rw [if_neg (not_not.mpr whole), ← whole, List.take_length]
      obtain ⟨names, name, split⟩ := (components path).eq_nil_or_concat.resolve_left some
      rw [List.concat_eq_append] at split
      have member : name ∈ components path := by rw [split]; exact List.mem_concat_self
      rw [split, joinPath_concat, afterLastSlash_concat _ (mem_components member).2.1]
      exact ⟨fun other => absurd ⟨root, not_not.mp there, whole.symm⟩ other,
        fun _ => ⟨name, h, t, isPath.names name member, at_, rfl⟩⟩
    · rw [if_pos whole, refused _ rfl]
      exact ⟨fun _ => ⟨_, rfl⟩, fun missing => absurd missing.2.2.symm whole⟩

end LaiMiniOs
