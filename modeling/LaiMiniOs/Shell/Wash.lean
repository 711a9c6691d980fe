import Mathlib.Data.List.Flatten
import LaiMiniOs.Fs.Resolution

/-! `wash_path` of the shell: `shell/buildin_cmd.c`.

The shell takes `.` and `..` out of a path by the text alone, while the kernel follows the
entries of the directories.
-/

set_option autoImplicit false

namespace LaiMiniOs
open Foundation Prog

variable {names : List (List Byte)} {s : Fs} {path : List Byte}

/-- Cut a path at its last slash, which stays when it is the first character. -/
def cutLast (path : List Byte) : List Byte :=
  match afterLastSlash path with
  | none => path
  | some last => if path.length = last.length + 1 then [slash] else path.take (path.length - (last.length + 1))

def washName (newAbsPath name : List Byte) : List Byte :=
  if name = dotDot then cutLast newAbsPath
  else if name = dot then newAbsPath
  else (if newAbsPath = [slash] then newAbsPath else newAbsPath ++ [slash]) ++ name

/-- The loop of `wash_path`; the names and the buffer of `size` bytes have to hold what is written. -/
def washLoop (size : Nat) : Nat → List Byte → Option (List Byte) → List Byte → FsM (List Byte)
  | 0, _, _, _ => Prog.fail .diverges
  | fuel + 1, name, subPath, newAbsPath =>
    if name = [] then return newAbsPath
    else do
      Prog.require (name.length < 16 ∧ (washName newAbsPath name).length < size) .undefined
      let (name', subPath') ← parseNext subPath
      washLoop size fuel name' subPath' (washName newAbsPath name)

def washPathIn (size : Nat) (oldAbsPath : List Byte) : FsM (List Byte) := do
  Prog.assert (oldAbsPath.head? = some slash)
  let (name, subPath) ← parseName oldAbsPath
  if name = [] then return [slash] else washLoop size (oldAbsPath.length + 2) name subPath [slash]

def washPath (oldAbsPath : List Byte) : FsM (List Byte) := washPathIn maxPathLen oldAbsPath

def spell (names : List (List Byte)) : List Byte := if names = [] then [slash] else joinPath names

theorem spell_ne (some : names ≠ []) (valid : ∀ name ∈ names, name ≠ []) : spell names ≠ [slash] := by
  cases names with
  | nil => exact absurd rfl some
  | cons name names =>
    intro same
    have length := congrArg List.length same
    grind [spell, joinPath, List.length_eq_zero_iff]

theorem cutLast_spell (plain : ∀ name ∈ names, slash ∉ name) : cutLast (spell names) = spell names.dropLast := by
  cases names using List.reverseRecOn with
  | nil => decide
  | append_singleton names name =>
    have last := plain name List.mem_concat_self
    have some : names ++ [name] ≠ [] := by simp
    rw [spell, if_neg some, joinPath_concat, cutLast, afterLastSlash_concat _ last, List.dropLast_concat]
    dsimp only
    cases names with
    | nil =>
      rw [if_pos (by simp [joinPath]), spell, if_pos rfl]
    | cons first rest =>
      have long : joinPath (first :: rest) ≠ [] := by simp [joinPath]
      have length := List.length_pos_iff.mpr long
      rw [if_neg (by rw [List.length_append, List.length_cons]; omega), spell, if_neg (List.cons_ne_nil _ _),
        List.length_append, List.length_cons,
        Nat.add_sub_cancel, List.take_left]

theorem washName_spell (valid : ∀ name ∈ names, name ≠ [] ∧ slash ∉ name) (name : List Byte) :
    washName (spell names) name = spell (washStep dot dotDot names name) := by
  unfold washName washStep
  split
  · exact cutLast_spell fun name member => (valid name member).2
  · split
    · rfl
    · by_cases none : names = []
      · subst none
        rw [spell, if_pos rfl, if_pos rfl]
        simp [spell, joinPath]
      · rw [if_neg (spell_ne none fun name member => (valid name member).1), spell, if_neg none, spell,
          if_neg (by simp), joinPath_concat]
        simp

theorem wash_sublist (names : List (List Byte)) : (wash dot dotDot names).Sublist names := by
  unfold wash
  induction names using List.reverseRecOn with
  | nil => exact List.Sublist.refl _
  | append_singleton names name ih =>
    rw [List.foldl_append, List.foldl_cons, List.foldl_nil, washStep]
    split
    · exact ((List.dropLast_sublist _).trans ih).trans (List.sublist_append_left _ _)
    grind

theorem length_spell_le {names' : List (List Byte)} (sub : names.Sublist names') (some : names' ≠ []) :
    (spell names).length ≤ (joinPath names').length := by
  by_cases none : names = []
  · subst none
    cases names' with
    | nil => exact absurd rfl some
    | cons name rest => simp [spell, joinPath]
  · rw [spell, if_neg none]
    exact (sub.flatMap (slash :: ·)).length_le

theorem washLoop_eq (done : List (List Byte)) {size fuel : Nat} {name : List Byte} {sub : Option (List Byte)}
    (enough : names.length < fuel) (next : name = [] ∧ names = [] ∨ names = name :: restComponents sub)
    (valid : ∀ name ∈ done ++ names, ValidName name ∧ slash ∉ name) (short : (joinPath (done ++ names)).length < size) :
    washLoop size fuel name sub (spell (wash dot dotDot done)) s = .ok (spell (wash dot dotDot (done ++ names)), s) :=
  by
  induction names generalizing fuel name sub done with
  | nil =>
    obtain ⟨fuel, rfl⟩ : ∃ n, fuel = n + 1 := ⟨fuel - 1, by simp only [List.length_nil] at enough; omega⟩
    have last : name = [] := by
      rcases next with ⟨last, -⟩ | cons
      · exact last
      · cases cons
    rw [washLoop, if_pos last, List.append_nil]
    rfl
  | cons first names ih =>
    obtain ⟨fuel, rfl⟩ : ∃ n, fuel = n + 1 := ⟨fuel - 1, by simp only [List.length_cons] at enough; omega⟩
    obtain ⟨rfl, rfl⟩ : first = name ∧ names = restComponents sub := by
      rcases next with ⟨-, nil⟩ | cons
      · cases nil
      · exact List.cons.inj cons
    have this := (valid first (List.mem_append_right _ List.mem_cons_self)).1
    have step : washName (spell (wash dot dotDot done)) first = spell (wash dot dotDot (done ++ [first])) := by
      rw [washName_spell fun name member => ?_]
      · unfold wash
        rw [List.foldl_append]
        rfl
      · have old := valid name (List.mem_append_left _ ((wash_sublist done).subset member))
        exact ⟨old.1.some, old.2⟩
    have split : done ++ first :: restComponents sub = (done ++ [first]) ++ restComponents sub := by simp
    rw [split] at valid short ⊢
    have fits : first.length < 16 ∧ (washName (spell (wash dot dotDot done)) first).length < size := by
      refine ⟨this.short, Nat.lt_of_le_of_lt ?_ short⟩
      rw [step]
      exact length_spell_le ((wash_sublist _).trans (List.sublist_append_left _ _)) (by simp)
    obtain ⟨name', sub', parse, next'⟩ :=
      Fs.Tree.parseNext_eq (show ∀ name ∈ restComponents sub, ValidName name from fun name member =>
      (valid name (List.mem_append_right _ member)).1) s
    rw [washLoop, if_neg this.some, require_bind fits, bind_of_ok parse, step]
    exact ih _ (Nat.lt_of_succ_lt_succ enough) next' valid short

section
variable {size : Nat} (absolute : path.head? = some slash) (plain : (0 : Byte) ∉ path)
  (short : ∀ name ∈ components path, name.length < 16)
include absolute plain short

theorem washPathIn_eq (room : path.length < size) :
    washPathIn size path s = .ok (spell (wash dot dotDot (components path)), s) := by
  have valid (name : List Byte) (member : name ∈ components path) : ValidName name ∧ slash ∉ name := by
    obtain ⟨some, apart, inside⟩ := mem_components member
    exact ⟨⟨some, fun zero => plain (inside 0 zero), short name member⟩, apart⟩
  have parse := parseName_eq (s := s) (show ShortNames (components path) from fun name member =>
    Nat.le_of_lt (short name member))
  have most := length_components path
  rw [washPathIn, require_bind absolute, bind_of_ok parse]
  rcases pathParse_spec path with ⟨none, found⟩ | ⟨name, sub, found, first⟩
  · rw [found, none]
    rfl
  · rw [found]
    dsimp only
    rw [if_neg (valid name (by rw [first]; exact List.mem_cons_self)).1.some]
    refine washLoop_eq [] (show (components path).length < _ by omega) (.inr first) valid ?_
    exact Nat.lt_of_le_of_lt (length_joinPath_le absolute) room

end

theorem washPath_eq (isPath : IsPath path) : washPath path s = .ok (spell (wash dot dotDot (components path)), s) :=
  washPathIn_eq isPath.absolute isPath.plain isPath.names isPath.short

theorem splitOn_joinPath (plain : ∀ name ∈ names, slash ∉ name) : (joinPath names).splitOn slash = [] :: names := by
  induction names using List.reverseRecOn with
  | nil => rfl
  | append_singleton names name ih =>
    rw [joinPath_concat, splitOn_append_sep, ih fun name' member => plain name' (List.mem_append_left _ member),
      splitOn_of_notMem (plain name List.mem_concat_self)]
    rfl

theorem wash_of_proper (proper : Proper dot dotDot names) : wash dot dotDot names = names := by
  induction names using List.reverseRecOn with
  | nil => rfl
  | append_singleton names name ih =>
    obtain ⟨notDot, notDotDot⟩ := proper name List.mem_concat_self
    have before := ih fun name' member => proper name' (List.mem_append_left _ member)
    unfold wash at before ⊢
    rw [List.foldl_append, before]
    simp only [List.foldl_cons, List.foldl_nil, washStep, if_neg notDotDot, if_neg notDot]

theorem components_spell (valid : ∀ name ∈ names, name ≠ [] ∧ slash ∉ name) : components (spell names) = names := by
  unfold spell
  split
  · next none =>
    rw [none]
    rfl
  · exact components_joinPath valid

theorem head_spell (names : List (List Byte)) : (spell names).head? = some slash := by
  cases names with
  | nil => rfl
  | cons name rest => rfl

theorem zero_notMem_spell (plain : ∀ name ∈ names, (0 : Byte) ∉ name) : (0 : Byte) ∉ spell names := by
  intro zero
  unfold spell at zero
  split at zero
  · exact absurd zero (by decide)
  · exact zero_notMem_joinPath plain zero

theorem isPath_spell (valid : ∀ name ∈ names, ValidName name ∧ slash ∉ name)
    (short : (spell names).length < maxPathLen) :
    IsPath (spell names) ∧ components (spell names) = names := by
  have same := components_spell fun name member => ⟨(valid name member).1.some, (valid name member).2⟩
  refine ⟨⟨head_spell names, short, ?_, fun name member => ?_⟩, same⟩
  · exact zero_notMem_spell fun name member => (valid name member).1.plain
  · rw [same] at member
    exact (valid name member).1.short

theorem isPath_washed (isPath : IsPath path) (some : components path ≠ []) :
    IsPath (spell (wash dot dotDot (components path))) ∧
      components (spell (wash dot dotDot (components path))) = wash dot dotDot (components path) := by
  have sub := wash_sublist (components path)
  refine isPath_spell (fun name member => ?_) ?_
  · exact ⟨isPath.valid name (sub.subset member), (mem_components (sub.subset member)).2.1⟩
  · exact Nat.lt_of_le_of_lt (Nat.le_trans (length_spell_le sub some) (length_joinPath_le isPath.absolute)) isPath.short

/-- For every absolute path with components of at most 15 characters, `wash_path` stores the names on
the stack of components, each behind a slash, or `/` for the empty stack; the result is not longer than
the path, and washing it again changes nothing. -/
theorem washPathIn_normal {size : Nat} {path : List Byte} (absolute : path.head? = some slash)
    (plain : (0 : Byte) ∉ path)
    (short : ∀ name ∈ components path, name.length < 16) (room : path.length < size) (s : Fs) :
    ∃ washed, washPathIn size path s = .ok (washed, s) ∧ washed = spell (wash dot dotDot (components path)) ∧
      (wash dot dotDot (components path) ≠ [] → washed.splitOn slash = [] :: wash dot dotDot (components path)) ∧
      (∀ name ∈ wash dot dotDot (components path), name ≠ [] ∧ name ≠ dot ∧ name ≠ dotDot) ∧
      washed.length ≤ path.length ∧ washPathIn size washed s = .ok (washed, s) := by
  have sub := wash_sublist (components path)
  have names (name : List Byte) (member : name ∈ wash dot dotDot (components path)) :=
    mem_components (sub.subset member)
  have less : (spell (wash dot dotDot (components path))).length ≤ path.length := by
    by_cases none : components path = []
    · rw [none]
      exact List.length_pos_of_mem (List.mem_of_mem_head? absolute)
    · exact Nat.le_trans (length_spell_le sub none) (length_joinPath_le absolute)
  have same := components_spell fun name member => ⟨(names name member).1, (names name member).2.1⟩
  have again : washPathIn size (spell (wash dot dotDot (components path))) s =
      .ok (spell (wash dot dotDot (components path)), s) := by
    refine (washPathIn_eq (head_spell _) ?_ ?_ (Nat.lt_of_le_of_lt less room)).trans ?_
    · exact zero_notMem_spell fun name member zero => plain ((names name member).2.2 0 zero)
    · rw [same]
      exact fun name member => short name (sub.subset member)
    · rw [same, wash_of_proper (proper_wash _)]
  refine ⟨_, washPathIn_eq absolute plain short room, rfl, fun some => ?_, fun name member => ?_, less, again⟩
  · rw [spell, if_neg some]
    exact splitOn_joinPath fun name member => (names name member).2.1
  · exact ⟨(names name member).1, proper_wash _ name member⟩

/-- `/b/../a/./g` becomes `/a/g`. -/
theorem washPathIn_normal_dots : wash dot dotDot
    (components [0x2f, 0x62, 0x2f, 0x2e, 0x2e, 0x2f, 0x61, 0x2f, 0x2e, 0x2f, 0x67]) = [[0x61], [0x67]] ∧
    ∃ washed, washPathIn 512 [0x2f, 0x62, 0x2f, 0x2e, 0x2e, 0x2f, 0x61, 0x2f, 0x2e, 0x2f, 0x67] smallTree =
      .ok (washed, smallTree) ∧
      washed.length ≤ 11 ∧ washPathIn 512 washed smallTree = .ok (washed, smallTree) := by
  obtain ⟨washed, run, -, -, -, less, again⟩ := @washPathIn_normal 512
    [0x2f, 0x62, 0x2f, 0x2e, 0x2e, 0x2f, 0x61, 0x2f, 0x2e, 0x2f, 0x67] rfl (by decide) (by decide) (by decide) smallTree
  exact ⟨by decide, washed, run, less, again⟩

theorem Fs.Tree.searchable_of_resolves {stack : Stack} {item : Item Word}
    (resolves : s.resolvePath path = some item) (known : components path = [] → isRootPath path = true) :
    s.Searchable stack path :=
  ⟨fun none => .inl (known none), Clear.of_resolve resolves⟩

/-- `search_file` finds the same object by a path and by what `wash_path` makes of it. -/
theorem searchFile_washPath {s : Fs} (tree : s.Tree) (stack stack' : Stack) {path : List Byte} (isPath : IsPath path)
    (some : components path ≠ [])
    {item : Item Word} (resolves : s.resolvePath path = .some item) :
    ∃ washed, washPath path s = .ok (washed, s) ∧ ∃ no record record' t t', searchFile stack path s =
      .ok ((no, record), t) ∧
      searchFile stack' washed s = .ok ((no, record'), t') ∧ record'.fileType = record.fileType := by
  obtain ⟨isPath', names⟩ := isPath_washed isPath some
  have resolves' : s.resolvePath (spell (wash dot dotDot (components path))) = .some item := by
    unfold Fs.resolvePath
    rw [names]
    exact tree.isTree.resolve_wash resolves
  have known (none : components (spell (wash dot dotDot (components path))) = []) :
      isRootPath (spell (wash dot dotDot (components path))) = true := by
    rw [names] at none
    rw [none]
    decide
  obtain ⟨record, t, -, run, kind, -, -⟩ := tree.searchFile_answer isPath
    (show s.Searchable stack path from Fs.Tree.searchable_of_resolves resolves fun none => absurd none some)
  obtain ⟨record', t', -, run', kind', -, -⟩ := tree.searchFile_answer isPath'
    (show s.Searchable stack' _ from Fs.Tree.searchable_of_resolves resolves' known)
  grind [washPath_eq]

theorem searchFile_washPath_dots : smallTree.Tree ∧
    IsPath [0x2f, 0x62, 0x2f, 0x2e, 0x2e, 0x2f, 0x61, 0x2f, 0x2e, 0x2f, 0x67] ∧
    washPath [0x2f, 0x62, 0x2f, 0x2e, 0x2e, 0x2f, 0x61, 0x2f, 0x2e, 0x2f, 0x67] smallTree =
      .ok ([0x2f, 0x61, 0x2f, 0x67], smallTree) ∧
    ∃ washed, washPath [0x2f, 0x62, 0x2f, 0x2e, 0x2e, 0x2f, 0x61, 0x2f, 0x2e, 0x2f, 0x67] smallTree =
      .ok (washed, smallTree) ∧
      ∃ no record record' t t', searchFile ⟨0, 0, 0⟩ [0x2f, 0x62, 0x2f, 0x2e, 0x2e, 0x2f, 0x61, 0x2f, 0x2e, 0x2f,
        0x67] smallTree = .ok ((no, record), t) ∧
        searchFile ⟨0, 0, 0⟩ washed smallTree = .ok ((no, record'), t') ∧ record'.fileType = record.fileType := by
  have isPath : IsPath [0x2f, 0x62, 0x2f, 0x2e, 0x2e, 0x2f, 0x61, 0x2f, 0x2e, 0x2f, 0x67] :=
    ⟨rfl, by decide, by decide, by decide⟩
  have resolves : smallTree.resolvePath [0x2f, 0x62, 0x2f, 0x2e, 0x2e, 0x2f, 0x61, 0x2f, 0x2e, 0x2f, 0x67] =
      some (.leaf 3) := by
    decide +kernel
  exact ⟨smallTree_tree, isPath, by rw [washPath_eq isPath]; rfl,
    searchFile_washPath smallTree_tree ⟨0, 0, 0⟩ ⟨0, 0, 0⟩ isPath (by decide) resolves⟩

end LaiMiniOs
