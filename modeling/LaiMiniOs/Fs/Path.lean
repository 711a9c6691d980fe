import LaiMiniOs.Foundation.Words
import LaiMiniOs.Fs.Dir

/-! Path strings: `path_parse` and `path_depth_cnt` of `fs/fs.c`.

A string is the list of its characters, without the 0 at its end. Parsing cuts off one
component at a time; the components of a string are what lies between its slashes.
-/

set_option autoImplicit false

namespace LaiMiniOs
open Foundation Prog

variable {path name : List Byte} {sub : Option (List Byte)}

def slash : Byte := 0x2f

def skipSlashes : List Byte → List Byte
  | [] => []
  | c :: rest => if c = slash then skipSlashes rest else c :: rest

/-- `path_parse`: what goes to `name_store`, and the rest of the path, `none` for `NULL`. -/
def pathParse (pathname : List Byte) : List Byte × Option (List Byte) :=
  let start := skipSlashes pathname
  let rest := start.dropWhile (· ≠ slash)
  (start.takeWhile (· ≠ slash), if rest = [] then none else some rest)

def parseName (pathname : List Byte) : FsM (List Byte × Option (List Byte)) := do
  Prog.require ((pathParse pathname).1.length ≤ 16) .undefined
  return pathParse pathname

/-- The next component, from a rest that may be `NULL`; the array was cleared before. -/
def parseNext : Option (List Byte) → FsM (List Byte × Option (List Byte))
  | none => return ([], none)
  | some p => parseName p

/-- The loop of `path_depth_cnt`: it runs while the name is not empty. -/
def depthLoop : Nat → List Byte → Option (List Byte) → Nat → FsM Nat
  | 0, _, _, _ => Prog.fail .diverges
  | fuel + 1, name, p, depth => do
    if name = [] then return depth
    else do
      let (name', p') ← parseNext p
      depthLoop fuel name' p' (depth + 1)

/-- `path_depth_cnt`. The array `name` is not cleared before the first parse: when the path has
no component, its first character is whatever the stack holds, here `junk`. -/
def pathDepthCnt (junk : Byte) (pathname : List Byte) : FsM Nat := do
  let (name, p) ← parseName pathname
  let name := if name = [] ∧ junk ≠ 0 then [junk] else name
  depthLoop (pathname.length + 2) name p 0

def components (path : List Byte) : List (List Byte) := (path.splitOn slash).filter (· ≠ [])

def restComponents : Option (List Byte) → List (List Byte)
  | none => []
  | some p => components p

def joinPath (names : List (List Byte)) : List Byte := names.flatMap (slash :: ·)

def afterLastSlash (path : List Byte) : Option (List Byte) :=
  if slash ∈ path then some (path.reverse.takeWhile (· ≠ slash)).reverse else none

theorem joinPath_concat (names : List (List Byte)) (name : List Byte) :
    joinPath (names ++ [name]) = joinPath names ++ slash :: name := by
  simp [joinPath]

theorem afterLastSlash_concat (path : List Byte) (plain : slash ∉ name) :
    afterLastSlash (path ++ slash :: name) = some name := by
  have stop : (path ++ slash :: name).reverse = name.reverse ++ slash :: path.reverse := by simp
  have all (c : Byte) (member : c ∈ name.reverse) : decide (c ≠ slash) = true :=
    decide_eq_true fun same => plain (same ▸ List.mem_reverse.mp member)
  rw [afterLastSlash, if_pos (by simp), stop, List.takeWhile_append_of_pos all, List.takeWhile_cons_of_neg (by simp),
    List.append_nil, List.reverse_reverse]

theorem components_slash (path : List Byte) : components (slash :: path) = components path := words_sep path

theorem components_append_slash (path path' : List Byte) :
    components (path ++ slash :: path') = components path ++ components path' := words_append_sep path path'

theorem components_name (some : name ≠ []) (plain : slash ∉ name) : components name = [name] :=
  words_of_notMem some plain

theorem components_joinPath {names : List (List Byte)} (valid : ∀ name ∈ names, name ≠ [] ∧ slash ∉ name) :
    components (joinPath names) = names := by
  induction names using List.reverseRecOn with
  | nil => rfl
  | append_singleton names name ih =>
    have last := valid name (by simp)
    rw [joinPath, List.flatMap_append, List.flatMap_singleton, components_append_slash, components_name last.1 last.2]
    exact congrArg (· ++ [name]) (ih fun name' member => valid name' (by simp [member]))

theorem mem_components (member : name ∈ components path) : name ≠ [] ∧ slash ∉ name ∧ ∀ c ∈ name, c ∈ path :=
  mem_words member

theorem zero_notMem_joinPath {names : List (List Byte)} (plain : ∀ name ∈ names, (0 : Byte) ∉ name) :
    (0 : Byte) ∉ joinPath names := by
  intro zero
  obtain ⟨name, member, inside⟩ := List.mem_flatMap.mp zero
  rcases List.mem_cons.mp inside with slash_ | inside
  · exact absurd slash_ (by decide)
  · exact plain name member inside

theorem length_joinPath_components (path : List Byte) : (joinPath (components path)).length ≤ path.length + 1 := by
  have split : ((path.splitOn slash).flatMap (slash :: ·)).length = path.length + 1 := by
    induction path with
    | nil => rfl
    | cons c path ih =>
      rw [splitOn_cons]
      split
      next =>
        grind
      next =>
        cases first : path.splitOn slash with
        | nil => exact absurd first (splitOn_ne_nil slash path)
        | cons head tail =>
          grind [List.modifyHead_cons]
  rw [← split, joinPath, components]
  generalize path.splitOn slash = parts
  induction parts with
  | nil => exact Nat.le_refl _
  | cons part parts ih =>
    grind

theorem length_joinPath_le (absolute : path.head? = some slash) :
    (joinPath (components path)).length ≤ path.length := by
  cases path with
  | nil => cases absolute
  | cons c rest =>
    obtain rfl := Option.some.inj absolute
    rw [components_slash]
    exact length_joinPath_components rest

theorem length_components (path : List Byte) : (components path).length ≤ path.length + 1 := by
  refine Nat.le_trans ?_ (length_joinPath_components path)
  generalize components path = names
  induction names with
  | nil => exact Nat.le_refl _
  | cons name names ih =>
    grind [joinPath]

theorem skipSlashes_eq (path : List Byte) : skipSlashes path = path.dropWhile (· = slash) := by
  induction path with
  | nil => rfl
  | cons c path ih => simp [skipSlashes, List.dropWhile_cons, ih]

theorem pathParse_spec (path : List Byte) : (components path = [] ∧ pathParse path = ([], none)) ∨
    ∃ name sub, pathParse path = (name, sub) ∧ components path = name :: restComponents sub := by
  unfold pathParse
  rw [skipSlashes_eq]
  rcases @words_cases _ _ slash path with ⟨start, none⟩ | ⟨name, rest, -, first, left, -, -, names⟩
  · rw [start]
    exact .inl ⟨none, rfl⟩
  · refine .inr ⟨_, _, rfl, names.trans ?_⟩
    rw [first, left]
    cases rest <;> rfl

def ShortNames (names : List (List Byte)) : Prop := ∀ name ∈ names, name.length ≤ 16

section
variable {s : Fs}

theorem parseName_eq (short : ShortNames (components path)) :
    parseName path s = .ok (pathParse path, s) := by
  have fits : (pathParse path).1.length ≤ 16 := by
    rcases pathParse_spec path with ⟨-, parse⟩ | ⟨name, sub, parse, first⟩
    · rw [parse]
      exact Nat.zero_le _
    · rw [parse]
      exact short name (by rw [first]; exact List.mem_cons_self)
  rw [parseName, require_bind fits]
  rfl

theorem parseNext_nil (none : restComponents sub = []) :
    parseNext sub s = .ok (([], .none), s) := by
  cases sub with
  | none => rfl
  | some path =>
    rcases pathParse_spec path with ⟨-, parse⟩ | ⟨name, sub, parse, first⟩
    · rw [parseNext,
        parseName_eq (by rw [show components path = [] from none]; exact fun _ member => nomatch member), parse]
    · rw [restComponents, first] at none
      cases none

theorem parseNext_cons {names : List (List Byte)}
    (first : restComponents sub = name :: names) (short : ShortNames (name :: names)) :
    ∃ sub', parseNext sub s = .ok ((name, sub'), s) ∧ restComponents sub' = names := by
  cases sub with
  | none => cases first
  | some path =>
    grind [pathParse_spec, restComponents, parseNext, parseName_eq]

theorem depthLoop_eq {names : List (List Byte)} {fuel depth : Nat} (some : name ≠ [])
    (rest : restComponents sub = names) (valid : ∀ name ∈ names, name ≠ [] ∧ name.length ≤ 16)
    (enough : names.length + 1 < fuel) :
    depthLoop fuel name sub depth s = .ok (depth + 1 + names.length, s) := by
  induction names generalizing name sub fuel depth with
  | nil =>
    obtain ⟨fuel, rfl⟩ : ∃ n, fuel = n + 2 := ⟨fuel - 2, by simp only [List.length_nil] at enough; omega⟩
    rw [depthLoop, if_neg some, bind_of_ok (parseNext_nil rest)]
    rfl
  | cons name' names ih =>
    obtain ⟨fuel, rfl⟩ : ∃ n, fuel = n + 1 := ⟨fuel - 1, by omega⟩
    obtain ⟨sub', parse, rest'⟩ := parseNext_cons (s := s) rest fun name member => (valid name member).2
    have left : depthLoop fuel name' sub' (depth + 1) s = .ok (depth + 1 + 1 + names.length, s) :=
      ih (valid name' List.mem_cons_self).1 rest' (fun name member => valid name (List.mem_cons_of_mem _ member))
        (Nat.lt_of_succ_lt_succ enough)
    rw [depthLoop, if_neg some, bind_of_ok parse, left, List.length_cons]
    congr 2
    omega

theorem pathDepthCnt_eq (some : components path ≠ []) (short : ShortNames (components path)) (junk : Byte) :
    pathDepthCnt junk path s = .ok ((components path).length, s) := by
  rcases pathParse_spec path with ⟨none, -⟩ | ⟨name, sub, parse, names⟩
  · exact absurd none some
  · have most := length_components path
    have first := mem_components (show name ∈ components path by rw [names]; exact List.mem_cons_self)
    rw [names, List.length_cons] at most
    rw [pathDepthCnt, bind_of_ok (parseName_eq short), parse]
    dsimp only
    rw [if_neg fun none => first.1 none.1, names, List.length_cons]
    refine (depthLoop_eq first.1 rfl (fun name member => ?_) (by omega)).trans ?_
    · have member' : name ∈ components path := by rw [names]; exact List.mem_cons_of_mem _ member
      exact ⟨(mem_components member').1, short name member'⟩
    · congr 2
      omega

end

end LaiMiniOs
