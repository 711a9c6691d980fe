import LaiMiniOs.Fs.DirNames
import LaiMiniOs.Fs.Syscalls

/-! The arrays behind `path_parse`.

The callers hand `path_parse` an array of 16 bytes, and the copying loop stops only at a slash or at the end of
the path. Here every call is recorded with the array it was given, and with it every store into the array; what
`search_file` appends to `searched_path` is recorded as well.
-/

set_option autoImplicit false

namespace LaiMiniOs
open Foundation Prog

variable {path : List Byte} {m junk : Memory}

def parseStores (i : Nat) : List Byte → List (Nat × Byte)
  | [] => []
  | c :: rest => if c = slash then [] else (i, c) :: parseStores (i + 1) rest

structure ParseCall where
  pathname : List Byte
  nameStore : Memory

namespace ParseCall
variable (call : ParseCall)

def stores : List (Nat × Byte) := parseStores 0 (skipSlashes call.pathname)

def name : Memory := call.stores.foldl (fun m store => Function.update m store.1 store.2) call.nameStore

def Safe : Prop := (∀ store ∈ call.stores, store.1 < 16) ∧ ∃ i, i < 16 ∧ call.name i = 0

end ParseCall

/-- `memset(name, 0, MAX_FILE_NAME_LEN)` and the next parse, if something is left: the call, the array
and the rest. -/
def parseOn : Option (List Byte) → List ParseCall × Memory × Option (List Byte)
  | none => ([], Memory.zero, none)
  | some p => ([⟨p, Memory.zero⟩], (ParseCall.mk p Memory.zero).name, (pathParse p).2)

/-- The calls in the loop of `path_depth_cnt` and of `wash_path`; `none` when the fuel does not suffice. -/
def loopCalls : Nat → Memory → Option (List Byte) → Option (List ParseCall)
  | 0, _, _ => none
  | fuel + 1, name, p =>
    if name 0 = 0 then some []
    else
      let (calls, name, p) := parseOn p
      (loopCalls fuel name p).map (calls ++ ·)

def depthCalls (junk : Memory) (pathname : List Byte) : Option (List ParseCall) :=
  (loopCalls (pathname.length + 3) (ParseCall.mk pathname junk).name (pathParse pathname).2).map (⟨pathname, junk⟩ :: ·)

def washCalls (oldAbsPath : List Byte) : Option (List ParseCall) :=
  let call : ParseCall := ⟨oldAbsPath, Memory.zero⟩
  if oldAbsPath.head? ≠ some slash then some []
  else if call.name 0 = 0 then some [call]
  else (loopCalls (oldAbsPath.length + 3) call.name (pathParse oldAbsPath).2).map (call :: ·)

/-- The loop of `search_file`: its calls, and `searched_path` after each `strcat` of a name. What `search_dir_entry`
finds for the name at each depth, the type of the entry, is `found`. -/
def searchCallsFrom (found : Nat → Option Word) : Nat → Nat → Memory → Option (List Byte) → List Byte →
    Option (List ParseCall × List (List Byte))
  | 0, _, _, _, _ => none
  | fuel + 1, depth, name, subPath, searchedPath =>
    if name 0 = 0 ∨ maxPathLen ≤ searchedPath.length then some ([], [])
    else
      let searchedPath := searchedPath ++ slash :: nameFrom name 0 16
      match found depth with
      | none => some ([], [searchedPath])
      | some fType =>
        let (calls, name, subPath) := parseOn subPath
        if fType = FileType.regular.code then some (calls, [searchedPath])
        else (searchCallsFrom found fuel (depth + 1) name subPath searchedPath).map fun (later, paths) =>
          (calls ++ later, searchedPath :: paths)

/-- The calls of `search_file`, and what it makes of the empty `searched_path`. -/
def searchCalls (found : Nat → Option Word) (pathname : List Byte) : Option (List ParseCall × List (List Byte)) :=
  if isRootPath pathname ∨ ¬ (pathname.head? = some slash ∧ 1 < pathname.length ∧ pathname.length < maxPathLen)
    then some ([], [])
  else
    let call : ParseCall := ⟨pathname, Memory.zero⟩
    (searchCallsFrom found (pathname.length + 3) 0 call.name (pathParse pathname).2 []).map fun (later, paths) =>
      (call :: later, paths)

theorem parseStores_eq (i : Nat) (path : List Byte) :
    parseStores i path = ((path.takeWhile (· ≠ slash)).zipIdx i).map Prod.swap := by
  induction path generalizing i with
  | nil => rfl
  | cons c rest ih =>
    rw [parseStores]
    split
    · next same =>
      rw [List.takeWhile_cons_of_neg (by simpa using same)]
      rfl
    · next other =>
      rw [List.takeWhile_cons_of_pos (by simpa using other), ih]
      rfl

theorem foldl_stores (name : List Byte) (i j : Nat) (m : Memory) :
    ((name.zipIdx i).map Prod.swap).foldl (fun m store => Function.update m store.1 store.2) m j =
      if i ≤ j ∧ j < i + name.length then name.getD (j - i) 0 else m j := by
  induction name generalizing i m with
  | nil => exact (if_neg fun both => absurd both.2 (Nat.not_lt_of_le both.1)).symm
  | cons c name ih =>
    rw [List.zipIdx_cons, List.map_cons, List.foldl_cons, ih]
    grind [Function.update]

theorem skipSlashes_sublist (path : List Byte) : (skipSlashes path).Sublist path := by
  rw [skipSlashes_eq]
  exact List.dropWhile_sublist _

theorem pathParse_sublist (path : List Byte) : (pathParse path).1.Sublist path :=
  (List.takeWhile_sublist _).trans (skipSlashes_sublist path)

theorem pathParse_subset (path : List Byte) :
    (∀ c ∈ (pathParse path).1, c ∈ path) ∧ ∀ rest, (pathParse path).2 = some rest → ∀ c ∈ rest, c ∈ path := by
  refine ⟨fun c member => (pathParse_sublist path).subset member, fun rest left c member => ?_⟩
  rw [pathParse] at left
  dsimp only at left
  split at left
  · cases left
  · cases left
    exact ((List.dropWhile_sublist _).trans (skipSlashes_sublist path)).subset member

namespace ParseCall
variable (call : ParseCall)

theorem stores_eq : call.stores = ((pathParse call.pathname).1.zipIdx 0).map Prod.swap := parseStores_eq 0 _

theorem name_eq (j : Nat) : call.name j = if j < (pathParse call.pathname).1.length
    then (pathParse call.pathname).1.getD j 0 else call.nameStore j := by
  rw [name, stores_eq, foldl_stores]
  simp

variable {call} in
theorem name_zero (plain : (0 : Byte) ∉ call.pathname) (some : components call.pathname ≠ []) : call.name 0 ≠ 0 := by
  have inside := (pathParse_subset call.pathname).1 0
  rcases pathParse_spec call.pathname with ⟨none, -⟩ | ⟨first, sub, parse, names⟩
  · exact absurd none some
  · have start := (mem_components (show first ∈ components call.pathname by rw [names]; exact List.mem_cons_self)).1
    rw [parse] at inside
    rw [name_eq, parse, if_pos (List.length_pos_iff.mpr start)]
    grind

/-- The array takes a name exactly when it has at most 16 characters and a zero stands behind it. -/
theorem safe_iff (plain : (0 : Byte) ∉ call.pathname) :
    call.Safe ↔ (pathParse call.pathname).1.length ≤ 16 ∧ ∃ i, i < 16 ∧ (pathParse call.pathname).1.length ≤ i ∧
      call.nameStore i = 0 := by
  have inside : (∀ store ∈ call.stores, store.1 < 16) ↔ (pathParse call.pathname).1.length ≤ 16 := by
    rw [stores_eq]
    constructor
    · intro below
      by_contra more
      have far : ((pathParse call.pathname).1.getD 16 0, 16) ∈ (pathParse call.pathname).1.zipIdx 0 :=
        List.mem_zipIdx_iff_getElem?.mpr (by grind)
      exact Nat.lt_irrefl 16 (below _ (List.mem_map_of_mem far))
    · intro fits store member
      obtain ⟨pair, inside, rfl⟩ := List.mem_map.mp member
      have := List.snd_lt_of_mem_zipIdx inside
      simp only [Prod.fst_swap]
      omega
  refine and_congr inside (exists_congr fun i => and_congr_right fun _ => ?_)
  rw [name_eq]
  split
  · next low =>
    refine ⟨fun zero => absurd ((pathParse_subset call.pathname).1 0 ?_) plain, fun behind =>
      absurd low (Nat.not_lt_of_le behind.1)⟩
    grind
  · next high => exact ⟨fun zero => ⟨Nat.le_of_not_lt high, zero⟩, And.right⟩

theorem safe_zero (plain : (0 : Byte) ∉ path) : (ParseCall.mk path Memory.zero).Safe ↔
    (pathParse path).1.length < 16 := by
  rw [safe_iff _ plain]
  exact ⟨fun ⟨_, i, low, high, _⟩ => Nat.lt_of_le_of_lt high low, fun short =>
    ⟨Nat.le_of_lt short, _, short, Nat.le_refl _, rfl⟩⟩

end ParseCall

theorem parseOn_cases {sub : Option (List Byte)} (plain : ∀ p, sub = some p → (0 : Byte) ∉ p) :
    ∃ calls name sub', parseOn sub = (calls, name, sub') ∧
      ((∀ call ∈ calls, call.Safe) ↔ ∀ first ∈ (restComponents sub).head?, first.length < 16) ∧
      (∀ p, sub' = some p → (0 : Byte) ∉ p) ∧ (restComponents sub = [] ∧ name 0 = 0 ∨
        ∃ first, restComponents sub = first :: restComponents sub' ∧ name 0 ≠ 0 ∧
          (first.length < 16 → nameFrom name 0 16 = first)) := by
  cases sub with
  | none => exact ⟨_, _, _, rfl, by simp [restComponents], by simp, .inl ⟨rfl, rfl⟩⟩
  | some p =>
    have zero := plain p rfl
    have within := pathParse_subset p
    refine ⟨_, _, _, rfl, ?_, fun q rest member => zero (within.2 q rest 0 member), ?_⟩
    · rw [List.forall_mem_singleton, ParseCall.safe_zero zero]
      rcases pathParse_spec p with ⟨none, parse⟩ | ⟨first, sub', parse, names⟩
      · simp [restComponents, none, parse]
      · simp [restComponents, names, parse]
    · rcases pathParse_spec p with ⟨none, parse⟩ | ⟨first, sub', parse, names⟩
      · refine .inl ⟨none, ?_⟩
        rw [ParseCall.name_eq, parse]
        rfl
      · have apart : (0 : Byte) ∉ first := fun member => zero (within.1 0 (by rw [parse]; exact member))
        refine .inr ⟨first, by rw [parse]; exact names, ?_, fun short => nameFrom_eq short apart fun i hi => ?_⟩
        · exact ParseCall.name_zero zero (by rw [names]; exact List.cons_ne_nil _ _)
        · rw [ParseCall.name_eq, parse, Nat.zero_add]
          grind [Memory.zero]

theorem loopCalls_safe {fuel : Nat} {name : Memory} {sub : Option (List Byte)} (plain : ∀ p, sub = some p →
    (0 : Byte) ∉ p)
    (enough : (restComponents sub).length + 1 < fuel) :
    ∃ calls, loopCalls fuel name sub = some calls ∧
      ((∀ call ∈ calls, call.Safe) ↔ name 0 = 0 ∨ ∀ first ∈ restComponents sub, first.length < 16) := by
  induction fuel generalizing name sub with
  | zero => exact absurd enough (Nat.not_lt_zero _)
  | succ fuel ih =>
    rw [loopCalls]
    by_cases done : name 0 = 0
    · rw [if_pos done]
      exact ⟨[], rfl, fun _ => .inl done, fun _ _ member => nomatch member⟩
    rw [if_neg done]
    obtain ⟨calls, name', sub', parse, safe, plain', ⟨none, over'⟩ | ⟨first, names, more, -⟩⟩ := parseOn_cases plain
    · obtain ⟨fuel, rfl⟩ : ∃ n, fuel = n + 1 := ⟨fuel - 1, by omega⟩
      rw [none] at safe
      refine ⟨calls, ?_, ?_⟩
      · simp only [parse, loopCalls, if_pos over', Option.map_some, List.append_nil]
      · simp [none, safe]
    · rw [names, List.length_cons] at enough
      obtain ⟨later, run, safe'⟩ := @ih name' _ plain' (by omega)
      rw [names] at safe
      refine ⟨calls ++ later, by simp only [parse, run, Option.map_some], ?_⟩
      simp only [List.forall_mem_append, safe, safe', names, done, more, false_or, List.forall_mem_cons,
        List.head?_cons, Option.mem_some_iff, forall_eq']

theorem firstCall_safe (plain : (0 : Byte) ∉ path) : ∃ calls,
    loopCalls (path.length + 3) (ParseCall.mk path m).name (pathParse path).2 = some calls ∧
      ((ParseCall.mk path m).Safe ∧ (∀ call ∈ calls, call.Safe) ↔
        (∀ name ∈ components path, name.length < 16) ∧ ∃ i, i < 16 ∧ (pathParse path).1.length ≤ i ∧ m i = 0) := by
  have most := length_components path
  have within := pathParse_subset path
  rw [ParseCall.safe_iff _ plain]
  have rest : ∀ p, (pathParse path).2 = some p → (0 : Byte) ∉ p := fun p left member => plain (within.2 p left 0 member)
  rcases pathParse_spec path with ⟨none, parse⟩ | ⟨first, sub, parse, names⟩
  · obtain ⟨calls, run, safe⟩ := @loopCalls_safe (path.length + 3) (ParseCall.mk path m).name _ rest
      (by rw [parse]; exact Nat.succ_lt_succ (Nat.succ_pos _))
    refine ⟨calls, run, ?_⟩
    simp [safe, none, parse, restComponents]
  · rw [names, List.length_cons] at most
    obtain ⟨calls, run, safe⟩ :=
      @loopCalls_safe (path.length + 3) (ParseCall.mk path m).name _ rest (by rw [parse]; dsimp only; omega)
    have some := @ParseCall.name_zero ⟨path, m⟩ plain (by rw [names]; exact List.cons_ne_nil _ _)
    refine ⟨calls, run, ?_⟩
    simp only [safe, some, false_or, names, parse, List.forall_mem_cons]
    constructor
    · rintro ⟨⟨-, i, low, behind, zero⟩, rest⟩
      exact ⟨⟨Nat.lt_of_le_of_lt behind low, rest⟩, i, low, behind, zero⟩
    · rintro ⟨⟨short, rest⟩, ends⟩
      exact ⟨⟨Nat.le_of_lt short, ends⟩, rest⟩

/-- `searched_path` holds the components walked so far, and so stays shorter than the path. -/
theorem searchCallsFrom_safe (found : Nat → Option Word) {fuel depth : Nat} {name : Memory} {sub : Option (List Byte)}
    {searchedPath : List Byte}
    (plain : ∀ p, sub = some p → (0 : Byte) ∉ p) (enough : (restComponents sub).length + 1 < fuel)
    (short : ∀ first ∈ restComponents sub, first.length < 16)
    (room : name 0 ≠ 0 → (searchedPath ++ joinPath (nameFrom name 0 16 :: restComponents sub)).length < maxPathLen) :
    ∃ calls paths, searchCallsFrom found fuel depth name sub searchedPath = some (calls, paths) ∧
      (∀ call ∈ calls, call.Safe) ∧
      ∀ text ∈ paths, text.length < maxPathLen := by
  induction fuel generalizing depth name sub searchedPath with
  | zero => exact absurd enough (Nat.not_lt_zero _)
  | succ fuel ih =>
    rw [searchCallsFrom]
    by_cases stop : name 0 = 0 ∨ maxPathLen ≤ searchedPath.length
    · rw [if_pos stop]
      exact ⟨[], [], rfl, by simp⟩
    have fits := room fun zero => stop (.inl zero)
    rw [joinPath, List.flatMap_cons, ← List.append_assoc] at fits
    have text : (searchedPath ++ slash :: nameFrom name 0 16).length < maxPathLen :=
      Nat.lt_of_le_of_lt (List.sublist_append_left _ _).length_le fits
    rw [if_neg stop]
    obtain ⟨calls, name', sub', parse, safe, plain', next⟩ := parseOn_cases plain
    have safe := safe.mpr fun first member => short first (List.mem_of_mem_head? member)
    cases found depth with
    | none => exact ⟨[], _, rfl, by simp, List.forall_mem_singleton.mpr text⟩
    | some fType =>
      simp only [parse]
      by_cases regular : fType = FileType.regular.code
      · rw [if_pos regular]
        exact ⟨calls, _, rfl, safe, List.forall_mem_singleton.mpr text⟩
      · rw [if_neg regular]
        have later : ∃ calls' paths, searchCallsFrom found fuel (depth + 1) name' sub'
            (searchedPath ++ slash :: nameFrom name 0 16) = some (calls', paths) ∧
            (∀ call ∈ calls', call.Safe) ∧ ∀ text ∈ paths, text.length < maxPathLen := by
          rcases next with ⟨-, over'⟩ | ⟨first, names, -, string⟩
          · obtain ⟨fuel, rfl⟩ : ∃ n, fuel = n + 1 := ⟨fuel - 1, by omega⟩
            rw [searchCallsFrom, if_pos (.inl over')]
            exact ⟨[], [], rfl, by simp⟩
          · rw [names, List.forall_mem_cons] at short
            rw [names] at enough fits
            refine ih plain' (Nat.lt_of_succ_lt_succ enough) short.2 fun _ => ?_
            rw [string short.1]
            exact fits
        obtain ⟨calls', paths, run, safe', texts⟩ := later
        exact ⟨calls ++ calls', _,
          by rw [run]; rfl, List.forall_mem_append.mpr ⟨safe, safe'⟩, List.forall_mem_cons.mpr ⟨text, texts⟩⟩

/-- Every parse of `path_depth_cnt`, `wash_path` and `search_file` is safe, and `searched_path` stays
inside its 512 bytes. -/
def PathSafe (junk : Memory) (found : Nat → Option Word) (path : List Byte) : Prop :=
  (∃ calls, depthCalls junk path = some calls ∧ ∀ call ∈ calls, call.Safe) ∧
  (∃ calls, washCalls path = some calls ∧ ∀ call ∈ calls, call.Safe) ∧
  ∃ calls paths, searchCalls found path = some (calls, paths) ∧ (∀ call ∈ calls, call.Safe) ∧
    ∀ text ∈ paths, text.length < maxPathLen

theorem washCalls_safe (plain : (0 : Byte) ∉ path) (short : ∀ name ∈ components path, name.length < 16) :
    ∃ calls, washCalls path = some calls ∧ ∀ call ∈ calls, call.Safe := by
  obtain ⟨calls, run, safe⟩ := @firstCall_safe path Memory.zero plain
  have safe := safe.mpr ⟨short, 15, by decide, ?_, rfl⟩
  · unfold washCalls
    dsimp only
    split
    · exact ⟨[], rfl, fun _ member => nomatch member⟩
    · split
      · exact ⟨_, rfl, List.forall_mem_singleton.mpr safe.1⟩
      · exact ⟨_, by rw [run]; rfl, List.forall_mem_cons.mpr safe⟩
  · rcases pathParse_spec path with ⟨-, parse⟩ | ⟨first, sub, parse, names⟩
    · rw [parse]
      exact Nat.zero_le _
    · rw [parse]
      exact Nat.le_of_lt_succ (short first (by rw [names]; exact List.mem_cons_self))

theorem searchCalls_safe (found : Nat → Option Word) (plain : (0 : Byte) ∉ path)
    (short : ∀ name ∈ components path, name.length < 16) :
    ∃ calls paths, searchCalls found path = some (calls, paths) ∧ (∀ call ∈ calls, call.Safe) ∧
      ∀ text ∈ paths, text.length < maxPathLen := by
  unfold searchCalls
  split
  · exact ⟨[], [], rfl, by simp⟩
  next go =>
    obtain ⟨absolute, -, below⟩ := Classical.not_not.mp fun refused => go (.inr refused)
    obtain ⟨calls, name, sub, parse, safe, plain', next⟩ :=
      @parseOn_cases (some path) fun p same => by cases same; exact plain
    cases parse
    have safe := safe.mpr fun first member => short first (List.mem_of_mem_head? member)
    have later : ∃ calls paths, searchCallsFrom found (path.length + 3) 0 (ParseCall.mk path Memory.zero).name
        (pathParse path).2 [] = some (calls, paths) ∧
        (∀ call ∈ calls, call.Safe) ∧ ∀ text ∈ paths, text.length < maxPathLen := by
      rcases next with ⟨-, over'⟩ | ⟨first, names, -, string⟩
      · rw [searchCallsFrom, if_pos (.inl over')]
        exact ⟨[], [], rfl, by simp⟩
      · have most := length_components path
        have fits := Nat.lt_of_le_of_lt (length_joinPath_le absolute) below
        rw [show components path = _ from names] at short most fits
        rw [List.forall_mem_cons] at short
        refine searchCallsFrom_safe found plain'
          (Nat.lt_of_le_of_lt most (show path.length + 1 < path.length + 3 by omega)) short.2 fun _ => ?_
        rw [string short.1]
        exact fits
    obtain ⟨calls, paths, run, safe', texts⟩ := later
    exact ⟨_, _, by dsimp only; rw [run]; rfl, List.forall_mem_append.mpr ⟨safe, safe'⟩, texts⟩

/-- A path is safe for all three exactly when its components have at most 15 characters and the
uninitialised array of `path_depth_cnt` holds a zero behind the first of them. -/
theorem pathSafe_iff {path : List Byte} (plain : (0 : Byte) ∉ path) (junk : Memory) (found : Nat → Option Word) :
    PathSafe junk found path ↔ (∀ name ∈ components path, name.length < 16) ∧ ∃ i, i < 16 ∧
      (pathParse path).1.length ≤ i ∧ junk i = 0 := by
  obtain ⟨calls, run, safe⟩ := @firstCall_safe path junk plain
  rw [← safe]
  have depth : depthCalls junk path = some (⟨path, junk⟩ :: calls) := by
    rw [depthCalls, run]
    rfl
  constructor
  · rintro ⟨⟨calls, same, all⟩, -, -⟩
    cases depth.symm.trans same
    exact List.forall_mem_cons.mp all
  · intro all
    have short := (safe.mp all).1
    exact ⟨⟨_, depth, List.forall_mem_cons.mpr all⟩, washCalls_safe plain short, searchCalls_safe found plain short⟩

theorem pathSafe_two : PathSafe Memory.zero (fun _ => some FileType.directory.code) [0x2f, 0x61, 0x2f, 0x62] :=
  (pathSafe_iff (by decide) _ _).mpr ⟨by decide, 15, by decide, by decide, rfl⟩

/-- The last character of a component of 17 characters is stored behind the array. -/
theorem parse_leaves_array :
    (∃ calls, washCalls (slash :: List.replicate 17 0x61) = some calls ∧ ∃ call ∈ calls, (16, 0x61) ∈ call.stores) ∧
    ¬ PathSafe Memory.zero (fun _ => none) (slash :: List.replicate 17 0x61) := by
  have run : ∃ call calls, washCalls (slash :: List.replicate 17 0x61) = some (call :: calls) ∧
      (16, 0x61) ∈ call.stores :=
    ⟨_, _, rfl, by decide⟩
  obtain ⟨call, calls, run, far⟩ := run
  refine ⟨⟨_, run, call, List.mem_cons_self, far⟩, ?_⟩
  rintro ⟨-, ⟨calls', same, safe⟩, -⟩
  cases run.symm.trans same
  exact Nat.lt_irrefl 16 ((safe call List.mem_cons_self).1 _ far)

/-- Parse after parse, each into a cleared array, until the name is empty or nothing is left; `none`
when the fuel does not suffice. -/
def parseNames : Nat → List Byte → Option (List (List Byte))
  | 0, _ => none
  | fuel + 1, p =>
    let name := nameFrom (ParseCall.mk p Memory.zero).name 0 (p.length + 1)
    if name = [] then some []
    else match (pathParse p).2 with
      | none => some [name]
      | some rest => (parseNames fuel rest).map (name :: ·)

/-- The rounds of the loop in `path_depth_cnt`, with an array as large as the names. -/
def depthRounds : Nat → Memory → Option (List Byte) → Nat → Option Nat
  | 0, _, _, _ => none
  | fuel + 1, name, p, depth =>
    if name 0 = 0 then some depth
    else
      let (_, name, p) := parseOn p
      depthRounds fuel name p (depth + 1)

def depthCnt (junk : Memory) (pathname : List Byte) : Option Nat :=
  depthRounds (pathname.length + 3) (ParseCall.mk pathname junk).name (pathParse pathname).2 0

theorem nameFrom_call (plain : (0 : Byte) ∉ path) :
    nameFrom (ParseCall.mk path Memory.zero).name 0 (path.length + 1) = (pathParse path).1 := by
  have within := (pathParse_subset path).1
  refine nameFrom_eq ?_ (fun zero => plain (within 0 zero)) fun i _ => ?_
  · exact Nat.lt_succ_of_le (pathParse_sublist path).length_le
  · rw [ParseCall.name_eq, Nat.zero_add]
    grind [Memory.zero]

theorem parseNames_eq {fuel : Nat} (plain : (0 : Byte) ∉ path) (enough : (components path).length < fuel) :
    parseNames fuel path = some (components path) := by
  induction fuel generalizing path with
  | zero => exact absurd enough (Nat.not_lt_zero _)
  | succ fuel ih =>
    simp only [parseNames, nameFrom_call plain]
    rcases pathParse_spec path with ⟨none, parse⟩ | ⟨first, sub, parse, names⟩
    · rw [parse, none]
      rfl
    · have some := (mem_components (show first ∈ components path by rw [names]; exact List.mem_cons_self)).1
      rw [parse, names]
      simp only [if_neg some]
      cases sub with
      | none => rfl
      | some rest =>
        have later := @ih rest (fun zero => plain ((pathParse_subset path).2 rest (by rw [parse]) 0 zero))
          (by rw [names] at enough; exact Nat.lt_of_succ_lt_succ enough)
        simp only [later, Option.map_some]
        rfl

theorem depthRounds_eq {fuel depth : Nat} {name : Memory} {sub : Option (List Byte)} (plain : ∀ p, sub = some p →
    (0 : Byte) ∉ p)
    (enough : (restComponents sub).length + 1 < fuel) (some : name 0 ≠ 0) :
    depthRounds fuel name sub depth = .some (depth + 1 + (restComponents sub).length) := by
  induction fuel generalizing name sub depth with
  | zero => exact absurd enough (Nat.not_lt_zero _)
  | succ fuel ih =>
    obtain ⟨calls, name', sub', parse, -, plain', ⟨none, over'⟩ | ⟨first, names, more, -⟩⟩ := parseOn_cases plain
    · obtain ⟨fuel, rfl⟩ : ∃ n, fuel = n + 1 := ⟨fuel - 1, by omega⟩
      simp only [depthRounds, if_neg some, parse, if_pos over', none]
      rfl
    · rw [names, List.length_cons] at enough ⊢
      simp only [depthRounds, if_neg some, parse]
      rw [ih plain' (by omega) more]
      exact congrArg _ (by omega)

theorem depthCnt_eq (plain : (0 : Byte) ∉ path) (some : components path ≠ []) (junk : Memory) :
    depthCnt junk path = .some (components path).length := by
  have most := length_components path
  have more := @ParseCall.name_zero ⟨path, junk⟩ plain some
  rcases pathParse_spec path with ⟨none, -⟩ | ⟨first, sub, parse, names⟩
  · exact absurd none some
  · rw [names, List.length_cons] at most
    have rest : ∀ p, sub = .some p → (0 : Byte) ∉ p :=
      fun p left zero => plain ((pathParse_subset path).2 p (by rw [parse]; exact left) 0 zero)
    rw [depthCnt, parse, depthRounds_eq rest (by omega) more, names, List.length_cons]
    exact congrArg _ (by omega)

theorem parseNext_cases {sub : Option (List Byte)} {s : Fs} {r : (List Byte × Option (List Byte)) × Fs}
    (run : parseNext sub s = .ok r) :
    r.2 = s ∧ (restComponents sub = [] ∧ r.1.1 = [] ∨ restComponents sub = r.1.1 :: restComponents r.1.2 ∧
      r.1.1 ≠ []) := by
  cases sub with
  | none =>
    cases run
    exact ⟨rfl, .inl ⟨rfl, rfl⟩⟩
  | some p =>
    obtain ⟨-, last⟩ := require_bind_eq_ok.mp run
    cases last
    refine ⟨rfl, ?_⟩
    rcases pathParse_spec p with ⟨none, parse⟩ | ⟨first, sub, parse, names⟩
    · exact .inl ⟨none, by rw [parse]⟩
    · refine .inr ⟨by rw [parse]; exact names, ?_⟩
      rw [parse]
      exact (mem_components (show first ∈ components p by rw [names]; exact List.mem_cons_self)).1

/-- The text is `searched_path` with a part of the components appended, from the first one on. -/
abbrev SearchState.Extends (w : SearchState) (text : List Byte) : Prop :=
  ∃ done, text = w.searchedPath ++ joinPath done ∧
    (w.name = [] ∧ done = [] ∨ w.name ≠ [] ∧ ∃ later, done = w.name :: later ∧ later <+: restComponents w.subPath)

theorem searchLoop_searched {fuel : Nat} {w : SearchState} {s : Fs} {r : (Word × PathSearchRecord) × Fs}
    (run : searchLoop fuel w s = .ok r) :
    w.Extends r.1.2.searchedPath := by
  induction fuel generalizing w s with
  | zero => cases run
  | succ fuel ih =>
    unfold searchLoop at run
    split at run
    · next none =>
      obtain ⟨_, _, -, run⟩ := bind_eq_ok.mp run
      obtain ⟨_, _, -, run⟩ := bind_eq_ok.mp run
      cases run
      exact ⟨[], (List.append_nil _).symm, .inl ⟨none, rfl⟩⟩
    · next some =>
      obtain ⟨-, run⟩ := require_bind_eq_ok.mp run
      obtain ⟨-, run⟩ := require_bind_eq_ok.mp run
      obtain ⟨_, _, -, run⟩ := bind_eq_ok.mp run
      obtain ⟨found, _, -, run⟩ := bind_eq_ok.mp run
      cases found with
      | none =>
        cases run
        exact ⟨[w.name], by simp [joinPath], .inr ⟨some, [], rfl, List.nil_prefix⟩⟩
      | some entry =>
        obtain ⟨⟨name, sub⟩, _, parse, run⟩ := bind_eq_ok.mp run
        obtain ⟨-, next⟩ := parseNext_cases parse
        -- what the rounds to come append follows the name appended in this one
        have onward (w' : SearchState) (s' : Fs) (run : searchLoop fuel w' s' = .ok r)
            (same : w'.name = name ∧ w'.subPath = sub)
            (text : w'.searchedPath = w.searchedPath ++ slash :: w.name) : w.Extends r.1.2.searchedPath := by
          obtain ⟨done, path, parts⟩ := ih run
          refine ⟨w.name :: done, by rw [path, text]; simp [joinPath], .inr ⟨some, done, rfl, ?_⟩⟩
          rw [same.1, same.2] at parts
          rcases parts with ⟨-, rfl⟩ | ⟨more, later, rfl, before⟩
          · exact List.nil_prefix
          · rcases next with ⟨-, none⟩ | ⟨names, -⟩
            · exact absurd none more
            · rw [names]
              exact List.prefix_cons_inj _ |>.mpr before
        dsimp only at run
        split at run
        · obtain ⟨_, _, -, run⟩ := bind_eq_ok.mp run
          obtain ⟨_, _, -, run⟩ := bind_eq_ok.mp run
          obtain ⟨_, _, -, run⟩ := bind_eq_ok.mp run
          exact onward _ _ run ⟨rfl, rfl⟩ rfl
        · split at run
          · cases run
            exact ⟨[w.name], by simp [joinPath], .inr ⟨some, [], rfl, List.nil_prefix⟩⟩
          · exact onward _ _ run ⟨rfl, rfl⟩ rfl

/-- Iterating `path_parse` yields the components of the path, `path_depth_cnt` counts them, and equal
counts for a path and for the `searched_path` of `search_file` mean that the search went through the
whole path. -/
theorem parse_exact {path : List Byte} (plain : (0 : Byte) ∉ path) :
    parseNames (path.length + 2) path = some (components path) ∧
    (components path ≠ [] → ∀ junk, depthCnt junk path = some (components path).length) ∧
    ∀ (stack : Stack) (s s' : Fs) (r : Word × PathSearchRecord) (junk junk' : Memory), searchFile stack path s =
      .ok (r, s') →
      depthCnt junk path = depthCnt junk' r.2.searchedPath → isRootPath path = true ∨
        r.2.searchedPath = joinPath (components path) := by
  have most := length_components path
  refine ⟨parseNames_eq plain (by omega), fun some junk => depthCnt_eq plain some junk,
    fun stack s s' r junk junk' run same => ?_⟩
  unfold searchFile at run
  split at run
  · next root => exact .inl root
  · refine .inr ?_
    obtain ⟨-, run⟩ := require_bind_eq_ok.mp run
    obtain ⟨⟨name, sub⟩, _, parse, run⟩ := bind_eq_ok.mp run
    obtain ⟨-, next⟩ := @parseNext_cases (some path) _ _ parse
    obtain ⟨done, text, parts⟩ := searchLoop_searched run
    dsimp only at text parts next
    rw [text, List.nil_append] at same ⊢
    rcases next with ⟨none, name_⟩ | ⟨names, some⟩
    · rcases parts with ⟨-, rfl⟩ | ⟨more, -⟩
      · rw [show components path = [] from none]
      · exact absurd name_ more
    · rcases parts with ⟨none, -⟩ | ⟨-, later, rfl, before⟩
      · exact absurd none some
      · have whole : components path = name :: restComponents sub := names
        have valid : ∀ name' ∈ name :: later, name' ≠ [] ∧ slash ∉ name' ∧ ∀ c ∈ name', c ∈ path := fun name' member =>
          mem_components (by rw [whole]; exact ((List.prefix_cons_inj _).mpr before).subset member)
        have parts := components_joinPath fun name' member => ⟨(valid name' member).1, (valid name' member).2.1⟩
        have apart := zero_notMem_joinPath fun name' member zero => plain ((valid name' member).2.2 0 zero)
        rw [depthCnt_eq plain (by rw [whole]; exact List.cons_ne_nil _ _),
          depthCnt_eq apart (by rw [parts]; exact List.cons_ne_nil _ _), parts,
          Option.some_inj, whole, List.length_cons, List.length_cons] at same
        rw [whole, before.eq_of_length (Nat.succ.inj same).symm]

theorem parse_exact_two : parseNames 7 [0x61, 0x2f, 0x2f, 0x62, 0x2f] = some [[0x61], [0x62]] :=
  (@parse_exact [0x61, 0x2f, 0x2f, 0x62, 0x2f] (by decide)).1

end LaiMiniOs
