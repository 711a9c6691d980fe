import Mathlib.Data.List.Induction
import Mathlib.Data.Option.Basic

/-! Trees of names.

Each node has a table from names to items, and an item is a leaf or a node again. A path is
resolved name by name. Two names have a meaning of their own, the node itself and the node
above it; without them every node of a tree has one path.
-/

set_option autoImplicit false

namespace Foundation

inductive Item (N : Type) where
  | leaf (n : N)
  | node (n : N)
  deriving DecidableEq

namespace Item

variable {N : Type}

def number : Item N → N
  | leaf n => n
  | node n => n

end Item

section
variable {N Name : Type}

/-- The reference walk: look up the names one after the other. -/
def resolve (look : N → Name → Option (Item N)) : Item N → List Name → Option (Item N)
  | item, [] => some item
  | .leaf _, _ :: _ => none
  | .node n, name :: names => (look n name).bind fun item => resolve look item names

variable {look : N → Name → Option (Item N)}

@[simp] theorem resolve_nil (item : Item N) : resolve look item [] = some item := by
  cases item <;> rfl

@[simp] theorem resolve_node_cons (n : N) (name : Name) (names : List Name) :
    resolve look (.node n) (name :: names) = (look n name).bind fun item => resolve look item names := rfl

theorem resolve_append (item : Item N) (names names' : List Name) :
    resolve look item (names ++ names') = (resolve look item names).bind fun item' => resolve look item' names' := by
  induction names generalizing item with
  | nil => simp
  | cons name names ih =>
    cases item with
    | leaf n => rfl
    | node n =>
      rw [List.cons_append, resolve_node_cons, resolve_node_cons, Option.bind_assoc]
      congr 1
      funext item'
      exact ih item'

theorem resolve_concat_eq_some {item result : Item N} {names : List Name} {name : Name} :
    resolve look item (names ++ [name]) = some result ↔
      ∃ n, resolve look item names = some (.node n) ∧ look n name = some result := by
  rw [resolve_append, Option.bind_eq_some_iff]
  constructor
  · rintro ⟨between, before, last⟩
    cases between with
    | leaf n => cases last
    | node n =>
      rw [resolve_node_cons, Option.bind_eq_some_iff] at last
      obtain ⟨found, here, same⟩ := last
      rw [resolve_nil] at same
      exact ⟨n, before, by rw [here, same]⟩
  · rintro ⟨n, before, here⟩
    refine ⟨.node n, before, ?_⟩
    rw [resolve_node_cons, here, Option.bind_some, resolve_nil]

def Reaches (look : N → Name → Option (Item N)) (root n : N) : Prop :=
  ∃ names, resolve look (.node root) names = some (.node n)

variable {root : N}

theorem Reaches.start : Reaches look root root := ⟨[], rfl⟩

theorem Reaches.step {n m : N} {name : Name} (reach : Reaches look root n) (here : look n name = some (.node m)) :
    Reaches look root m := by
  obtain ⟨names, path⟩ := reach
  exact ⟨names ++ [name], resolve_concat_eq_some.mpr ⟨n, path, here⟩⟩

/-- What holds of the root, and of a node below a node of which it holds, holds of every node. -/
theorem Reaches.induct {P : N → Prop} (start : P root)
    (step : ∀ n m name, Reaches look root n → P n → look n name = some (.node m) → P m) {n : N}
    (reach : Reaches look root n) : P n := by
  obtain ⟨names, path⟩ := reach
  induction names using List.reverseRecOn generalizing n with
  | nil =>
    cases path
    exact start
  | append_singleton names name ih =>
    obtain ⟨m, before, here⟩ := resolve_concat_eq_some.mp path
    exact step m n name ⟨names, before⟩ (ih before) here

def Clear (look : N → Name → Option (Item N)) : Item N → List Name → Prop
  | _, [] => True
  | .leaf _, _ :: _ => False
  | .node n, name :: names => ∀ item, look n name = some item → Clear look item names

theorem Clear.of_resolve {item result : Item N} {names : List Name} (path : resolve look item names = some result) :
    Clear look item names := by
  induction names generalizing item with
  | nil => trivial
  | cons name names ih =>
    cases item with
    | leaf n => cases path
    | node n =>
      intro item here
      rw [resolve_node_cons, here] at path
      exact ih path

end

section
variable {N Name : Type} [DecidableEq Name]

/-- Take one more name into account, without the two special ones. -/
def washStep (cur par : Name) (out : List Name) (name : Name) : List Name :=
  if name = par then out.dropLast else if name = cur then out else out ++ [name]

def wash (cur par : Name) (names : List Name) : List Name := names.foldl (washStep cur par) []

def Proper (cur par : Name) (names : List Name) : Prop := ∀ name ∈ names, name ≠ cur ∧ name ≠ par

/-- The tables form a tree: each node but the root is named once, and knows the node that names it. -/
structure IsTree (look : N → Name → Option (Item N)) (root : N) (cur par : Name) : Prop where
  itself : ∀ n, Reaches look root n → look n cur = some (.node n)
  above_root : look root par = some (.node root)
  above : ∀ n name m, Reaches look root n → name ≠ cur → name ≠ par → look n name = some (.node m) →
    look m par = some (.node n)
  unique : ∀ n name item n' name' item', Reaches look root n → Reaches look root n' → name ≠ cur → name ≠ par →
    name' ≠ cur → name' ≠ par →
    look n name = some item → look n' name' = some item' → item.number = item'.number → n = n' ∧ name = name'
  not_root : ∀ n name item, Reaches look root n → name ≠ cur → name ≠ par → look n name = some item → item.number ≠ root

variable {look : N → Name → Option (Item N)} {root : N} {cur par : Name}

theorem proper_washStep {out : List Name} (proper : Proper cur par out) (name : Name) :
    Proper cur par (washStep cur par out name) := by
  unfold washStep
  split
  · exact fun other member => proper other (List.dropLast_subset out member)
  · next notPar =>
    split
    · exact proper
    · next notCur =>
      intro other member
      rcases List.mem_append.mp member with old | new
      · exact proper other old
      · rw [List.mem_singleton.mp new]
        exact ⟨notCur, notPar⟩

theorem proper_wash (names : List Name) : Proper cur par (wash cur par names) := by
  unfold wash
  induction names using List.reverseRecOn with
  | nil => exact fun _ member => nomatch member
  | append_singleton names name ih =>
    rw [List.foldl_append]
    exact proper_washStep ih name

namespace IsTree

omit [DecidableEq Name] in
/-- Going up from a node takes the last name off its path. -/
theorem above_dropLast (tree : IsTree look root cur par) {names : List Name} {n : N} (proper : Proper cur par names)
    (path : resolve look (.node root) names = some (.node n)) :
    ∃ m, look n par = some (.node m) ∧ resolve look (.node root) names.dropLast = some (.node m) := by
  induction names using List.reverseRecOn with
  | nil =>
    cases path
    exact ⟨root, tree.above_root, rfl⟩
  | append_singleton names name _ =>
    obtain ⟨m, before, here⟩ := resolve_concat_eq_some.mp path
    obtain ⟨notCur, notPar⟩ := proper name List.mem_concat_self
    refine ⟨m, tree.above m name n ⟨names, before⟩ notCur notPar here, ?_⟩
    rw [List.dropLast_concat, before]

/-- Washing a path does not change what it leads to. -/
theorem resolve_wash (tree : IsTree look root cur par) {names : List Name} {item : Item N}
    (path : resolve look (.node root) names = some item) :
    resolve look (.node root) (wash cur par names) = some item := by
  induction names using List.reverseRecOn generalizing item with
  | nil => exact path
  | append_singleton names name ih =>
    obtain ⟨n, before, here⟩ := resolve_concat_eq_some.mp path
    have washed := ih before
    have step : wash cur par (names ++ [name]) = washStep cur par (wash cur par names) name := by
      unfold wash
      rw [List.foldl_append]
      rfl
    rw [step]
    unfold washStep
    split
    · next up =>
      subst up
      obtain ⟨m, above, shorter⟩ := tree.above_dropLast (proper_wash names) washed
      rw [shorter, ← above, here]
    · split
      · next stay =>
        subst stay
        rw [washed, ← tree.itself n ⟨names, before⟩, here]
      · exact resolve_concat_eq_some.mpr ⟨n, washed, here⟩

/-- Every node has a path without special names. -/
theorem exists_proper (tree : IsTree look root cur par) {n : N} (reach : Reaches look root n) :
    ∃ names, Proper cur par names ∧ resolve look (.node root) names = some (.node n) := by
  obtain ⟨names, path⟩ := reach
  exact ⟨wash cur par names, proper_wash names, tree.resolve_wash path⟩

omit [DecidableEq Name] in
theorem proper_unique (tree : IsTree look root cur par) {names names' : List Name} {n : N}
    (proper : Proper cur par names)
    (proper' : Proper cur par names') (path : resolve look (.node root) names = some (.node n))
    (path' : resolve look (.node root) names' = some (.node n)) : names = names' := by
  -- A last name that is proper does not lead to the root.
  have last {names : List Name} {name : Name} (proper : Proper cur par (names ++ [name]))
      (path : resolve look (.node root) (names ++ [name]) = some (.node root)) : False := by
    obtain ⟨m, before, here⟩ := resolve_concat_eq_some.mp path
    obtain ⟨notCur, notPar⟩ := proper name List.mem_concat_self
    exact tree.not_root m name _ ⟨names, before⟩ notCur notPar here rfl
  induction names using List.reverseRecOn generalizing n names' with
  | nil =>
    cases path
    cases names' using List.reverseRecOn with
    | nil => rfl
    | append_singleton names' name' => exact (last proper' path').elim
  | append_singleton names name ih =>
    cases names' using List.reverseRecOn with
    | nil =>
      cases path'
      exact (last proper path).elim
    | append_singleton names' name' =>
      obtain ⟨m, before, here⟩ := resolve_concat_eq_some.mp path
      obtain ⟨m', before', here'⟩ := resolve_concat_eq_some.mp path'
      obtain ⟨notCur, notPar⟩ := proper name List.mem_concat_self
      obtain ⟨notCur', notPar'⟩ := proper' name' List.mem_concat_self
      obtain ⟨rfl, rfl⟩ :=
        tree.unique m name _ m' name' _ ⟨names, before⟩ ⟨names', before'⟩ notCur notPar notCur' notPar' here here' rfl
      rw [ih (fun other member => proper other (List.mem_append_left _ member))
        (fun other member => proper' other (List.mem_append_left _ member)) before before']

end IsTree

end

end Foundation
