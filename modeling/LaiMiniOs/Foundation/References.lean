import Mathlib.Logic.Function.Basic
import Mathlib.Data.List.Nodup
import Mathlib.Data.List.Perm.Basic

/-! Counting who refers to an object.

A table gives each holder the object that it refers to, if any. The holders of an object are
counted, however many of them there could be, and the count follows the changes of the table.
-/

set_option autoImplicit false

namespace Foundation

variable {H O : Type} [DecidableEq H] {f f' : H → Option O} {o : O} {h : H} {n m : Nat}

def Refs (f : H → Option O) (o : O) (n : Nat) : Prop :=
  ∃ holders : List H, holders.Nodup ∧ (∀ h, h ∈ holders ↔ f h = some o) ∧ holders.length = n

namespace Refs

omit [DecidableEq H] in
theorem congr (refs : Refs f o n) (same : ∀ h, f' h = some o ↔ f h = some o) : Refs f' o n := by
  obtain ⟨holders, nodup, mem, length⟩ := refs
  exact ⟨holders, nodup, fun h => (mem h).trans (same h).symm, length⟩

omit [DecidableEq H] in
theorem unique (refs : Refs f o n) (refs' : Refs f o m) : n = m := by
  obtain ⟨holders, nodup, mem, rfl⟩ := refs
  obtain ⟨holders', nodup', mem', rfl⟩ := refs'
  exact ((List.perm_ext_iff_of_nodup nodup nodup').mpr fun h => (mem h).trans (mem' h).symm).length_eq

omit [DecidableEq H] in
theorem zero_iff : Refs f o 0 ↔ ∀ h, f h ≠ some o := by
  constructor
  · rintro ⟨holders, -, mem, none⟩ h here
    obtain rfl := List.eq_nil_of_length_eq_zero none
    exact List.not_mem_nil ((mem h).mpr here)
  · intro none
    exact ⟨[], List.nodup_nil, fun h =>
      ⟨fun member => absurd member List.not_mem_nil, fun here => absurd here (none h)⟩, rfl⟩

omit [DecidableEq H] in
theorem pos (refs : Refs f o n) (here : f h = some o) : 0 < n := by
  rcases Nat.eq_zero_or_pos n with rfl | pos
  · exact absurd here (zero_iff.mp refs h)
  · exact pos

theorem add (refs : Refs f o n) (free : f h ≠ some o) : Refs (Function.update f h (some o)) o (n + 1) := by
  obtain ⟨holders, nodup, mem, rfl⟩ := refs
  refine ⟨h :: holders, List.nodup_cons.mpr ⟨fun member => free ((mem h).mp member), nodup⟩, fun h' => ?_, rfl⟩
  by_cases same : h' = h
  · subst same
    rw [Function.update_self]
    exact iff_of_true List.mem_cons_self rfl
  · rw [Function.update_of_ne same, ← mem h', List.mem_cons, or_iff_right same]

theorem drop (refs : Refs f o n) (here : f h = some o) {x : Option O} (gone : x ≠ some o) :
    Refs (Function.update f h x) o (n - 1) := by
  obtain ⟨holders, nodup, mem, rfl⟩ := refs
  refine ⟨holders.erase h, nodup.erase h, fun h' => ?_, List.length_erase_of_mem ((mem h).mpr here)⟩
  by_cases same : h' = h
  · subst same
    rw [Function.update_self]
    exact iff_of_false nodup.not_mem_erase gone
  · rw [Function.update_of_ne same, List.mem_erase_of_ne same, mem h']

theorem other (refs : Refs f o n) (free : f h ≠ some o) {x : Option O} (gone : x ≠ some o) :
    Refs (Function.update f h x) o n := by
  refine refs.congr fun h' => ?_
  by_cases same : h' = h
  · subst same
    rw [Function.update_self]
    exact iff_of_false gone free
  · rw [Function.update_of_ne same]

end Refs

end Foundation
