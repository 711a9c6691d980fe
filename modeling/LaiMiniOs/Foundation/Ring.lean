import Mathlib.Logic.Function.Basic
import Mathlib.Data.Nat.ModEq
import Mathlib.Data.List.Basic

/-! A ring of `N` places, read from one place on and written behind the last element. -/

set_option autoImplicit false

namespace Foundation

variable {A : Type} {N start n : Nat} {buf : Nat → A}

def ringSlice (N : Nat) (buf : Nat → A) (start n : Nat) : List A :=
  (List.range n).map fun k => buf ((start + k) % N)

@[simp] theorem length_ringSlice : (ringSlice N buf start n).length = n := by simp [ringSlice]

theorem ringSlice_succ : ringSlice N buf start (n + 1) = buf (start % N) :: ringSlice N buf ((start + 1) % N) n := by
  rw [ringSlice, List.range_succ_eq_map, List.map_cons, List.map_map, Nat.add_zero]
  refine congrArg _ (List.map_congr_left fun k _ => ?_)
  rw [Function.comp_apply, Nat.mod_add_mod, Nat.succ_eq_add_one, Nat.add_comm k, Nat.add_assoc]

theorem ring_ne {k : Nat} (inside : k < n) (room : n < N) : (start + k) % N ≠ (start + n) % N := by
  intro same
  have shifted : k ≡ n [MOD N] := Nat.ModEq.add_left_cancel' start same
  rw [Nat.ModEq, Nat.mod_eq_of_lt (by omega), Nat.mod_eq_of_lt room] at shifted
  omega

theorem ringSlice_update (room : n < N) (a : A) :
    ringSlice N (Function.update buf ((start + n) % N) a) start (n + 1) = ringSlice N buf start n ++ [a] := by
  simp only [ringSlice, List.range_succ, List.map_append, List.map_cons, List.map_nil, Function.update_self]
  congr 1
  refine List.map_congr_left fun k inside => ?_
  rw [Function.update_of_ne (ring_ne (List.mem_range.mp inside) room)]

end Foundation
