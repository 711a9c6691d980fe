import Mathlib.Tactic.ByContra

/-! Linear search: the loop `while (i < n && p(i)) i++` and what it stops at. -/

set_option autoImplicit false

namespace Foundation

variable {p : Nat → Bool}

/-- Advance from `i` over at most `n` indices that satisfy `p`. -/
def skipWhile (p : Nat → Bool) : Nat → Nat → Nat
  | 0, i => i
  | n + 1, i => if p i then skipWhile p n (i + 1) else i

theorem skipWhile_ge (n i : Nat) : i ≤ skipWhile p n i := by
  induction n generalizing i with
  | zero => exact Nat.le_refl i
  | succ n ih =>
    simp only [skipWhile]
    split
    · exact Nat.le_of_succ_le (ih (i + 1))
    · exact Nat.le_refl i

theorem skipWhile_le (n i : Nat) : skipWhile p n i ≤ i + n := by
  induction n generalizing i with
  | zero => exact Nat.le_refl i
  | succ n ih =>
    simp only [skipWhile]
    split
    · have := ih (i + 1)
      omega
    · omega

theorem skipWhile_before {n i j : Nat} (low : i ≤ j) (high : j < skipWhile p n i) : p j = true := by
  induction n generalizing i with
  | zero => simp only [skipWhile] at high; omega
  | succ n ih =>
    simp only [skipWhile] at high
    split at high
    next holds =>
      by_cases first : j = i
      · subst first; exact holds
      · exact ih (by omega) high
    next => omega

theorem skipWhile_stop {n i : Nat} (short : skipWhile p n i < i + n) : p (skipWhile p n i) = false := by
  induction n generalizing i with
  | zero => simp only [skipWhile] at short; omega
  | succ n ih =>
    simp only [skipWhile] at short ⊢
    split
    next holds => rw [if_pos holds] at short; exact ih (by omega)
    next fails => simpa using fails

/-- The search finds any index that has no failing index before it and fails itself. -/
theorem skipWhile_eq {n i r : Nat} (low : i ≤ r) (high : r < i + n)
    (before : ∀ j, i ≤ j → j < r → p j = true) (stop : p r = false) : skipWhile p n i = r := by
  have notAfter : ¬ r < skipWhile p n i := fun after => by
    simp [skipWhile_before low after] at stop
  have notBefore : ¬ skipWhile p n i < r := fun short => by
    have fails := skipWhile_stop (p := p) (n := n) (i := i) (by omega)
    rw [before _ (skipWhile_ge n i) short] at fails
    cases fails
  omega

theorem skipWhile_end {n i : Nat} (all : ∀ j, i ≤ j → j < i + n → p j = true) :
    skipWhile p n i = i + n := by
  have upper := skipWhile_le (p := p) n i
  by_contra short
  have fails := skipWhile_stop (p := p) (n := n) (i := i) (by omega)
  rw [all _ (skipWhile_ge n i) (by omega)] at fails
  cases fails

theorem find?_congr {A : Type} {p q : A → Bool} {l : List A} (same : ∀ x ∈ l, p x = q x) : l.find? p = l.find? q := by
  induction l with
  | nil => rfl
  | cons x l ih =>
    rw [List.find?_cons, List.find?_cons, same x List.mem_cons_self,
      ih fun y member => same y (List.mem_cons_of_mem x member)]

end Foundation
