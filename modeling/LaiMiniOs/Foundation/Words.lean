import Mathlib.Data.List.Induction

/-! Words: the non-empty parts of a text between the occurrences of a separator. -/

set_option autoImplicit false

namespace Foundation
variable {α : Type} [DecidableEq α] {sep : α} {text word : List α}

def words (sep : α) (text : List α) : List (List α) := (text.splitOn sep).filter (· ≠ [])

theorem splitOn_cons (sep c : α) (text : List α) :
    (c :: text).splitOn sep = if c = sep then [] :: text.splitOn sep else (text.splitOn sep).modifyHead
    (List.cons c) := by
  rw [List.splitOn, List.splitOnP_cons_eq_if_modifyHead]
  simp only [beq_iff_eq]
  rfl

theorem splitOn_ne_nil (sep : α) (text : List α) : text.splitOn sep ≠ [] := List.splitOnP_ne_nil _ _

theorem splitOn_append_sep (text text' : List α) :
    (text ++ sep :: text').splitOn sep = text.splitOn sep ++ text'.splitOn sep := by
  induction text with
  | nil => rw [List.nil_append, splitOn_cons, if_pos rfl]; rfl
  | cons c text ih =>
    rw [List.cons_append, splitOn_cons, splitOn_cons, ih]
    split
    next => rfl
    next =>
      cases first : text.splitOn sep with
      | nil => exact absurd first (splitOn_ne_nil sep text)
      | cons => rfl

theorem splitOn_of_notMem (plain : sep ∉ word) : word.splitOn sep = [word] := by
  induction word with
  | nil => rfl
  | cons c word ih =>
    rw [List.mem_cons, not_or] at plain
    rw [splitOn_cons, if_neg (Ne.symm plain.1), ih plain.2]
    rfl

theorem mem_splitOn (member : word ∈ text.splitOn sep) : sep ∉ word ∧ ∀ c ∈ word, c ∈ text := by
  induction text generalizing word with
  | nil =>
    rw [List.mem_singleton.mp member]
    exact ⟨List.not_mem_nil, fun _ member => nomatch member⟩
  | cons c text ih =>
    rw [splitOn_cons] at member
    split at member
    next => grind
    next other =>
      cases first : text.splitOn sep with
      | nil => exact absurd first (splitOn_ne_nil sep text)
      | cons head tail =>
        rw [first, List.modifyHead_cons] at member
        rcases List.mem_cons.mp member with rfl | later
        · obtain ⟨plain, inside⟩ := ih (show head ∈ text.splitOn sep by rw [first]; exact List.mem_cons_self)
          grind
        · obtain ⟨plain, inside⟩ := ih (by rw [first]; exact List.mem_cons_of_mem head later)
          exact ⟨plain, fun c' member => List.mem_cons_of_mem c (inside c' member)⟩

theorem words_sep (text : List α) : words sep (sep :: text) = words sep text := by
  rw [words, splitOn_cons, if_pos rfl, List.filter_cons_of_neg (by simp)]
  rfl

theorem words_append_sep (text text' : List α) :
    words sep (text ++ sep :: text') = words sep text ++ words sep text' := by
  rw [words, splitOn_append_sep, List.filter_append]
  rfl

theorem words_of_notMem (some : word ≠ []) (plain : sep ∉ word) : words sep word = [word] := by
  rw [words, splitOn_of_notMem plain, List.filter_cons_of_pos (by simpa using some)]
  rfl

theorem mem_words (member : word ∈ words sep text) : word ≠ [] ∧ sep ∉ word ∧ ∀ c ∈ word, c ∈ text := by
  rw [words, List.mem_filter, decide_eq_true_eq] at member
  exact ⟨member.2, mem_splitOn member.1⟩

/-- A text without leading separators is empty, or its first word, and then the end of the text or a separator. -/
theorem words_cases (text : List α) : (text.dropWhile (· = sep) = [] ∧ words sep text = []) ∨
    ∃ word rest, text.dropWhile (· = sep) = word ++ rest ∧ (text.dropWhile (· = sep)).takeWhile (· ≠ sep) = word ∧
      (text.dropWhile (· = sep)).dropWhile (· ≠ sep) = rest ∧ word ≠ [] ∧ (rest = [] ∨ ∃ later, rest = sep :: later) ∧
      words sep text = word :: words sep rest := by
  have skipped : words sep (text.dropWhile (· = sep)) = words sep text := by
    induction text with
    | nil => rfl
    | cons c rest ih =>
      rw [List.dropWhile_cons]
      split
      next same => rw [ih, ← words_sep rest, of_decide_eq_true same]
      next => rfl
  rw [← skipped]
  have head := List.head?_dropWhile_not (fun c => decide (c = sep)) text
  generalize text.dropWhile (· = sep) = start at head ⊢
  cases start with
  | nil => exact .inl ⟨rfl, rfl⟩
  | cons c rest =>
    have other : c ≠ sep := by simpa using head
    have whole := List.takeWhile_append_dropWhile (p := fun c => decide (c ≠ sep)) (l := c :: rest)
    have plain : sep ∉ (c :: rest).takeWhile (· ≠ sep) := by grind [List.all_takeWhile]
    have some : (c :: rest).takeWhile (· ≠ sep) ≠ [] := by grind [List.takeWhile_cons]
    refine .inr ⟨_, _, whole.symm, rfl, rfl, some, ?_⟩
    generalize (c :: rest).takeWhile (· ≠ sep) = word at whole plain some ⊢
    cases tail : (c :: rest).dropWhile (· ≠ sep) with
    | nil =>
      rw [tail, List.append_nil] at whole
      rw [← whole, words_of_notMem some plain]
      exact ⟨.inl rfl, rfl⟩
    | cons d later =>
      have stop := List.head?_dropWhile_not (fun c => decide (c ≠ sep)) (c :: rest)
      rw [tail] at stop whole
      obtain rfl : d = sep := by simpa using stop
      rw [← whole, words_append_sep, words_of_notMem some plain, words_sep]
      exact ⟨.inr ⟨later, rfl⟩, rfl⟩

end Foundation
