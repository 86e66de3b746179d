import Mathlib
import TemporalCheck.Text.Blank

/-! Lines, words and blanks. -/
namespace TemporalCheck.Text

/-- A line ends at its first line feed. -/
theorem lines_append_break {line : List Char} (whole : '\n' ∉ line) (rest : List Char) :
    lines (line ++ '\n' :: rest) = line :: lines rest := by
  induction line with
  | nil => rfl
  | cons c line ih =>
    obtain ⟨other, whole⟩ := List.ne_and_not_mem_of_not_mem_cons whole
    rw [List.cons_append, lines, if_neg other.symm, ih whole]

theorem lines_flatMap {α : Type} {line : α → List Char} {entries : List α}
    (whole : ∀ e ∈ entries, '\n' ∉ line e) :
    lines (entries.flatMap fun e => line e ++ ['\n']) = entries.map line := by
  induction entries with
  | nil => rfl
  | cons e entries ih =>
    rw [List.forall_mem_cons] at whole
    rw [List.flatMap_cons, List.append_assoc, List.singleton_append,
      lines_append_break whole.1, ih whole.2, List.map_cons]

/-- Cutting at every line feed gives the lines, and an empty one if nothing follows the last line
feed. -/
theorem splitOn_eq (s : List Char) :
    s.splitOn '\n' = lines s ∨ s.splitOn '\n' = lines s ++ [[]] := by
  induction s with
  | nil => exact .inr rfl
  | cons c s ih =>
    rw [List.splitOn_cons_eq_if_modifyHead, lines]
    by_cases ends : c = '\n'
    · simpa [ends] using ih
    · simp only [ends, beq_iff_eq, if_false]
      rcases ih with split | split <;> rw [split]
      · cases known : lines s with
        | nil => exact absurd (split.trans known) (List.splitOn_ne_nil _ _)
        | cons line others => exact .inl rfl
      · cases lines s with
        | nil => exact .inl rfl
        | cons line others => exact .inr rfl

theorem not_mem_of_mem_splitOn {s line : List Char} (member : line ∈ s.splitOn '\n') :
    '\n' ∉ line := by
  induction s generalizing line with
  | nil =>
    rw [List.mem_singleton.mp member]
    exact List.not_mem_nil
  | cons c s ih =>
    obtain ⟨first, others, split⟩ := List.exists_cons_of_ne_nil (List.splitOn_ne_nil '\n' s)
    rw [List.splitOn_cons_eq_if_modifyHead, split] at member
    rw [split, List.forall_mem_cons] at ih
    by_cases ends : c = '\n'
    · simp only [ends, beq_self_eq_true, if_true, List.mem_cons] at member
      rcases member with rfl | rfl | member
      · exact List.not_mem_nil
      · exact ih.1
      · exact ih.2 line member
    · simp only [ends, beq_iff_eq, if_false, List.modifyHead_cons, List.mem_cons] at member
      rcases member with rfl | member
      · exact List.not_mem_cons_of_ne_of_not_mem (Ne.symm ends) ih.1
      · exact ih.2 line member

theorem ne_of_blank {mark c : Char} (blank : isBlank c) (visible : isBlank mark = false) :
    c ≠ mark := by
  rintro rfl
  simp [blank] at visible

theorem trim_blanks {l : List Char} (blank : ∀ c ∈ l, isBlank c) (s : List Char) :
    trim (l ++ s) = trim s := by
  rw [trim, List.dropWhile_append_of_pos blank, trim]

theorem dropWhile_padding {l s : List Char} (blank : ∀ c ∈ l, isBlank c)
    (first : ∀ c ∈ s.head?, isBlank c = false) : (l ++ s).dropWhile isBlank = s := by
  rw [List.dropWhile_append_of_pos blank]
  cases s with
  | nil => rfl
  | cons c s => rw [List.dropWhile_cons_of_neg (by simp [first c rfl])]

/-- Trimming takes away the blanks around what neither begins nor ends with one. -/
theorem trim_padded {l s r : List Char} (left : ∀ c ∈ l, isBlank c) (right : ∀ c ∈ r, isBlank c)
    (first : ∀ c ∈ s.head?, isBlank c = false) (last : ∀ c ∈ s.getLast?, isBlank c = false) :
    trim (l ++ s ++ r) = s := by
  by_cases empty : s = []
  · subst empty
    have blank : ∀ c ∈ l ++ r, isBlank c := by simpa [or_imp, forall_and] using ⟨left, right⟩
    have gone : (l ++ r ++ []).dropWhile isBlank = [] := dropWhile_padding blank (by simp)
    rw [List.append_nil] at gone ⊢
    rw [trim, gone]
    rfl
  · have front : (l ++ s ++ r).dropWhile isBlank = s ++ r := by
      rw [List.append_assoc]
      refine dropWhile_padding left ?_
      rwa [List.head?_append_of_ne_nil _ empty]
    have back : (r.reverse ++ s.reverse).dropWhile isBlank = s.reverse :=
      dropWhile_padding (by simpa using right) (by rwa [List.head?_reverse])
    rw [trim, front, List.reverse_append, back, List.reverse_reverse]

/-- Text that neither begins nor ends with a blank is left as it is. -/
theorem trim_of_ends {s : List Char} (first : ∀ c ∈ s.head?, isBlank c = false)
    (last : ∀ c ∈ s.getLast?, isBlank c = false) : trim s = s := by
  simpa using trim_padded (List.forall_mem_nil _) (List.forall_mem_nil _) first last

theorem head?_dropWhile {s : List Char} : ∀ c ∈ (s.dropWhile isBlank).head?, isBlank c = false := by
  intro c first
  have stopped := List.head?_dropWhile_not isBlank s
  rwa [first] at stopped

/-- What trimming leaves neither begins nor ends with a blank, and there are only blanks around
it. -/
theorem exists_padding (s : List Char) : ∃ l r, s = l ++ trim s ++ r ∧
    (∀ c ∈ l, isBlank c) ∧ (∀ c ∈ r, isBlank c) ∧
    (∀ c ∈ (trim s).head?, isBlank c = false) ∧ ∀ c ∈ (trim s).getLast?, isBlank c = false := by
  let onward := s.dropWhile isBlank
  let r := (onward.reverse.takeWhile isBlank).reverse
  have split : onward = trim s ++ r := by
    rw [trim, ← List.reverse_append, List.takeWhile_append_dropWhile, List.reverse_reverse]
  refine ⟨s.takeWhile isBlank, r, ?_, fun c => List.mem_takeWhile_imp, ?_, ?_, ?_⟩
  · rw [List.append_assoc, ← split, List.takeWhile_append_dropWhile]
  · exact fun c member => List.mem_takeWhile_imp (List.mem_reverse.mp member)
  · intro c first
    apply head?_dropWhile c (s := s)
    change c ∈ onward.head?
    rw [split]
    exact List.mem_head?_append_of_mem_head? first
  · intro c last
    rw [trim, List.getLast?_reverse] at last
    exact head?_dropWhile c last

theorem trim_trim (s : List Char) : trim (trim s) = trim s := by
  obtain ⟨-, -, -, -, -, first, last⟩ := exists_padding s
  exact trim_of_ends first last

theorem trim_append_blanks {r : List Char} (blank : ∀ c ∈ r, isBlank c) (s : List Char) :
    trim (s ++ r) = trim s := by
  obtain ⟨l, r', padded, left, right, first, last⟩ := exists_padding s
  have blank' : ∀ c ∈ r' ++ r, isBlank c := List.forall_mem_append.mpr ⟨right, blank⟩
  have padded' : s ++ r = l ++ trim s ++ (r' ++ r) := by rw [← List.append_assoc, ← padded]
  rw [padded', trim_padded left blank' first last]

theorem trim_of_no_blank {s : List Char} (plain : ∀ c ∈ s, isBlank c = false) : trim s = s :=
  trim_of_ends (fun c head => plain c (List.mem_of_head? head))
    fun c last => plain c (List.mem_of_getLast? last)

theorem firstWord_append {word : List Char} (plain : ∀ c ∈ word, isBlank c = false) {c : Char}
    (blank : isBlank c) (rest : List Char) : firstWord (word ++ c :: rest) = word := by
  rw [firstWord, List.takeWhile_append_of_pos (by simpa using plain)]
  simp [blank]

end TemporalCheck.Text
