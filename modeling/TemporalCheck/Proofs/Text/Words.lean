import TemporalCheck.Proofs.Text

/-! The words of a text. Two texts with the same words differ in their blanks only: trimming leaves
the same word of both, or it leaves blanks in both. -/
namespace TemporalCheck.Text

def words (s : List Char) : List (List Char) := (s.splitOnP isBlank).filter (· ≠ [])

def AlikeInBlanks (s t : List Char) : Prop :=
  s = t ∨ (∃ c ∈ s, isBlank c) ∧ ∃ c ∈ t, isBlank c

variable {s t u : List Char} {c : Char}

section Words

theorem words_append_blank (s : List Char) (blank : isBlank c) (t : List Char) :
    words (s ++ c :: t) = words s ++ words t := by
  rw [words, List.splitOnP_append_cons _ _ blank, List.filter_append, ← words, ← words]

theorem words_nil : words [] = [] := by simp [words]

theorem words_cons_blank (blank : isBlank c) (s : List Char) : words (c :: s) = words s := by
  have split := words_append_blank [] blank s
  rwa [words_nil] at split

theorem words_of_no_blank (plain : ∀ c ∈ s, isBlank c = false) (visible : s ≠ []) :
    words s = [s] := by
  simp [words, List.splitOnP_eq_singleton plain, visible]

/-- Between two texts there may be any blanks, or none where one of them has its own. -/
theorem words_append (ends : (∀ c ∈ s.getLast?, isBlank c) ∨ ∀ c ∈ t.head?, isBlank c) :
    words (s ++ t) = words s ++ words t := by
  rcases ends with last | first
  · rcases s.eq_nil_or_concat' with rfl | ⟨s, c, rfl⟩
    · rw [words_nil, List.nil_append, List.nil_append]
    · have blank : isBlank c := last c (by simp)
      rw [List.append_assoc, List.singleton_append, words_append_blank s blank,
        words_append_blank s blank, words_nil, List.append_nil]
  · cases t with
    | nil => rw [words_nil, List.append_nil, List.append_nil]
    | cons c t =>
      have blank : isBlank c := first c rfl
      rw [words_append_blank s blank, words_cons_blank blank]

theorem words_of_blank (blank : ∀ c ∈ s, isBlank c) : words s = [] := by
  induction s with
  | nil => exact words_nil
  | cons c s ih =>
    rw [List.forall_mem_cons] at blank
    rw [words_cons_blank blank.1, ih blank.2]

theorem words_trim (s : List Char) : words (trim s) = words s := by
  obtain ⟨l, r, padded, left, right, -, -⟩ := exists_padding s
  have front : words (l ++ trim s) = words (trim s) := by
    rw [words_append (.inl fun c last => left c (List.mem_of_getLast? last)),
      words_of_blank left, List.nil_append]
  have back : words (l ++ trim s ++ r) = words (l ++ trim s) := by
    rw [words_append (.inr fun c first => right c (List.mem_of_head? first)),
      words_of_blank right, List.append_nil]
  exact (front.symm.trans back.symm).trans (congrArg words padded.symm)

end Words

section Trimmed

theorem firstWord_append_drop (s : List Char) :
    s = firstWord s ++ s.drop (firstWord s).length ∧
      s.drop (firstWord s).length = s.dropWhile (!isBlank ·) := by
  have split : s = firstWord s ++ s.dropWhile (!isBlank ·) := List.takeWhile_append_dropWhile.symm
  have rest := congrArg (List.drop (firstWord s).length) split
  rw [List.drop_left] at rest
  exact ⟨rest ▸ split, rest⟩

theorem not_blank_of_mem_firstWord (member : c ∈ firstWord s) : isBlank c = false := by
  simpa using List.mem_takeWhile_imp member

/-- The first word of a text that does not begin with a blank, and the words that follow it. -/
theorem words_eq_cons (first : ∀ c ∈ s.head?, isBlank c = false) (visible : s ≠ []) :
    words s = firstWord s :: words (s.drop (firstWord s).length) := by
  obtain ⟨split, rest⟩ := firstWord_append_drop s
  have word : words (firstWord s) = [firstWord s] := by
    refine words_of_no_blank (fun _ => not_blank_of_mem_firstWord) ?_
    cases s with
    | nil => exact absurd rfl visible
    | cons c s => simp [firstWord, first c rfl]
  have ends : ∀ c ∈ (s.drop (firstWord s).length).head?, isBlank c := by
    intro c first
    have stopped := List.head?_dropWhile_not (!isBlank ·) s
    rw [← rest, first] at stopped
    simpa using stopped
  conv_lhs => rw [split]
  rw [words_append (.inr ends), word, List.singleton_append]

theorem words_eq_nil_iff : words s = [] ↔ trim s = [] := by
  obtain ⟨-, -, -, -, -, first, -⟩ := exists_padding s
  rw [← words_trim]
  by_cases visible : trim s = []
  · simp [visible, words_nil]
  · simp [words_eq_cons first visible, visible]

theorem trim_ne_nil {w : List Char} {ws : List (List Char)} (some_word : words s = w :: ws) :
    trim s ≠ [] := by
  rw [ne_eq, ← words_eq_nil_iff, some_word]
  exact List.cons_ne_nil w ws

/-- A single word is what trimming leaves. -/
theorem trim_of_word {w : List Char} (one : words s = [w]) :
    trim s = w ∧ ∀ c ∈ w, isBlank c = false := by
  obtain ⟨-, -, -, -, -, first, last⟩ := exists_padding s
  have visible := trim_ne_nil one
  rw [← words_trim, words_eq_cons first visible] at one
  obtain ⟨word, rest⟩ := List.cons.inj one
  have split := (firstWord_append_drop (trim s)).1
  -- blanks after the word would be blanks at the end
  have nothing : (trim s).drop (firstWord (trim s)).length = [] := by
    by_contra more
    obtain ⟨l, r, padded, left, right, -⟩ :=
      exists_padding ((trim s).drop (firstWord (trim s)).length)
    rw [words_eq_nil_iff.mp rest, List.append_nil] at padded
    obtain ⟨c, at_end⟩ := Option.isSome_iff_exists.mp (List.getLast?_isSome.mpr more)
    have visible : isBlank c = false := by
      apply last
      rw [split, List.getLast?_append_of_ne_nil _ more]
      exact at_end
    have member := List.mem_of_getLast? at_end
    rw [padded, List.mem_append] at member
    rw [member.elim (left c) (right c)] at visible
    contradiction
  rw [nothing, List.append_nil, word] at split
  exact ⟨split, fun c member => not_blank_of_mem_firstWord (word ▸ member)⟩

theorem exists_blank {w w' : List Char} {ws : List (List Char)} (more : words s = w :: w' :: ws) :
    ∃ c ∈ trim s, isBlank c := by
  have visible := trim_ne_nil more
  by_contra plain
  rw [← words_trim, words_of_no_blank (by simpa using plain) visible] at more
  simp at more

theorem alike_trim (same : words s = words t) : AlikeInBlanks (trim s) (trim t) := by
  rcases several : words s with _ | ⟨w, _ | ⟨w', ws⟩⟩
  · rw [words_eq_nil_iff.mp several, words_eq_nil_iff.mp (same.symm.trans several)]
    exact .inl rfl
  · rw [(trim_of_word several).1, (trim_of_word (same.symm.trans several)).1]
    exact .inl rfl
  · exact .inr ⟨exists_blank several, exists_blank (same.symm.trans several)⟩

end Trimmed

end TemporalCheck.Text
