import TemporalCheck.Proofs.Settings.Blanks
import TemporalCheck.Proofs.Settings.Content
import TemporalCheck.Proofs.Settings.Lines

/-! Comments within a line. One that is put between words changes nothing but blanks, as long as it
does not hold the mark of a comment that runs to the end of the line; that mark counts inside of a
comment too, and then all that follows on the line is lost. -/
namespace TemporalCheck.Settings

def enclosed (left : Char) (comment : List Char) (right : Char) : List Char :=
  left :: '(' :: '*' :: (comment ++ ['*', ')', right])

/-- The place between the two parts of a line is outside of comments and their marks, and not inside
a word. -/
structure Outside (front back : List Char) : Prop where
  closed : Closed front
  whole : ¬Across '(' '*' front back ∧ ¬Across '\\' '*' front back
  /-- There is a blank or nothing on one side, if comments are taken out. -/
  apart : (∀ c ∈ (withoutBlockComments false front).getLast?, Text.isBlank c) ∨
    ∀ c ∈ (said back).head?, Text.isBlank c

section Inserted

variable {front back comment : List Char} {left right : Char}

theorem not_across_blank {a b : Char} {rest : List Char} (blank : Text.isBlank left)
    (first : rest.head? = some left) (visible : Text.isBlank b = false) :
    ¬Across a b front rest := by
  rintro ⟨-, mark⟩
  rw [first] at mark
  exact Text.ne_of_blank blank visible (Option.some.inj mark)

theorem withoutBlockComments_blank (blank : Text.isBlank left) (text : List Char) :
    withoutBlockComments false (left :: text) = left :: withoutBlockComments false text :=
  withoutBlockComments_outside fun opens => Text.ne_of_blank blank rfl opens.1

/-- Behind text without marks, the place before a blank is outside of comments. -/
theorem outside_of_blank (uncut : Uncut front) (unopened : Unopened front)
    (blank : Text.isBlank left) (back : List Char) : Outside front (left :: back) where
  closed := closed_of_unmarked uncut unopened
  whole := ⟨not_across_blank blank rfl rfl, not_across_blank blank rfl rfl⟩
  apart := by
    have visible : left ≠ '\\' := Text.ne_of_blank blank rfl
    have kept : said (left :: back) = left :: said back := by
      rw [said, beforeLineComment, if_neg (by simp [visible]), withoutBlockComments_blank blank,
        said]
    rw [kept]
    exact .inr fun c first => Option.some.inj first ▸ blank

/-- Without a mark in the comment, the comment alone is taken out. -/
theorem said_enclosed (outside : Outside front back) (uncut : Uncut front)
    (blank : Text.isBlank left ∧ Text.isBlank right) (unclosed : Unclosed comment)
    (unmarked : Uncut (comment ++ ['*'])) :
    said (front ++ enclosed left comment right ++ back) =
      withoutBlockComments false front ++ left :: right :: said back := by
  have star : right ≠ '*' := Text.ne_of_blank blank.2 rfl
  have uncut' : Uncut (enclosed left comment right) := by
    have absent : '*' ∉ [')', right] := by simp [star.symm]
    have split : comment ++ ['*', ')', right] = comment ++ ['*'] ++ [')', right] := by simp
    rw [Uncut, enclosed, mark_infix_cons, mark_infix_cons, mark_infix_cons, split,
      mark_infix_append_right absent]
    simpa [Uncut] using unmarked
  have whole : ¬Across '\\' '*' (enclosed left comment right) back := by
    rintro ⟨last, -⟩
    have visible : right ≠ '\\' := Text.ne_of_blank blank.2 rfl
    exact visible (by simpa [enclosed, List.getLast?_cons] using last)
  have inserted : enclosed left comment right ++ beforeLineComment back =
      left :: '(' :: '*' :: (comment ++ '*' :: ')' :: right :: beforeLineComment back) := by
    simp [enclosed]
  rw [said, List.append_assoc, beforeLineComment_append uncut (not_across_blank blank.1 rfl rfl),
    beforeLineComment_append uncut' whole, inserted,
    withoutBlockComments_append outside.closed (not_across_blank blank.1 rfl rfl),
    withoutBlockComments_blank blank.1, withoutBlockComments_opened,
    withoutBlockComments_closed unclosed, withoutBlockComments_blank blank.2, said]

/-- Inserting a comment without a mark leaves the words of the line as they are. -/
theorem words_said_enclosed (outside : Outside front back)
    (blank : Text.isBlank left ∧ Text.isBlank right) (unclosed : Unclosed comment)
    (unmarked : Uncut (comment ++ ['*'])) :
    Text.words (said (front ++ enclosed left comment right ++ back)) =
      Text.words (said (front ++ back)) := by
  by_cases uncut : Uncut front
  · have whole : ¬Across '(' '*' front (beforeLineComment back) := by
      rintro ⟨last, first⟩
      obtain ⟨rest, cut⟩ := isPrefix_beforeLineComment back
      refine outside.whole.1 ⟨last, ?_⟩
      rw [← cut]
      exact List.mem_head?_append_of_mem_head? first
    have joined : said (front ++ back) = withoutBlockComments false front ++ said back := by
      rw [said, beforeLineComment_append uncut outside.whole.2,
        withoutBlockComments_append outside.closed whole, said]
    rw [said_enclosed outside uncut blank unclosed unmarked, joined,
      Text.words_append outside.apart, Text.words_append_blank _ blank.1,
      Text.words_cons_blank blank.2]
  · rw [said, said, List.append_assoc, beforeLineComment_append_of_cut uncut,
      beforeLineComment_append_of_cut uncut]

/-- With a mark in it, the rest of the line is lost. -/
theorem content_enclosed_of_marked (closed : Closed front)
    (blank : Text.isBlank left) (unclosed : Unclosed comment)
    (marked : ¬Uncut (comment ++ ['*'])) :
    content (front ++ enclosed left comment right ++ back) = content front := by
  by_cases uncut : Uncut front
  · have unclosed' : Unclosed (beforeLineComment (comment ++ ['*'])) := by
      intro mark
      have inside := mark.trans (isPrefix_beforeLineComment _).isInfix
      rw [mark_infix_append_right (by decide)] at inside
      exact unclosed inside
    have opened : Uncut [left, '(', '*'] := by simp [Uncut, mark_infix_cons]
    have split : enclosed left comment right ++ back =
        [left, '(', '*'] ++ (comment ++ ['*'] ++ ')' :: right :: back) := by
      simp [enclosed]
    have cut : beforeLineComment (front ++ enclosed left comment right ++ back) =
        front ++ left :: '(' :: '*' :: beforeLineComment (comment ++ ['*']) := by
      rw [List.append_assoc, beforeLineComment_append uncut (not_across_blank blank rfl rfl), split,
        beforeLineComment_append opened (by simp [Across]), beforeLineComment_append_of_cut marked]
      rfl
    rw [content, content, cut,
      withoutBlockComments_append closed (not_across_blank blank rfl rfl),
      withoutBlockComments_blank blank, withoutBlockComments_opened,
      withoutBlockComments_of_unclosed unclosed', beforeLineComment_of_uncut uncut,
      Text.trim_append_blanks (List.forall_mem_singleton.mpr blank)]
  · rw [content, content, List.append_assoc, beforeLineComment_append_of_cut uncut]

end Inserted

section Text

variable {text : String} {before after : List (List Char)} {front back comment : List Char}
  {left right : Char}

theorem alike_spoken {line line' : List Char}
    (same : Text.words (said line') = Text.words (said line)) (n : Nat) :
    List.Forall₂ Line.Alike (spoken [line'] n) (spoken [line] n) := by
  have silent : content line' = [] ↔ content line = [] := by
    rw [content, content, ← Text.words_eq_nil_iff, ← Text.words_eq_nil_iff, ← said, ← said, same]
  rw [spoken_cons, spoken_cons]
  by_cases nothing : content line = []
  · rw [if_pos nothing, if_pos (silent.mpr nothing)]
    exact .nil
  · rw [if_neg nothing, if_neg (mt silent.mp nothing)]
    exact .cons ⟨rfl, alike_of_words same (mt silent.mp nothing)⟩ .nil

/-- A comment between words changes neither the settings nor which lines are bad, unless the mark of
a comment to the end of the line begins in it. Then the line ends at the comment. -/
theorem parse_enclosed (split : text.toList.splitOn '\n' = before ++ (front ++ back) :: after)
    (outside : Outside front back) (unclosed : Unclosed comment)
    (blank : Text.isBlank left ∧ Text.isBlank right) (whole : '\n' ∉ enclosed left comment right) :
    (Uncut (comment ++ ['*']) →
      (parse (unlines (before ++ [front ++ enclosed left comment right ++ back] ++ after))).mapError
        (List.map SettingsError.line) = (parse text).mapError (List.map SettingsError.line)) ∧
    (¬Uncut (comment ++ ['*']) →
      parse (unlines (before ++ [front ++ enclosed left comment right ++ back] ++ after)) =
        parse (unlines (before ++ [front] ++ after))) := by
  have unbroken : '\n' ∉ front ∧ '\n' ∉ back := by
    rw [← not_or, ← List.mem_append]
    apply Text.not_mem_of_mem_splitOn (s := text.toList)
    simp [split]
  have replaced {line : List Char} (whole : '\n' ∉ line) :
      linesOf (unlines (before ++ [line] ++ after)) = spoken before 1 ++
        spoken [line] (1 + before.length) ++ spoken after (1 + before.length + 1) :=
    linesOf_replaced split (List.cons_ne_nil _ _) (List.forall_mem_singleton.mpr whole)
  have unbroken' : '\n' ∉ front ++ enclosed left comment right ++ back := by simp [unbroken, whole]
  have inserted := replaced unbroken'
  constructor
  · intro unmarked
    apply parse_alike
    rw [inserted, linesOf_split split]
    have others (lines : List Line) : List.Forall₂ Line.Alike lines lines :=
      List.forall₂_same.mpr fun line _ => ⟨rfl, .refl _⟩
    have here := alike_spoken (words_said_enclosed outside blank unclosed unmarked)
      (1 + before.length)
    exact List.rel_append (List.rel_append (others _) here) (others _)
  · intro marked
    have lost : content (front ++ enclosed left comment right ++ back) = content front :=
      content_enclosed_of_marked outside.closed blank.1 unclosed marked
    have same :
        linesOf (unlines (before ++ [front ++ enclosed left comment right ++ back] ++ after)) =
          linesOf (unlines (before ++ [front] ++ after)) := by
      rw [inserted, replaced unbroken.1, spoken_cons, spoken_cons, lost]
    rw [parse_eq, parse_eq, same]

/-- The lines are bad with the comment as they are without it. Where a mark stands in the comment,
the line ends before it. -/
theorem parse_enclosed_workers :
    (parse "STUTTERING\nWORKERS 3\t(* of (many *)  4\n").mapError (List.map SettingsError.line) =
      .error [1, 2] ∧
    parse "STUTTERING\nWORKERS 3 (* of \\* many *)  4\n" = parse "STUTTERING\nWORKERS 3\n" := by
  have split : "STUTTERING\nWORKERS 3 4\n".toList.splitOn '\n' =
      ["STUTTERING".toList] ++ ("WORKERS 3".toList ++ " 4".toList) :: [[]] := by
    decide +kernel
  have outside : Outside "WORKERS 3".toList " 4".toList :=
    outside_of_blank (by decide +kernel) (by decide +kernel) rfl _
  have bad : parse "STUTTERING\nWORKERS 3 4\n" =
      .error [⟨1, .missingValue⟩, ⟨2, .notWorkers "3 4".toList⟩] := by
    decide +kernel
  have unclosed : Unclosed " of (many ".toList ∧ Unclosed " of \\* many ".toList := by
    decide +kernel
  have marks : Uncut (" of (many ".toList ++ ['*']) ∧ ¬Uncut (" of \\* many ".toList ++ ['*']) := by
    decide +kernel
  have whole : '\n' ∉ enclosed '\t' " of (many ".toList ' ' ∧
      '\n' ∉ enclosed ' ' " of \\* many ".toList ' ' := by
    decide +kernel
  have inert := (parse_enclosed split outside unclosed.1 ⟨rfl, rfl⟩ whole.1).1 marks.1
  have lost := (parse_enclosed split outside unclosed.2 ⟨rfl, rfl⟩ whole.2).2 marks.2
  rw [bad] at inert
  exact ⟨inert, lost⟩

/-- A value is lost behind a comment in which the mark of another one begins. -/
theorem value_lost_behind_mark : Outside "STUTTERING".toList " TRUE".toList ∧
    Unclosed " a \\* b ".toList ∧
    "STUTTERING".toList ++ enclosed ' ' " a \\* b ".toList ' ' ++ " TRUE".toList =
      "STUTTERING (* a \\* b *)  TRUE".toList ∧
    parse "STUTTERING TRUE\n" = .ok { stuttering := true } ∧
    parse "STUTTERING (* a \\* b *)  TRUE\n" = .error [⟨1, .missingValue⟩] := by
  have outside : Outside "STUTTERING".toList " TRUE".toList :=
    outside_of_blank (by decide +kernel) (by decide +kernel) rfl _
  exact ⟨outside, by decide +kernel, by decide +kernel, by decide +kernel, by decide +kernel⟩

end Text

end TemporalCheck.Settings
