import TemporalCheck.Proofs.Settings.Content

/-! Lines without their comments, and where reading falls short of that. The mark of a comment to
the end of the line counts for it inside of an enclosed comment as well, so that it takes the line
to end there. -/
namespace TemporalCheck.Settings

/-- A line without its comments, from outside of one or inside of an enclosed one. No comment begins
inside of another, and one that is never closed runs to the end. -/
def uncommented : (inside : Bool) → List Char → List Char
  | _, [] => []
  | true, '*' :: ')' :: rest => uncommented false rest
  | true, _ :: rest => uncommented true rest
  | false, '(' :: '*' :: rest => uncommented true rest
  | false, '\\' :: '*' :: _ => []
  | false, c :: rest => c :: uncommented false rest

/-- Whether the mark of a comment to the end of the line begins before the enclosed comment ends. -/
def isMarked : List Char → Bool
  | [] => false
  | '\\' :: '*' :: _ => true
  | '*' :: ')' :: _ => false
  | _ :: rest => isMarked rest

/-- The part of a line before the first enclosed comment in which such a mark begins. -/
def beforeMarked : (inside : Bool) → List Char → List Char
  | _, [] => []
  | true, '*' :: ')' :: rest => '*' :: ')' :: beforeMarked false rest
  | true, c :: rest => c :: beforeMarked true rest
  | false, '(' :: '*' :: rest =>
    if isMarked rest then [] else '(' :: '*' :: beforeMarked true rest
  | false, '\\' :: '*' :: rest => '\\' :: '*' :: rest
  | false, c :: rest => c :: beforeMarked false rest

variable {c d : Char} {text text' : List Char}

theorem not_mark {a b : Char} (other : ∀ rest, c = a → text = b :: rest → False) :
    ¬(c = a ∧ text.head? = some b) :=
  fun mark => other _ mark.1 (List.eq_cons_of_mem_head? mark.2)

theorem head?_of_isPrefix (part : text' <+: text) (first : text'.head? = some d) :
    text.head? = some d := by
  obtain ⟨rest, rfl⟩ := part
  exact List.mem_head?_append_of_mem_head? first

theorem uncommented_outside (plain : ¬((c = '(' ∨ c = '\\') ∧ text.head? = some '*')) :
    uncommented false (c :: text) = c :: uncommented false text := by
  rw [uncommented]
  · rintro tail rfl rfl
    exact plain ⟨.inl rfl, rfl⟩
  · rintro tail rfl rfl
    exact plain ⟨.inr rfl, rfl⟩

theorem uncommented_inside (unclosed : ¬(c = '*' ∧ text.head? = some ')')) :
    uncommented true (c :: text) = uncommented true text := by
  rw [uncommented]
  rintro tail rfl rfl
  exact unclosed ⟨rfl, rfl⟩

theorem beforeLineComment_cons (uncut : ¬(c = '\\' ∧ text.head? = some '*')) :
    beforeLineComment (c :: text) = c :: beforeLineComment text := by
  rw [beforeLineComment, if_neg (by simpa using uncut)]

theorem isMarked_cons (uncut : ¬(c = '\\' ∧ text.head? = some '*'))
    (unclosed : ¬(c = '*' ∧ text.head? = some ')')) : isMarked (c :: text) = isMarked text := by
  rw [isMarked]
  · rintro tail rfl rfl
    exact uncut ⟨rfl, rfl⟩
  · rintro tail rfl rfl
    exact unclosed ⟨rfl, rfl⟩

theorem isPrefix_beforeMarked (inside : Bool) (line : List Char) :
    beforeMarked inside line <+: line := by
  induction inside, line using beforeMarked.induct with
  | case1 inside => cases inside <;> exact List.prefix_rfl
  | case2 rest ih => simpa [beforeMarked] using ih
  | case3 c rest unclosed ih => simpa [beforeMarked] using ih
  | case4 rest marked => simp [beforeMarked, marked]
  | case5 rest unmarked ih => simpa [beforeMarked, unmarked] using ih
  | case6 rest => simp [beforeMarked]
  | case7 c rest unopened uncut ih => simpa [beforeMarked] using ih

/-- In a marked comment all is lost, since the mark stands before its end. -/
theorem withoutBlockComments_of_marked (marked : isMarked text = true) :
    withoutBlockComments true (beforeLineComment text) = [] := by
  induction text using isMarked.induct with
  | case1 => simp [isMarked] at marked
  | case2 rest => rfl
  | case3 rest => simp [isMarked] at marked
  | case4 c rest uncut unclosed ih =>
    rw [isMarked_cons (not_mark uncut) (not_mark unclosed)] at marked
    rw [beforeLineComment_cons (not_mark uncut), withoutBlockComments_inside, ih marked]
    exact fun closes => not_mark unclosed
      ⟨closes.1, head?_of_isPrefix (isPrefix_beforeLineComment rest) closes.2⟩

/-- Reading takes comments out as it should, up to the first one that is marked. -/
theorem withoutBlockComments_eq (inside : Bool) (line : List Char)
    (unmarked : inside = true → isMarked line = false) :
    withoutBlockComments inside (beforeLineComment line) =
      uncommented inside (beforeMarked inside line) := by
  have cut := @isPrefix_beforeLineComment
  have part := isPrefix_beforeMarked
  induction inside, line using beforeMarked.induct with
  | case1 inside => cases inside <;> rfl
  | case2 rest ih => exact ih (by simp)
  | case3 c rest unclosed ih =>
    have uncut : ¬(c = '\\' ∧ rest.head? = some '*') := by
      rintro ⟨rfl, star⟩
      rw [List.eq_cons_of_mem_head? star] at unmarked
      simp [isMarked] at unmarked
    rw [isMarked_cons uncut (not_mark unclosed)] at unmarked
    have kept : beforeMarked true (c :: rest) = c :: beforeMarked true rest := by
      rw [beforeMarked]
      exact unclosed
    rw [beforeLineComment_cons uncut, kept, withoutBlockComments_inside, uncommented_inside,
      ih unmarked]
    · exact fun closes => not_mark unclosed ⟨closes.1, head?_of_isPrefix (part _ _) closes.2⟩
    · exact fun closes => not_mark unclosed ⟨closes.1, head?_of_isPrefix (cut _) closes.2⟩
  | case4 rest marked =>
    have kept : beforeMarked false ('(' :: '*' :: rest) = [] := by simp [beforeMarked, marked]
    rw [kept, beforeLineComment_cons (by simp), beforeLineComment_cons (by simp),
      withoutBlockComments_opened, withoutBlockComments_of_marked marked, uncommented]
  | case5 rest unmarked' ih =>
    have kept : beforeMarked false ('(' :: '*' :: rest) = '(' :: '*' :: beforeMarked true rest := by
      simp [beforeMarked, unmarked']
    rw [kept, beforeLineComment_cons (by simp), beforeLineComment_cons (by simp),
      withoutBlockComments_opened, uncommented, ih fun _ => by simpa using unmarked']
  | case6 rest => rfl
  | case7 c rest unopened uncut ih =>
    have kept : beforeMarked false (c :: rest) = c :: beforeMarked false rest := by
      rw [beforeMarked]
      · exact unopened
      · exact uncut
    rw [beforeLineComment_cons (not_mark uncut), kept, withoutBlockComments_outside,
      uncommented_outside, ih (by simp)]
    · rintro ⟨rfl | rfl, star⟩
      · exact not_mark unopened ⟨rfl, head?_of_isPrefix (part _ _) star⟩
      · exact not_mark uncut ⟨rfl, head?_of_isPrefix (part _ _) star⟩
    · exact fun opens => not_mark unopened ⟨opens.1, head?_of_isPrefix (cut _) opens.2⟩

theorem content_eq (line : List Char) :
    content line = Text.trim (uncommented false (beforeMarked false line)) :=
  congrArg Text.trim (withoutBlockComments_eq false line (by simp))

end TemporalCheck.Settings
