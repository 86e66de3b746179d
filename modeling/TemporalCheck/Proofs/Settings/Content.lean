import TemporalCheck.Proofs.Settings.Value
import TemporalCheck.Proofs.Text.Words

/-! What is left of a line without its comments. A mark counts from where it begins, so a text is
left as it is up to a place where no mark begins before it. -/
namespace TemporalCheck.Settings

/-- No comment to the end of the line begins in the text. -/
def Uncut (text : List Char) : Prop := ¬['\\', '*'] <:+: text

/-- No enclosed comment begins in the text. -/
def Unopened (text : List Char) : Prop := ¬['(', '*'] <:+: text

/-- No enclosed comment ends in the text. -/
def Unclosed (text : List Char) : Prop := ¬['*', ')'] <:+: text

def said (line : List Char) : List Char := withoutBlockComments false (beforeLineComment line)

/-- Two characters, one at the end of the front and one at the beginning of the rest. -/
def Across (a b : Char) (front rest : List Char) : Prop :=
  front.getLast? = some a ∧ rest.head? = some b

instance (text : List Char) : Decidable (Uncut text) := inferInstanceAs (Decidable (¬_))

instance (text : List Char) : Decidable (Unopened text) := inferInstanceAs (Decidable (¬_))

instance (text : List Char) : Decidable (Unclosed text) := inferInstanceAs (Decidable (¬_))

variable {front rest inner : List Char} {a b c : Char}

section Marks

theorem mark_infix_cons {text : List Char} :
    [a, b] <:+: c :: text ↔ (c = a ∧ text.head? = some b) ∨ [a, b] <:+: text := by
  rw [List.infix_cons_iff, List.cons_prefix_cons, eq_comm]
  cases text with
  | nil => simp
  | cons d text => simp [List.cons_prefix_cons, @eq_comm _ b]

theorem across_cons (across : Across a b front rest) (c : Char) : Across a b (c :: front) rest := by
  rw [Across, List.getLast?_cons, across.1]
  exact ⟨rfl, across.2⟩

theorem mark_infix_append : [a, b] <:+: front ++ rest ↔
    [a, b] <:+: front ∨ Across a b front rest ∨ [a, b] <:+: rest := by
  induction front with
  | nil => simp [Across]
  | cons c front ih =>
    rw [List.cons_append, mark_infix_cons, mark_infix_cons, ih]
    cases front with
    | nil => simp [Across]
    | cons d front => simp [Across, or_assoc]

theorem mark_infix_append_left (absent : a ∉ front) :
    [a, b] <:+: front ++ rest ↔ [a, b] <:+: rest := by
  rw [mark_infix_append, or_iff_right, or_iff_right]
  · exact fun across => absent (List.mem_of_getLast? across.1)
  · exact fun mark => absent (mark.subset List.mem_cons_self)

theorem mark_infix_append_right (absent : b ∉ rest) :
    [a, b] <:+: front ++ rest ↔ [a, b] <:+: front := by
  rw [mark_infix_append, or_iff_left]
  rintro (across | mark)
  · exact absent (List.mem_of_head? across.2)
  · exact absent (mark.subset (List.mem_cons_of_mem a List.mem_cons_self))

end Marks

section Cut

theorem beforeLineComment_append (uncut : Uncut front) (whole : ¬Across '\\' '*' front rest) :
    beforeLineComment (front ++ rest) = front ++ beforeLineComment rest := by
  induction front with
  | nil => rfl
  | cons c front ih =>
    rw [Uncut, mark_infix_cons, not_or] at uncut
    have unmarked : ¬(c = '\\' ∧ (front ++ rest).head? = some '*') := by
      rintro ⟨rfl, star⟩
      cases front with
      | nil => exact whole ⟨rfl, star⟩
      | cons d front => exact uncut.1 ⟨rfl, star⟩
    rw [List.cons_append, beforeLineComment, ih uncut.2 fun across => whole (across_cons across c)]
    simpa using unmarked

/-- Behind a mark nothing counts. -/
theorem beforeLineComment_append_of_cut (cut : ¬Uncut front) (rest : List Char) :
    beforeLineComment (front ++ rest) = beforeLineComment front := by
  rw [Uncut, not_not] at cut
  induction front with
  | nil => simp at cut
  | cons c front ih =>
    rw [List.cons_append, beforeLineComment, beforeLineComment]
    rcases mark_infix_cons.mp cut with ⟨rfl, star⟩ | later
    · have star' : (front ++ rest).head? = some '*' := by
        rw [List.head?_append, star]
        rfl
      simp [star, star']
    · have inside : front ≠ [] := by
        rintro rfl
        simp at later
      rw [ih later, List.head?_append_of_ne_nil _ inside]

theorem isPrefix_beforeLineComment (line : List Char) : beforeLineComment line <+: line := by
  induction line with
  | nil => exact List.prefix_rfl
  | cons c line ih =>
    rw [beforeLineComment]
    split
    · exact List.nil_prefix
    · exact List.cons_prefix_cons.mpr ⟨rfl, ih⟩

end Cut

section Closed

inductive Closed : List Char → Prop where
  | nil : Closed []
  | plain {c : Char} {rest : List Char} :
    ¬((c = '(' ∨ c = '\\') ∧ rest.head? = some '*') → Closed rest → Closed (c :: rest)
  | comment {inner rest : List Char} : Unclosed inner → Closed rest →
    Closed ('(' :: '*' :: (inner ++ '*' :: ')' :: rest))

theorem closed_of_unmarked {text : List Char} (uncut : Uncut text) (unopened : Unopened text) :
    Closed text := by
  induction text with
  | nil => exact .nil
  | cons c text ih =>
    rw [Uncut, mark_infix_cons, not_or] at uncut
    rw [Unopened, mark_infix_cons, not_or] at unopened
    refine .plain ?_ (ih uncut.2 unopened.2)
    rintro ⟨mark | mark, star⟩
    · exact unopened.1 ⟨mark, star⟩
    · exact uncut.1 ⟨mark, star⟩

theorem withoutBlockComments_outside {text : List Char}
    (unopened : ¬(c = '(' ∧ text.head? = some '*')) :
    withoutBlockComments false (c :: text) = c :: withoutBlockComments false text := by
  rw [withoutBlockComments]
  rintro tail rfl rfl
  exact unopened ⟨rfl, rfl⟩

theorem withoutBlockComments_inside {text : List Char}
    (unclosed : ¬(c = '*' ∧ text.head? = some ')')) :
    withoutBlockComments true (c :: text) = withoutBlockComments true text := by
  rw [withoutBlockComments]
  rintro tail rfl rfl
  exact unclosed ⟨rfl, rfl⟩

theorem withoutBlockComments_opened (text : List Char) :
    withoutBlockComments false ('(' :: '*' :: text) = withoutBlockComments true text := by
  rw [withoutBlockComments]

/-- A comment is over where it is closed first. -/
theorem withoutBlockComments_closed (unclosed : Unclosed inner) (rest : List Char) :
    withoutBlockComments true (inner ++ '*' :: ')' :: rest) = withoutBlockComments false rest := by
  induction inner with
  | nil => rfl
  | cons c inner ih =>
    rw [Unclosed, mark_infix_cons, not_or] at unclosed
    rw [List.cons_append, withoutBlockComments_inside, ih unclosed.2]
    rintro ⟨rfl, closes⟩
    refine unclosed.1 ⟨rfl, ?_⟩
    cases inner with
    | nil => simp at closes
    | cons d inner => exact closes

theorem withoutBlockComments_of_unclosed (unclosed : Unclosed inner) :
    withoutBlockComments true inner = [] := by
  induction inner with
  | nil => rfl
  | cons c inner ih =>
    rw [Unclosed, mark_infix_cons, not_or] at unclosed
    rw [withoutBlockComments_inside unclosed.1, ih unclosed.2]

/-- Behind closed comments the rest is read as a line of its own. -/
theorem withoutBlockComments_append (closed : Closed front) (whole : ¬Across '(' '*' front rest) :
    withoutBlockComments false (front ++ rest) =
      withoutBlockComments false front ++ withoutBlockComments false rest := by
  induction closed with
  | nil => rfl
  | @plain c front unmarked closed ih =>
    have unopened : ¬(c = '(' ∧ front.head? = some '*') :=
      fun opens => unmarked ⟨.inl opens.1, opens.2⟩
    have unopened' : ¬(c = '(' ∧ (front ++ rest).head? = some '*') := by
      rintro ⟨rfl, opens⟩
      cases front with
      | nil => exact whole ⟨rfl, opens⟩
      | cons d front => exact unopened ⟨rfl, opens⟩
    rw [List.cons_append, withoutBlockComments_outside unopened',
      withoutBlockComments_outside unopened, ih fun across => whole (across_cons across c),
      List.cons_append]
  | @comment inner front unclosed closed ih =>
    rw [List.cons_append, List.cons_append, List.append_assoc, withoutBlockComments_opened,
      withoutBlockComments_opened, List.cons_append, List.cons_append,
      withoutBlockComments_closed unclosed, withoutBlockComments_closed unclosed]
    apply ih
    rintro ⟨parted, star⟩
    refine whole ⟨?_, star⟩
    have last : ('(' :: '*' :: inner ++ ['*', ')'] ++ front).getLast? = _ := List.getLast?_append
    rw [parted] at last
    simpa using last

end Closed

section Unmarked

variable {line : List Char}

theorem beforeLineComment_of_uncut (uncut : Uncut line) : beforeLineComment line = line := by
  have whole : ¬Across '\\' '*' line [] := by simp [Across]
  simpa [beforeLineComment] using beforeLineComment_append uncut whole

theorem withoutBlockComments_of_unopened (unopened : Unopened line) :
    withoutBlockComments false line = line := by
  induction line with
  | nil => rfl
  | cons c line ih =>
    rw [Unopened, mark_infix_cons, not_or] at unopened
    rw [withoutBlockComments_outside unopened.1, ih unopened.2]

theorem content_of_unmarked (uncut : Uncut line) (unopened : Unopened line) :
    content line = Text.trim line := by
  rw [content, beforeLineComment_of_uncut uncut, withoutBlockComments_of_unopened unopened]

end Unmarked

end TemporalCheck.Settings
