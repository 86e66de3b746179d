import TemporalCheck.Proofs.Settings.Reader
import TemporalCheck.Proofs.Text

/-! Settings given by their lines. What a text comes to depends on the lines that say something;
lines that say nothing count in the numbering only. -/
namespace TemporalCheck

def SettingsError.renumber (f : Nat → Nat) (e : SettingsError) : SettingsError :=
  { e with line := f e.line }

namespace Settings

def unlines (lines : List (List Char)) : String := String.ofList (['\n'].intercalate lines)

section Spoken

theorem spoken_append (front back : List (List Char)) (first : Nat) :
    spoken (front ++ back) first = spoken front first ++ spoken back (first + front.length) := by
  rw [spoken, List.zipIdx_append, List.filterMap_append, ← spoken, ← spoken]

theorem spoken_silent {lines : List (List Char)} (silent : ∀ line ∈ lines, content line = [])
    (first : Nat) : spoken lines first = [] := by
  induction lines generalizing first with
  | nil => rfl
  | cons line lines ih =>
    rw [List.forall_mem_cons] at silent
    rw [spoken_cons, if_pos silent.1, ih silent.2, List.append_nil]

end Spoken

section Text

variable {text : String} {before after lines : List (List Char)} {line : List Char}

theorem linesOf_eq (text : String) : linesOf text = spoken (text.toList.splitOn '\n') 1 := by
  rcases Text.splitOn_eq text.toList with split | split
  · rw [split, linesOf]
  · have nothing (first : Nat) : spoken [[]] first = [] := rfl
    rw [split, spoken_append, nothing, List.append_nil, linesOf]

theorem linesOf_split (split : text.toList.splitOn '\n' = before ++ line :: after) :
    linesOf text = spoken before 1 ++ spoken [line] (1 + before.length) ++
      spoken after (1 + before.length + 1) := by
  rw [linesOf_eq, split, List.append_cons, spoken_append, spoken_append, List.length_append,
    Nat.add_assoc, List.length_singleton]

theorem linesOf_unlines (some_line : lines ≠ []) (whole : ∀ line ∈ lines, '\n' ∉ line) :
    linesOf (unlines lines) = spoken lines 1 := by
  rw [linesOf_eq, unlines, String.toList_ofList, List.splitOn_intercalate _ whole some_line]

/-- The lines of a text in which one line is replaced. -/
theorem linesOf_replaced (split : text.toList.splitOn '\n' = before ++ line :: after)
    (some_line : lines ≠ []) (whole : ∀ line ∈ lines, '\n' ∉ line) :
    linesOf (unlines (before ++ lines ++ after)) =
      spoken before 1 ++ spoken lines (1 + before.length) ++
        spoken after (1 + before.length + lines.length) := by
  have kept : ∀ line ∈ before ++ after, '\n' ∉ line := by
    intro other member
    apply Text.not_mem_of_mem_splitOn (s := text.toList)
    rw [split]
    rw [List.mem_append] at member ⊢
    exact member.imp_right (List.mem_cons_of_mem line)
  rw [linesOf_unlines, spoken_append, spoken_append, List.length_append, Nat.add_assoc]
  · simp [some_line]
  · intro other member
    simp only [List.mem_append] at kept member
    rcases member with (member | member) | member
    · exact kept other (.inl member)
    · exact whole other member
    · exact kept other (.inr member)

end Text

section Renumbered

def Line.renumber (f : Nat → Nat) (line : Line) : Line := { line with number := f line.number }

variable (f : Nat → Nat)

theorem spoken_renumber {lines : List (List Char)} {first first' : Nat}
    (agree : ∀ i < lines.length, f (first + i) = first' + i) :
    (spoken lines first).map (Line.renumber f) = spoken lines first' := by
  induction lines generalizing first first' with
  | nil => rfl
  | cons line lines ih =>
    have here : f first = first' := agree 0 (Nat.zero_lt_succ _)
    have later : (spoken lines (first + 1)).map (Line.renumber f) = spoken lines (first' + 1) := by
      apply ih
      intro i less
      have there := agree (i + 1) (Nat.succ_lt_succ less)
      rwa [← Nat.add_assoc, ← Nat.add_assoc, Nat.add_right_comm, Nat.add_right_comm first'] at there
    rw [spoken_cons, spoken_cons, List.map_append, later]
    split
    · rfl
    · rw [← here]
      rfl

theorem faults_renumber (before : Option Statement) (lines : List Line) :
    faults before (lines.map (Line.renumber f)) =
      (faults before lines).map (SettingsError.renumber f) := by
  induction lines generalizing before with
  | nil => rfl
  | cons line lines ih =>
    have next : ((lines.map (Line.renumber f)).head?.map Line.statement) =
        lines.head?.map Line.statement := by
      cases lines <;> rfl
    rw [List.map_cons, faults, faults, next, List.map_append, ← ih]
    congr 1
    change ((line.statement.fault? _ _).map _).toList = _
    cases line.statement.fault? before (lines.head?.map Line.statement) <;> rfl

theorem assignments_renumber (before : Option Statement) (lines : List Line) :
    assignments before (lines.map (Line.renumber f)) = assignments before lines := by
  induction lines generalizing before with
  | nil => rfl
  | cons line lines ih => rw [List.map_cons, assignments, assignments, ← ih]; rfl

/-- What reading comes to when only the numbers of the errors differ. -/
theorem parse_of_renumbered {text text' : String}
    (errors : faults none (linesOf text') =
      (faults none (linesOf text)).map (SettingsError.renumber f))
    (given : assignments none (linesOf text') = assignments none (linesOf text)) :
    parse text' = (parse text).mapError (List.map (SettingsError.renumber f)) := by
  rw [parse_eq, parse_eq, errors, given]
  by_cases clear : faults none (linesOf text) = []
  · simp [clear, Except.mapError]
  · simp [clear, Except.mapError]

end Renumbered

end Settings
end TemporalCheck
