import TemporalCheck.Proofs.Settings.Reader
import TemporalCheck.Proofs.Settings.Uncommented

/-! Which lines of settings are bad. Apart from blanks and comments, there are four ways for a line
to be bad. Reading reports each bad line once, in the order of the lines, although it does not know
that a value is missing before the next line that says something. It takes the lines to end before
an enclosed comment in which the mark of a comment to the end of the line begins. -/
namespace TemporalCheck.Settings

namespace Statement

def IsDirective : Statement → Prop
  | .bare _ | .full _ _ => True
  | .other _ => False

/-- What makes a line bad, given the lines before and after it that say something. -/
inductive Bad (before after : Option Statement) : Statement → Prop
  /-- A directive still waits for its value at the end, -/
  | unfinished {d : Directive} : after = none → Bad before after (.bare d)
  /-- or another directive follows. -/
  | overtaken {d : Directive} {next : Statement} : after = some next → next.IsDirective →
      Bad before after (.bare d)
  /-- A directive does not take the value on its line, -/
  | refused {d : Directive} {value : List Char} : ¬Accepts d value →
      Bad before after (.full d value)
  /-- or on the line that follows. -/
  | unsuited {d : Directive} {said : List Char} : before = some (.bare d) → ¬Accepts d said →
      Bad before after (.other said)
  /-- No directive waits for what is said. -/
  | stray {said : List Char} : (∀ d, before ≠ some (.bare d)) → Bad before after (.other said)

theorem isSome_fault?_iff {before after : Option Statement} {statement : Statement} :
    (statement.fault? before after).isSome ↔ statement.Bad before after := by
  have refusal (d : Directive) (value : List Char) :
      (refusal? d value).isSome ↔ ¬Accepts d value := by
    rw [← refusal?_eq_none_iff, Option.isSome_iff_ne_none]
  cases statement with
  | bare d =>
    rcases after with _ | d' | ⟨d', value⟩ | said
    · exact iff_of_true rfl (.unfinished rfl)
    · exact iff_of_true rfl (.overtaken rfl trivial)
    · exact iff_of_true rfl (.overtaken rfl trivial)
    · refine iff_of_false Bool.false_ne_true ?_
      rintro (ends | ⟨⟨⟩, directive⟩)
      · contradiction
      · exact directive
  | full d value =>
    refine (refusal d value).trans ⟨.refused, ?_⟩
    rintro ⟨⟩
    assumption
  | other said =>
    rcases before with _ | d | ⟨d, value⟩ | said'
    · exact iff_of_true rfl (.stray (by simp))
    · refine (refusal d said).trans ⟨.unsuited rfl, ?_⟩
      rintro (_ | _ | _ | ⟨⟨⟩, unfit⟩ | alone)
      · exact unfit
      · exact absurd rfl (alone d)
    · exact iff_of_true rfl (.stray (by simp))
    · exact iff_of_true rfl (.stray (by simp))

end Statement

section Among

variable {before : Option Statement} {lines : List Line} {n : Nat}

def BadAmong (before : Option Statement) (lines : List Line) (n : Nat) : Prop :=
  ∃ front statement back, lines = front ++ ⟨n, statement⟩ :: back ∧
    statement.Bad ((front.getLast?.map Line.statement).or before)
      (back.head?.map Line.statement)

theorem badAmong_cons_iff {line : Line} : BadAmong before (line :: lines) n ↔
    n = line.number ∧ line.statement.Bad before (lines.head?.map Line.statement) ∨
      BadAmong (some line.statement) lines n := by
  have last (front : List Line) : ((line :: front).getLast?.map Line.statement).or before =
      (front.getLast?.map Line.statement).or (some line.statement) := by
    rw [List.getLast?_cons]
    cases front.getLast? <;> rfl
  constructor
  · rintro ⟨front, statement, back, split, bad⟩
    cases front with
    | nil =>
      obtain ⟨rfl, rfl⟩ := List.cons.inj split
      exact .inl ⟨rfl, bad⟩
    | cons first front =>
      obtain ⟨rfl, rfl⟩ := List.cons.inj split
      exact .inr ⟨front, statement, back, rfl, last front ▸ bad⟩
  · rintro (⟨rfl, bad⟩ | ⟨front, statement, back, rfl, bad⟩)
    · exact ⟨[], line.statement, lines, rfl, bad⟩
    · exact ⟨line :: front, statement, back, rfl, (last front).symm ▸ bad⟩

theorem mem_faults_iff :
    n ∈ (faults before lines).map SettingsError.line ↔ BadAmong before lines n := by
  induction lines generalizing before with
  | nil => simp [faults, BadAmong]
  | cons line rest ih =>
    rw [badAmong_cons_iff, ← ih, ← Statement.isSome_fault?_iff, faults, List.map_append,
      List.mem_append]
    cases line.statement.fault? before (rest.head?.map Line.statement) <;> simp

theorem faults_sublist : ((faults before lines).map SettingsError.line).Sublist
    (lines.map Line.number) := by
  induction lines generalizing before with
  | nil => exact .slnil
  | cons line rest ih =>
    rw [faults, List.map_append, List.map_cons]
    cases line.statement.fault? before (rest.head?.map Line.statement) with
    | none => exact ih.cons line.number
    | some fault => exact ih.cons_cons line.number

theorem pairwise_spoken (lines : List (List Char)) (first : Nat) :
    ((spoken lines first).map Line.number).Pairwise (· < ·) := by
  have numbers : (lines.zipIdx first).Pairwise (·.2 < ·.2) := by
    rw [← List.pairwise_map, List.zipIdx_map_snd]
    exact List.pairwise_lt_range'
  rw [List.pairwise_map, spoken, List.pairwise_filterMap]
  refine numbers.imp fun {a b} less x taken y taken' => ?_
  obtain ⟨-, ⟨⟩⟩ := Option.ite_none_left_eq_some.mp taken
  obtain ⟨-, ⟨⟩⟩ := Option.ite_none_left_eq_some.mp taken'
  exact less

end Among

section Text

variable {lines : List (List Char)} {n : Nat}

def statements (lines : List (List Char)) : List Line :=
  (lines.zipIdx 1).filterMap fun (line, number) =>
    let said := Text.trim (uncommented false line)
    if said = [] then none else some ⟨number, .of said⟩

def BadLine (lines : List (List Char)) (n : Nat) : Prop :=
  ∃ front statement back, statements lines = front ++ ⟨n, statement⟩ :: back ∧
    statement.Bad (front.getLast?.map Line.statement) (back.head?.map Line.statement)

/-- There are no errors if no line is bad, and otherwise one for each bad line, in order. -/
def Faulted (lines : List (List Char)) : Except (List SettingsError) Settings → Prop
  | .ok _ => ∀ n, ¬BadLine lines n
  | .error errors => (∃ n, BadLine lines n) ∧ (errors.map SettingsError.line).Pairwise (· < ·) ∧
      ∀ n, n ∈ errors.map SettingsError.line ↔ BadLine lines n

theorem mem_faults_statements_iff :
    n ∈ (faults none (statements lines)).map SettingsError.line ↔ BadLine lines n := by
  simp only [mem_faults_iff, BadAmong, BadLine, Option.or_none]

theorem statements_beforeMarked (lines : List (List Char)) :
    statements (lines.map (beforeMarked false)) = spoken lines 1 := by
  rw [statements, spoken, List.zipIdx_map, List.filterMap_map]
  refine congrArg (List.filterMap · _) (funext fun numbered => ?_)
  simp only [Function.comp_apply, Prod.map_fst, Prod.map_snd, id_eq, content_eq]

/-- Reading fails if and only if a line is bad, and then there is one error for each bad line, in
the order of the lines, unless a mark stands in an enclosed comment. With a mark in it, the line is
read as if it ended before that comment. -/
theorem parse_faults (text : String) :
    let lines := Text.lines text.toList
    ((∀ line ∈ lines, beforeMarked false line = line) → Faulted lines (parse text)) ∧
      Faulted (lines.map (beforeMarked false)) (parse text) := by
  intro lines
  have faulted : Faulted (lines.map (beforeMarked false)) (parse text) := by
    have bad (n : Nat) : n ∈ (faults none (linesOf text)).map SettingsError.line ↔
        BadLine (lines.map (beforeMarked false)) n := by
      rw [← mem_faults_statements_iff, statements_beforeMarked, linesOf]
    rw [parse_eq]
    by_cases clear : faults none (linesOf text) = []
    · rw [if_pos clear]
      intro n
      rw [← bad, clear]
      exact List.not_mem_nil
    · rw [if_neg clear]
      refine ⟨?_, (pairwise_spoken _ 1).sublist faults_sublist, bad⟩
      obtain ⟨e, member⟩ := List.exists_mem_of_ne_nil _ clear
      exact ⟨e.line, (bad e.line).mp (List.mem_map_of_mem member)⟩
  refine ⟨fun unmarked => ?_, faulted⟩
  rwa [List.map_congr_left unmarked, List.map_id'] at faulted

/-- The value that is missing in the first line is missed in the third one, and the last line is no
value for the fourth. -/
theorem parse_faults_missing :
    let text := "STUTTERING (* or not *)\n\nMAX_STATES 0\nWORKERS\n\\* (* many\n some"
    parse text = .error
        [⟨1, .missingValue⟩, ⟨3, .notPositive .maxStates⟩, ⟨6, .notWorkers "SOME".toList⟩] ∧
      ∀ n, BadLine (Text.lines text.toList) n ↔ n ∈ [1, 3, 6] := by
  intro text
  have read : parse text = .error
      [⟨1, .missingValue⟩, ⟨3, .notPositive .maxStates⟩, ⟨6, .notWorkers "SOME".toList⟩] := by
    decide +kernel
  have faulted := (parse_faults text).1 (by decide +kernel)
  rw [read] at faulted
  exact ⟨read, fun n => (faulted.2.2 n).symm⟩

/-- The value is on the line, but it is missed behind a mark in a comment. -/
theorem fault_without_bad_line :
    let text := "STUTTERING (* a \\* b *)  TRUE\n"
    parse text = .error [⟨1, .missingValue⟩] ∧
      ∀ n, ¬BadLine (Text.lines text.toList) n := by
  intro text
  have clear : faults none (statements (Text.lines text.toList)) = [] := by decide +kernel
  refine ⟨by decide +kernel, fun n bad => ?_⟩
  rw [← mem_faults_statements_iff, clear] at bad
  exact List.not_mem_nil bad

end Text

end TemporalCheck.Settings
