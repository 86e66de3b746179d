import TemporalCheck.Proofs.Settings.Content
import TemporalCheck.Proofs.Settings.Lines
import TemporalCheck.Proofs.Settings.Statement

/-! A directive with its value on a later line. Reading the value at once or waiting for it comes to
the same, whatever stands before and after it; only the numbers of the lines change. -/
namespace TemporalCheck.Settings

/-- A directive and its value on one line, and each of them on a line of its own. There may be
blanks around them. -/
structure Parted (d : Directive) (line key value : List Char) : Prop where
  joined : ∃ gap, gap ≠ [] ∧ (∀ c ∈ gap, Text.isBlank c) ∧
    Text.trim line = d.keyword.toList ++ gap ++ Text.trim value
  alone : Text.trim key = d.keyword.toList
  nonempty : Text.trim value ≠ []
  uncut : Uncut value
  unopened : Unopened value
  undirected : Directive.ofWord? (Text.firstWord (Text.trim value)) = none
  whole : '\n' ∉ key ∧ '\n' ∉ value

/-- The number of a line after `count` lines have been put in front of the line `first`. -/
def pushed (first count n : Nat) : Nat := if first ≤ n then n + count else n

section Content

variable {d : Directive} {line key value : List Char}

/-- A mark of characters that are not blank stands between the blanks. -/
theorem mark_infix_trim_iff {a b : Char} (visible : Text.isBlank a = false)
    (visible' : Text.isBlank b = false) : [a, b] <:+: Text.trim line ↔ [a, b] <:+: line := by
  obtain ⟨l, r, padded, left, right, -⟩ := Text.exists_padding line
  have absent : a ∉ l := fun member => by simp [left a member] at visible
  have absent' : b ∉ r := fun member => by simp [right b member] at visible'
  conv_rhs => rw [padded]
  rw [mark_infix_append_right absent', mark_infix_append_left absent]

theorem mark_infix_joined {a b : Char} {gap : List Char} (blank : ∀ c ∈ gap, Text.isBlank c)
    (special : isPlain a = false) (visible : Text.isBlank a = false) :
    [a, b] <:+: d.keyword.toList ++ gap ++ value ↔ [a, b] <:+: value := by
  apply mark_infix_append_left
  rw [List.mem_append]
  rintro (member | member)
  · simp [isPlain_keyword d a member] at special
  · simp [blank a member] at visible

/-- A line of a directive and its value. -/
theorem Parted.spoken_line (parted : Parted d line key value) (n : Nat) :
    spoken [line] n = [⟨n, .full d (Text.trim value)⟩] := by
  obtain ⟨gap, some_gap, blank, joined⟩ := parted.joined
  have uncut : Uncut line := by
    rw [Uncut, ← mark_infix_trim_iff rfl rfl, joined, mark_infix_joined blank rfl rfl,
      mark_infix_trim_iff rfl rfl]
    exact parted.uncut
  have unopened : Unopened line := by
    rw [Unopened, ← mark_infix_trim_iff rfl rfl, joined, mark_infix_joined blank rfl rfl,
      mark_infix_trim_iff rfl rfl]
    exact parted.unopened
  have trimmed : Text.trim (Text.trim value) = Text.trim value := Text.trim_trim value
  have visible : Text.trim line ≠ [] := by
    rw [joined]
    exact List.append_ne_nil_of_right_ne_nil _ parted.nonempty
  have full : Statement.of (Text.trim line) = .full d (Text.trim value) := by
    rw [joined, Statement.of_keyword_append some_gap blank, trimmed]
    exact trimmed.symm ▸ parted.nonempty
  rw [spoken_cons, content_of_unmarked uncut unopened, if_neg visible, full]
  rfl

theorem Parted.content_key (parted : Parted d line key value) : content key = d.keyword.toList := by
  have special {a b : Char} (special : isPlain a = false) : ¬[a, b] <:+: d.keyword.toList := by
    intro mark
    simp [isPlain_keyword d a (mark.subset List.mem_cons_self)] at special
  rw [content_of_unmarked, parted.alone]
  · rw [Uncut, ← mark_infix_trim_iff rfl rfl, parted.alone]
    exact special rfl
  · rw [Unopened, ← mark_infix_trim_iff rfl rfl, parted.alone]
    exact special rfl

/-- A directive that waits for its value over lines that say nothing. -/
theorem Parted.spoken_apart (parted : Parted d line key value) {between : List (List Char)}
    (silent : ∀ other ∈ between, content other = []) (n : Nat) :
    spoken (key :: between ++ [value]) n =
      [⟨n, .bare d⟩, ⟨n + (between.length + 1), .other (Text.trim value)⟩] := by
  have content_value := content_of_unmarked parted.uncut parted.unopened
  rw [List.cons_append, spoken_cons, parted.content_key, if_neg (keyword_ne_nil d),
    Statement.of_keyword, spoken_append, spoken_silent silent, spoken_cons, content_value,
    if_neg parted.nonempty, Statement.of_value parted.undirected, Nat.add_assoc, Nat.add_comm 1]
  rfl

end Content

section Waiting

variable {d : Directive} {value : List Char} {n m : Nat}

/-- A value that is said on its own has the same faults behind it as one on the line of its
directive. -/
theorem faults_value (lines : List Line) :
    faults (some (.other value)) lines = faults (some (.full d value)) lines := by
  cases lines with
  | nil => rfl
  | cons line lines =>
    obtain ⟨number, _ | _ | _⟩ := line <;> rfl

theorem assignments_value (lines : List Line) :
    assignments (some (.other value)) lines = assignments (some (.full d value)) lines := by
  cases lines with
  | nil => rfl
  | cons line lines =>
    obtain ⟨number, _ | _ | _⟩ := line <;> rfl

theorem faults_parted (before : Option Statement) (front back : List Line) :
    faults before (front ++ ⟨n, .bare d⟩ :: ⟨m, .other value⟩ :: back) =
      faults before (front ++ ⟨m, .full d value⟩ :: back) := by
  induction front generalizing before with
  | nil =>
    rw [List.nil_append, List.nil_append, faults, faults, faults, faults_value]
    rfl
  | cons line front ih =>
    rw [List.cons_append, List.cons_append, faults, faults, ih]
    congr 1
    cases front with
    | nil => obtain ⟨number, _ | _ | _⟩ := line <;> rfl
    | cons next front => rfl

theorem assignments_parted (before : Option Statement) (front back : List Line) :
    assignments before (front ++ ⟨n, .bare d⟩ :: ⟨m, .other value⟩ :: back) =
      assignments before (front ++ ⟨m, .full d value⟩ :: back) := by
  induction front generalizing before with
  | nil =>
    rw [List.nil_append, List.nil_append, assignments, assignments, assignments, assignments_value]
    rfl
  | cons line front ih => rw [List.cons_append, List.cons_append, assignments, assignments, ih]

end Waiting

/-- The lines of a text, once there are more lines in front of one of them. -/
theorem spoken_pushed (before after : List (List Char)) (statement : Statement) (count : Nat) :
    (spoken before 1 ++ ⟨1 + before.length, statement⟩ :: spoken after (1 + before.length + 1)).map
        (Line.renumber (pushed (before.length + 1) count)) =
      spoken before 1 ++ ⟨1 + before.length + count, statement⟩ ::
        spoken after (1 + before.length + 1 + count) := by
  have front : (spoken before 1).map (Line.renumber (pushed (before.length + 1) count)) =
      spoken before 1 :=
    spoken_renumber _ fun i less => if_neg (by omega)
  have back : (spoken after (1 + before.length + 1)).map
      (Line.renumber (pushed (before.length + 1) count)) =
        spoken after (1 + before.length + 1 + count) :=
    spoken_renumber _ fun i less => (if_pos (by omega)).trans (by omega)
  have here : pushed (before.length + 1) count (1 + before.length) = 1 + before.length + count :=
    if_pos (by omega)
  rw [List.map_append, List.map_cons, front, back, Line.renumber, here]

/-- A directive may wait for its value over any number of lines that say nothing. The settings are
the same, or the errors are the same and move with their lines. -/
theorem parse_parted {text : String} {before between after : List (List Char)} {d : Directive}
    {line key value : List Char} (split : text.toList.splitOn '\n' = before ++ line :: after)
    (parted : Parted d line key value)
    (silent : ∀ other ∈ between, '\n' ∉ other ∧ content other = []) :
    parse (unlines (before ++ (key :: between ++ [value]) ++ after)) =
      (parse text).mapError
        (List.map (SettingsError.renumber (pushed (before.length + 1) (between.length + 1)))) := by
  have joined : linesOf text = spoken before 1 ++
      ⟨1 + before.length, .full d (Text.trim value)⟩ :: spoken after (1 + before.length + 1) := by
    rw [linesOf_split split, parted.spoken_line, List.append_assoc]
    rfl
  have apart : linesOf (unlines (before ++ (key :: between ++ [value]) ++ after)) =
      spoken before 1 ++ ⟨1 + before.length, .bare d⟩ ::
        ⟨1 + before.length + (between.length + 1), .other (Text.trim value)⟩ ::
        spoken after (1 + before.length + 1 + (between.length + 1)) := by
    have count : (key :: between ++ [value]).length = 1 + (between.length + 1) := by
      simp [Nat.add_comm]
    rw [linesOf_replaced split (by simp),
      parted.spoken_apart fun other member => (silent other member).2, count]
    · simp [Nat.add_assoc]
    · simp only [List.cons_append, List.forall_mem_cons, List.forall_mem_append]
      exact ⟨parted.whole.1, fun other member => (silent other member).1, parted.whole.2,
        List.forall_mem_nil _⟩
  apply parse_of_renumbered
  · rw [← faults_renumber, joined, spoken_pushed, apart, faults_parted]
  · rw [← assignments_renumber _ none (linesOf text), joined, spoken_pushed, apart,
      assignments_parted]

/-- The value is waited for over two lines, and what is wrong with it moves with it. The errors
before and after it are not mistaken for its own. -/
theorem parse_parted_perhaps :
    parse "MAX_STATES\nSTUTTERING\n\n(* or not *)\n  perhaps\nWORKERS 3\n" =
      .error [⟨1, .missingValue⟩, ⟨5, .notFlag .stuttering "PERHAPS".toList⟩,
        ⟨6, .notWorkers "3".toList⟩] := by
  have parted : Parted .stuttering "STUTTERING\tperhaps".toList "STUTTERING".toList
      "  perhaps".toList :=
    { joined := ⟨['\t'], by decide, List.forall_mem_singleton.mpr rfl, by decide +kernel⟩
      alone := by decide +kernel
      nonempty := by decide +kernel
      uncut := by decide +kernel
      unopened := by decide +kernel
      undirected := by decide +kernel
      whole := by decide +kernel }
  have split : "MAX_STATES\nSTUTTERING\tperhaps\nWORKERS 3\n".toList.splitOn '\n' =
      ["MAX_STATES".toList] ++ "STUTTERING\tperhaps".toList :: ["WORKERS 3".toList, []] := by
    decide +kernel
  have silent : ∀ other ∈ [[], "(* or not *)".toList], '\n' ∉ other ∧ content other = [] := by
    decide +kernel
  have moved := parse_parted split parted silent
  have first : parse "MAX_STATES\nSTUTTERING\tperhaps\nWORKERS 3\n" =
      .error [⟨1, .missingValue⟩, ⟨2, .notFlag .stuttering "PERHAPS".toList⟩,
        ⟨3, .notWorkers "3".toList⟩] := by
    decide +kernel
  rw [first] at moved
  exact moved

end TemporalCheck.Settings
