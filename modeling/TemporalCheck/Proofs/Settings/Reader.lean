import TemporalCheck.Proofs.Settings.Value

/-! Settings line by line. A line that says anything names a directive that waits for its value,
gives a directive with a value, or says something else. What is wrong with it can be told from its
neighbours, and so can what it sets; a whole text comes to the list of its faults and the list of
its assignments. -/
namespace TemporalCheck.Settings

inductive Statement where
  /-- A directive without a value. -/
  | bare (d : Directive)
  | full (d : Directive) (value : List Char)
  /-- Anything that does not begin with the name of a directive. -/
  | other (said : List Char)
deriving DecidableEq, Repr

def Statement.of (said : List Char) : Statement :=
  match Directive.ofWord? (Text.firstWord said) with
  | none => .other said
  | some d =>
    match Text.trim (said.drop (Text.firstWord said).length) with
    | [] => .bare d
    | value => .full d value

/-- A line that says something, with its number, which is counted from one. -/
structure Line where
  number : Nat
  statement : Statement
deriving DecidableEq, Repr

def spoken (lines : List (List Char)) (first : Nat) : List Line :=
  (lines.zipIdx first).filterMap fun (line, number) =>
    if content line = [] then none else some ⟨number, .of (content line)⟩

def linesOf (text : String) : List Line := spoken (Text.lines text.toList) 1

theorem spoken_cons (line : List Char) (rest : List (List Char)) (first : Nat) :
    spoken (line :: rest) first =
      (if content line = [] then [] else [⟨first, .of (content line)⟩]) ++
        spoken rest (first + 1) := by
  rw [spoken, List.zipIdx_cons, List.filterMap_cons, ← spoken]
  by_cases silent : content line = []
  · simp only [if_pos silent, List.nil_append]
  · simp only [if_neg silent, List.singleton_append]

namespace Statement

/-- What is wrong with a line, by what the lines before and after it say. -/
def fault? (before after : Option Statement) : Statement → Option SettingsFault
  | .bare _ =>
    match after with
    | some (.other _) => none
    | _ => some .missingValue
  | .full d value => refusal? d value
  | .other said =>
    match before with
    | some (.bare d) => refusal? d said
    | _ => some (.unknownDirective said)

/-- The value that a line gives to a directive, by what the line before it says. -/
def assignment? (before : Option Statement) : Statement → Option (Directive × List Char)
  | .bare _ => none
  | .full d value => some (d, value)
  | .other said =>
    match before with
    | some (.bare d) => some (d, said)
    | _ => none

end Statement

def faults (before : Option Statement) : List Line → List SettingsError
  | [] => []
  | line :: rest =>
    ((line.statement.fault? before (rest.head?.map Line.statement)).map
      (SettingsError.mk line.number)).toList ++ faults (some line.statement) rest

def assignments (before : Option Statement) : List Line → List (Directive × List Char)
  | [] => []
  | line :: rest =>
    (line.statement.assignment? before).toList ++ assignments (some line.statement) rest

namespace Reader

def step (r : Reader) (line : Line) : Reader :=
  match line.statement with
  | .bare d => { r.abandon with waiting := some (d, line.number) }
  | .full d value => r.abandon.assign d line.number value
  | .other said =>
    match r.waiting with
    | none => r.report line.number (.unknownDirective said)
    | some (d, _) => { r with waiting := none }.assign d line.number said

theorem take_eq (r : Reader) (number : Nat) (said : List Char) :
    r.take number said = if said = [] then r else r.step ⟨number, .of said⟩ := by
  unfold take step Statement.of
  congr 1
  dsimp only
  cases Directive.ofWord? (Text.firstWord said) with
  | none => rfl
  | some d =>
    dsimp only
    cases Text.trim (said.drop (Text.firstWord said).length) <;> rfl

theorem takeAll_eq (r : Reader) (first : Nat) (lines : List (List Char)) :
    r.takeAll first (lines.map content) = (spoken lines first).foldl step r := by
  induction lines generalizing r first with
  | nil => rfl
  | cons line rest ih =>
    rw [List.map_cons, takeAll, take_eq, ih, spoken_cons]
    split <;> rfl

def waitingAfter : Option Line → Option (Directive × Nat)
  | some ⟨number, .bare d⟩ => some (d, number)
  | _ => none

/-- The fault of a bare directive, which is not known before the next line. -/
def owed (before : Option Line) (after : Option Statement) : List SettingsError :=
  match before, after with
  | some ⟨_, .bare _⟩, some (.other _) => []
  | some ⟨number, .bare _⟩, _ => [⟨number, .missingValue⟩]
  | _, _ => []

/-- The fault of any other line, which is known at once. -/
def known (before : Option Line) (line : Line) : List SettingsError :=
  match line.statement with
  | .bare _ => []
  | statement =>
    ((statement.fault? (before.map Line.statement) none).map (SettingsError.mk line.number)).toList

theorem known_append_owed (before : Option Line) (line : Line) (after : Option Statement) :
    known before line ++ owed (some line) after =
      ((line.statement.fault? (before.map Line.statement) after).map
        (SettingsError.mk line.number)).toList := by
  obtain ⟨number, d | ⟨d, value⟩ | said⟩ := line
  · rcases after with _ | _ | _ | _ <;> rfl
  · simp [known, owed, Statement.fault?]
  · simp [known, owed, Statement.fault?]

section Step

variable {r : Reader} {before : Option Line}

theorem assign_eq (r : Reader) (d : Directive) (number : Nat) (value : List Char) :
    r.assign d number value =
      { r with
        settings := r.settings.put d value
        errors := r.errors ++ ((refusal? d value).map (SettingsError.mk number)).toList } := by
  unfold assign
  rw [set_eq]
  cases refused : refusal? d value with
  | none => simp
  | some fault => simp [report, put_of_refused refused]

theorem abandon_eq (follows : r.waiting = waitingAfter before) {after : Option Statement}
    (directive : ∀ said, after ≠ some (.other said)) :
    r.abandon = { r with errors := r.errors ++ owed before after, waiting := none } := by
  obtain ⟨settings, errors, waiting⟩ := r
  subst follows
  rcases before with _ | ⟨number, d | _ | _⟩
  · simp [abandon, waitingAfter, owed]
  · rcases after with _ | _ | _ | said
    · rfl
    · rfl
    · rfl
    · exact absurd rfl (directive said)
  · simp [abandon, waitingAfter, owed]
  · simp [abandon, waitingAfter, owed]

/-- All that a line does: it sets a value, it settles what is owed for the line before, it is
reported itself, and it may wait. -/
theorem step_eq (follows : r.waiting = waitingAfter before) (line : Line) : r.step line =
    { settings := r.settings.putAll (line.statement.assignment? (before.map Line.statement)).toList
      errors := r.errors ++ owed before (some line.statement) ++ known before line
      waiting := waitingAfter (some line) } := by
  obtain ⟨number, d | ⟨d, value⟩ | said⟩ := line
  · have directive (said : List Char) : some (Statement.bare d) ≠ some (.other said) := by simp
    simp [step, abandon_eq follows directive, Statement.assignment?, putAll, known, waitingAfter]
  · have directive (said : List Char) : some (Statement.full d value) ≠ some (.other said) := by
      simp
    simp [step, abandon_eq follows directive, assign_eq, Statement.assignment?, putAll, known,
      Statement.fault?, waitingAfter]
  · -- a value for the directive that waits, if there is one
    rcases before with _ | ⟨number', d' | _ | _⟩ <;> simp only [waitingAfter] at follows <;>
      simp [step, follows, report, assign_eq, Statement.assignment?, putAll, known, owed,
        Statement.fault?, waitingAfter]

end Step

section Run

variable {r : Reader} {before : Option Line}

theorem foldl_step (follows : r.waiting = waitingAfter before) (lines : List Line) :
    (lines.foldl step r).abandon =
      { settings := r.settings.putAll (assignments (before.map Line.statement) lines)
        errors := r.errors ++ owed before (lines.head?.map Line.statement) ++
          faults (before.map Line.statement) lines
        waiting := none } := by
  -- a line settles what is owed for the one before and leaves what it owes itself to the next one
  induction lines generalizing r before with
  | nil =>
    have nothing (said : List Char) : none ≠ some (Statement.other said) := by simp
    simp [abandon_eq follows nothing, assignments, faults, putAll]
  | cons line rest ih =>
    have follows' : (r.step line).waiting = waitingAfter (some line) := by rw [step_eq follows]
    rw [List.foldl_cons, ih follows', step_eq follows]
    have errors : faults (before.map Line.statement) (line :: rest) = known before line ++
        owed (some line) (rest.head?.map Line.statement) ++ faults (some line.statement) rest := by
      rw [faults, known_append_owed]
    rw [errors, assignments, putAll_append]
    simp [List.append_assoc]

end Run

end Reader

theorem parse_eq (text : String) : parse text =
    if faults none (linesOf text) = [] then
      .ok (putAll {} (assignments none (linesOf text)))
    else .error (faults none (linesOf text)) := by
  have start : ({} : Reader).waiting = Reader.waitingAfter none := rfl
  unfold parse
  rw [Reader.takeAll_eq, ← linesOf, Reader.foldl_step start]
  rfl

end TemporalCheck.Settings
