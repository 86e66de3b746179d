import TemporalCheck.Proofs.Settings.Statement
import TemporalCheck.Proofs.Text.Words

/-! Lines with the same words. No directive takes a value that holds a blank, so lines with the same
words are good or bad together and set the same; they may differ in what an error quotes. -/
namespace TemporalCheck.Settings

section Values

variable {d : Directive} {value value' : List Char} {c : Char}

def blankCodes : List Nat :=
  List.range' 9 5 ++ [0x20, 0x85, 0xa0, 0x1680] ++ List.range' 0x2000 11 ++
    [0x2028, 0x2029, 0x202f, 0x205f, 0x3000]

theorem mem_blankCodes (blank : Text.isBlank c) : c.toNat ∈ blankCodes := by
  simp [Text.isBlank] at blank
  simp only [blankCodes, List.mem_append, List.mem_range'_1, List.mem_cons, List.not_mem_nil,
    or_false]
  omega

/-- A blank is its own upper case. -/
theorem upperChar_of_blank (blank : Text.isBlank c) : Text.upperChar c = [c] := by
  have same : ∀ n ∈ blankCodes, Text.upperChar (Char.ofNat n) = [Char.ofNat n] := by decide +kernel
  simpa using same _ (mem_blankCodes blank)

theorem not_accepts_of_blank (member : c ∈ value) (blank : Text.isBlank c) : ¬Accepts d value := by
  have upper : c ∈ Text.upper value :=
    List.mem_flatMap.mpr ⟨c, member, by simp [upperChar_of_blank blank]⟩
  have word {words : List (List Char)} (plain : words.all (·.all isPlain)) :
      Text.upper value ∉ words := by
    intro listed
    have letters := List.all_eq_true.mp plain _ listed
    have visible := isBlank_of_isPlain (List.all_eq_true.mp letters c upper)
    simp [visible] at blank
  have count : ¬IsCount value := by
    rintro ⟨digits, form, -, all, -⟩
    have kept : c ∈ value.filter (· != '_') := by
      rw [List.mem_filter]
      exact ⟨member, bne_iff_ne.mpr (Text.ne_of_blank blank rfl)⟩
    have plus : c ≠ '+' := Text.ne_of_blank blank rfl
    have digit : c ∈ digits := by
      rcases form with form | form <;> rw [form] at kept
      · exact kept
      · exact List.mem_of_ne_of_mem plus kept
    have visible := isBlank_of_isPlain (isPlain_of_isDigit (all c digit))
    simp [visible] at blank
  cases d
  case livenessCheck => exact word rfl
  case livenessInterval => exact count
  case stuttering => exact word rfl
  case maxStates => exact count
  case feedBatch => exact count
  case workers => exact word rfl

/-- A directive does not tell values apart by their blanks. -/
theorem refusal?_alike (alike : Text.AlikeInBlanks value value') (d : Directive) :
    (refusal? d value).isSome = (refusal? d value').isSome ∧
      ∀ s : Settings, s.put d value = s.put d value' := by
  have refused {value : List Char} : (∃ c ∈ value, Text.isBlank c) →
      ∃ fault, refusal? d value = some fault := by
    rintro ⟨c, member, blank⟩
    rw [← Option.ne_none_iff_exists', ne_eq, refusal?_eq_none_iff]
    exact not_accepts_of_blank member blank
  rcases alike with rfl | ⟨blank, blank'⟩
  · exact ⟨rfl, fun s => rfl⟩
  · obtain ⟨fault, known⟩ := refused blank
    obtain ⟨fault', known'⟩ := refused blank'
    rw [known, known']
    exact ⟨rfl, fun s => by rw [put_of_refused known, put_of_refused known']⟩

end Values

section Statements

inductive Statement.Alike : Statement → Statement → Prop
  | bare (d : Directive) : Alike (.bare d) (.bare d)
  | full (d : Directive) {value value' : List Char} : Text.AlikeInBlanks value value' →
      Alike (.full d value) (.full d value')
  | other {said said' : List Char} : Text.AlikeInBlanks said said' →
      Alike (.other said) (.other said')

theorem Statement.Alike.refl (statement : Statement) : statement.Alike statement := by
  cases statement with
  | bare d => exact .bare d
  | full d value => exact .full d (.inl rfl)
  | other said => exact .other (.inl rfl)

theorem alike_of_words {said said' : List Char} (same : Text.words said = Text.words said')
    (some_word : Text.trim said ≠ []) :
    (Statement.of (Text.trim said)).Alike (Statement.of (Text.trim said')) := by
  have alike := Text.alike_trim same
  have some_word' : Text.trim said' ≠ [] := by
    rwa [ne_eq, ← Text.words_eq_nil_iff, ← same, Text.words_eq_nil_iff]
  obtain ⟨-, -, -, -, -, first, -⟩ := Text.exists_padding said
  obtain ⟨-, -, -, -, -, first', -⟩ := Text.exists_padding said'
  have words : Text.words (Text.trim said) = Text.words (Text.trim said') := by
    rw [Text.words_trim, Text.words_trim, same]
  rw [Text.words_eq_cons first some_word, Text.words_eq_cons first' some_word'] at words
  obtain ⟨word, others⟩ := List.cons.inj words
  unfold Statement.of
  rw [← word]
  cases Directive.ofWord? (Text.firstWord (Text.trim said)) with
  | none => exact .other alike
  | some d =>
    have alike := Text.alike_trim others
    rw [← word] at alike
    dsimp only
    generalize Text.trim _ = value at alike ⊢
    generalize Text.trim _ = value' at alike ⊢
    cases value with
    | nil =>
      cases value' with
      | nil => exact .bare d
      | cons c value' => simp [Text.AlikeInBlanks] at alike
    | cons c value =>
      cases value' with
      | nil => simp [Text.AlikeInBlanks] at alike
      | cons c' value' => exact .full d alike

end Statements

section Lines

variable {before before' after after' : Option Statement} {statement statement' : Statement}
  {lines lines' : List Line}

def Line.Alike (line line' : Line) : Prop :=
  line.number = line'.number ∧ line.statement.Alike line'.statement

theorem fault?_alike (alike : statement.Alike statement')
    (earlier : Option.Rel Statement.Alike before before')
    (later : Option.Rel Statement.Alike after after') :
    (statement.fault? before after).isSome = (statement'.fault? before' after').isSome := by
  cases alike with
  | bare d =>
    rcases later with ⟨_ | _ | _⟩ | _ <;> rfl
  | full d alike => exact (refusal?_alike alike d).1
  | other alike =>
    rcases earlier with ⟨d | _ | _⟩ | _
    · exact (refusal?_alike alike d).1
    · rfl
    · rfl
    · rfl

theorem assignment?_alike (alike : statement.Alike statement')
    (earlier : Option.Rel Statement.Alike before before') (s : Settings) :
    s.putAll (statement.assignment? before).toList =
      s.putAll (statement'.assignment? before').toList := by
  cases alike with
  | bare d => rfl
  | full d alike => exact (refusal?_alike alike d).2 s
  | other alike =>
    rcases earlier with ⟨d | _ | _⟩ | _
    · exact (refusal?_alike alike d).2 s
    · rfl
    · rfl
    · rfl

theorem faults_alike (alike : List.Forall₂ Line.Alike lines lines')
    (earlier : Option.Rel Statement.Alike before before') :
    (faults before lines).map SettingsError.line =
      (faults before' lines').map SettingsError.line := by
  induction alike generalizing before before' with
  | nil => rfl
  | @cons line line' lines lines' alike rest ih =>
    have later : Option.Rel Statement.Alike (lines.head?.map Line.statement)
        (lines'.head?.map Line.statement) := by
      cases rest with
      | nil => exact .none
      | cons alike _ => exact .some alike.2
    have reported := fault?_alike alike.2 earlier later
    rw [faults, faults, List.map_append, List.map_append, ih (.some alike.2), alike.1]
    congr 1
    cases known : line.statement.fault? before (lines.head?.map Line.statement) <;>
      cases known' : line'.statement.fault? before' (lines'.head?.map Line.statement) <;>
      simp [known, known'] at reported ⊢

theorem assignments_alike (alike : List.Forall₂ Line.Alike lines lines')
    (earlier : Option.Rel Statement.Alike before before') (s : Settings) :
    s.putAll (assignments before lines) = s.putAll (assignments before' lines') := by
  induction alike generalizing before before' s with
  | nil => rfl
  | cons alike rest ih =>
    rw [assignments, assignments, putAll_append, putAll_append, assignment?_alike alike.2 earlier,
      ih (.some alike.2)]

/-- What reading comes to when lines differ in blanks only: the same settings, or errors on the same
lines. -/
theorem parse_alike {text text' : String}
    (alike : List.Forall₂ Line.Alike (linesOf text) (linesOf text')) :
    (parse text).mapError (List.map SettingsError.line) =
      (parse text').mapError (List.map SettingsError.line) := by
  have errors := faults_alike alike .none
  have given := assignments_alike alike .none {}
  rw [parse_eq, parse_eq, given]
  by_cases clear : faults none (linesOf text) = []
  · have clear' : faults none (linesOf text') = [] := by simpa [clear] using errors.symm
    rw [if_pos clear, if_pos clear']
  · have clear' : faults none (linesOf text') ≠ [] := by
      rintro clear'
      simp [clear', clear] at errors
    rw [if_neg clear, if_neg clear', Except.mapError, Except.mapError, errors]

end Lines

end TemporalCheck.Settings
