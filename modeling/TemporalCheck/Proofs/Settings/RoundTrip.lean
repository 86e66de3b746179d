import TemporalCheck.Proofs.Settings.Content
import TemporalCheck.Proofs.Settings.Statement

/-! Settings that are written and read again. Written settings are lines of a directive and a value
of plain characters, so that no line can be taken for a comment or for anything else; numbers come
back from their digits. Only a zero is written that is not read. -/
namespace TemporalCheck.Settings

section Full

def fullLines : List (Directive × List Char) → Nat → List Line
  | [], _ => []
  | (d, value) :: given, first => ⟨first, .full d value⟩ :: fullLines given (first + 1)

theorem assignments_full (given : List (Directive × List Char)) (before : Option Statement)
    (first : Nat) : assignments before (fullLines given first) = given := by
  induction given generalizing before first with
  | nil => rfl
  | cons entry given ih =>
    rw [fullLines, assignments, ih]
    rfl

theorem faults_full_eq_nil_iff (given : List (Directive × List Char)) (before : Option Statement)
    (first : Nat) : faults before (fullLines given first) = [] ↔
      ∀ entry ∈ given, refusal? entry.1 entry.2 = none := by
  induction given generalizing before first with
  | nil => simp [fullLines, faults]
  | cons entry given ih =>
    rw [fullLines, faults, List.append_eq_nil_iff, ih, List.forall_mem_cons]
    simp [Statement.fault?]

end Full

section Written

variable {d : Directive} {value : List Char}

def written (d : Directive) (value : List Char) : List Char := d.keyword.toList ++ ' ' :: value

theorem mem_written {c : Char} (plain : ∀ c ∈ value, isPlain c) (member : c ∈ written d value) :
    isPlain c ∨ c = ' ' := by
  rw [written, List.mem_append, List.mem_cons] at member
  rcases member with member | rfl | member
  · exact .inl (isPlain_keyword d c member)
  · exact .inr rfl
  · exact .inl (plain c member)

theorem content_written (plain : ∀ c ∈ value, isPlain c) (nonempty : value ≠ []) :
    content (written d value) = written d value := by
  have unmarked {mark : Char} (special : isPlain mark = false) (visible : mark ≠ ' ') :
      mark ∉ written d value := by
    intro member
    rcases mem_written plain member with isPlain | rfl
    · simp [special] at isPlain
    · exact visible rfl
  have backslash : '\\' ∉ written d value := unmarked (by decide) (by decide)
  have parenthesis : '(' ∉ written d value := unmarked (by decide) (by decide)
  have uncut : Uncut (written d value) := fun mark => backslash (mark.subset List.mem_cons_self)
  have unopened : Unopened (written d value) :=
    fun mark => parenthesis (mark.subset List.mem_cons_self)
  rw [content_of_unmarked uncut unopened]
  apply Text.trim_of_ends
  · intro c first
    rw [written, List.head?_append_of_ne_nil _ (keyword_ne_nil d)] at first
    exact isBlank_of_isPlain (isPlain_keyword d c (List.mem_of_head? first))
  · intro c last
    rw [written, List.append_cons, List.getLast?_append_of_ne_nil _ nonempty] at last
    exact isBlank_of_isPlain (plain c (List.mem_of_getLast? last))

theorem of_written (plain : ∀ c ∈ value, isPlain c) (nonempty : value ≠ []) :
    Statement.of (written d value) = .full d value := by
  have trimmed : Text.trim value = value :=
    Text.trim_of_no_blank fun c member => isBlank_of_isPlain (plain c member)
  have blank : ∀ c ∈ [' '], Text.isBlank c := List.forall_mem_singleton.mpr rfl
  have full : Statement.of (d.keyword.toList ++ [' '] ++ value) = .full d (Text.trim value) :=
    Statement.of_keyword_append (List.cons_ne_nil _ _) blank (trimmed.symm ▸ nonempty)
  rwa [← List.append_cons, ← written, trimmed] at full

/-- Lines that are written are read as what was written. -/
theorem spoken_written {given : List (Directive × List Char)}
    (plain : ∀ entry ∈ given, entry.2 ≠ [] ∧ ∀ c ∈ entry.2, isPlain c) (first : Nat) :
    spoken (given.map fun entry => written entry.1 entry.2) first = fullLines given first := by
  induction given generalizing first with
  | nil => rfl
  | cons entry given ih =>
    rw [List.forall_mem_cons] at plain
    obtain ⟨⟨nonempty, plain⟩, others⟩ := plain
    have visible : written entry.1 entry.2 ≠ [] := by simp [written]
    rw [List.map_cons, spoken_cons, content_written plain nonempty, if_neg visible,
      of_written plain nonempty, ih others (first + 1)]
    rfl

end Written

section Numbers

variable {n : UInt64}

def decimal (n : UInt64) : List Char := (toString n.toNat).toList

theorem decimal_eq (n : UInt64) : decimal n = Nat.toDigits 10 n.toNat := by
  rw [decimal, Nat.toString_eq_ofList_toDigits, String.toList_ofList]

theorem isDigit_decimal (n : UInt64) : ∀ c ∈ decimal n, c.isDigit := by
  intro c member
  rw [decimal_eq] at member
  exact Nat.isDigit_of_mem_toDigits (by decide) (by decide) member

theorem decimal_plain (n : UInt64) : decimal n ≠ [] ∧ ∀ c ∈ decimal n, isPlain c := by
  refine ⟨?_, fun c member => isPlain_of_isDigit (isDigit_decimal n c member)⟩
  rw [decimal_eq]
  exact Nat.toDigits_ne_nil

theorem digitsValue_decimal (n : UInt64) : digitsValue (decimal n) = n.toNat := by
  rw [decimal_eq, digitsValue, ← Nat.ofDigitChars_eq_foldl,
    Nat.ofDigitChars_toDigits (by decide) (by decide)]

/-- The digits of a number are read as the number, unless it is zero. -/
theorem readCount_decimal (d : Directive) (n : UInt64) : readCount d (decimal n) =
    if n = 0 then .error (.notPositive d) else .ok n := by
  have digits : (decimal n).filter (· != '_') = decimal n := by
    rw [List.filter_eq_self]
    intro c member
    have digit := isDigit_decimal n c member
    rw [bne_iff_ne]
    rintro rfl
    exact absurd digit (by decide)
  have number : natural? (decimal n) = some n :=
    natural?_eq_some_iff.mpr ⟨decimal n, .inl rfl, (decimal_plain n).1, isDigit_decimal n,
      digitsValue_decimal n⟩
  rw [readCount, digits, number]

end Numbers

section Entries

variable {s : Settings}

def entries (s : Settings) : List (Directive × List Char) :=
  [(Directive.livenessCheck, s.mode.text.toList),
    (Directive.livenessInterval, decimal s.scanInterval),
    (Directive.stuttering, (if s.stuttering then "TRUE" else "FALSE").toList)] ++
  (s.maxStates.map fun n => (Directive.maxStates, decimal n)).toList ++
  [(Directive.feedBatch, decimal s.feedBatch),
    (Directive.workers, (if s.parallel then "PARALLEL" else "SEQUENTIAL").toList)]

theorem toList_text (s : Settings) :
    s.text.toList = s.entries.flatMap fun entry => written entry.1 entry.2 ++ ['\n'] := by
  have check : "LIVENESS_CHECK ".toList = Directive.livenessCheck.keyword.toList ++ [' '] := rfl
  have interval : "LIVENESS_INTERVAL ".toList =
    Directive.livenessInterval.keyword.toList ++ [' '] := rfl
  have stuttering : "STUTTERING ".toList = Directive.stuttering.keyword.toList ++ [' '] := rfl
  have limit : "MAX_STATES ".toList = Directive.maxStates.keyword.toList ++ [' '] := rfl
  have batch : "FEED_BATCH ".toList = Directive.feedBatch.keyword.toList ++ [' '] := rfl
  have workers : "WORKERS ".toList = Directive.workers.keyword.toList ++ [' '] := rfl
  have ends : "\n".toList = ['\n'] := rfl
  unfold text entries
  cases s.maxStates <;>
    simp only [String.toList_append, String.toList_empty, check, interval, stuttering, limit, batch,
      workers, ends, written, decimal, List.append_assoc, List.cons_append, List.nil_append,
      List.append_nil, List.flatMap_cons, List.flatMap_nil, Option.map_none, Option.map_some,
      Option.toList_none, Option.toList_some]

theorem forall_entries {P : Directive × List Char → Prop} : (∀ entry ∈ s.entries, P entry) ↔
    P (.livenessCheck, s.mode.text.toList) ∧ P (.livenessInterval, decimal s.scanInterval) ∧
    P (.stuttering, (if s.stuttering then "TRUE" else "FALSE").toList) ∧
    (∀ n ∈ s.maxStates, P (.maxStates, decimal n)) ∧ P (.feedBatch, decimal s.feedBatch) ∧
    P (.workers, (if s.parallel then "PARALLEL" else "SEQUENTIAL").toList) := by
  unfold entries
  cases s.maxStates <;> simp

theorem plain_entries : ∀ entry ∈ s.entries, entry.2 ≠ [] ∧ ∀ c ∈ entry.2, isPlain c := by
  have word (text : String) (plain : text.toList ≠ [] ∧ text.toList.all isPlain) :
      text.toList ≠ [] ∧ ∀ c ∈ text.toList, isPlain c :=
    ⟨plain.1, List.all_eq_true.mp plain.2⟩
  rw [forall_entries]
  dsimp only
  refine ⟨word _ ?_, decimal_plain _, word _ ?_, fun n _ => decimal_plain n, decimal_plain _,
    word _ ?_⟩
  · cases s.mode <;> exact ⟨List.cons_ne_nil _ _, rfl⟩
  · cases s.stuttering <;> exact ⟨List.cons_ne_nil _ _, rfl⟩
  · cases s.parallel <;> exact ⟨List.cons_ne_nil _ _, rfl⟩

theorem linesOf_text (s : Settings) : linesOf s.text = fullLines s.entries 1 := by
  have whole : ∀ entry ∈ s.entries, '\n' ∉ written entry.1 entry.2 := by
    intro entry member broken
    rcases mem_written (plain_entries entry member).2 broken with plain | blank
    · exact absurd plain (by decide)
    · exact absurd blank (by decide)
  rw [linesOf, toList_text, Text.lines_flatMap whole, spoken_written plain_entries]

/-- All that is written can be read, but for a zero. -/
theorem accepts_entries_iff : (∀ entry ∈ s.entries, refusal? entry.1 entry.2 = none) ↔
    0 < s.scanInterval ∧ 0 < s.feedBatch ∧ s.maxStates ≠ some 0 := by
  have mode : refusal? .livenessCheck s.mode.text.toList = none := by cases s.mode <;> rfl
  have stuttering :
      refusal? .stuttering (if s.stuttering then "TRUE" else "FALSE").toList = none := by
    cases s.stuttering <;> rfl
  have workers :
      refusal? .workers (if s.parallel then "PARALLEL" else "SEQUENTIAL").toList = none := by
    cases s.parallel <;> rfl
  have count (n : UInt64) : IsCount (decimal n) ↔ 0 < n := by
    rw [← readCount_ok_iff (d := .maxStates), readCount_decimal, UInt64.pos_iff_ne_zero]
    by_cases zero : n = 0 <;> simp [zero, Except.isOk, Except.toBool]
  have interval := (refusal?_eq_none_iff (d := .livenessInterval)).trans (count s.scanInterval)
  have limit (n : UInt64) := (refusal?_eq_none_iff (d := .maxStates)).trans (count n)
  have batch := (refusal?_eq_none_iff (d := .feedBatch)).trans (count s.feedBatch)
  rw [forall_entries]
  simp only [mode, stuttering, workers, interval, limit, batch, true_and, and_true]
  rw [and_comm (a := ∀ n ∈ s.maxStates, 0 < n)]
  cases s.maxStates <;> simp [UInt64.pos_iff_ne_zero]

theorem put_count (s : Settings) {n : UInt64} (positive : 0 < n) :
    s.put .livenessInterval (decimal n) = { s with scanInterval := n } ∧
    s.put .maxStates (decimal n) = { s with maxStates := some n } ∧
    s.put .feedBatch (decimal n) = { s with feedBatch := n } := by
  rw [UInt64.pos_iff_ne_zero] at positive
  simp only [put, set, readCount_decimal, if_neg positive]
  exact ⟨rfl, rfl, rfl⟩

theorem putAll_entries (positive : 0 < s.scanInterval ∧ 0 < s.feedBatch ∧ s.maxStates ≠ some 0) :
    putAll {} s.entries = s := by
  obtain ⟨interval, batch, limit⟩ := positive
  have mode (t : Settings) :
      t.put .livenessCheck s.mode.text.toList = { t with mode := s.mode } := by
    cases s.mode <;> rfl
  have stuttering (t : Settings) :
      t.put .stuttering (if s.stuttering then "TRUE" else "FALSE").toList =
        { t with stuttering := s.stuttering } := by
    cases s.stuttering <;> rfl
  have workers (t : Settings) :
      t.put .workers (if s.parallel then "PARALLEL" else "SEQUENTIAL").toList =
        { t with parallel := s.parallel } := by
    cases s.parallel <;> rfl
  simp only [putAll, entries, List.foldl_append, List.foldl_cons, List.foldl_nil, mode, stuttering,
    workers, (put_count _ interval).1, (put_count _ batch).2.2]
  obtain ⟨_, _, _, maxStates, _, _⟩ := s
  cases maxStates with
  | none => rfl
  | some n =>
    have positive : 0 < n := UInt64.pos_iff_ne_zero.mpr fun zero => limit (congrArg some zero)
    simp only [Option.map_some, Option.toList_some, List.foldl_cons, List.foldl_nil,
      (put_count _ positive).2.1]

end Entries

/-- Settings are read as they were written if none of the numbers is zero; otherwise they are not
read at all. -/
theorem parse_text (s : Settings) :
    if 0 < s.scanInterval ∧ 0 < s.feedBatch ∧ s.maxStates ≠ some 0 then parse s.text = .ok s
    else ∃ errors, parse s.text = .error errors := by
  have readable := (faults_full_eq_nil_iff s.entries none 1).trans accepts_entries_iff
  rw [parse_eq, linesOf_text, assignments_full]
  split
  · next positive => rw [if_pos (readable.mpr positive), putAll_entries positive]
  · next zero =>
    rw [if_neg (mt readable.mp zero)]
    exact ⟨_, rfl⟩

end TemporalCheck.Settings
