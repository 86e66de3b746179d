import TemporalCheck.Proofs.Settings.Reader
import TemporalCheck.Proofs.Text

/-! Lines of one directive. Names of directives are plain words, so that a name can be told from the
value behind it. -/
namespace TemporalCheck.Settings

section Plain

def isPlain (c : Char) : Bool := c.isAlphanum || c == '_'

theorem bounds_of_isPlain {c : Char} (plain : isPlain c) : 48 ≤ c.toNat ∧ c.toNat ≤ 122 := by
  simp only [isPlain, Char.isAlphanum, Char.isAlpha, Char.isUpper, Char.isLower, Char.isDigit,
    Bool.or_eq_true, Bool.and_eq_true, decide_eq_true_eq, beq_iff_eq, ge_iff_le,
    UInt32.le_iff_toNat_le] at plain
  rcases plain with ((⟨low, high⟩ | ⟨low, high⟩) | ⟨low, high⟩) | rfl
  · exact ⟨le_trans (by decide) low, le_trans high (by decide)⟩
  · exact ⟨le_trans (by decide) low, le_trans high (by decide)⟩
  · exact ⟨low, le_trans high (by decide)⟩
  · decide

theorem isBlank_of_isPlain {c : Char} (plain : isPlain c) : Text.isBlank c = false := by
  have bounds := bounds_of_isPlain plain
  simp [Text.isBlank]
  omega

theorem isPlain_of_isDigit {c : Char} (digit : c.isDigit) : isPlain c := by
  simp [isPlain, Char.isAlphanum, digit]

theorem isPlain_keyword (d : Directive) : ∀ c ∈ d.keyword.toList, isPlain c := by
  rw [← List.all_eq_true]
  cases d <;> rfl

theorem keyword_ne_nil (d : Directive) : d.keyword.toList ≠ [] := by
  cases d <;> exact List.cons_ne_nil _ _

theorem ofWord?_keyword (d : Directive) : Directive.ofWord? d.keyword.toList = some d := by
  cases d <;> rfl

end Plain

section Of

variable {d : Directive} {gap value : List Char}

theorem Statement.of_keyword (d : Directive) : Statement.of d.keyword.toList = .bare d := by
  have word : Text.firstWord d.keyword.toList = d.keyword.toList := by
    rw [Text.firstWord, List.takeWhile_eq_self_iff]
    intro c member
    simp [isBlank_of_isPlain (isPlain_keyword d c member)]
  rw [Statement.of, word, ofWord?_keyword, List.drop_length]
  rfl

theorem Statement.of_keyword_append (some_gap : gap ≠ []) (blank : ∀ c ∈ gap, Text.isBlank c)
    (nonempty : Text.trim value ≠ []) :
    Statement.of (d.keyword.toList ++ gap ++ value) = .full d (Text.trim value) := by
  obtain ⟨c, gap, rfl⟩ := List.exists_cons_of_ne_nil some_gap
  have word : Text.firstWord (d.keyword.toList ++ c :: gap ++ value) = d.keyword.toList := by
    rw [List.append_assoc, List.cons_append]
    refine Text.firstWord_append ?_ (blank c List.mem_cons_self) _
    exact fun c member => isBlank_of_isPlain (isPlain_keyword d c member)
  have rest : Text.trim ((d.keyword.toList ++ c :: gap ++ value).drop d.keyword.toList.length) =
      Text.trim value := by
    rw [List.append_assoc, List.drop_left, Text.trim_blanks blank]
  rw [Statement.of, word, ofWord?_keyword]
  dsimp only
  rw [rest]
  cases trimmed : Text.trim value with
  | nil => exact absurd trimmed nonempty
  | cons c value => rfl

theorem Statement.of_value (undirected : Directive.ofWord? (Text.firstWord value) = none) :
    Statement.of value = .other value := by
  rw [Statement.of, undirected]

end Of

end TemporalCheck.Settings
