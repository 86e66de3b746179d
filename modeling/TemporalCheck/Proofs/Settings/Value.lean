import Mathlib
import TemporalCheck.Settings.Text

/-! Values of settings. Whether a directive takes a value depends on nothing that is set already.
Three directives take one of a few words, in any case, and three take a positive number. -/
namespace TemporalCheck.Settings

variable {s : Settings} {d : Directive} {value : List Char} {fault : SettingsFault}

section Set

def refusal? (d : Directive) (value : List Char) : Option SettingsFault :=
  match set {} d value with
  | .ok _ => none
  | .error fault => some fault

def put (s : Settings) (d : Directive) (value : List Char) : Settings :=
  (s.set d value).toOption.getD s

def putAll (s : Settings) (given : List (Directive × List Char)) : Settings :=
  given.foldl (fun s (d, value) => s.put d value) s

theorem putAll_append (s : Settings) (given given' : List (Directive × List Char)) :
    s.putAll (given ++ given') = (s.putAll given).putAll given' :=
  List.foldl_append

theorem set_eq (s : Settings) (d : Directive) (value : List Char) : s.set d value =
    match refusal? d value with
    | none => .ok (s.put d value)
    | some fault => .error fault := by
  unfold put refusal? set
  cases d
  case livenessCheck => cases readWord modeWords .notMode value <;> rfl
  case livenessInterval => cases readCount .livenessInterval value <;> rfl
  case stuttering => cases readWord flagWords (.notFlag .stuttering) value <;> rfl
  case maxStates => cases readCount .maxStates value <;> rfl
  case feedBatch => cases readCount .feedBatch value <;> rfl
  case workers => cases readWord workersWords .notWorkers value <;> rfl

theorem put_of_refused (refused : refusal? d value = some fault) : s.put d value = s := by
  have failed : s.set d value = .error fault := by rw [set_eq, refused]
  rw [put, failed]
  rfl

end Set

section Accepts

/-- A positive number that fits a word. It may have a plus in front and underscores anywhere. -/
def IsCount (value : List Char) : Prop :=
  ∃ digits, (value.filter (· != '_') = digits ∨ value.filter (· != '_') = '+' :: digits) ∧
    digits ≠ [] ∧ (∀ c ∈ digits, c.isDigit) ∧ 0 < digitsValue digits ∧ digitsValue digits < 2 ^ 64

def Accepts (d : Directive) (value : List Char) : Prop :=
  match d with
  | .livenessCheck => Text.upper value ∈ ["PERIODIC", "DEFAULT", "FINAL"].map String.toList
  | .livenessInterval | .maxStates | .feedBatch => IsCount value
  | .stuttering =>
    Text.upper value ∈ ["TRUE", "ON", "YES", "FALSE", "OFF", "NO"].map String.toList
  | .workers => Text.upper value ∈ ["PARALLEL", "SEQUENTIAL"].map String.toList

theorem readWord_ok_iff {α : Type} {meanings : List (String × α)}
    {fault : List Char → SettingsFault} : (readWord meanings fault value).isOk ↔
      Text.upper value ∈ (meanings.map Prod.fst).map String.toList := by
  have listed : (meanings.find? (·.1.toList == Text.upper value)).isSome ↔
      Text.upper value ∈ (meanings.map Prod.fst).map String.toList := by
    simp [List.find?_isSome]
  rw [← listed, readWord]
  cases meanings.find? (·.1.toList == Text.upper value) with
  | some found => exact iff_of_true rfl rfl
  | none => exact iff_of_false Bool.false_ne_true Bool.false_ne_true

def unsigned : List Char → List Char
  | '+' :: rest => rest
  | written => written

theorem natural?_eq (written : List Char) : natural? written =
    if unsigned written ≠ [] ∧ (unsigned written).all Char.isDigit ∧
        digitsValue (unsigned written) < UInt64.size then
      some (UInt64.ofNat (digitsValue (unsigned written)))
    else none := by
  cases written with
  | nil => rfl
  | cons c rest =>
    by_cases plus : c = '+'
    · rw [plus]
      rfl
    · simp [natural?, unsigned, plus]

theorem unsigned_of_digits {digits : List Char} (all : ∀ c ∈ digits, c.isDigit) :
    unsigned digits = digits := by
  unfold unsigned
  split
  · exact absurd (all '+' List.mem_cons_self) (by decide)
  · rfl

theorem unsigned_cases (written : List Char) :
    written = unsigned written ∨ written = '+' :: unsigned written := by
  unfold unsigned
  split
  · exact .inr rfl
  · exact .inl rfl

theorem natural?_eq_some_iff {written : List Char} {n : UInt64} : natural? written = some n ↔
    ∃ digits, (written = digits ∨ written = '+' :: digits) ∧ digits ≠ [] ∧
      (∀ c ∈ digits, c.isDigit) ∧ digitsValue digits = n.toNat := by
  rw [natural?_eq]
  constructor
  · intro read
    split at read
    · next number =>
      obtain ⟨nonempty, all, fits⟩ := number
      obtain rfl := Option.some.inj read
      refine ⟨unsigned written, unsigned_cases written, nonempty, List.all_eq_true.mp all, ?_⟩
      exact (UInt64.toNat_ofNat_of_lt' fits).symm
    · contradiction
  · rintro ⟨digits, form, nonempty, all, number⟩
    have bare : unsigned written = digits := by
      rcases form with rfl | rfl
      · exact unsigned_of_digits all
      · rfl
    rw [bare, number, if_pos ⟨nonempty, List.all_eq_true.mpr all, n.toNat_lt⟩, UInt64.ofNat_toNat]

theorem readCount_ok_iff : (readCount d value).isOk ↔ IsCount value := by
  have positive (n : UInt64) : n ≠ 0 ↔ 0 < n.toNat := by
    rw [Nat.pos_iff_ne_zero, ne_eq, ne_eq, ← UInt64.toNat_inj, UInt64.toNat_zero]
  have read : (readCount d value).isOk ↔
      ∃ n, natural? (value.filter (· != '_')) = some n ∧ n ≠ 0 := by
    unfold readCount
    cases natural? (value.filter (· != '_')) with
    | none => simp [Except.isOk, Except.toBool]
    | some n => by_cases zero : n = 0 <;> simp [zero, Except.isOk, Except.toBool]
  rw [read]
  simp only [natural?_eq_some_iff, positive]
  constructor
  · rintro ⟨n, ⟨digits, form, nonempty, all, number⟩, least⟩
    exact ⟨digits, form, nonempty, all, number ▸ least, number ▸ n.toNat_lt⟩
  · rintro ⟨digits, form, nonempty, all, least, fits⟩
    have number : (UInt64.ofNat (digitsValue digits)).toNat = digitsValue digits :=
      UInt64.toNat_ofNat_of_lt' fits
    exact ⟨UInt64.ofNat (digitsValue digits), ⟨digits, form, nonempty, all, number.symm⟩,
      number.symm ▸ least⟩

theorem refusal?_eq_none_iff : refusal? d value = none ↔ Accepts d value := by
  have outcome {α : Type} (x : Except SettingsFault α) (f : α → Settings) :
      (match x.map f with
        | .ok _ => none
        | .error fault => some fault) = (none : Option SettingsFault) ↔ x.isOk := by
    cases x <;> simp [Except.map, Except.isOk, Except.toBool]
  unfold refusal? set Accepts
  cases d
  case livenessCheck => exact (outcome _ _).trans readWord_ok_iff
  case livenessInterval => exact (outcome _ _).trans readCount_ok_iff
  case stuttering => exact (outcome _ _).trans readWord_ok_iff
  case maxStates => exact (outcome _ _).trans readCount_ok_iff
  case feedBatch => exact (outcome _ _).trans readCount_ok_iff
  case workers => exact (outcome _ _).trans readWord_ok_iff

end Accepts

end TemporalCheck.Settings
