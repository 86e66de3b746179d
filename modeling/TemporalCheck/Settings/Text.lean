import TemporalCheck.Settings
import TemporalCheck.Text.Blank
import TemporalCheck.Text.Uppercase

/-! Settings as text. A line holds a directive and its value; the value may also stand alone on the
next line that is not empty. A comment runs from a backslash and a star to the end of its line, or
between a parenthesis with a star and a star with a parenthesis on one line. -/
namespace TemporalCheck

inductive Directive where
  | livenessCheck
  | livenessInterval
  | stuttering
  | maxStates
  | feedBatch
  | workers
deriving DecidableEq, Repr

namespace Directive

def keyword : Directive → String
  | .livenessCheck => "LIVENESS_CHECK"
  | .livenessInterval => "LIVENESS_INTERVAL"
  | .stuttering => "STUTTERING"
  | .maxStates => "MAX_STATES"
  | .feedBatch => "FEED_BATCH"
  | .workers => "WORKERS"

def all : List Directive :=
  [.livenessCheck, .livenessInterval, .stuttering, .maxStates, .feedBatch, .workers]

def ofWord? (word : List Char) : Option Directive := all.find? (·.keyword.toList == word)

end Directive

/-- What is wrong with a line. Values of words are given in upper case, as they were compared. -/
inductive SettingsFault where
  | unknownDirective (line : List Char)
  | missingValue
  | notMode (value : List Char)
  | notWorkers (value : List Char)
  | notFlag (d : Directive) (value : List Char)
  | notNumber (d : Directive) (value : List Char)
  | notPositive (d : Directive)
deriving DecidableEq, Repr

def SettingsFault.text : SettingsFault → String
  | .unknownDirective line => "Unknown directive: " ++ String.ofList line
  | .missingValue => "directive requires a value"
  | .notMode value => "LIVENESS_CHECK expects PERIODIC or FINAL, got " ++ String.ofList value
  | .notWorkers value => "WORKERS expects PARALLEL or SEQUENTIAL, got " ++ String.ofList value
  | .notFlag d value => d.keyword ++ " expects TRUE or FALSE, got " ++ String.ofList value
  | .notNumber d value => d.keyword ++ " expects a number, got " ++ String.ofList value
  | .notPositive d => d.keyword ++ " must be positive"

structure SettingsError where
  /-- Counted from one. -/
  line : Nat
  fault : SettingsFault
deriving DecidableEq, Repr

def SettingsError.text (e : SettingsError) : String :=
  "line " ++ toString e.line ++ ": " ++ e.fault.text

namespace Settings

/-- The part of a line before a comment that runs to its end. -/
def beforeLineComment : List Char → List Char
  | [] => []
  | c :: rest => if c = '\\' && rest.head? = some '*' then [] else c :: beforeLineComment rest

/-- A line without its enclosed comments. One that is never closed runs to the end. -/
def withoutBlockComments : (inside : Bool) → List Char → List Char
  | _, [] => []
  | true, '*' :: ')' :: rest => withoutBlockComments false rest
  | true, _ :: rest => withoutBlockComments true rest
  | false, '(' :: '*' :: rest => withoutBlockComments true rest
  | false, c :: rest => c :: withoutBlockComments false rest

def content (line : List Char) : List Char :=
  Text.trim (withoutBlockComments false (beforeLineComment line))

def digitsValue (digits : List Char) : Nat :=
  digits.foldl (fun n c => 10 * n + (c.toNat - '0'.toNat)) 0

/-- The number written by decimal digits, with a plus in front or without, if it fits a word. -/
def natural? (s : List Char) : Option UInt64 :=
  let digits := match s with
    | '+' :: rest => rest
    | _ => s
  if digits ≠ [] ∧ digits.all Char.isDigit ∧ digitsValue digits < UInt64.size then
    some (UInt64.ofNat (digitsValue digits))
  else none

/-- A positive number; underscores may separate its digits. -/
def readCount (d : Directive) (value : List Char) : Except SettingsFault UInt64 :=
  match natural? (value.filter (· != '_')) with
  | none => .error (.notNumber d value)
  | some n => if n = 0 then .error (.notPositive d) else .ok n

def readWord {α : Type} (meanings : List (String × α)) (fault : List Char → SettingsFault)
    (value : List Char) : Except SettingsFault α :=
  match meanings.find? (·.1.toList == Text.upper value) with
  | some (_, meaning) => .ok meaning
  | none => .error (fault (Text.upper value))

def modeWords : List (String × ScanMode) :=
  [("PERIODIC", .periodic), ("DEFAULT", .periodic), ("FINAL", .final)]

def workersWords : List (String × Bool) := [("PARALLEL", true), ("SEQUENTIAL", false)]

def flagWords : List (String × Bool) :=
  [("TRUE", true), ("ON", true), ("YES", true), ("FALSE", false), ("OFF", false), ("NO", false)]

def set (s : Settings) (d : Directive) (value : List Char) : Except SettingsFault Settings :=
  match d with
  | .livenessCheck => (readWord modeWords .notMode value).map ({ s with mode := · })
  | .livenessInterval => (readCount d value).map ({ s with scanInterval := · })
  | .stuttering => (readWord flagWords (.notFlag d) value).map ({ s with stuttering := · })
  | .maxStates => (readCount d value).map fun n => { s with maxStates := some n }
  | .feedBatch => (readCount d value).map ({ s with feedBatch := · })
  | .workers => (readWord workersWords .notWorkers value).map ({ s with parallel := · })

/-- Reading under way: the settings so far, the errors in order, and the directive that still waits
for its value, with its line. -/
structure Reader where
  settings : Settings := {}
  errors : List SettingsError := []
  waiting : Option (Directive × Nat) := none

namespace Reader

def report (r : Reader) (line : Nat) (fault : SettingsFault) : Reader :=
  { r with errors := r.errors ++ [⟨line, fault⟩] }

def assign (r : Reader) (d : Directive) (line : Nat) (value : List Char) : Reader :=
  match r.settings.set d value with
  | .ok settings => { r with settings := settings }
  | .error fault => r.report line fault

/-- Gives up the directive that waits for a value. -/
def abandon (r : Reader) : Reader :=
  match r.waiting with
  | none => r
  | some (_, line) => { r.report line .missingValue with waiting := none }

/-- Takes in what the line of the given number says. -/
def take (r : Reader) (line : Nat) (said : List Char) : Reader :=
  if said = [] then r
  else
    let word := Text.firstWord said
    match Directive.ofWord? word with
    | none =>
      match r.waiting with
      | none => r.report line (.unknownDirective said)
      | some (d, _) => { r with waiting := none }.assign d line said
    | some d =>
      match Text.trim (said.drop word.length) with
      | [] => { r.abandon with waiting := some (d, line) }
      | value => r.abandon.assign d line value

def takeAll (r : Reader) (line : Nat) : List (List Char) → Reader
  | [] => r
  | said :: rest => (r.take line said).takeAll (line + 1) rest

end Reader

/-- Reads settings. What is not mentioned keeps its default. -/
def parse (text : String) : Except (List SettingsError) Settings :=
  let r := (Reader.takeAll {} 1 ((Text.lines text.toList).map content)).abandon
  if r.errors = [] then .ok r.settings else .error r.errors

/-- Writes settings in the form that is read. -/
def text (s : Settings) : String :=
  "LIVENESS_CHECK " ++ s.mode.text ++ "\n" ++
  "LIVENESS_INTERVAL " ++ toString s.scanInterval.toNat ++ "\n" ++
  "STUTTERING " ++ (if s.stuttering then "TRUE" else "FALSE") ++ "\n" ++
  (match s.maxStates with
    | some n => "MAX_STATES " ++ toString n.toNat ++ "\n"
    | none => "") ++
  "FEED_BATCH " ++ toString s.feedBatch.toNat ++ "\n" ++
  "WORKERS " ++ (if s.parallel then "PARALLEL" else "SEQUENTIAL") ++ "\n"

end Settings
end TemporalCheck
