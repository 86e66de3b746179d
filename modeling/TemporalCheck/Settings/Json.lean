import TemporalCheck.Json
import TemporalCheck.Settings

/-! Settings as a JSON object, whose missing members keep their defaults, or as an array of the same
values in a fixed order, of which the last may be missing. -/
namespace TemporalCheck

/-- The members of settings, in the order in which they are written. -/
inductive SettingsMember where
  | mode
  | scanInterval
  | stuttering
  | maxStates
  | feedBatch
  | parallel
deriving DecidableEq, Repr

namespace SettingsMember

def key : SettingsMember → String
  | .mode => "check_mode"
  | .scanInterval => "scan_interval"
  | .stuttering => "stuttering"
  | .maxStates => "max_states"
  | .feedBatch => "feed_batch"
  | .parallel => "parallel"

def all : List SettingsMember :=
  [.mode, .scanInterval, .stuttering, .maxStates, .feedBatch, .parallel]

def ofKey? (key : List Char) : Option SettingsMember := all.find? (·.key.toList == key)

end SettingsMember

def ScanMode.name : ScanMode → String
  | .periodic => "Periodic"
  | .final => "Final"

def ScanMode.ofName? (name : List Char) : Option ScanMode :=
  [ScanMode.periodic, .final].find? (·.name.toList == name)

namespace Settings

/-- A mode is written as its name, or as an object that has the name for its only key. -/
def modeOfJson? : Json → Option ScanMode
  | .string (some name) => ScanMode.ofName? name
  | .object [(some name, .null)] => ScanMode.ofName? name
  | _ => none

/-- A number that fits a word. -/
def countOfJson? : Json → Option UInt64
  | .number (some n) => if n < UInt64.size then some (UInt64.ofNat n) else none
  | _ => none

def flagOfJson? : Json → Option Bool
  | .bool b => some b
  | _ => none

/-- The settings with one member in place. -/
def setMember? (s : Settings) (value : Json) : SettingsMember → Option Settings
  | .mode => (modeOfJson? value).map ({ s with mode := · })
  | .scanInterval => (countOfJson? value).map ({ s with scanInterval := · })
  | .stuttering => (flagOfJson? value).map ({ s with stuttering := · })
  | .maxStates =>
    match value with
    | .null => some { s with maxStates := none }
    | _ => (countOfJson? value).map fun n => { s with maxStates := some n }
  | .feedBatch => (countOfJson? value).map ({ s with feedBatch := · })
  | .parallel => (flagOfJson? value).map ({ s with parallel := · })

/-- Sets the members one after the other. No member is `met` twice; other keys are passed over. -/
def setMembers? (s : Settings) (met : List SettingsMember) :
    List (Option (List Char) × Json) → Option Settings
  | [] => some s
  | (none, _) :: _ => none
  | (some key, value) :: rest =>
    match SettingsMember.ofKey? key with
    | none => s.setMembers? met rest
    | some member =>
      if met.contains member then none
      else
        match s.setMember? value member with
        | none => none
        | some s => s.setMembers? (member :: met) rest

/-- Sets members by position. -/
def setItems? (s : Settings) : List SettingsMember → List Json → Option Settings
  | _, [] => some s
  | [], _ :: _ => none
  | member :: members, value :: values =>
    match s.setMember? value member with
    | none => none
    | some s => s.setItems? members values

def ofJson? : Json → Option Settings
  | .object members => ({} : Settings).setMembers? [] members
  | .array items => ({} : Settings).setItems? SettingsMember.all items
  | _ => none

def parseJson? (text : String) : Option Settings := (Json.parse? text.toList).bind ofJson?

def memberText (s : Settings) : SettingsMember → String
  | .mode => "\"" ++ s.mode.name ++ "\""
  | .scanInterval => toString s.scanInterval.toNat
  | .stuttering => if s.stuttering then "true" else "false"
  | .maxStates => match s.maxStates with | some n => toString n.toNat | none => "null"
  | .feedBatch => toString s.feedBatch.toNat
  | .parallel => if s.parallel then "true" else "false"

/-- The settings as one JSON object without spaces. -/
def jsonText (s : Settings) : String :=
  let members := SettingsMember.all.map fun m => "\"" ++ m.key ++ "\":" ++ s.memberText m
  "\x7b" ++ ",".intercalate members ++ "\x7d"

end Settings
end TemporalCheck
