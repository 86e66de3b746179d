import TemporalCheck.Lasso
import TemporalCheck.Session

/-! The outcome of checking a property, and the figures reported with it. -/
namespace TemporalCheck

/-- The stages that the check of a property goes through. -/
inductive Phase where
  | building
  | exploring
  | violated
  | satisfied
  | indeterminate
deriving DecidableEq, Repr

namespace Phase

def text : Phase → String
  | .building => "building"
  | .exploring => "exploring"
  | .violated => "violated"
  | .satisfied => "satisfied"
  | .indeterminate => "indeterminate"

def all : List Phase := [.building, .exploring, .violated, .satisfied, .indeterminate]

end Phase

/-- Why neither a violation was found nor its absence established. -/
inductive Uncertainty where
  | evaluation (error : EvalError)
  | stateLimit (limit : Nat)
  | cancelled
deriving DecidableEq, Repr

def Uncertainty.text : Uncertainty → String
  | .evaluation e => e.text
  | .stateLimit limit => "state limit of " ++ toString limit ++ " reached"
  | .cancelled => "exploration cancelled"

inductive Verdict (State : Type) where
  | satisfied
  | violated (lasso : Lasso State)
  | indeterminate (reason : Uncertainty)
deriving DecidableEq, Repr

namespace Verdict

variable {State : Type}

def phase : Verdict State → Phase
  | .satisfied => .satisfied
  | .violated _ => .violated
  | .indeterminate _ => .indeterminate

def lasso? : Verdict State → Option (Lasso State)
  | .violated lasso => some lasso
  | _ => none

end Verdict

/-- The figures of one property's check. -/
structure CheckStats where
  tableauNodes : Nat := 0
  productNodes : Nat := 0
  productEdges : Nat := 0
  scans : Nat := 0
  /-- Components looked at, over all scans. -/
  componentsScanned : Nat := 0
  /-- Violating components of the last scan. -/
  violatingComponents : Nat := 0
  eventsConsumed : Nat := 0
  calls : Calls := {}
deriving DecidableEq, Repr

abbrev Outcome (State : Type) := Except CheckError (Verdict State)

structure PropertyReport (State : Type) where
  name : String
  outcome : Outcome State
  stats : CheckStats := {}

namespace PropertyReport

variable {State : Type}

def verdict? (r : PropertyReport State) : Option (Verdict State) := r.outcome.toOption

def isSatisfied (r : PropertyReport State) : Bool :=
  match r.outcome with
  | .ok .satisfied => true
  | _ => false

def lasso? (r : PropertyReport State) : Option (Lasso State) := r.verdict?.bind (·.lasso?)

end PropertyReport
end TemporalCheck
