import TemporalCheck.Exploration
import TemporalCheck.Monitor
import TemporalCheck.Tableau.Build

/-! Checking properties of a model: the model is explored once, and every property is monitored on
the feed of that exploration. -/
namespace TemporalCheck

structure CheckReport (State : Type) where
  properties : List (PropertyReport State)
  feedStatus : FeedStatus
  statesExplored : Nat

namespace CheckReport

variable {State : Type}

def property? (r : CheckReport State) (name : String) : Option (PropertyReport State) :=
  r.properties.find? (·.name == name)

def allSatisfied (r : CheckReport State) : Bool := r.properties.all (·.isSatisfied)

def firstViolation? (r : CheckReport State) : Option (String × Lasso State) :=
  r.properties.findSome? fun p => p.lasso?.map fun lasso => (p.name, lasso)

end CheckReport

/-- The conjunction of fairness assumptions, if there are any. -/
def assumption (fairness : List Formula) : Option Formula :=
  fairness.foldl (fun assumed f =>
    match assumed with
    | none => some f
    | some g => some (Formula.conj [g, f])) none

def Settings.exploration (s : Settings) : ExplorationOptions where
  stuttering := s.stuttering
  maxStates := s.maxStates.map (·.toNat)
  batch := s.batch

/-- A feed with as many readers as there are monitors. -/
def Feed.withReaders {State : Type} : Nat → Feed State
  | 0 => {}
  | n + 1 => (Feed.withReaders n).addReader

def rejectionReport {State : Type} (name : String) (r : Rejection) : PropertyReport State :=
  { name := name, outcome := .error (.ofRejection r) }

/-- Checks each property under the fairness assumptions. Nothing is explored if there is no property
to monitor. -/
def check {State : Type} (model : Model State) (settings : Settings) (fairness : List Formula)
    (properties : List (String × Formula)) : CheckReport State :=
  let tableaux := properties.map fun (name, property) =>
    (name, Tableau.build (assumption fairness) property)
  let monitored := (tableaux.filter (·.2.toOption.isSome)).length
  let (status, feed) : FeedStatus × Feed State :=
    if monitored = 0 then (.cancelled, {})
    else
      let (status, feed, _) :=
        (Feed.withReaders monitored).exploreModel model settings.exploration {}
      (status, feed)
  { properties := tableaux.map fun (name, tableau) =>
      match tableau with
      | .error r => rejectionReport name r
      | .ok tableau => (Monitor.start name tableau settings).run model feed
    feedStatus := status
    statesExplored := feed.stateCount }

end TemporalCheck
