import Std.Data.TreeMap
import TemporalCheck.Model

/-! The feed between exploration and the readers of its findings: the states discovered so far, and
a log of events that only grows until the feed is finished. A reader keeps its own cursor into the
log. -/
namespace TemporalCheck

inductive Event where
  /-- A behaviour may start here. -/
  | initial (fp : Fingerprint)
  /-- These are all the states that may follow the source. -/
  | expanded (source : Fingerprint) (successors : List Fingerprint)
deriving DecidableEq, Repr

inductive FeedStatus where
  | running
  /-- Everything reachable has been discovered. -/
  | exhausted
  | truncated (limit : Nat)
  | failed (error : EvalError)
  | cancelled
deriving DecidableEq, Repr

namespace FeedStatus

def isFinished : FeedStatus → Bool
  | .running => false
  | _ => true

def text : FeedStatus → String
  | .running => "running"
  | .exhausted => "exhausted"
  | .truncated limit => "truncated at " ++ toString limit ++ " states"
  | .failed e => "failed: " ++ e.text
  | .cancelled => "cancelled"

end FeedStatus

structure FeedBatch where
  events : List Event
  status : FeedStatus
deriving DecidableEq, Repr

structure Feed (State : Type) where
  states : Std.TreeMap Fingerprint State := ∅
  events : Array Event := #[]
  status : FeedStatus := .running
  readers : Nat := 0

namespace Feed

variable {State : Type}

def contains (f : Feed State) (fp : Fingerprint) : Bool := f.states.contains fp

def state? (f : Feed State) (fp : Fingerprint) : Option State := f.states[fp]?

def stateCount (f : Feed State) : Nat := f.states.size

def length (f : Feed State) : Nat := f.events.size

/-- Stores a state unless the fingerprint has one. -/
def insert (f : Feed State) (k : Keyed State) : Feed State :=
  if f.contains k.fingerprint then f else { f with states := f.states.insert k.fingerprint k.state }

/-- Appends to the log, unless the feed is finished. -/
def publish (f : Feed State) (events : List Event) : Feed State :=
  if f.status.isFinished then f else { f with events := f.events ++ events.toArray }

/-- Sets the status, unless the feed is finished. -/
def finish (f : Feed State) (status : FeedStatus) : Feed State :=
  if f.status.isFinished then f else { f with status := status }

/-- Whether a reader at the cursor has to wait before it is given anything. -/
def isPending (f : Feed State) (cursor : Nat) : Bool :=
  f.length ≤ cursor && !f.status.isFinished

/-- The events from the cursor on, up to the limit, which is at least one. -/
def read (f : Feed State) (cursor limit : Nat) : FeedBatch :=
  ⟨(f.events.extract cursor (cursor + max limit 1)).toList, f.status⟩

def addReader (f : Feed State) : Feed State := { f with readers := f.readers + 1 }

def dropReader (f : Feed State) : Feed State := { f with readers := f.readers - 1 }

end Feed
end TemporalCheck
