import Std.Data.TreeMap
import TemporalCheck.Model

/-! Models given by a table: the states are tuples of integers, the steps are listed one by one, and
predicates are functions on tuples. -/
namespace TemporalCheck

/-- A tuple of integers with names for its entries. Tuples are equal when their values are. -/
structure TableState where
  names : List String
  values : List Int64

namespace TableState

instance : BEq TableState := ⟨fun s t => s.values == t.values⟩

def fingerprint (s : TableState) : Fingerprint := .ofInts s.values

/-- The value of the first variable of that name. -/
def get? (s : TableState) (name : String) : Option Int64 := (s.names.zip s.values).lookup name

def text (s : TableState) : String :=
  " /\\ ".intercalate ((s.names.zip s.values).map fun (name, value) =>
    name ++ " = " ++ toString value.toInt)

end TableState

inductive TablePredicate where
  | state (f : TableState → Bool)
  | action (f : TableState → TableState → Bool)

namespace StateTable

structure Row where
  values : List Int64
  /-- Rows one step away, each once, in the order of first mention. -/
  successors : List Nat := []
  /-- Whether asking for the successors fails. -/
  failing : Bool := false

end StateTable

structure StateTable where
  names : List String
  rows : Array StateTable.Row := #[]
  /-- Rows where behaviours start, each once, in the order of first mention. -/
  initial : List Nat := []
  predicates : Std.TreeMap PredicateId TablePredicate := ∅

namespace StateTable

def size (t : StateTable) : Nat := t.rows.size

def transitionCount (t : StateTable) : Nat :=
  t.rows.foldl (fun count row => count + row.successors.length) 0

/-- The list with the row at its end, unless it is there. -/
def mention (rows : List Nat) (row : Nat) : List Nat :=
  if rows.contains row then rows else rows ++ [row]

/-- The row of a tuple, a new one if it has none. There is no row for a tuple of another length than
the list of names. -/
def register? (t : StateTable) (values : List Int64) : Option (Nat × StateTable) :=
  if values.length = t.names.length then
    match t.rows.findIdx? (·.values == values) with
    | some row => some (row, t)
    | none => some (t.size, { t with rows := t.rows.push { values := values } })
  else none

def addInitial (t : StateTable) (row : Nat) : StateTable :=
  { t with initial := mention t.initial row }

def addTransition (t : StateTable) (source target : Nat) : StateTable :=
  { t with rows := t.rows.modify source fun row =>
      { row with successors := mention row.successors target } }

def addPath (t : StateTable) : List Nat → StateTable
  | source :: target :: rest => (t.addTransition source target).addPath (target :: rest)
  | _ => t

def failSuccessors (t : StateTable) (row : Nat) : StateTable :=
  { t with rows := t.rows.modify row fun row => { row with failing := true } }

/-- Gives a predicate a meaning, in place of an earlier one. -/
def setPredicate (t : StateTable) (id : PredicateId) (p : TablePredicate) : StateTable :=
  { t with predicates := t.predicates.insert id p }

def state? (t : StateTable) (row : Nat) : Option TableState :=
  t.rows[row]?.map fun r => ⟨t.names, r.values⟩

def statesAt (t : StateTable) (rows : List Nat) : List TableState := rows.filterMap t.state?

/-- The row filed under each fingerprint; of rows that share one, the last. -/
def index (t : StateTable) : Std.TreeMap Fingerprint Nat :=
  (List.range t.size).foldl (fun index row =>
    match t.rows[row]? with
    | some r => index.insert (.ofInts r.values) row
    | none => index) ∅

/-- The registered state with the fingerprint of the given values. -/
def stateByValues? (t : StateTable) (index : Std.TreeMap Fingerprint Nat) (values : List Int64) :
    Option TableState :=
  index[Fingerprint.ofInts values]?.bind t.state?

def successors (t : StateTable) (index : Std.TreeMap Fingerprint Nat) (s : TableState) :
    Except EvalError (List TableState) :=
  match index[s.fingerprint]?.bind fun row => t.rows[row]? with
  | none => .error (.successors s.fingerprint "state not in model")
  | some row =>
    if row.failing then .error (.successors s.fingerprint ("injected failure at " ++ s.text))
    else .ok (t.statesAt row.successors)

def holds (t : StateTable) (id : PredicateId) (s : TableState) (next : Option TableState) :
    Except EvalError Bool :=
  match t.predicates[id]? with
  | none => .error (.unknownPredicate id)
  | some (.state f) => .ok (f s)
  | some (.action f) =>
    match next with
    | some next => .ok (f s next)
    | none => .error
      (.predicate id s.fingerprint "action predicate evaluated without a successor state")

def model (t : StateTable) : Model TableState :=
  let index := t.index
  { fingerprint := TableState.fingerprint
    initial := .ok (t.statesAt t.initial)
    successors := t.successors index
    holds := t.holds }

def describe (t : StateTable) : String :=
  "ExplicitModel \x7b states: " ++ toString t.size ++ ", transitions: " ++
    toString t.transitionCount ++ ", predicates: " ++ toString t.predicates.size ++ " \x7d"

end StateTable
end TemporalCheck
