import Std.Data.TreeMap
import TemporalCheck.Formula.NormalForm
import TemporalCheck.Model

/-! A session is a conversation with one model. It counts the questions put to the model and, unless
told otherwise, remembers the answers of predicates, so that no predicate is asked twice about the
same fingerprints. Errors are never remembered. -/
namespace TemporalCheck

/-- What an answer of a predicate is remembered under. -/
structure Question where
  predicate : PredicateId
  current : Fingerprint
  next : Option Fingerprint
deriving DecidableEq, Repr

namespace Question

instance : Ord Question where
  compare := compareLex (compareOn predicate) (compareLex (compareOn current) (compareOn next))

instance : Std.TransOrd Question :=
  inferInstanceAs (Std.TransCmp (compareLex (compareOn predicate)
    (compareLex (compareOn current) (compareOn next))))

instance : Std.LawfulEqOrd Question where
  eq_of_compare {a b} h := by
    have parts : (compare a.predicate b.predicate).then
        ((compare a.current b.current).then (compare a.next b.next)) = .eq := h
    simp only [Ordering.then_eq_eq, Std.LawfulEqCmp.compare_eq_iff_eq] at parts
    cases a
    cases b
    simpa using parts

end Question

structure Calls where
  initial : Nat := 0
  successors : Nat := 0
  predicates : Nat := 0
  /-- Predicate questions answered from memory. -/
  recalled : Nat := 0
deriving DecidableEq, Repr

structure Session where
  calls : Calls := {}
  answers : Std.TreeMap Question Bool := ∅
  remembers : Bool := true

/-- A literal asked of a state, or of a step when a next state is given. -/
structure Condition (State : Type) where
  literal : Literal
  current : Keyed State
  next : Option (Keyed State)

namespace Session

variable {State : Type}

/-- A session that puts every question to the model. -/
def forgetful : Session := { remembers := false }

def initial (s : Session) (model : Model State) : Except EvalError (List State) × Session :=
  (model.initial, { s with calls.initial := s.calls.initial + 1 })

def successors (s : Session) (model : Model State) (state : State) :
    Except EvalError (List State) × Session :=
  (model.successors state, { s with calls.successors := s.calls.successors + 1 })

/-- The remembered answer, which a forgetful session never has. -/
def remembered? (s : Session) (q : Question) : Option Bool :=
  if s.remembers then s.answers[q]? else none

def remember (s : Session) (q : Question) (answer : Bool) : Session :=
  if s.remembers then { s with answers := s.answers.insert q answer } else s

def predicate (s : Session) (model : Model State) (p : PredicateId) (current : Keyed State)
    (next : Option (Keyed State)) : Except EvalError Bool × Session :=
  let q : Question := ⟨p, current.fingerprint, next.map (·.fingerprint)⟩
  match s.remembered? q with
  | some answer => (.ok answer, { s with calls.recalled := s.calls.recalled + 1 })
  | none =>
    let s := { s with calls.predicates := s.calls.predicates + 1 }
    match model.holds p current.state (next.map (·.state)) with
    | .ok answer => (.ok answer, s.remember q answer)
    | .error e => (.error e, s)

/-- Whether the predicate gives the answer that the literal wants. -/
def test (s : Session) (model : Model State) (c : Condition State) :
    Except EvalError Bool × Session :=
  match s.predicate model c.literal.predicate c.current c.next with
  | (.ok answer, s) => (.ok (answer == c.literal.positive), s)
  | (.error e, s) => (.error e, s)

/-- Whether all conditions hold; none is asked after the first that does not. -/
def testAll (s : Session) (model : Model State) :
    List (Condition State) → Except EvalError Bool × Session
  | [] => (.ok true, s)
  | c :: rest =>
    match s.test model c with
    | (.ok true, s) => s.testAll model rest
    | (.ok false, s) => (.ok false, s)
    | (.error e, s) => (.error e, s)

end Session
end TemporalCheck
