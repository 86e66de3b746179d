import TemporalCheck.Failure

/-! The system under check, as far as the engine looks at it: where behaviours start, how they go
on, and which predicates hold. Every question may be refused with an error. -/
namespace TemporalCheck

structure Model (State : Type) where
  fingerprint : State → Fingerprint
  initial : Except EvalError (List State)
  successors : State → Except EvalError (List State)
  /-- The answer of a predicate on a state, or on a step when a next state is given. -/
  holds : PredicateId → State → Option State → Except EvalError Bool

/-- A state together with the fingerprint it is filed under. -/
structure Keyed (State : Type) where
  fingerprint : Fingerprint
  state : State
deriving DecidableEq, Repr

namespace Model

variable {State : Type}

def keyed (model : Model State) (state : State) : Keyed State := ⟨model.fingerprint state, state⟩

end Model
end TemporalCheck
