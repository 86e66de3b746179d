import TemporalCheck.Fingerprint
import TemporalCheck.Formula

/-! What can go wrong in a check, kept in two families: the model could not answer, or the property
or the engine is at fault. -/
namespace TemporalCheck

/-- Why a model could not answer a question. -/
inductive EvalError where
  | initialStates (message : String)
  | successors (state : Fingerprint) (message : String)
  | predicate (predicate : PredicateId) (state : Fingerprint) (message : String)
  | unknownPredicate (predicate : PredicateId)
  | timeout (message : String)
  | other (message : String)
deriving DecidableEq, Repr

def predicateText (p : PredicateId) : String := "P" ++ toString p

namespace EvalError

def text : EvalError → String
  | .initialStates message => "failed to compute initial states: " ++ message
  | .successors state message =>
    "failed to compute successors of state " ++ state.hex ++ ": " ++ message
  | .predicate p state message =>
    "failed to evaluate predicate " ++ predicateText p ++ " on state " ++ state.hex ++ ": " ++
      message
  | .unknownPredicate p => "unknown predicate " ++ predicateText p
  | .timeout message => "evaluation timed out: " ++ message
  | .other message => message

end EvalError

/-- Why a property has no tableau. -/
inductive Rejection where
  | usesNext
  | noEventuality (property : Formula)
  | tooLarge (limit : Nat)
deriving DecidableEq, Repr

namespace Rejection

def text : Rejection → String
  | .usesNext =>
    "the next operator () is internal to the tableau and cannot appear in a property"
  | .noEventuality property =>
    property.text ++ " has no eventuality (<>, ~[] or ~>); safety properties are not checked here"
  | .tooLarge limit => "tableau exceeds " ++ toString limit ++ " nodes"

end Rejection

/-- Why a set of product nodes yields no lasso. -/
inductive LassoGap where
  | unreached
  | promiseOutOfReach
  | noWayBack
  | stateless (node : Nat)
deriving DecidableEq, Repr

namespace LassoGap

def text : LassoGap → String
  | .unreached => "no initial node reaches the component"
  | .promiseOutOfReach => "promise unreachable within the component"
  | .noWayBack => "no path back to the cycle root"
  | .stateless node => "no state stored for node " ++ toString node

end LassoGap

/-- Why the check of a property ended without a verdict. -/
inductive CheckError where
  | malformed (reason : String)
  | unusableComponent (size : Nat) (detail : String)
  | evaluation (error : EvalError)
deriving DecidableEq, Repr

namespace CheckError

def text : CheckError → String
  | .malformed reason => "malformed liveness property: " ++ reason
  | .unusableComponent size detail =>
    "internal error: violating SCC of " ++ toString size ++ " node(s) is unusable: " ++ detail
  | .evaluation error => "evaluation error: " ++ error.text

/-- Whether the engine, not the model or the property, is to blame. -/
def isInternal : CheckError → Bool
  | .unusableComponent _ _ => true
  | _ => false

def ofRejection (r : Rejection) : CheckError := .malformed r.text

def ofGap (size : Nat) (gap : LassoGap) : CheckError := .unusableComponent size gap.text

end CheckError
end TemporalCheck
