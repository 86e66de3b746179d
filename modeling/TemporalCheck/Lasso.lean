import TemporalCheck.Digraph.Component
import TemporalCheck.Digraph.Path
import TemporalCheck.Product

/-! Counterexamples of finite size: a stem that leads from an initial state to a cycle, which is
then repeated for ever. -/
namespace TemporalCheck

structure Lasso (State : Type) where
  /-- Ends in the state where the cycle begins. -/
  stem : List State
  /-- Begins and ends in that state. -/
  cycle : List State
deriving DecidableEq, Repr

namespace Lasso

variable {State : Type}

/-- The position in the stem of the state where the cycle begins. -/
def cycleStart (l : Lasso State) : Nat := l.stem.length - 1

def length (l : Lasso State) : Nat := l.stem.length + l.cycle.length

def isEmpty (l : Lasso State) : Bool := l.stem.isEmpty && l.cycle.isEmpty

/-- The stem and once around the cycle. -/
def states (l : Lasso State) : List State := l.stem ++ l.cycle.drop 1

/-- A numbered paragraph for each state, up to the step that closes the cycle. -/
def text (render : State → String) (l : Lasso State) : String :=
  let inner := (l.cycle.drop 1).take (l.cycle.length - 2)
  String.join ((l.stem ++ inner).mapIdx paragraph) ++
    "Back to state " ++ toString (l.cycleStart + 1)
where
  paragraph (i : Nat) (state : State) : String :=
    let label := if i = 0 && !l.stem.isEmpty then " <Initial predicate>" else ""
    "State " ++ toString (i + 1) ++ ":" ++ label ++ "\n" ++ render state ++ "\n\n"

end Lasso

namespace Product

variable {State : Type}

/-- A shortest path of at least one edge inside the component, without the node it departs from. -/
def pathWithin? (p : Product State) (c : Component) (goal : NodeId → Bool) (source : NodeId) :
    Option (List NodeId) :=
  p.digraph.path? c.contains goal (p.digraph.next source)

/-- Walks inside the component until every pending promise has been fulfilled on the way, and then
back to the root. Every leg fulfils at least one promise, so there are at most as many legs as
promises. -/
def tour (p : Product State) (c : Component) (root : NodeId) :
    (legs : Nat) → (pending : List Nat) → (current : NodeId) → Except LassoGap (List NodeId)
  | _, [], current =>
    match p.pathWithin? c (· == root) current with
    | none => .error .noWayBack
    | some path => .ok path
  | 0, _ :: _, _ => .error .promiseOutOfReach
  | legs + 1, promise :: others, current =>
    let pending := promise :: others
    match p.pathWithin? c (fun v => pending.any (p.fulfils v)) current with
    | none => .error .promiseOutOfReach
    | some path =>
      let arrived := path.getLast?.getD current
      match p.tour c root legs (pending.filter (!p.fulfils arrived ·)) arrived with
      | .error gap => .error gap
      | .ok rest => .ok (path ++ rest)

/-- A closed walk from the root that stays inside the component and fulfils every promise. -/
def cycleFrom (p : Product State) (c : Component) (root : NodeId) : Except LassoGap (List NodeId) :=
  let pending := (List.range p.tableau.promises.length).filter (!p.fulfils root ·)
  match p.tour c root pending.length pending root with
  | .error gap => .error gap
  | .ok walk => .ok (root :: walk)

/-- A shortest path from an initial node into the component. -/
def stemTo (p : Product State) (c : Component) : Except LassoGap (List NodeId) :=
  match p.digraph.path? (fun _ => true) c.contains p.initial.toList with
  | none => .error .unreached
  | some path => .ok path

/-- The states of a path of nodes. -/
def project (p : Product State) : List NodeId → Except LassoGap (List State)
  | [] => .ok []
  | id :: rest =>
    match p.stateOf? id with
    | none => .error (.stateless id)
    | some state =>
      match p.project rest with
      | .error gap => .error gap
      | .ok states => .ok (state :: states)

/-- A lasso whose cycle stays inside the component. -/
def lasso (p : Product State) (c : Component) : Except LassoGap (Lasso State) := do
  let stem ← p.stemTo c
  let cycle ← p.cycleFrom c (stem.getLast?.getD 0)
  return ⟨← p.project stem, ← p.project cycle⟩

end Product
end TemporalCheck
