import TemporalCheck.Product

/-! Growing a product by what a model says. Growth stops at the first question that the model does
not answer, and what was added before it stays. -/
namespace TemporalCheck

/-- Where growth has led: the product, the session in which the model was asked, the error that
stopped it, if any, and the nodes that were added. -/
structure Growth (State : Type) where
  product : Product State
  session : Session
  failure : Option EvalError := none
  created : List NodeId := []

/-- Nodes that had been added before. -/
def Growth.after (earlier : List NodeId) (g : Growth State) : Growth State :=
  { g with created := earlier ++ g.created }

namespace Session

variable {State α : Type}

/-- The candidates whose conditions all hold, in order. -/
def select (model : Model State) : List (α × List (Condition State)) → Session →
    Except EvalError (List α) × Session
  | [], s => (.ok [], s)
  | (candidate, conditions) :: rest, s =>
    match s.testAll model conditions with
    | (.error e, s) => (.error e, s)
    | (.ok chosen, s) =>
      match select model rest s with
      | (.error e, s) => (.error e, s)
      | (.ok others, s) => (.ok (if chosen then candidate :: others else others), s)

end Session

namespace Product

variable {State : Type}

/-- Every way to start a behaviour in one of the states, with its conditions. -/
def starts (p : Product State) (states : List (Keyed State)) :
    List ((Keyed State × TableauId) × List (Condition State)) :=
  states.flatMap fun k => (p.tableau.admissions k).map fun (t, conditions) => ((k, t), conditions)

/-- Every way to go on from a state and a tableau node, with its conditions. -/
def moves (p : Product State) (t : TableauId) (current : Keyed State) (next : List (Keyed State)) :
    List ((Keyed State × TableauId) × List (Condition State)) :=
  next.flatMap fun k => (p.tableau.edgesFrom t).map fun edge =>
    ((k, edge.target), edge.guard.conditions current k)

/-- Takes the starts one by one, adding each that is admitted before the next is looked at. -/
def beginAll (model : Model State) :
    List ((Keyed State × TableauId) × List (Condition State)) → Product State → Session →
    Growth State
  | [], p, s => { product := p, session := s }
  | ((k, t), conditions) :: rest, p, s =>
    match s.testAll model conditions with
    | (.error e, s) => { product := p, session := s, failure := some e }
    | (.ok false, s) => beginAll model rest p s
    | (.ok true, s) =>
      let (created, p) := p.begin k t
      (beginAll model rest p s).after created

/-- Lets behaviours start in the given states. -/
def extendInitial (p : Product State) (model : Model State) (s : Session)
    (states : List (Keyed State)) : Growth State :=
  beginAll model (p.starts states) p s

/-- Lets the node be followed by the given states. All questions are asked before anything is added,
so that a failure leaves the product as it was. -/
def expandNode (p : Product State) (model : Model State) (s : Session) (id : NodeId)
    (next : List (Keyed State)) : Growth State :=
  match p.nodes[id]? with
  | none => { product := p, session := s }
  | some node =>
    match p.state? node.key.fingerprint with
    | none => { product := p, session := s }
    | some state =>
      let current : Keyed State := ⟨node.key.fingerprint, state⟩
      match s.select model (p.moves node.key.tableau current next) with
      | (.error e, s) => { product := p, session := s, failure := some e }
      | (.ok chosen, s) =>
        let (created, p) := p.linkAll id chosen
        { product := p, session := s, created := created }

/-- Expands the nodes on a fingerprint from position `i` on, up to `fuel` of them. Nodes that are
added meanwhile take their turn. -/
def extendFrom (model : Model State) (source : Fingerprint) (next : List (Keyed State)) :
    (fuel i : Nat) → Product State → Session → Growth State
  | 0, _, p, s => { product := p, session := s }
  | fuel + 1, i, p, s =>
    match (p.nodesOn source)[i]? with
    | none => { product := p, session := s }
    | some id =>
      let grown := p.expandNode model s id next
      match grown.failure with
      | some _ => grown
      | none =>
        (extendFrom model source next fuel (i + 1) grown.product grown.session).after grown.created

/-- Lets every node on a fingerprint be followed by the given states. There is at most one node for
each tableau node. -/
def extend (p : Product State) (model : Model State) (s : Session) (source : Fingerprint)
    (next : List (Keyed State)) : Growth State :=
  extendFrom model source next p.tableau.size 0 p s

/-- The nodes that were added since the product had the given size. -/
def addedSince (p : Product State) (size : Nat) : List NodeId :=
  List.range' size (p.size - size)

end Product
end TemporalCheck
