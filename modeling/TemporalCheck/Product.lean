import Std.Data.TreeSet
import TemporalCheck.Digraph
import TemporalCheck.Tableau

/-! The product of the discovered states with a tableau. A node stands for a state together with a
tableau node that the behaviour has reached there. Nodes are added as states are discovered; their
numbers, keys and states never change, and lists only grow at their ends. -/
namespace TemporalCheck

abbrev NodeId := Nat

structure ProductKey where
  fingerprint : Fingerprint
  tableau : TableauId
deriving DecidableEq, Repr

namespace ProductKey

instance : Ord ProductKey where
  compare := compareLex (compareOn fingerprint) (compareOn tableau)

instance : Std.TransOrd ProductKey :=
  inferInstanceAs (Std.TransCmp (compareLex (compareOn fingerprint) (compareOn tableau)))

instance : Std.LawfulEqOrd ProductKey where
  eq_of_compare {a b} h := by
    have parts : (compare a.fingerprint b.fingerprint).then (compare a.tableau b.tableau) = .eq := h
    simp only [Ordering.then_eq_eq, Std.LawfulEqCmp.compare_eq_iff_eq] at parts
    cases a
    cases b
    simpa using parts

def text (k : ProductKey) : String :=
  "(" ++ k.fingerprint.hex ++ ", t" ++ toString k.tableau ++ ")"

def describe (k : ProductKey) : String := "BG" ++ k.text

end ProductKey

namespace Product

structure Node where
  key : ProductKey
  /-- Distinct, in the order in which the edges were found. -/
  successors : Array NodeId := #[]
  initial : Bool := false

structure Edge where
  source : NodeId
  target : NodeId
deriving DecidableEq, Repr

namespace Edge

instance : Ord Edge where
  compare := compareLex (compareOn source) (compareOn target)

instance : Std.TransOrd Edge :=
  inferInstanceAs (Std.TransCmp (compareLex (compareOn source) (compareOn target)))

instance : Std.LawfulEqOrd Edge where
  eq_of_compare {a b} h := by
    have parts : (compare a.source b.source).then (compare a.target b.target) = .eq := h
    simp only [Ordering.then_eq_eq, Std.LawfulEqCmp.compare_eq_iff_eq] at parts
    cases a
    cases b
    simpa using parts

end Edge
end Product

structure Product (State : Type) where
  tableau : Tableau
  nodes : Array Product.Node := #[]
  /-- The node of each key. -/
  index : Std.TreeMap ProductKey NodeId := ∅
  /-- The nodes on each fingerprint, in the order of their numbers. -/
  columns : Std.TreeMap Fingerprint (Array NodeId) := ∅
  /-- The state first given for each fingerprint. -/
  states : Std.TreeMap Fingerprint State := ∅
  initial : Array NodeId := #[]
  edges : Std.TreeSet Product.Edge := ∅
  /-- Grows with every node, edge and initial node, so that equal generations mean that nothing has
  changed in between. -/
  generation : Nat := 0

namespace Product

variable {State : Type}

def size (p : Product State) : Nat := p.nodes.size

def node? (p : Product State) (id : NodeId) : Option Node := p.nodes[id]?

def state? (p : Product State) (fp : Fingerprint) : Option State := p.states[fp]?

def stateOf? (p : Product State) (id : NodeId) : Option State :=
  p.nodes[id]?.bind fun node => p.state? node.key.fingerprint

def nodesOn (p : Product State) (fp : Fingerprint) : List NodeId := (p.columns.getD fp #[]).toList

def tableauOf? (p : Product State) (id : NodeId) : Option TableauId :=
  p.nodes[id]?.map (·.key.tableau)

def find? (p : Product State) (key : ProductKey) : Option NodeId := p.index[key]?

def successors (p : Product State) (id : NodeId) : List NodeId :=
  match p.nodes[id]? with
  | some node => node.successors.toList
  | none => []

def hasEdge (p : Product State) (source target : NodeId) : Bool :=
  p.edges.contains ⟨source, target⟩

def edgeCount (p : Product State) : Nat := p.edges.size

def digraph (p : Product State) : Digraph := ⟨p.nodes.map (·.successors.toList)⟩

def fulfils (p : Product State) (id : NodeId) (promise : Nat) : Bool :=
  match p.tableauOf? id with
  | some t => p.tableau.fulfils t promise
  | none => false

def describe (p : Product State) : String :=
  "BehaviorGraph \x7b nodes: " ++ toString p.size ++ ", edges: " ++ toString p.edgeCount ++
    ", init_nodes: " ++ toString p.initial.size ++ ", generation: " ++ toString p.generation ++
    " \x7d"

/-- Adds a node for a key that has none. -/
def add (p : Product State) (key : ProductKey) (state : State) : Product State :=
  { p with
    nodes := p.nodes.push { key := key }
    index := p.index.insert key p.size
    columns := p.columns.insert key.fingerprint ((p.columns.getD key.fingerprint #[]).push p.size)
    states := p.states.insertIfNew key.fingerprint state
    generation := p.generation + 1 }

/-- The node of a key, added if there is none, with the nodes that were added for it. -/
def ensure (p : Product State) (key : ProductKey) (state : State) :
    NodeId × List NodeId × Product State :=
  match p.find? key with
  | some id => (id, [], p)
  | none => (p.size, [p.size], p.add key state)

def addEdge (p : Product State) (source target : NodeId) : Product State :=
  if p.hasEdge source target then p
  else
    { p with
      nodes := p.nodes.modify source fun node =>
        { node with successors := node.successors.push target }
      edges := p.edges.insert ⟨source, target⟩
      generation := p.generation + 1 }

def markInitial (p : Product State) (id : NodeId) : Product State :=
  match p.nodes[id]? with
  | none => p
  | some node =>
    if node.initial then p
    else
      { p with
        nodes := p.nodes.modify id fun node => { node with initial := true }
        initial := p.initial.push id
        generation := p.generation + 1 }

/-- Lets the state start a behaviour in a tableau node, and tells which nodes were added for it. -/
def begin (p : Product State) (k : Keyed State) (t : TableauId) : List NodeId × Product State :=
  let (id, created, p) := p.ensure ⟨k.fingerprint, t⟩ k.state
  (created, p.markInitial id)

/-- Lets the node be followed by a state in a tableau node. -/
def link (source : NodeId) (p : Product State) (target : Keyed State × TableauId) :
    List NodeId × Product State :=
  let (id, created, p) := p.ensure ⟨target.1.fingerprint, target.2⟩ target.1.state
  (created, p.addEdge source id)

def linkAll (source : NodeId) (p : Product State) :
    List (Keyed State × TableauId) → List NodeId × Product State
  | [] => ([], p)
  | target :: rest =>
    let (created, p) := p.link source target
    let (later, p) := p.linkAll source rest
    (created ++ later, p)

end Product
end TemporalCheck
