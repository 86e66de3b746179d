import TemporalCheck.Tableau.Layout

/-! The tableau of a negated property: a graph of particles whose infinite paths describe the
behaviours that violate the property. A node's literals on the state must hold where the node
stands, its literals on the step must hold on the step that leaves it, and every promise must be
fulfilled again and again. -/
namespace TemporalCheck

structure Tableau where
  property : Formula
  /-- The formula that the tableau describes. -/
  negated : NormalForm
  closure : Closure
  nodes : Array Tableau.Node
  edges : List Tableau.Edge
  initial : List TableauId
  promises : List FormulaId
  laid : Tableau.Laid nodes edges

namespace Tableau

variable {State : Type}

def size (t : Tableau) : Nat := t.nodes.size

/-- The tableau of these nodes, whose edges are still to be laid out. -/
def ofNodes (property : Formula) (negated : NormalForm) (closure : Closure) (nodes : Array Node)
    (initial : List TableauId) (promises : List FormulaId) : Tableau where
  property := property
  negated := negated
  closure := closure
  nodes := (layOut nodes).1
  edges := (layOut nodes).2
  initial := initial
  promises := promises
  laid := laid_layOut nodes

def edgesFrom (t : Tableau) (id : TableauId) : List Edge :=
  match t.nodes[id]? with
  | none => []
  | some node => (t.edges.take node.stop).drop node.start

/-- The slice holds the edges that leave the node, in the order of its successors. -/
theorem edgesFrom_eq (t : Tableau) (id : TableauId) : t.edgesFrom id = outgoing t.nodes id := by
  unfold edgesFrom
  cases at_id : t.nodes[id]? with
  | none => simp [outgoing, at_id]
  | some node => exact t.laid.slice at_id

def fulfils (t : Tableau) (id : TableauId) (promise : Nat) : Bool :=
  match t.nodes[id]? with
  | none => false
  | some node => node.fulfils.contains promise

/-- The initial nodes, with what a state must satisfy for a behaviour to start there. -/
def admissions (t : Tableau) (k : Keyed State) : List (TableauId × List (Condition State)) :=
  t.initial.filterMap fun id =>
    t.nodes[id]?.map fun node => (id, node.state.map (⟨·, k, none⟩))

/-- One line for a node: its particle, written with the given labels, and its successors. -/
def line (t : Tableau) (labels : Array String) (id : TableauId) (node : Node) : String :=
  "  t" ++ toString id ++ (if t.initial.contains id then " [init]" else "") ++ " \x7b" ++
    ", ".intercalate (node.particle.map (labels.getD · "")) ++ "\x7d ->" ++
    String.join (node.successors.map fun next => " t" ++ toString next) ++ "\n"

def text (t : Tableau) : String :=
  let labels := (Array.range t.closure.size).map t.closure.text
  "tableau of " ++ t.negated.text ++ "\n" ++ String.join (t.nodes.toList.mapIdx (t.line labels))

end Tableau
end TemporalCheck
