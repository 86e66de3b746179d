import TemporalCheck.Session
import TemporalCheck.Tableau.Expansion

/-! The nodes of a tableau and the edges between them. All edges stand in one list, laid out node by
node, and every node knows the places of its own. -/
namespace TemporalCheck

abbrev TableauId := Nat

/-- What a step must satisfy for a tableau edge to go along with it. -/
structure Guard where
  /-- Asked of the step. -/
  action : List Literal
  /-- Asked of the state that the step arrives in. -/
  state : List Literal
deriving DecidableEq, Repr

namespace Guard

variable {State : Type}

def isTrivial (g : Guard) : Bool := g.action.isEmpty && g.state.isEmpty

/-- The questions in the order in which they are put: the step first, then its target. -/
def conditions (g : Guard) (current next : Keyed State) : List (Condition State) :=
  g.action.map (⟨·, current, some next⟩) ++ g.state.map (⟨·, next, none⟩)

end Guard

namespace Tableau

structure Node where
  particle : Particle
  state : List Literal
  action : List Literal
  /-- Positions, among the promises, of those that the node fulfils. -/
  fulfils : List Nat
  successors : List TableauId
  /-- Its edges have the places from `start` on, up to `stop`. -/
  start : Nat := 0
  stop : Nat := 0

structure Edge where
  source : TableauId
  target : TableauId
  guard : Guard
deriving DecidableEq, Repr

/-- The guarded edges leaving a node, in the order of its successors. -/
def outgoing (nodes : Array Node) (id : TableauId) : List Edge :=
  match nodes[id]? with
  | none => []
  | some node => node.successors.filterMap fun next =>
    nodes[next]?.map fun target => ⟨id, next, node.action, target.state⟩

/-- Puts the edges of a node behind those of the nodes before it. -/
def layOutNode (laid : Array Node × List Edge) (id : TableauId) : Array Node × List Edge :=
  let (nodes, edges) := laid
  let longer := edges ++ outgoing nodes id
  (nodes.modify id fun node => { node with start := edges.length, stop := longer.length }, longer)

def layOut (nodes : Array Node) : Array Node × List Edge :=
  (List.range nodes.size).foldl layOutNode (nodes, [])

def edgesOfFirst (nodes : Array Node) (n : Nat) : List Edge :=
  (List.range n).flatMap (outgoing nodes)

def Node.placed (nodes : Array Node) (id : TableauId) (node : Node) : Node :=
  { node with
    start := (edgesOfFirst nodes id).length, stop := (edgesOfFirst nodes (id + 1)).length }

/-- The list is that of all edges, and the nodes know where theirs are. -/
structure Laid (nodes : Array Node) (edges : List Edge) : Prop where
  whole : edges = edgesOfFirst nodes nodes.size
  places : ∀ id node, nodes[id]? = some node →
    node.start = (edgesOfFirst nodes id).length ∧ node.stop = (edgesOfFirst nodes (id + 1)).length

section Layout

variable {nodes nodes' : Array Node} {edges : List Edge} {id n : Nat} {node : Node}

theorem edgesOfFirst_succ (nodes : Array Node) (n : Nat) :
    edgesOfFirst nodes (n + 1) = edgesOfFirst nodes n ++ outgoing nodes n := by
  simp [edgesOfFirst, List.range_succ]

theorem isPrefix_edgesOfFirst (bound : id ≤ n) :
    edgesOfFirst nodes id <+: edgesOfFirst nodes n := by
  induction bound with
  | refl => exact List.prefix_rfl
  | step _ ih => exact ih.trans ⟨outgoing nodes _, (edgesOfFirst_succ nodes _).symm⟩

/-- In between the places of a node stand the edges that leave it. -/
theorem Laid.slice (laid : Laid nodes edges) (at_id : nodes[id]? = some node) :
    (edges.take node.stop).drop node.start = outgoing nodes id := by
  obtain ⟨bound, -⟩ := Array.getElem?_eq_some_iff.mp at_id
  obtain ⟨start, stop⟩ := laid.places id node at_id
  obtain ⟨later, split⟩ := @isPrefix_edgesOfFirst nodes (id + 1) nodes.size bound
  rw [laid.whole, start, stop, ← split, List.take_left, edgesOfFirst_succ, List.drop_left]

/-- The places of its edges are no part of what the edges of a node are. -/
theorem outgoing_congr {f : TableauId → Node → Node}
    (same : ∀ id, nodes'[id]? = nodes[id]?.map (f id))
    (kept : ∀ id node, (f id node).successors = node.successors ∧
      (f id node).action = node.action ∧ (f id node).state = node.state) :
    outgoing nodes' = outgoing nodes := by
  funext id
  unfold outgoing
  rw [same id]
  cases nodes[id]? with
  | none => rfl
  | some node =>
    obtain ⟨successors, action, -⟩ := kept id node
    simp only [Option.map_some, successors, action]
    congr
    funext next
    rw [same next]
    cases nodes[next]? with
    | none => rfl
    | some target => simp [kept next target]

/-- The nodes and edges after those of the first `n` nodes have been laid out. -/
structure LaidUpTo (nodes : Array Node) (n : Nat) (laid : Array Node × List Edge) : Prop where
  edges : laid.2 = edgesOfFirst nodes n
  nodes : ∀ id : TableauId, laid.1[id]? =
    nodes[id]?.map fun node => if id < n then node.placed nodes id else node

theorem LaidUpTo.outgoing_eq {laid : Array Node × List Edge} (upTo : LaidUpTo nodes n laid) :
    outgoing laid.1 = outgoing nodes := by
  refine outgoing_congr upTo.nodes fun id node => ?_
  split <;> exact ⟨rfl, rfl, rfl⟩

theorem LaidUpTo.succ {laid : Array Node × List Edge} (upTo : LaidUpTo nodes n laid) :
    LaidUpTo nodes (n + 1) (layOutNode laid n) := by
  have same := upTo.outgoing_eq
  obtain ⟨laidNodes, laidEdges⟩ := laid
  obtain ⟨rfl, kept⟩ := upTo
  dsimp only at same kept
  unfold layOutNode
  dsimp only
  rw [same, ← edgesOfFirst_succ]
  refine ⟨rfl, fun (id : Nat) => ?_⟩
  rw [Array.getElem?_modify, kept]
  cases nodes[id]? with
  | none => simp
  | some node =>
    by_cases here : n = id
    · subst here
      simp [Node.placed]
    · have before : id < n + 1 ↔ id < n := by omega
      simp [here, before]

theorem laidUpTo_foldl (nodes : Array Node) (n : Nat) :
    LaidUpTo nodes n ((List.range n).foldl layOutNode (nodes, [])) := by
  induction n with
  | zero => exact ⟨rfl, fun id => by simp⟩
  | succ n ih =>
    rw [List.range_succ, List.foldl_append]
    exact ih.succ

theorem getElem?_layOut (nodes : Array Node) (id : TableauId) :
    (layOut nodes).1[id]? = nodes[id]?.map (Node.placed nodes id) := by
  rw [layOut, (laidUpTo_foldl nodes nodes.size).nodes]
  by_cases bound : id < nodes.size
  · simp [bound]
  · simp [bound]

@[simp]
theorem size_layOut (nodes : Array Node) : (layOut nodes).1.size = nodes.size := by
  have here := getElem?_layOut nodes (layOut nodes).1.size
  have there := getElem?_layOut nodes nodes.size
  simp only [Array.getElem?_size, Option.map_none] at here there
  exact Nat.le_antisymm (Array.getElem?_eq_none_iff.mp there)
    (Array.getElem?_eq_none_iff.mp (Option.map_eq_none_iff.mp here.symm))

/-- What does not depend on the places of the edges is as before. -/
theorem map_layOut {α : Type} {f : Node → α} (nodes : Array Node)
    (kept : ∀ id node, f (node.placed nodes id) = f node) :
    (layOut nodes).1.toList.map f = nodes.toList.map f := by
  apply List.ext_getElem?
  intro id
  simp only [List.getElem?_map, Array.getElem?_toList, getElem?_layOut]
  cases nodes[id]? with
  | none => rfl
  | some node => exact congrArg some (kept id node)

theorem laid_layOut (nodes : Array Node) : Laid (layOut nodes).1 (layOut nodes).2 := by
  have upTo := laidUpTo_foldl nodes nodes.size
  have first : edgesOfFirst (layOut nodes).1 = edgesOfFirst nodes :=
    funext fun n => congrArg (List.range n).flatMap upTo.outgoing_eq
  refine ⟨?_, fun id node at_id => ?_⟩
  · rw [first, size_layOut]
    exact upTo.edges
  · rw [getElem?_layOut] at at_id
    obtain ⟨old, -, rfl⟩ := Option.map_eq_some_iff.mp at_id
    rw [first]
    exact ⟨rfl, rfl⟩

end Layout

end Tableau
end TemporalCheck
