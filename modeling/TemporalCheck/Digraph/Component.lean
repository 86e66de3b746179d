import TemporalCheck.Ascending
import TemporalCheck.Digraph

/-! Sets of nodes, and the strongly connected components that can be reached from given roots. The
search goes depth first. A node is open from its first visit until its component is complete; a
component is complete when the search leaves a node from which no earlier open node was reached. -/
namespace TemporalCheck

structure Component where
  nodes : List Nat
  ascending : nodes.Pairwise (· < ·)
deriving DecidableEq

namespace Component

def ofList (nodes : List Nat) : Component :=
  ⟨Ascending.ofList nodes, Ascending.pairwise_ofList nodes⟩

def size (c : Component) : Nat := c.nodes.length

def isEmpty (c : Component) : Bool := c.nodes.isEmpty

def contains (c : Component) (v : Nat) : Bool := c.nodes.contains v

def least? (c : Component) : Option Nat := c.nodes.head?

def text (c : Component) : String :=
  "\x7b" ++ ", ".intercalate (c.nodes.map fun v => "n" ++ toString v) ++ "\x7d"

end Component

namespace Digraph

/-- How far the search has got with a node. -/
inductive Mark where
  | unseen
  /-- Visited as number `index`, with its component still incomplete. -/
  | opened (index : Nat)
  | closed
deriving DecidableEq, Repr

structure Search where
  marks : Array Mark
  /-- How many nodes have been visited. -/
  clock : Nat := 0
  /-- The open nodes, the latest first. -/
  stack : List Nat := []
  /-- The complete components, in order of completion. -/
  found : Array Component := #[]

namespace Search

def start (g : Digraph) : Search := { marks := Array.replicate g.size .unseen }

/-- A number that is no node counts as closed. -/
def mark (s : Search) (v : Nat) : Mark := s.marks.getD v .closed

def enter (s : Search) (v : Nat) : Search :=
  { s with
    marks := s.marks.setIfInBounds v (.opened s.clock)
    clock := s.clock + 1
    stack := v :: s.stack }

/-- Takes the component of `v` off the stack, down to `v` itself. -/
def complete (s : Search) (v : Nat) : Search :=
  let members := s.stack.takeWhile (· != v) ++ [v]
  { s with
    marks := members.foldl (fun marks w => marks.setIfInBounds w .closed) s.marks
    stack := s.stack.drop members.length
    found := s.found.push (Component.ofList members) }

/-- Looks at the nodes one after the other and visits the unseen ones. The number returned is the
least of `low` and the indices of the open nodes that were reached. -/
def follow (visit : Nat → Search → Nat × Search) : List Nat → Nat → Search → Nat × Search
  | [], low, s => (low, s)
  | w :: rest, low, s =>
    match s.mark w with
    | .unseen =>
      let (reached, s) := visit w s
      follow visit rest (min low reached) s
    | .opened index => follow visit rest (min low index) s
    | .closed => follow visit rest low s

/-- Visits an unseen node and everything unseen behind it, up to the given depth, and returns the
least index of an open node that was reached. -/
def visit (g : Digraph) : (depth : Nat) → Nat → Search → Nat × Search
  | 0, _, s => (s.clock, s)
  | depth + 1, v, s =>
    let (low, t) := follow (visit g depth) (g.next v) s.clock (s.enter v)
    (low, if low = s.clock then t.complete v else t)

/-- Visits a root unless it has been seen. No path without repetition is longer than the graph has
nodes, so this depth is never exhausted. -/
def visitRoot (g : Digraph) (s : Search) (root : Nat) : Search :=
  match s.mark root with
  | .unseen => (visit g g.size root s).2
  | _ => s

end Search

/-- The strongly connected components reachable from the roots, in order of completion. -/
def components (g : Digraph) (roots : List Nat) : List Component :=
  (roots.foldl (Search.visitRoot g) (Search.start g)).found.toList

end Digraph
end TemporalCheck
