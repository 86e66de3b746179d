import TemporalCheck.Ascending
import TemporalCheck.Digraph

/-! Shortest paths by breadth-first search. Nodes are followed in ascending order, so that the path
found depends on the edges alone and not on the order in which they are listed. -/
namespace TemporalCheck.Digraph

/-- A path, kept as its last node and the nodes before, latest first. -/
structure Trail where
  last : Nat
  before : List Nat

namespace Trail

def nodes (t : Trail) : List Nat := (t.last :: t.before).reverse

def extend (t : Trail) (v : Nat) : Trail := ⟨v, t.last :: t.before⟩

end Trail

/-- The nodes that satisfy `inside` and have not been seen, which are seen from then on. -/
def claim (inside : Nat → Bool) : List Nat → Array Bool → List Nat × Array Bool
  | [], seen => ([], seen)
  | v :: rest, seen =>
    if inside v && !seen.getD v true then
      let (claimed, seen) := claim inside rest (seen.setIfInBounds v true)
      (v :: claimed, seen)
    else claim inside rest seen

/-- Takes up to `fuel` trails from the queue until one ends in a goal. -/
def explore (g : Digraph) (inside goal : Nat → Bool) :
    (fuel : Nat) → List Trail → Array Bool → Option (List Nat)
  | 0, _, _ => none
  | _ + 1, [], _ => none
  | fuel + 1, trail :: queue, seen =>
    if goal trail.last then some trail.nodes
    else
      let (claimed, seen) := claim inside (Ascending.ofList (g.next trail.last)) seen
      explore g inside goal fuel (queue ++ claimed.map trail.extend) seen

/-- A shortest path that stays inside, from one of the sources to a goal. Each node is queued at
most once, so the search ends within as many steps as there are nodes. -/
def path? (g : Digraph) (inside goal : Nat → Bool) (sources : List Nat) : Option (List Nat) :=
  let (claimed, seen) := claim inside (Ascending.ofList sources) (Array.replicate g.size false)
  explore g inside goal g.size (claimed.map (⟨·, []⟩)) seen

end TemporalCheck.Digraph
