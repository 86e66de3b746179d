import TemporalCheck.Digraph.Component
import TemporalCheck.Product

/-! Scanning a product for components that a violating behaviour can stay in: there is an edge
inside, and every promise of the tableau is fulfilled by some node. -/
namespace TemporalCheck

namespace Product

variable {State : Type}

def reachableComponents (p : Product State) : List Component :=
  p.digraph.components p.initial.toList

/-- Whether an edge lies inside, given that the nodes are strongly connected. -/
def isNontrivial (p : Product State) (c : Component) : Bool :=
  match c.nodes with
  | [] => false
  | [v] => (p.successors v).contains v
  | _ => true

def isViolating (p : Product State) (c : Component) : Bool :=
  p.isNontrivial c &&
    (List.range p.tableau.promises.length).all fun promise => c.nodes.any (p.fulfils · promise)

/-- Whether a set is nontrivial, and whether it is violating. There is no answer where it would
depend on a number that is no node. -/
def judge? (p : Product State) (c : Component) : Option (Bool × Bool) :=
  if c.nodes.all (· < p.size) || p.isViolating c then some (p.isNontrivial c, p.isViolating c)
  else none

end Product

/-- Puts a component in front of the first one with a greater least node. -/
def Component.insertByLeast (c : Component) : List Component → List Component
  | [] => [c]
  | d :: rest =>
    if d.least?.getD 0 ≤ c.least?.getD 0 then d :: c.insertByLeast rest else c :: d :: rest

structure ScanReport where
  generation : Nat
  /-- How many components were looked at. -/
  components : Nat
  /-- By ascending least node. -/
  violating : List Component

/-- Remembers which generation was scanned last, and counts the scans. -/
structure Detector where
  lastScanned : Option Nat := none
  scans : Nat := 0

namespace Detector

variable {State : Type}

/-- Scans the product, unless it has not changed since the last scan. -/
def scan (d : Detector) (p : Product State) : Option ScanReport × Detector :=
  if d.lastScanned = some p.generation then (none, d)
  else
    let components := p.reachableComponents
    let violating := components.filter p.isViolating
    (some {
      generation := p.generation
      components := components.length
      violating := violating.foldl (fun sorted c => c.insertByLeast sorted) [] },
    ⟨some p.generation, d.scans + 1⟩)

end Detector
end TemporalCheck
