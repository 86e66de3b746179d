/-! Finite directed graphs on the numbers below their size. -/
namespace TemporalCheck

structure Digraph where
  successors : Array (List Nat)

namespace Digraph

def size (g : Digraph) : Nat := g.successors.size

/-- The nodes one edge away, in the order given; what is no node of the graph is left out. -/
def next (g : Digraph) (v : Nat) : List Nat := (g.successors.getD v []).filter (· < g.size)

theorem lt_size_of_mem_next {g : Digraph} {v w : Nat} (h : w ∈ g.next v) : w < g.size := by
  simpa using (List.mem_filter.mp h).2

end Digraph
end TemporalCheck
