import Mathlib
import TemporalCheck.Digraph

/-! Reachability in a digraph, and its strongly connected sets. -/
namespace TemporalCheck.Digraph

variable {g : Digraph} {v w : Nat}

def Edge (g : Digraph) (v w : Nat) : Prop := w ∈ g.next v

/-- Some path, perhaps without any edge, leads from the one node to the other. -/
def Reaches (g : Digraph) : Nat → Nat → Prop := Relation.ReflTransGen g.Edge

theorem Reaches.refl (v : Nat) : g.Reaches v v := Relation.ReflTransGen.refl

theorem Reaches.trans {u : Nat} (first : g.Reaches u v) (second : g.Reaches v w) : g.Reaches u w :=
  Relation.ReflTransGen.trans first second

theorem Edge.reaches (edge : g.Edge v w) : g.Reaches v w := Relation.ReflTransGen.single edge

theorem Edge.lt_size (edge : g.Edge v w) : w < g.size := lt_size_of_mem_next edge

theorem Edge.source_lt_size (edge : g.Edge v w) : v < g.size := by
  by_contra out
  have none : g.successors[v]? = none := Array.getElem?_eq_none (Nat.not_lt.mp out)
  simp [Edge, next, Array.getD_eq_getD_getElem?, none] at edge

/-- What is closed under edges holds of everything that can be reached. -/
theorem Reaches.preserves {P : Nat → Prop} (closed : ∀ v w, P v → g.Edge v w → P w)
    (reaches : g.Reaches v w) (start : P v) : P w := by
  induction reaches with
  | refl => exact start
  | tail _ edge ih => exact closed _ _ ih edge

def Reached (g : Digraph) (roots : List Nat) (v : Nat) : Prop :=
  ∃ r ∈ roots, r < g.size ∧ g.Reaches r v

theorem Reached.next {roots : List Nat} (reached : g.Reached roots v) (reaches : g.Reaches v w) :
    g.Reached roots w := by
  obtain ⟨r, member, bound, path⟩ := reached
  exact ⟨r, member, bound, path.trans reaches⟩

theorem Reached.lt_size {roots : List Nat} (reached : g.Reached roots v) : v < g.size := by
  obtain ⟨r, _, bound, path⟩ := reached
  exact path.preserves (P := (· < g.size)) (fun _ _ _ edge => edge.lt_size) bound

def Connected (g : Digraph) (v w : Nat) : Prop := g.Reaches v w ∧ g.Reaches w v

end TemporalCheck.Digraph
