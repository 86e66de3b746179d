import TemporalCheck.Proofs.Digraph.Component
import TemporalCheck.Proofs.Digraph.Path

/-! Graphs whose nodes list the same edges in different orders. A search visits their nodes in
different orders, and yet it finds the same components, since these are determined by the edges; and
the path to a goal is the same, since edges are followed in ascending order. -/
namespace TemporalCheck

theorem Ascending.ofList_congr {xs ys : List Nat} (same : ∀ x, x ∈ xs ↔ x ∈ ys) :
    ofList xs = ofList ys := by
  apply (pairwise_ofList xs).eq_of_mem_iff (pairwise_ofList ys)
  intro x
  rw [mem_ofList, mem_ofList, same]

namespace Digraph

variable {g h : Digraph} {roots roots' : List Nat} {c : Component} {v w : Nat}

structure Reordered (g h : Digraph) : Prop where
  size : h.size = g.size
  edges : ∀ v w, h.Edge v w ↔ g.Edge v w

namespace Reordered

variable (same : g.Reordered h)
include same

theorem reaches : h.Reaches v w ↔ g.Reaches v w := by
  have edges : h.Edge = g.Edge := funext fun v => funext fun w => propext (same.edges v w)
  unfold Reaches
  rw [edges]

theorem reached (sameRoots : ∀ v, v ∈ roots' ↔ v ∈ roots) :
    h.Reached roots' v ↔ g.Reached roots v := by
  simp only [Reached, sameRoots, same.size, same.reaches]

theorem isComponent : h.IsComponent c ↔ g.IsComponent c := by
  have connected (v w : Nat) : h.Connected v w ↔ g.Connected v w := by
    simp only [Connected, same.reaches]
  constructor
  · exact fun component => ⟨component.nonempty, by simpa only [connected] using component.classes⟩
  · exact fun component => ⟨component.nonempty, by simpa only [connected] using component.classes⟩

/-- The same components are found, though perhaps in another order. -/
theorem components_perm (sameRoots : ∀ v, v ∈ roots' ↔ v ∈ roots) :
    (h.components roots').Perm (g.components roots) := by
  rw [List.perm_ext_iff_of_nodup (h.nodup_components roots') (g.nodup_components roots)]
  intro c
  simp only [mem_components_iff, same.isComponent, same.reached sameRoots]

theorem explore_eq (inside goal : Nat → Bool) (fuel : Nat) (queue : List Trail)
    (seen : Array Bool) :
    explore h inside goal fuel queue seen = explore g inside goal fuel queue seen := by
  induction fuel generalizing queue seen with
  | zero => rfl
  | succ fuel ih =>
    cases queue with
    | nil => rfl
    | cons trail queue =>
      have ascending :
          Ascending.ofList (h.next trail.last) = Ascending.ofList (g.next trail.last) :=
        Ascending.ofList_congr (same.edges trail.last)
      simp only [explore, ascending, ih]

theorem path?_eq (inside goal : Nat → Bool) {sources sources' : List Nat}
    (sameSources : ∀ v, v ∈ sources' ↔ v ∈ sources) :
    h.path? inside goal sources' = g.path? inside goal sources := by
  unfold path?
  rw [Ascending.ofList_congr sameSources, same.size]
  exact same.explore_eq inside goal _ _ _

end Reordered

end Digraph
end TemporalCheck
