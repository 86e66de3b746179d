import TemporalCheck.Proofs.Digraph.Shortest
import TemporalCheck.Proofs.Product.Extract

/-! How long a lasso is. No path from an initial node into the set is shorter than the stem, and
where the root itself fulfils every promise, no closed walk through it is shorter than the cycle. -/
namespace TemporalCheck

/-- A closed walk may be begun at any of its entries. -/
theorem exists_turned {α : Type} {R : α → α → Prop} {walk : List α} {a : α}
    (chain : walk.IsChain R) (closed : walk.head? = walk.getLast?) (long : 2 ≤ walk.length)
    (member : a ∈ walk) : ∃ rest, (a :: rest).IsChain R ∧ rest.getLast? = some a ∧
      rest.length + 1 = walk.length ∧ ∀ b ∈ rest, b ∈ walk := by
  obtain ⟨before, after, rfl⟩ := List.append_of_mem member
  cases before with
  | nil =>
    refine ⟨after, chain, ?_, by simp, fun b later => List.mem_cons_of_mem a later⟩
    cases after with
    | nil => simp at long
    | cons b after => simpa using closed.symm
  | cons first between =>
    have last : (a :: after).getLast? = some first := by
      rw [List.getLast?_append, List.getLast?_cons, Option.some_or] at closed
      rw [List.getLast?_cons]
      exact closed.symm
    have onward : (first :: (between ++ [a])).IsChain R :=
      chain.prefix ⟨after, by simp⟩
    obtain ⟨next, onward⟩ := List.isChain_cons.mp onward
    refine ⟨after ++ (between ++ [a]), ?_, by simp, ?_, fun b later => ?_⟩
    · rw [← List.cons_append, List.isChain_append]
      refine ⟨(List.isChain_append.mp chain).2.1, onward, fun x final y head => ?_⟩
      obtain rfl := Option.some.inj (last.symm.trans final)
      exact next y head
    · simp only [List.length_append, List.length_cons, List.length_nil]
      omega
    · simp only [List.mem_append, List.mem_cons, List.not_mem_nil, or_false] at later ⊢
      tauto

namespace Product

variable {State : Type} {p : Product State} {c : Component} {root : NodeId}
  {stem cycle walk : List NodeId}

structure Enters (p : Product State) (c : Component) (walk : List NodeId) : Prop where
  starts : ∃ v ∈ p.initial, walk.head? = some v
  edges : walk.IsChain p.digraph.Edge
  arrives : ∃ v ∈ c.nodes, walk.getLast? = some v

/-- The walk takes at least one edge, ends where it begins, passes through the root, and stays
inside the set. -/
structure Circles (p : Product State) (c : Component) (root : NodeId) (walk : List NodeId) :
    Prop where
  edges : walk.IsChain p.digraph.Edge
  closed : walk.head? = walk.getLast?
  long : 2 ≤ walk.length
  through : root ∈ walk
  inside : ∀ v ∈ walk, v ∈ c.nodes

theorem Loops.enters (loops : p.Loops c stem cycle) : p.Enters c stem := by
  obtain ⟨r, last, _, back⟩ := loops.joint
  have inside : r ∈ c.nodes := loops.inside r (List.mem_of_getLast? back)
  exact ⟨loops.starts, loops.stemEdges, r, inside, last⟩

theorem Loops.circles (loops : p.Loops c stem cycle) (last : stem.getLast? = some root) :
    p.Circles c root cycle := by
  obtain ⟨r, last', head, back⟩ := loops.joint
  obtain rfl := Option.some.inj (last.symm.trans last')
  exact ⟨loops.cycleEdges, head.trans back.symm, loops.long, List.mem_of_head? head, loops.inside⟩

/-- A walk from an initial node stays in the graph, also if it takes no edge. -/
theorem Enters.lt_size (valid : p.Valid) (enters : p.Enters c walk) {v : NodeId}
    (member : v ∈ walk) : v < p.size := by
  by_cases long : 2 ≤ walk.length
  · exact lt_size_of_isChain enters.edges long v member
  · obtain ⟨u, start, head⟩ := enters.starts
    obtain ⟨rest, rfl⟩ := List.head?_eq_some_iff.mp head
    obtain rfl : rest = [] := List.eq_nil_of_length_eq_zero (by
      rw [List.length_cons] at long
      omega)
    obtain rfl := List.mem_singleton.mp member
    obtain ⟨node, at_v, _⟩ := (valid.initial v).mp start
    exact Product.lt_size at_v

theorem stemTo_shortest (valid : p.Valid) (found : p.stemTo c = .ok stem)
    (enters : p.Enters c walk) : stem.length ≤ walk.length := by
  unfold stemTo at found
  split at found
  · contradiction
  · next path way =>
    obtain rfl := Except.ok.inj found
    obtain ⟨u, start, head⟩ := enters.starts
    obtain ⟨v, inside, last⟩ := enters.arrives
    refine Digraph.path?_shortest way ⟨⟨u, Array.mem_toList_iff.mpr start, head⟩, enters.edges,
      fun w member => ⟨?_, rfl⟩, v, last, by simpa [Component.contains] using inside⟩
    rw [size_digraph]
    exact enters.lt_size valid member

/-- Where no promise is pending, the cycle is a shortest way back to the root. -/
theorem cycleFrom_shortest (found : p.cycleFrom c root = .ok cycle)
    (fulfilled : ∀ promise < p.tableau.promises.length, p.fulfils root promise = true)
    (circles : p.Circles c root walk) : cycle.length ≤ walk.length := by
  have settled : (List.range p.tableau.promises.length).filter (!p.fulfils root ·) = [] := by
    rw [List.filter_eq_nil_iff]
    intro promise member
    simp [fulfilled promise (List.mem_range.mp member)]
  unfold cycleFrom at found
  dsimp only at found
  rw [settled, tour_nil] at found
  cases way : p.pathWithin? c (· == root) root with
  | none => simp [way] at found
  | some path =>
    obtain rfl : root :: path = cycle := by simpa [way] using found
    obtain ⟨rest, edges, last, length, inside⟩ :=
      exists_turned circles.edges circles.closed circles.long circles.through
    have bounded := lt_size_of_isChain edges (by
      rw [List.length_cons, length]
      exact circles.long)
    obtain ⟨v, rest, rfl⟩ := List.exists_cons_of_ne_nil (show rest ≠ [] by
      rintro rfl
      simp at last)
    obtain ⟨edge, edges⟩ := List.isChain_cons_cons.mp edges
    have shortest : path.length ≤ (v :: rest).length := by
      refine Digraph.path?_shortest way
        ⟨⟨v, edge, rfl⟩, edges, fun w member => ⟨?_, ?_⟩, root, last, by simp⟩
      · rw [size_digraph]
        exact bounded w (List.mem_cons_of_mem root member)
      · simpa [Component.contains] using circles.inside w (inside w member)
    rw [List.length_cons, ← length]
    omega

/-- A lasso that is taken in a product, however it was grown, through any set of numbers, has a stem
with the fewest states of all paths from an initial node to a node of the set. If the root at its
end fulfils every promise, the cycle has the fewest edges of all closed walks through the root
inside. -/
theorem lasso_shortest (t : Tableau) (calls : List (Call State)) (c : Component) (l : Lasso State) :
    let p := ({ tableau := t } : Product State).grow calls
    p.lasso c = .ok l → ∃ stem root cycle, p.stemTo c = .ok stem ∧ stem.getLast? = some root ∧
      p.cycleFrom c root = .ok cycle ∧
      List.Forall₂ (fun id s => p.stateOf? id = some s) stem l.stem ∧
      List.Forall₂ (fun id s => p.stateOf? id = some s) cycle l.cycle ∧
      (p.Enters c stem ∧ ∀ walk, p.Enters c walk → l.stem.length ≤ walk.length) ∧
      (p.Circles c root cycle ∧
        ((∀ promise < t.promises.length, p.fulfils root promise = true) →
          ∀ walk, p.Circles c root walk → l.cycle.length - 1 ≤ walk.length - 1)) := by
  intro p found
  have valid : p.Valid := valid_grow t calls
  have same : p.tableau = t := (built_grow (valid_empty t) calls).within.tableau
  obtain ⟨stem, root, cycle, way, last, around, stems, cycles⟩ := exists_parts found
  have loops := loops_of_found way last around
  refine ⟨stem, root, cycle, way, last, around, stems, cycles,
    ⟨loops.enters, fun walk enters => ?_⟩, loops.circles last, fun fulfilled walk circles => ?_⟩
  · rw [← stems.length_eq]
    exact stemTo_shortest valid way enters
  · rw [← same] at fulfilled
    have shortest := cycleFrom_shortest around fulfilled circles
    rw [← cycles.length_eq]
    omega

section Roads

open Monitor (anything)

def roads : Model Nat where
  fingerprint n := n.toUInt64
  initial := .ok [0]
  successors
    | 0 => .ok [1, 2]
    | 3 => .ok [4]
    | 4 => .ok [2, 3]
    | _ => .ok [3]
  holds _ _ _ := .ok true

/-- The stem takes the short way, and the cycle goes round once although there is a cycle in it that
is shorter but does not pass through the root. -/
theorem lasso_shortest_roads :
    let p := ({ tableau := anything } : Product Nat).grow [.extendInitial roads {} [⟨0, 0⟩],
      .extend roads {} 0 [⟨1, 1⟩, ⟨2, 2⟩], .extend roads {} 1 [⟨3, 3⟩], .extend roads {} 3 [⟨4, 4⟩],
      .extend roads {} 4 [⟨2, 2⟩, ⟨3, 3⟩], .extend roads {} 2 [⟨3, 3⟩]]
    let c := Component.ofList [2, 3, 4]
    p.lasso c = .ok ⟨[0, 2], [2, 3, 4, 2]⟩ ∧ p.Enters c [0, 1, 3] ∧
      (∀ walk, p.Enters c walk → 2 ≤ walk.length) ∧
      ∀ walk, p.Circles c 2 walk → 3 ≤ walk.length - 1 := by
  intro p c
  have found : p.lasso c = .ok ⟨[0, 2], [2, 3, 4, 2]⟩ := by decide +kernel
  obtain ⟨stem, root, cycle, way, last, _, _, _, ⟨_, stems⟩, _, cycles⟩ :=
    lasso_shortest anything _ c _ found
  obtain rfl : stem = [0, 2] := by
    have known : p.stemTo c = .ok [0, 2] := by decide +kernel
    exact Except.ok.inj (way.symm.trans known)
  obtain rfl : 2 = root := Option.some.inj last
  refine ⟨found, ⟨⟨0, by decide +kernel, rfl⟩, ?_, 3, by decide +kernel, rfl⟩, stems,
    cycles fun promise bound => ?_⟩
  · have edge (u v : NodeId) (listed : v ∈ p.successors u) : p.digraph.Edge u v :=
      (edge_iff (valid_grow anything _)).mpr listed
    have outward : p.digraph.Edge 0 1 := edge 0 1 (by decide +kernel)
    have onward : p.digraph.Edge 1 3 := edge 1 3 (by decide +kernel)
    exact .cons_cons outward (.cons_cons onward (.singleton 3))
  · simp [anything, Tableau.ofNodes] at bound

end Roads

end Product
end TemporalCheck
