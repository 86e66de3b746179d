import TemporalCheck.Proofs.Product.Operations

/-! What a product counts. Its generation is the number of its nodes, edges and initial nodes, so
that it tells whether anything has been added. -/
namespace TemporalCheck.Product

variable {State : Type} {p q : Product State}

section Edges

theorem lt_size_of_mem_successors {u w : NodeId} (edge : w ∈ p.successors u) : u < p.size := by
  by_contra out
  have missing : p.nodes[u]? = none := Array.getElem?_eq_none (Nat.not_lt.mp out)
  simp [successors, missing] at edge

theorem mem_successors_iff {u w : NodeId} :
    w ∈ p.successors u ↔ ∃ node, p.nodes[u]? = some node ∧ w ∈ node.successors := by
  unfold successors
  cases p.nodes[u]? <;> simp

theorem hasEdge_iff (valid : p.Valid) {u w : NodeId} :
    p.hasEdge u w = true ↔ w ∈ p.successors u :=
  valid.edges.trans mem_successors_iff.symm

theorem nodup_successors (valid : p.Valid) (u : NodeId) : (p.successors u).Nodup := by
  unfold successors
  split
  · next node at_u => exact valid.distinct node (Array.mem_of_getElem? at_u)
  · exact List.nodup_nil

theorem lt_size_of_edge (valid : p.Valid) {u w : NodeId} (edge : w ∈ p.successors u) :
    w < p.size := by
  obtain ⟨node, at_u, edge⟩ := mem_successors_iff.mp edge
  exact valid.successors node (Array.mem_of_getElem? at_u) w edge

def listedEdges (p : Product State) : List Edge :=
  (List.range p.size).flatMap fun u => (p.successors u).map (⟨u, ·⟩)

theorem mem_listedEdges {u w : NodeId} : ⟨u, w⟩ ∈ p.listedEdges ↔ w ∈ p.successors u := by
  simp only [listedEdges, List.mem_flatMap, List.mem_range, List.mem_map, Edge.mk.injEq]
  constructor
  · rintro ⟨_, _, _, edge, rfl, rfl⟩
    exact edge
  · intro edge
    exact ⟨u, lt_size_of_mem_successors edge, w, edge, rfl, rfl⟩

theorem nodup_listedEdges (valid : p.Valid) : p.listedEdges.Nodup := by
  refine List.nodup_flatMap.mpr ⟨fun u _ => ?_, ?_⟩
  · exact (nodup_successors valid u).map fun _ _ same => (Edge.mk.inj same).2
  · refine List.nodup_range.imp fun apart e here there => ?_
    obtain ⟨_, _, rfl⟩ := List.mem_map.mp here
    obtain ⟨_, _, same⟩ := List.mem_map.mp there
    exact apart (Edge.mk.inj same).1.symm

/-- The lengths of the lists add up to the number of edges, since none is listed twice. -/
theorem edgeCount_eq_sum (valid : p.Valid) :
    p.edgeCount = ((List.range p.size).map fun u => (p.successors u).length).sum := by
  have distinct : p.edges.toList.Nodup :=
    p.edges.distinct_toList.imp fun apart same => apart (Std.compare_eq_iff_eq.mpr same)
  have listed : p.edges.toList.Perm p.listedEdges := by
    refine (List.perm_ext_iff_of_nodup distinct (nodup_listedEdges valid)).mpr fun ⟨u, w⟩ => ?_
    rw [mem_listedEdges, ← hasEdge_iff valid, hasEdge, Std.TreeSet.mem_toList,
      Std.TreeSet.contains_iff_mem]
  rw [edgeCount, ← Std.TreeSet.length_toList, listed.length_eq, listedEdges, List.length_flatMap]
  simp only [List.length_map]

def Counted (p : Product State) : Prop := p.generation = p.size + p.edgeCount + p.initial.size

end Edges

section Add

variable {key : ProductKey} {state : State}

theorem successors_add : (p.add key state).successors = p.successors := by
  funext u
  unfold successors
  rw [getElem?_add]
  by_cases last : u = p.size
  · have missing : p.nodes[u]? = none := Array.getElem?_eq_none (Nat.le_of_eq last.symm)
    rw [if_pos last, missing]
  · rw [if_neg last]

theorem counted_add (counted : p.Counted) : (p.add key state).Counted := by
  have generation : (p.add key state).generation = p.generation + 1 := rfl
  have edgeCount : (p.add key state).edgeCount = p.edgeCount := rfl
  have initial : (p.add key state).initial = p.initial := rfl
  unfold Counted at counted ⊢
  rw [edgeCount, size_add, generation, initial, counted]
  omega

end Add

section Touched

variable {f : NodeId → Node → Node} {source target id : NodeId}

theorem Touched.successors (touched : Touched p q f) (u : NodeId) : q.successors u =
    match p.nodes[u]? with
    | some a => (f u a).successors.toList
    | none => [] := by
  unfold Product.successors
  rw [touched.nodes]
  cases p.nodes[u]? <;> rfl

theorem mem_successors_addEdge (valid : p.Valid) (bound : source < p.size) {u w : NodeId} :
    w ∈ (p.addEdge source target).successors u ↔ w ∈ p.successors u ∨ u = source ∧ w = target := by
  by_cases present : p.hasEdge source target
  · rw [addEdge_of_present present, iff_self_or]
    rintro ⟨rfl, rfl⟩
    exact (hasEdge_iff valid).mp present
  · rw [(touched_addEdge present).successors u]
    by_cases here : source = u
    · subst here
      simp [Product.successors, Array.getElem?_eq_getElem (show source < p.nodes.size from bound)]
    · have other : ¬(u = source ∧ w = target) := fun both => here both.1.symm
      rw [or_iff_left other, Product.successors]
      cases p.nodes[u]? with
      | none => rfl
      | some a => simp only [if_neg here]

theorem successors_markInitial : (p.markInitial id).successors = p.successors := by
  cases at_id : p.nodes[id]? with
  | none => rw [markInitial_of_missing at_id]
  | some a =>
    funext u
    rw [(touched_markInitial at_id).successors u]
    unfold Product.successors
    cases p.nodes[u]? with
    | none => rfl
    | some b =>
      dsimp only
      split <;> rfl

theorem counted_addEdge (counted : p.Counted) : (p.addEdge source target).Counted := by
  by_cases present : p.hasEdge source target
  · rwa [addEdge_of_present present]
  · have edgeCount : (p.addEdge source target).edgeCount = p.edgeCount + 1 := by
      rw [addEdge, if_neg present, Product.edgeCount]
      exact Std.TreeSet.size_insert.trans (if_neg present)
    have generation : (p.addEdge source target).generation = p.generation + 1 := by
      simp [addEdge, present]
    unfold Counted at counted ⊢
    rw [edgeCount, (touched_addEdge present).size_eq, initial_addEdge, generation, counted]
    omega

theorem counted_markInitial (counted : p.Counted) : (p.markInitial id).Counted := by
  cases at_id : p.nodes[id]? with
  | none => rwa [markInitial_of_missing at_id]
  | some a =>
    have edgeCount : (p.markInitial id).edgeCount = p.edgeCount := by
      unfold markInitial
      rw [at_id]
      dsimp only
      split <;> rfl
    have generation : (p.markInitial id).generation =
        if a.initial then p.generation else p.generation + 1 := by
      unfold markInitial
      rw [at_id]
      dsimp only
      split <;> rfl
    unfold Counted at counted ⊢
    rw [edgeCount, (touched_markInitial at_id).size_eq, initial_markInitial at_id, generation,
      counted]
    split
    · rfl
    · rw [Array.size_push]
      omega

end Touched

end TemporalCheck.Product
