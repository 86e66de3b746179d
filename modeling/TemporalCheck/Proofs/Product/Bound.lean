import TemporalCheck.Proofs.Product.Invariant

/-! How large a product can be. No two nodes have the same key, so that there is room for as many
as there are pairs of a fingerprint and a node of the tableau. -/
namespace TemporalCheck.Product

variable {State : Type} {p : Product State}

def Bounded (p : Product State) : Prop := ∀ k, p.HasKey k → k.tableau < p.tableau.size

theorem bounded_empty (t : Tableau) : ({ tableau := t } : Product State).Bounded := by
  simp [Bounded, HasKey]

theorem exists_state (valid : p.Valid) {k : ProductKey} (has : p.HasKey k) :
    ∃ s, p.state? k.fingerprint = some s := by
  obtain ⟨id, node, at_id, rfl⟩ := has
  exact (valid.stored _).mpr ⟨id, (valid.column _ id).mpr ⟨node, at_id, rfl⟩⟩

theorem mem_keys_states {fp : Fingerprint} {s : State} (stored : p.state? fp = some s) :
    fp ∈ p.states.keys := by
  unfold state? at stored
  rw [Std.TreeMap.mem_keys, Std.TreeMap.mem_iff_isSome_getElem?, stored, Option.isSome_some]

theorem nodup_keys (valid : p.Valid) : (p.nodes.toList.map (·.key)).Nodup := by
  rw [List.nodup_iff_injective_get]
  intro i j same
  have boundI : i.val < p.nodes.size := by simpa using i.isLt
  have boundJ : j.val < p.nodes.size := by simpa using j.isLt
  apply Fin.ext
  have at_i := Array.getElem?_eq_getElem boundI
  have at_j := Array.getElem?_eq_getElem boundJ
  exact valid.unique i j _ _ at_i at_j (by simpa using same)

/-- The key of a node on a fingerprint. -/
theorem exists_key (valid : p.Valid) {fp : Fingerprint} {id : NodeId} (member : id ∈ p.nodesOn fp) :
    ∃ t, p.tableauOf? id = some t ∧ p.HasKey ⟨fp, t⟩ ∧ p.find? ⟨fp, t⟩ = some id := by
  obtain ⟨node, at_id, rfl⟩ := (valid.column fp id).mp member
  exact ⟨node.key.tableau, by simp [tableauOf?, at_id], ⟨id, node, at_id, rfl⟩,
    valid.indexed.mpr ⟨node, at_id, rfl⟩⟩

/-- On one fingerprint there is at most one node for each tableau node. -/
theorem Bounded.length_nodesOn_le (bounded : p.Bounded) (valid : p.Valid) (fp : Fingerprint) :
    (p.nodesOn fp).length ≤ p.tableau.size := by
  have distinct : ((p.nodesOn fp).map fun id => (p.tableauOf? id).getD 0).Nodup := by
    refine List.Nodup.map_on ?_ ((valid.ascending fp).imp Nat.ne_of_lt)
    intro i memberI j memberJ same
    obtain ⟨t, tableauI, -, foundI⟩ := exists_key valid memberI
    obtain ⟨u, tableauJ, -, foundJ⟩ := exists_key valid memberJ
    obtain rfl : t = u := by simpa [tableauI, tableauJ] using same
    exact Option.some.inj (foundI.symm.trans foundJ)
  have inside : ((p.nodesOn fp).map fun id => (p.tableauOf? id).getD 0) ⊆
      List.range p.tableau.size := by
    intro t listed
    obtain ⟨id, member, rfl⟩ := List.mem_map.mp listed
    obtain ⟨u, tableau, has, -⟩ := exists_key valid member
    rw [tableau]
    exact List.mem_range.mpr (bounded _ has)
  simpa using (List.subperm_of_subset distinct inside).length_le

/-- There are at most as many nodes as fingerprints times tableau nodes. -/
theorem Bounded.size_le (bounded : p.Bounded) (valid : p.Valid) {fps : List Fingerprint}
    (listed : ∀ k, p.HasKey k → k.fingerprint ∈ fps) : p.size ≤ fps.length * p.tableau.size := by
  have distinct :
      (p.nodes.toList.map fun node => (node.key.fingerprint, node.key.tableau)).Nodup := by
    have pairs : Function.Injective fun k : ProductKey => (k.fingerprint, k.tableau) := by
      rintro ⟨_, _⟩ ⟨_, _⟩ same
      simpa using same
    have mapped := (nodup_keys valid).map pairs
    rwa [List.map_map] at mapped
  have inside : (p.nodes.toList.map fun node => (node.key.fingerprint, node.key.tableau)) ⊆
      fps ×ˢ List.range p.tableau.size := by
    intro pair member
    obtain ⟨node, here, rfl⟩ := List.mem_map.mp member
    obtain ⟨id, at_id⟩ := Array.mem_iff_getElem?.mp (Array.mem_toList_iff.mp here)
    have has : p.HasKey node.key := ⟨id, node, at_id, rfl⟩
    exact List.pair_mem_product.mpr ⟨listed _ has, List.mem_range.mpr (bounded _ has)⟩
  simpa [size, List.length_product] using (List.subperm_of_subset distinct inside).length_le

/-- There are at most as many nodes as fingerprints with a state times tableau nodes. -/
theorem Bounded.size_le_states (bounded : p.Bounded) (valid : p.Valid) :
    p.size ≤ p.states.size * p.tableau.size := by
  rw [← Std.TreeMap.length_keys]
  refine bounded.size_le valid fun k has => ?_
  obtain ⟨s, stored⟩ := exists_state valid has
  exact mem_keys_states stored

end TemporalCheck.Product
