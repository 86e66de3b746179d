import TemporalCheck.Proofs.Product.Invariant

/-! What the operations of a product add: a node, an edge, the flag of an initial node. -/
namespace TemporalCheck.Product

variable {State : Type} {p : Product State} {stored : Fingerprint → Option State}

theorem lt_size {id : NodeId} {a : Node} (at_id : p.nodes[id]? = some a) : id < p.size :=
  (Array.getElem?_eq_some_iff.mp at_id).1

section Add

variable {key : ProductKey} {state : State}

theorem getElem?_size (p : Product State) : p.nodes[p.size]? = none := Array.getElem?_eq_none le_rfl

@[simp] theorem size_add : (p.add key state).size = p.size + 1 := Array.size_push _

theorem getElem?_add (id : NodeId) : (p.add key state).nodes[id]? =
    if id = p.size then some { key := key } else p.nodes[id]? :=
  Array.getElem?_push

theorem find?_add (k : ProductKey) : (p.add key state).find? k =
    if k = key then some p.size else p.find? k := by
  unfold find? add
  simp only [Std.TreeMap.getElem?_insert, Std.LawfulEqCmp.compare_eq_iff_eq]
  by_cases same : key = k
  · simp [same]
  · simp [same, Ne.symm same]

theorem hasEdge_add {u w : NodeId} : (p.add key state).hasEdge u w = p.hasEdge u w := rfl

theorem nodesOn_add (fp : Fingerprint) : (p.add key state).nodesOn fp =
    if fp = key.fingerprint then p.nodesOn fp ++ [p.size] else p.nodesOn fp := by
  unfold nodesOn add
  simp only [Std.TreeMap.getD_insert, Std.LawfulEqCmp.compare_eq_iff_eq]
  by_cases same : key.fingerprint = fp
  · simp [same]
  · simp [same, Ne.symm same]

theorem state?_add (fp : Fingerprint) : (p.add key state).state? fp =
    if fp = key.fingerprint then some ((p.state? fp).getD state) else p.state? fp := by
  unfold state? add
  simp only [Std.TreeMap.getElem?_insertIfNew, Std.LawfulEqCmp.compare_eq_iff_eq]
  by_cases same : key.fingerprint = fp
  · subst same
    cases known : p.states[key.fingerprint]? with
    | none => simp [Std.TreeMap.mem_iff_isSome_getElem?, known]
    | some s => simp [Std.TreeMap.mem_iff_isSome_getElem?, known]
  · simp [same, Ne.symm same]

theorem lt_size_of_mem_nodesOn (valid : p.Valid) {fp : Fingerprint} {id : NodeId}
    (member : id ∈ p.nodesOn fp) : id < p.size := by
  obtain ⟨node, at_id, _⟩ := (valid.column fp id).mp member
  exact lt_size at_id

theorem valid_add (valid : p.Valid) (fresh : ¬p.HasKey key) : (p.add key state).Valid := by
  have fresh' {id : NodeId} {a : Node} (at_id : p.nodes[id]? = some a) : a.key ≠ key :=
    fun same => fresh ⟨id, a, at_id, same⟩
  constructor
  case indexed =>
    intro k id
    rw [find?_add, getElem?_add]
    by_cases new : k = key
    · subst new
      by_cases last : id = p.size
      · simp [last]
      · simp only [if_true, Option.some.injEq, if_neg last, Ne.symm last, false_iff]
        rintro ⟨a, at_id, same⟩
        exact fresh' at_id same
    · rw [if_neg new, valid.indexed]
      by_cases last : id = p.size
      · simp [last, getElem?_size, Ne.symm new]
      · simp [last]
  case edges =>
    intro u w
    rw [hasEdge_add, getElem?_add, valid.edges]
    by_cases last : u = p.size
    · simp [last, getElem?_size]
    · simp [last]
  case column =>
    intro fp id
    rw [nodesOn_add, getElem?_add]
    by_cases last : id = p.size
    · subst last
      have absent : p.size ∉ p.nodesOn fp := fun member =>
        Nat.lt_irrefl _ (lt_size_of_mem_nodesOn valid member)
      by_cases same : fp = key.fingerprint
      · simp [same]
      · simp [same, absent, eq_comm]
    · by_cases same : fp = key.fingerprint <;> simp [same, last, valid.column]
  case ascending =>
    intro fp
    rw [nodesOn_add]
    split
    · rw [List.pairwise_append]
      refine ⟨valid.ascending fp, by simp, ?_⟩
      intro id member last isLast
      rw [List.mem_singleton.mp isLast]
      exact lt_size_of_mem_nodesOn valid member
    · exact valid.ascending fp
  case stored =>
    intro fp
    rw [nodesOn_add, state?_add]
    split
    · simp
    · exact valid.stored fp
  case successors =>
    intro node member next successor
    rcases Array.mem_push.mp member with old | rfl
    · have bound := valid.successors node old next successor
      rw [size_add]
      exact Nat.lt_succ_of_lt bound
    · simp at successor
  case distinct =>
    intro node member
    rcases Array.mem_push.mp member with old | rfl
    · exact valid.distinct node old
    · simp
  case initial =>
    intro id
    rw [getElem?_add]
    have unchanged : (p.add key state).initial = p.initial := rfl
    rw [unchanged, valid.initial]
    by_cases last : id = p.size
    · simp [last, getElem?_size]
    · simp [last]
  case initialDistinct => exact valid.initialDistinct

theorem within_add : p.Within (p.add key state) := by
  refine ⟨rfl, ?_, ?_, ?_, List.prefix_rfl, .inr (Nat.lt_succ_self _)⟩
  · intro id a at_id
    refine ⟨a, ?_, .refl a⟩
    have bound := lt_size at_id
    rw [getElem?_add, if_neg (Nat.ne_of_lt bound), at_id]
  · intro fp s found
    rw [state?_add]
    split <;> simp [found]
  · intro fp
    rw [nodesOn_add]
    split
    · exact List.prefix_append _ _
    · exact List.prefix_rfl

/-- Adding a node for a key that has none adds just that key. -/
theorem change_add (valid : p.Valid) (filed : p.Filed stored) (fresh : ¬p.HasKey key)
    (given : stored key.fingerprint = some state) :
    Change stored p (p.add key state) {key} ∅ ∅ := by
  refine ⟨valid_add valid fresh, ?_, within_add, ?_, ?_, ?_⟩
  · intro fp s found
    rw [state?_add] at found
    split at found
    · next same =>
      subst same
      cases earlier : p.state? key.fingerprint with
      | none => simpa [earlier, given] using found
      | some s' =>
        rw [earlier] at found
        exact Option.some.inj found ▸ filed _ _ earlier
    · exact filed fp s found
  · intro k
    simp only [HasKey, getElem?_add, Set.mem_singleton_iff]
    constructor
    · rintro ⟨id, node, at_id, same⟩
      split at at_id
      · cases at_id
        exact .inr same.symm
      · exact .inl ⟨id, node, at_id, same⟩
    · rintro (⟨id, node, at_id, same⟩ | rfl)
      · refine ⟨id, node, ?_, same⟩
        split
        · next last => simp [last, getElem?_size] at at_id
        · exact at_id
      · exact ⟨p.size, { key := k }, by simp, rfl⟩
  · intro k k'
    simp only [HasKeyEdge, getElem?_add, Set.mem_empty_iff_false, or_false]
    constructor
    · rintro ⟨i, j, a, b, atI, same, edge, atJ, same'⟩
      split at atI
      · cases atI
        simp at edge
      · have bound := valid.successors a (Array.mem_of_getElem? atI) j edge
        rw [if_neg (Nat.ne_of_lt bound)] at atJ
        exact ⟨i, j, a, b, atI, same, edge, atJ, same'⟩
    · rintro ⟨i, j, a, b, atI, same, edge, atJ, same'⟩
      have boundI := lt_size atI
      have boundJ := lt_size atJ
      refine ⟨i, j, a, b, ?_, same, edge, ?_, same'⟩
      · rw [if_neg (Nat.ne_of_lt boundI), atI]
      · rw [if_neg (Nat.ne_of_lt boundJ), atJ]
  · intro k
    simp only [HasKeyStart, getElem?_add, Set.mem_empty_iff_false, or_false]
    constructor
    · rintro ⟨id, node, at_id, same, flagged⟩
      split at at_id
      · cases at_id
        simp at flagged
      · exact ⟨id, node, at_id, same, flagged⟩
    · rintro ⟨id, node, at_id, same, flagged⟩
      have bound := lt_size at_id
      refine ⟨id, node, ?_, same, flagged⟩
      rw [if_neg (Nat.ne_of_lt bound), at_id]

end Add

/-- Ensuring a key adds it unless it is there, and gives its node. -/
theorem ensure_spec (key : ProductKey) (valid : p.Valid) (filed : p.Filed stored) {state : State}
    (given : stored key.fingerprint = some state) :
    (∃ node, (p.ensure key state).2.2.nodes[(p.ensure key state).1]? = some node ∧
      node.key = key) ∧ Change stored p (p.ensure key state).2.2 {key} ∅ ∅ := by
  unfold ensure
  cases found : p.find? key with
  | some id =>
    obtain ⟨node, at_id, same⟩ := valid.indexed.mp found
    refine ⟨⟨node, at_id, same⟩, valid, filed, .refl p, ?_, by simp, by simp⟩
    intro k
    rw [Set.mem_singleton_iff, iff_self_or]
    rintro rfl
    exact ⟨id, node, at_id, same⟩
  | none =>
    have fresh := (find?_eq_none_iff valid).mp found
    exact ⟨⟨{ key := key }, by simp [getElem?_add], rfl⟩, change_add valid filed fresh given⟩

/-- `q` is `p` but for changes inside nodes that leave their keys alone. -/
structure Touched (p q : Product State) (f : NodeId → Node → Node) : Prop where
  nodes : ∀ id : NodeId, q.nodes[id]? = p.nodes[id]?.map (f id)
  key : ∀ id a, (f id a).key = a.key
  index : q.index = p.index
  columns : q.columns = p.columns
  states : q.states = p.states
  tableau : q.tableau = p.tableau

namespace Touched

variable {q : Product State} {f : NodeId → Node → Node}

theorem lookup (touched : Touched p q f) {id : NodeId} {b : Node} :
    q.nodes[id]? = some b ↔ ∃ a, p.nodes[id]? = some a ∧ f id a = b := by
  rw [touched.nodes, Option.map_eq_some_iff]

theorem size_eq (touched : Touched p q f) : q.size = p.size := by
  apply Nat.le_antisymm <;> by_contra bound
  · have := touched.nodes p.size
    rw [getElem?_size, Option.map_none, Array.getElem?_eq_none_iff] at this
    exact bound this
  · have := touched.nodes q.size
    rw [getElem?_size, eq_comm, Option.map_eq_none_iff, Array.getElem?_eq_none_iff] at this
    exact bound this

theorem find? (touched : Touched p q f) (key : ProductKey) : q.find? key = p.find? key := by
  simp [Product.find?, touched.index]

theorem nodesOn (touched : Touched p q f) (fp : Fingerprint) : q.nodesOn fp = p.nodesOn fp := by
  simp [Product.nodesOn, touched.columns]

theorem state? (touched : Touched p q f) (fp : Fingerprint) : q.state? fp = p.state? fp := by
  simp [Product.state?, touched.states]

theorem hasKey (touched : Touched p q f) (k : ProductKey) : q.HasKey k ↔ p.HasKey k := by
  constructor
  · rintro ⟨id, b, at_id, same⟩
    obtain ⟨a, old, rfl⟩ := touched.lookup.mp at_id
    exact ⟨id, a, old, (touched.key id a).symm.trans same⟩
  · rintro ⟨id, a, at_id, same⟩
    exact ⟨id, f id a, touched.lookup.mpr ⟨a, at_id, rfl⟩, (touched.key id a).trans same⟩

/-- What remains to be shown for a product to stay valid when nodes are changed inside. -/
theorem valid (touched : Touched p q f) (valid : p.Valid)
    (successors : ∀ (id : NodeId) (a : Node), p.nodes[id]? = some a →
      (∀ next ∈ (f id a).successors, next < p.size) ∧ (f id a).successors.toList.Nodup)
    (edges : ∀ u w : NodeId, q.hasEdge u w = true ↔
      ∃ a, p.nodes[u]? = some a ∧ w ∈ (f u a).successors)
    (initial : ∀ id : NodeId, id ∈ q.initial ↔
      ∃ a, p.nodes[id]? = some a ∧ (f id a).initial = true)
    (initialDistinct : q.initial.toList.Nodup) : q.Valid where
  indexed := by
    intro key id
    rw [touched.find?, valid.indexed]
    constructor
    · rintro ⟨a, at_id, same⟩
      exact ⟨f id a, touched.lookup.mpr ⟨a, at_id, rfl⟩, (touched.key id a).trans same⟩
    · rintro ⟨b, at_id, same⟩
      obtain ⟨a, old, rfl⟩ := touched.lookup.mp at_id
      exact ⟨a, old, (touched.key id a).symm.trans same⟩
  edges := by
    intro u w
    rw [edges]
    constructor
    · rintro ⟨a, at_u, edge⟩
      exact ⟨f u a, touched.lookup.mpr ⟨a, at_u, rfl⟩, edge⟩
    · rintro ⟨b, at_u, edge⟩
      obtain ⟨a, old, rfl⟩ := touched.lookup.mp at_u
      exact ⟨a, old, edge⟩
  column := by
    intro fp id
    rw [touched.nodesOn, valid.column]
    constructor
    · rintro ⟨a, at_id, same⟩
      exact ⟨f id a, touched.lookup.mpr ⟨a, at_id, rfl⟩, (touched.key id a).symm ▸ same⟩
    · rintro ⟨b, at_id, same⟩
      obtain ⟨a, old, rfl⟩ := touched.lookup.mp at_id
      exact ⟨a, old, touched.key id a ▸ same⟩
  ascending := fun fp => touched.nodesOn fp ▸ valid.ascending fp
  stored := by simpa only [touched.nodesOn, touched.state?] using valid.stored
  successors := by
    intro b member
    obtain ⟨id, bound, at_id⟩ := Array.mem_iff_getElem.mp member
    obtain ⟨a, old, rfl⟩ := touched.lookup.mp (at_id ▸ Array.getElem?_eq_getElem bound)
    rw [touched.size_eq]
    exact (successors id a old).1
  distinct := by
    intro b member
    obtain ⟨id, bound, at_id⟩ := Array.mem_iff_getElem.mp member
    obtain ⟨a, old, rfl⟩ := touched.lookup.mp (at_id ▸ Array.getElem?_eq_getElem bound)
    exact (successors id a old).2
  initial := by
    intro id
    rw [initial]
    constructor
    · rintro ⟨a, at_id, flagged⟩
      exact ⟨f id a, touched.lookup.mpr ⟨a, at_id, rfl⟩, flagged⟩
    · rintro ⟨b, at_id, flagged⟩
      obtain ⟨a, old, rfl⟩ := touched.lookup.mp at_id
      exact ⟨a, old, flagged⟩
  initialDistinct := initialDistinct

theorem filed (touched : Touched p q f) (filed : p.Filed stored) : q.Filed stored := by
  intro fp s found
  rw [touched.state?] at found
  exact filed fp s found

/-- What remains to be shown for a product to be later than another when nodes change inside. -/
theorem within (touched : Touched p q f)
    (later : ∀ (id : NodeId) (a : Node), p.nodes[id]? = some a →
      a.successors.toList <+: (f id a).successors.toList ∧
        (a.initial = true → (f id a).initial = true))
    (initial : p.initial.toList <+: q.initial.toList)
    (generation : p = q ∨ p.generation < q.generation) : p.Within q where
  tableau := touched.tableau
  nodes := by
    intro id a at_id
    obtain ⟨successors, flagged⟩ := later id a at_id
    exact ⟨f id a, touched.lookup.mpr ⟨a, at_id, rfl⟩, touched.key id a, successors, flagged⟩
  states := fun fp s found => (touched.state? fp).trans found
  columns := fun fp => by rw [touched.nodesOn]
  initial := initial
  generation := generation

theorem hasKeyEdge (touched : Touched p q f) (k k' : ProductKey) : q.HasKeyEdge k k' ↔
    ∃ (i j : NodeId) (a b : Node), p.nodes[i]? = some a ∧ a.key = k ∧
      j ∈ (f i a).successors ∧ p.nodes[j]? = some b ∧ b.key = k' := by
  constructor
  · rintro ⟨i, j, a, b, atI, rfl, edge, atJ, rfl⟩
    obtain ⟨a, oldI, rfl⟩ := touched.lookup.mp atI
    obtain ⟨b, oldJ, rfl⟩ := touched.lookup.mp atJ
    exact ⟨i, j, a, b, oldI, (touched.key i a).symm, edge, oldJ, (touched.key j b).symm⟩
  · rintro ⟨i, j, a, b, atI, rfl, edge, atJ, rfl⟩
    exact ⟨i, j, f i a, f j b, touched.lookup.mpr ⟨a, atI, rfl⟩, touched.key i a, edge,
      touched.lookup.mpr ⟨b, atJ, rfl⟩, touched.key j b⟩

theorem hasKeyStart (touched : Touched p q f) (k : ProductKey) : q.HasKeyStart k ↔
    ∃ (id : NodeId) (a : Node), p.nodes[id]? = some a ∧ a.key = k ∧
      (f id a).initial = true := by
  constructor
  · rintro ⟨id, a, at_id, rfl, flagged⟩
    obtain ⟨a, old, rfl⟩ := touched.lookup.mp at_id
    exact ⟨id, a, old, (touched.key id a).symm, flagged⟩
  · rintro ⟨id, a, at_id, rfl, flagged⟩
    exact ⟨id, f id a, touched.lookup.mpr ⟨a, at_id, rfl⟩, touched.key id a, flagged⟩

end Touched

section AddEdge

variable {source target : NodeId}

theorem addEdge_of_present (present : p.hasEdge source target) :
    p.addEdge source target = p := if_pos present

theorem touched_addEdge (fresh : ¬p.hasEdge source target) :
    Touched p (p.addEdge source target) fun id node =>
      if source = id then { node with successors := node.successors.push target } else node := by
  unfold addEdge
  rw [if_neg fresh]
  refine ⟨fun id => ?_, fun id a => ?_, rfl, rfl, rfl, rfl⟩
  · simp only [Array.getElem?_modify]
    split <;> simp
  · split <;> rfl

theorem hasEdge_addEdge {u w : NodeId} : (p.addEdge source target).hasEdge u w = true ↔
    p.hasEdge u w = true ∨ u = source ∧ w = target := by
  by_cases present : p.hasEdge source target
  · rw [addEdge_of_present present, iff_self_or]
    rintro ⟨rfl, rfl⟩
    exact present
  · rw [addEdge, if_neg present]
    simp only [hasEdge, Std.TreeSet.contains_insert, Bool.or_eq_true, beq_iff_eq,
      Std.LawfulEqCmp.compare_eq_iff_eq, Edge.mk.injEq]
    rw [or_comm, @eq_comm _ source, @eq_comm _ target]

theorem initial_addEdge : (p.addEdge source target).initial = p.initial := by
  unfold addEdge
  split <;> rfl

theorem valid_addEdge (valid : p.Valid) (fresh : ¬p.hasEdge source target)
    (within : source < p.size) (bound : target < p.size) : (p.addEdge source target).Valid := by
  have touched := touched_addEdge fresh
  refine touched.valid valid ?_ ?_ ?_ (by rw [initial_addEdge]; exact valid.initialDistinct)
  · intro id node at_id
    have old := valid.successors node (Array.mem_of_getElem? at_id)
    have distinct := valid.distinct node (Array.mem_of_getElem? at_id)
    split
    · next here =>
      subst here
      constructor
      · intro next successor
        rcases Array.mem_push.mp successor with earlier | rfl
        · exact old next earlier
        · exact bound
      · have absent : target ∉ node.successors := fun member =>
          fresh (valid.edges.mpr ⟨node, at_id, member⟩)
        rw [Array.toList_push, ← List.concat_eq_append]
        exact distinct.concat (by simpa using absent)
    · exact ⟨old, distinct⟩
  · intro u w
    rw [hasEdge_addEdge, valid.edges]
    by_cases here : source = u
    · subst here
      simp only [if_true, true_and, Array.mem_push]
      constructor
      · rintro (⟨a, at_u, edge⟩ | rfl)
        · exact ⟨a, at_u, .inl edge⟩
        · exact ⟨p.nodes[source], Array.getElem?_eq_getElem within, .inr rfl⟩
      · rintro ⟨a, at_u, edge | rfl⟩
        · exact .inl ⟨a, at_u, edge⟩
        · exact .inr rfl
    · simp [here, Ne.symm here]
  · intro id
    rw [initial_addEdge, valid.initial]
    refine exists_congr fun node => and_congr_right fun _ => ?_
    split <;> rfl

theorem within_addEdge (fresh : ¬p.hasEdge source target) :
    p.Within (p.addEdge source target) := by
  refine (touched_addEdge fresh).within ?_ (by rw [initial_addEdge])
    (.inr (by simp [addEdge, fresh]))
  intro id node _
  split
  · rw [Array.toList_push]
    exact ⟨List.prefix_append _ _, fun flagged => flagged⟩
  · exact ⟨List.prefix_rfl, fun flagged => flagged⟩

/-- Adding an edge between two nodes adds just the edge between their keys. -/
theorem change_addEdge (valid : p.Valid) (filed : p.Filed stored) {a b : Node}
    (atSource : p.nodes[source]? = some a) (atTarget : p.nodes[target]? = some b) :
    Change stored p (p.addEdge source target) ∅ {(a.key, b.key)} ∅ := by
  by_cases present : p.hasEdge source target
  · obtain ⟨a', atSource', edge⟩ := valid.edges.mp present
    obtain rfl := Option.some.inj (atSource.symm.trans atSource')
    rw [addEdge_of_present present]
    refine ⟨valid, filed, .refl p, by simp, fun k k' => ?_, by simp⟩
    rw [Set.mem_singleton_iff, iff_self_or]
    rintro same
    obtain ⟨rfl, rfl⟩ := Prod.mk.inj same
    exact ⟨source, target, a, b, atSource, rfl, edge, atTarget, rfl⟩
  have touched := touched_addEdge present
  refine ⟨valid_addEdge valid present (lt_size atSource) (lt_size atTarget), touched.filed filed,
    within_addEdge present, by simp [touched.hasKey], fun k k' => ?_, fun k => ?_⟩
  · rw [touched.hasKeyEdge]
    constructor
    · rintro ⟨i, j, x, y, atI, rfl, edge, atJ, rfl⟩
      split at edge
      · next here =>
        subst here
        obtain rfl := Option.some.inj (atSource.symm.trans atI)
        rcases Array.mem_push.mp edge with earlier | rfl
        · exact .inl ⟨source, j, a, y, atI, rfl, earlier, atJ, rfl⟩
        · obtain rfl := Option.some.inj (atTarget.symm.trans atJ)
          exact .inr rfl
      · exact .inl ⟨i, j, x, y, atI, rfl, edge, atJ, rfl⟩
    · rintro (⟨i, j, x, y, atI, rfl, edge, atJ, rfl⟩ | same)
      · refine ⟨i, j, x, y, atI, rfl, ?_, atJ, rfl⟩
        split
        · exact Array.mem_push.mpr (.inl edge)
        · exact edge
      · obtain ⟨rfl, rfl⟩ := Prod.mk.inj same
        exact ⟨source, target, a, b, atSource, rfl, by simp, atTarget, rfl⟩
  · simp only [touched.hasKeyStart, Set.mem_empty_iff_false, or_false]
    refine exists_congr fun id => exists_congr fun node => ?_
    split <;> rfl

end AddEdge

section MarkInitial

variable {id : NodeId} {a : Node}

theorem markInitial_of_missing (missing : p.nodes[id]? = none) : p.markInitial id = p := by
  unfold markInitial
  rw [missing]

theorem touched_markInitial (at_id : p.nodes[id]? = some a) :
    Touched p (p.markInitial id) fun j node =>
      if id = j then { node with initial := true } else node := by
  unfold markInitial
  rw [at_id]
  dsimp only
  split
  · next flagged =>
    refine ⟨fun j => ?_, fun j b => ?_, rfl, rfl, rfl, rfl⟩
    · by_cases here : id = j
      · subst here
        cases a
        simp_all
      · simp [here]
    · split <;> rfl
  · refine ⟨fun j => ?_, fun j b => ?_, rfl, rfl, rfl, rfl⟩
    · simp only [Array.getElem?_modify]
      split <;> simp
    · split <;> rfl

theorem hasEdge_markInitial {u w : NodeId} : (p.markInitial id).hasEdge u w = p.hasEdge u w := by
  unfold markInitial
  split
  · rfl
  · split <;> rfl

theorem initial_markInitial (at_id : p.nodes[id]? = some a) :
    (p.markInitial id).initial = if a.initial then p.initial else p.initial.push id := by
  unfold markInitial
  rw [at_id]
  dsimp only
  split <;> rfl

theorem mem_initial_iff (valid : p.Valid) (at_id : p.nodes[id]? = some a) :
    id ∈ p.initial ↔ a.initial = true := by
  rw [valid.initial]
  constructor
  · rintro ⟨b, at_b, flagged⟩
    obtain rfl := Option.some.inj (at_b.symm.trans at_id)
    exact flagged
  · exact fun flagged => ⟨a, at_id, flagged⟩

theorem mem_initial_markInitial (valid : p.Valid) (at_id : p.nodes[id]? = some a) (j : NodeId) :
    j ∈ (p.markInitial id).initial ↔ j ∈ p.initial ∨ j = id := by
  rw [initial_markInitial at_id]
  split
  · next flagged =>
    rw [iff_self_or]
    rintro rfl
    exact (mem_initial_iff valid at_id).mpr flagged
  · simp

theorem valid_markInitial (valid : p.Valid) (at_id : p.nodes[id]? = some a) :
    (p.markInitial id).Valid := by
  have unchanged (j : NodeId) (node : Node) :
      (if id = j then { node with initial := true } else node).successors = node.successors := by
    split <;> rfl
  refine (touched_markInitial at_id).valid valid ?_ ?_ ?_ ?_
  · intro j node at_j
    have member := Array.mem_of_getElem? at_j
    rw [unchanged]
    exact ⟨valid.successors node member, valid.distinct node member⟩
  · simp only [unchanged, hasEdge_markInitial, valid.edges, implies_true]
  · intro j
    rw [mem_initial_markInitial valid at_id, valid.initial]
    constructor
    · rintro (⟨node, at_j, flagged⟩ | rfl)
      · exact ⟨node, at_j, by split <;> simp [flagged]⟩
      · exact ⟨a, at_id, by simp⟩
    · rintro ⟨node, at_j, flagged⟩
      split at flagged
      · next here => exact .inr here.symm
      · exact .inl ⟨node, at_j, flagged⟩
  · rw [initial_markInitial at_id]
    split
    · exact valid.initialDistinct
    · next fresh =>
      rw [Array.toList_push, ← List.concat_eq_append]
      refine valid.initialDistinct.concat ?_
      rw [Array.mem_toList_iff, mem_initial_iff valid at_id]
      exact fresh

theorem within_markInitial (at_id : p.nodes[id]? = some a) : p.Within (p.markInitial id) := by
  refine (touched_markInitial at_id).within ?_ ?_ ?_
  · intro j node _
    split
    · exact ⟨List.prefix_rfl, fun _ => rfl⟩
    · exact ⟨List.prefix_rfl, fun flagged => flagged⟩
  · rw [initial_markInitial at_id]
    split
    · exact List.prefix_rfl
    · rw [Array.toList_push]
      exact List.prefix_append _ _
  · unfold markInitial
    rw [at_id]
    dsimp only
    split
    · exact .inl rfl
    · exact .inr (Nat.lt_succ_self _)

/-- Marking a node as initial adds just the start at its key. -/
theorem change_markInitial (valid : p.Valid) (filed : p.Filed stored)
    (at_id : p.nodes[id]? = some a) :
    Change stored p (p.markInitial id) ∅ ∅ {a.key} := by
  have touched := touched_markInitial at_id
  refine ⟨valid_markInitial valid at_id, touched.filed filed, within_markInitial at_id,
    by simp [touched.hasKey], fun k k' => ?_, fun k => ?_⟩
  · simp only [touched.hasKeyEdge, Set.mem_empty_iff_false, or_false]
    refine exists_congr fun i => exists_congr fun j => exists_congr fun x => ?_
    split <;> rfl
  · rw [touched.hasKeyStart, Set.mem_singleton_iff]
    constructor
    · rintro ⟨j, x, at_j, rfl, flagged⟩
      split at flagged
      · next here =>
        subst here
        exact .inr (congrArg Node.key (Option.some.inj (at_j.symm.trans at_id)))
      · exact .inl ⟨j, x, at_j, rfl, flagged⟩
    · rintro (⟨j, x, at_j, rfl, flagged⟩ | rfl)
      · exact ⟨j, x, at_j, rfl, by split <;> simp [flagged]⟩
      · exact ⟨id, a, at_id, rfl, by simp⟩

end MarkInitial

/-- Beginning a behaviour adds the key and the start there. -/
theorem change_begin (valid : p.Valid) (filed : p.Filed stored) {k : Keyed State}
    (given : stored k.fingerprint = some k.state) (t : TableauId) :
    Change stored p (p.begin k t).2 {⟨k.fingerprint, t⟩} ∅ {⟨k.fingerprint, t⟩} := by
  obtain ⟨⟨node, at_id, same⟩, ensured⟩ :=
    ensure_spec ⟨k.fingerprint, t⟩ valid filed given
  have marked := change_markInitial ensured.valid ensured.filed at_id
  rw [same] at marked
  simpa [begin] using ensured.trans marked

/-- Linking a node with a target adds the key of the target and the edge to it. -/
theorem change_link (valid : p.Valid) (filed : p.Filed stored) {source : NodeId} {a : Node}
    (atSource : p.nodes[source]? = some a) {target : Keyed State × TableauId}
    (given : stored target.1.fingerprint = some target.1.state) :
    Change stored p (link source p target).2 {⟨target.1.fingerprint, target.2⟩}
      {(a.key, ⟨target.1.fingerprint, target.2⟩)} ∅ := by
  obtain ⟨⟨node, at_id, same⟩, ensured⟩ :=
    ensure_spec ⟨target.1.fingerprint, target.2⟩ valid filed given
  obtain ⟨b, atSource', later⟩ := ensured.within.nodes source a atSource
  have linked := change_addEdge ensured.valid ensured.filed atSource' at_id
  rw [same, later.key] at linked
  simpa [link] using ensured.trans linked

end TemporalCheck.Product
