import TemporalCheck.Proofs.Product.Count

/-! Placing a state together with a tableau node in a product, where behaviours start or behind a
node. The placements made so far determine what the lists of the product hold. -/
namespace TemporalCheck.Product

variable {State : Type} {p q : Product State}

section Ensure

variable {key : ProductKey} {state : State} {id : NodeId}

structure Ensured (p q : Product State) (key : ProductKey) (state : State) (id : NodeId) :
    Prop where
  valid : q.Valid
  within : p.Within q
  found : q.find? key = some id
  successors : q.successors = p.successors
  initial : q.initial = p.initial
  state? : ∀ fp, q.state? fp =
    if fp = key.fingerprint then some ((p.state? fp).getD state) else p.state? fp
  first : p.nodesOn key.fingerprint = [] → q.nodesOn key.fingerprint = [id]
  counted : p.Counted → q.Counted

theorem ensured (valid : p.Valid) (key : ProductKey) (state : State) :
    Ensured p (p.ensure key state).2.2 key state (p.ensure key state).1 := by
  unfold ensure
  cases found : p.find? key with
  | some id =>
    obtain ⟨node, at_id, same⟩ := valid.indexed.mp found
    have here : id ∈ p.nodesOn key.fingerprint :=
      (valid.column _ id).mpr ⟨node, at_id, same ▸ rfl⟩
    obtain ⟨s, stored⟩ := (valid.stored key.fingerprint).mpr ⟨id, here⟩
    refine ⟨valid, .refl p, found, rfl, rfl, fun fp => ?_, fun none => ?_, fun counted => counted⟩
    · by_cases same : fp = key.fingerprint
      · rw [if_pos same, same, stored, Option.getD_some]
      · rw [if_neg same]
    · rw [none] at here
      simp at here
  | none =>
    have grown := @valid_add _ p key state valid ((find?_eq_none_iff valid).mp found)
    refine ⟨grown, within_add, ?_, successors_add, rfl, state?_add, fun none => ?_, counted_add⟩
    · exact grown.indexed.mpr ⟨{ key := key }, by simp [getElem?_add], rfl⟩
    · rw [nodesOn_add, if_pos rfl, none, List.nil_append]

end Ensure

section Place

/-- One entry into a product: a state together with a tableau node, where behaviours start or which
follows the source. -/
structure Placement (State : Type) where
  source : Option NodeId
  target : Keyed State × TableauId

namespace Placement

def key (x : Placement State) : ProductKey := ⟨x.target.1.fingerprint, x.target.2⟩

def state (x : Placement State) : State := x.target.1.state

end Placement

def place (p : Product State) (x : Placement State) : Product State :=
  match x.source with
  | none => (p.begin x.target.1 x.target.2).2
  | some id => (link id p x.target).2

theorem place_eq (p : Product State) (x : Placement State) : p.place x =
    match x.source with
    | none => (p.ensure x.key x.state).2.2.markInitial (p.ensure x.key x.state).1
    | some u => (p.ensure x.key x.state).2.2.addEdge u (p.ensure x.key x.state).1 := rfl

/-- Linking a node with targets is placing them behind it. -/
theorem linkAll_eq (source : NodeId) (targets : List (Keyed State × TableauId)) :
    (p.linkAll source targets).2 =
      (targets.map (⟨some source, ·⟩ : _ → Placement State)).foldl place p := by
  induction targets generalizing p with
  | nil => rfl
  | cons target rest ih => exact ih

structure Placed (p q : Product State) (x : Placement State) (id : NodeId) : Prop where
  valid : q.Valid
  within : p.Within q
  found : q.find? x.key = some id
  successors : ∀ u w, w ∈ q.successors u ↔ w ∈ p.successors u ∨ x.source = some u ∧ w = id
  initial : ∀ v, v ∈ q.initial ↔ v ∈ p.initial ∨ x.source = none ∧ v = id
  state? : ∀ fp, q.state? fp =
    if fp = x.key.fingerprint then some ((p.state? fp).getD x.state) else p.state? fp
  first : p.nodesOn x.key.fingerprint = [] → q.nodesOn x.key.fingerprint = [id]
  counted : p.Counted → q.Counted

variable {x : Placement State} {xs ys : List (Placement State)}

theorem find?_within (valid : p.Valid) (valid' : q.Valid) (within : p.Within q) {key : ProductKey}
    {id : NodeId} (found : p.find? key = some id) : q.find? key = some id := by
  obtain ⟨a, at_id, same⟩ := valid.indexed.mp found
  obtain ⟨b, at_id', later⟩ := within.nodes id a at_id
  exact valid'.indexed.mpr ⟨b, at_id', later.key.trans same⟩

theorem Within.mem_successors (within : p.Within q) {u v : NodeId} (edge : v ∈ p.successors u) :
    v ∈ q.successors u := by
  cases at_u : p.nodes[u]? with
  | none => simp [successors, at_u] at edge
  | some a =>
    obtain ⟨b, at_u', later⟩ := within.nodes u a at_u
    rw [successors, at_u] at edge
    rw [successors, at_u']
    exact later.successors.subset edge

theorem addEdge_grows (valid : p.Valid) {source target : NodeId} (within : source < p.size)
    (bound : target < p.size) :
    (p.addEdge source target).Valid ∧ p.Within (p.addEdge source target) ∧
      (∀ fp, (p.addEdge source target).state? fp = p.state? fp) ∧
      ∀ fp, (p.addEdge source target).nodesOn fp = p.nodesOn fp := by
  by_cases present : p.hasEdge source target
  · rw [addEdge_of_present present]
    exact ⟨valid, .refl p, fun _ => rfl, fun _ => rfl⟩
  · have touched := touched_addEdge present
    exact ⟨valid_addEdge valid present within bound, within_addEdge present, touched.state?,
      touched.nodesOn⟩

theorem placed (valid : p.Valid) (bound : ∀ id ∈ x.source, id < p.size) :
    ∃ id, Placed p (p.place x) x id := by
  have ensured := ensured valid x.key x.state
  rw [place_eq]
  generalize p.ensure x.key x.state = result at ensured
  obtain ⟨id, created, q⟩ := result
  dsimp only at ensured ⊢
  obtain ⟨node, at_id, _⟩ := ensured.valid.indexed.mp ensured.found
  refine ⟨id, ?_⟩
  cases source : x.source with
  | none =>
    have valid' := valid_markInitial ensured.valid at_id
    have within := within_markInitial at_id
    have touched := touched_markInitial at_id
    refine ⟨valid', ensured.within.trans within,
      find?_within ensured.valid valid' within ensured.found, fun u w => ?_, fun v => ?_,
      fun fp => ?_, fun none => ?_, fun counted => counted_markInitial (ensured.counted counted)⟩
    · simp [successors_markInitial, ensured.successors, source]
    · rw [mem_initial_markInitial ensured.valid at_id, ensured.initial]
      simp [source]
    · rw [touched.state?, ensured.state?]
    · rw [touched.nodesOn, ensured.first none]
  | some u =>
    have bound' : u < q.size := (bound u source).trans_le ensured.within.size_le
    obtain ⟨valid', within, states, columns⟩ := addEdge_grows ensured.valid bound' (lt_size at_id)
    refine ⟨valid', ensured.within.trans within,
      find?_within ensured.valid valid' within ensured.found, fun u' w => ?_, fun v => ?_,
      fun fp => ?_, fun none => ?_, fun counted => counted_addEdge (ensured.counted counted)⟩
    · rw [mem_successors_addEdge ensured.valid bound', ensured.successors]
      simp [source, eq_comm]
    · simp [initial_addEdge, ensured.initial, source]
    · rw [states, ensured.state?]
    · rw [columns, ensured.first none]

def Sourced (p : Product State) : List (Placement State) → Prop
  | [] => True
  | x :: rest => (∀ id ∈ x.source, id < p.size) ∧ Sourced (p.place x) rest

theorem sourced_append : Sourced p (xs ++ ys) ↔ Sourced p xs ∧ Sourced (xs.foldl place p) ys := by
  induction xs generalizing p with
  | nil => simp [Sourced]
  | cons x rest ih => simp [Sourced, ih, and_assoc]

structure Built (p q : Product State) (xs : List (Placement State)) : Prop where
  valid : q.Valid
  within : p.Within q
  successors : ∀ u w, w ∈ q.successors u ↔
    w ∈ p.successors u ∨ ∃ x ∈ xs, x.source = some u ∧ q.find? x.key = some w
  initial : ∀ v, v ∈ q.initial ↔
    v ∈ p.initial ∨ ∃ x ∈ xs, x.source = none ∧ q.find? x.key = some v
  counted : p.Counted → q.Counted

theorem built (valid : p.Valid) (sourced : Sourced p xs) : Built p (xs.foldl place p) xs := by
  induction xs generalizing p with
  | nil => exact ⟨valid, .refl p, by simp, by simp, fun counted => counted⟩
  | cons x rest ih =>
    obtain ⟨bound, sourced⟩ := sourced
    obtain ⟨id, placed⟩ := placed valid bound
    have later := ih placed.valid sourced
    have found := find?_within placed.valid later.valid later.within placed.found
    refine ⟨later.valid, placed.within.trans later.within, fun u w => ?_, fun v => ?_,
      fun counted => later.counted (placed.counted counted)⟩
    · rw [List.foldl_cons, later.successors, placed.successors, List.exists_mem_cons_iff, found,
        Option.some.injEq, eq_comm (a := w), or_assoc]
    · rw [List.foldl_cons, later.initial, placed.initial, List.exists_mem_cons_iff, found,
        Option.some.injEq, eq_comm (a := v), or_assoc]

theorem nodesOn_eq_nil (valid : p.Valid) {fp : Fingerprint} (stateless : p.state? fp = none) :
    p.nodesOn fp = [] := by
  rw [List.eq_nil_iff_forall_not_mem]
  intro id member
  obtain ⟨s, stored⟩ := (valid.stored fp).mpr ⟨id, member⟩
  simp [stateless] at stored

theorem state?_elsewhere (valid : p.Valid) (sourced : Sourced p xs) {fp : Fingerprint}
    (elsewhere : ∀ x ∈ xs, x.key.fingerprint ≠ fp) :
    (xs.foldl place p).state? fp = p.state? fp := by
  induction xs generalizing p with
  | nil => rfl
  | cons x rest ih =>
    obtain ⟨bound, sourced⟩ := sourced
    obtain ⟨other, elsewhere⟩ := List.forall_mem_cons.mp elsewhere
    obtain ⟨id, placed⟩ := placed valid bound
    rw [List.foldl_cons, ih placed.valid sourced elsewhere, placed.state?, if_neg other.symm]

/-- The state of a fingerprint is that of the first placement on it, which is also where its first
node comes from. -/
theorem state?_first (valid : p.Valid) (sourced : Sourced p xs) {fp : Fingerprint}
    (stateless : p.state? fp = none) (first : xs.find? (·.key.fingerprint == fp) = some x) :
    (xs.foldl place p).state? fp = some x.state ∧
      ∃ id, ((xs.foldl place p).nodesOn fp).head? = some id ∧
        (xs.foldl place p).find? x.key = some id := by
  obtain ⟨here, before, after, rfl, elsewhere⟩ := List.find?_eq_some_iff_append.mp first
  obtain rfl : x.key.fingerprint = fp := by simpa using here
  obtain ⟨sourcedBefore, bound, sourcedAfter⟩ := sourced_append.mp sourced
  have earlier := (built valid sourcedBefore).valid
  have absent : (before.foldl place p).state? x.key.fingerprint = none := by
    rw [state?_elsewhere valid sourcedBefore fun y member => by simpa using elsewhere y member,
      stateless]
  obtain ⟨id, placed⟩ := placed earlier bound
  have later := built placed.valid sourcedAfter
  rw [List.foldl_append, List.foldl_cons]
  refine ⟨later.within.states _ _ ?_, id, ?_,
    find?_within placed.valid later.valid later.within placed.found⟩
  · rw [placed.state?, if_pos rfl, absent, Option.getD_none]
  · have column := later.within.columns x.key.fingerprint
    rw [placed.first (nodesOn_eq_nil earlier absent)] at column
    obtain ⟨rest, column⟩ := column
    rw [← column]
    rfl

end Place

end TemporalCheck.Product
