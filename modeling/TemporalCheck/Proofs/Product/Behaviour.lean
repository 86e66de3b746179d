import TemporalCheck.Proofs.Monitor.Exact
import TemporalCheck.Proofs.Product.Emptiness
import TemporalCheck.Proofs.Model
import TemporalCheck.Proofs.Tableau.Acceptance

/-! Paths through a product and behaviours. A path that fulfils every promise again and again is a
run of the tableau along the states that it stands on; and in an exact product every run along a
behaviour of the scene is such a path. -/
namespace TemporalCheck

variable {State : Type} {c : Scene State} {p : Product State} {v : Valuation State}

namespace Tableau

variable {t : Tableau} {model : Model State} {k k' : Keyed State} {id id' : TableauId}

theorem admits_iff : t.Admits model k id ↔ id ∈ t.initial ∧ ∃ node, t.nodes[id]? = some node ∧
    ∀ l ∈ node.state, model.holds l.predicate k.state none = .ok l.positive := by
  constructor
  · rintro ⟨⟨_, _⟩, member, rfl, holds⟩
    obtain ⟨_, listed, found⟩ := List.mem_filterMap.mp member
    obtain ⟨node, at_id, same⟩ := Option.map_eq_some_iff.mp found
    cases same
    exact ⟨listed, node, at_id, fun l asked => holds _ (List.mem_map_of_mem asked)⟩
  · rintro ⟨listed, node, at_id, holds⟩
    refine ⟨_, List.mem_filterMap.mpr ⟨id, listed, Option.map_eq_some_iff.mpr
      ⟨node, at_id, rfl⟩⟩, rfl, fun x asked => ?_⟩
    obtain ⟨l, here, rfl⟩ := List.mem_map.mp asked
    exact holds l here

theorem holds_conditions_iff {g : Guard} : (∀ x ∈ g.conditions k k', x.Holds model) ↔
    (∀ l ∈ g.action, model.holds l.predicate k.state (some k'.state) = .ok l.positive) ∧
      ∀ l ∈ g.state, model.holds l.predicate k'.state none = .ok l.positive := by
  simp only [Guard.conditions, List.forall_mem_append, List.forall_mem_map]
  rfl

theorem Admits.holdsOn (admits : t.Admits model k id) (agrees : model.Agrees v) :
    id ∈ t.initial ∧ ∃ node, t.nodes[id]? = some node ∧ ∀ l ∈ node.state, l.HoldsOn v k.state := by
  obtain ⟨listed, node, at_id, holds⟩ := admits_iff.mp admits
  exact ⟨listed, node, at_id, fun l asked => agrees.state _ _ _ (holds l asked)⟩

theorem Moves.holdsAlong (moves : t.Moves model id k id' k') (agrees : model.Agrees v) :
    ∃ e ∈ t.edgesFrom id, e.target = id' ∧ e.guard.HoldsAlong v k.state k'.state := by
  obtain ⟨e, member, target, holds⟩ := moves
  obtain ⟨ofStep, ofTarget⟩ := holds_conditions_iff.mp holds
  exact ⟨e, member, target, fun l asked => agrees.action _ _ _ _ (ofStep l asked),
    fun l asked => agrees.state _ _ _ (ofTarget l asked)⟩

end Tableau

namespace Product

variable {ρ : Nat → NodeId} {σ : Behaviour State}

theorem hasKeyEdge_of_edge (valid : p.Valid) {i j : NodeId} (edge : p.digraph.Edge i j) {a b : Node}
    (atI : p.nodes[i]? = some a) (atJ : p.nodes[j]? = some b) : p.HasKeyEdge a.key b.key := by
  rw [edge_iff valid, successors, atI] at edge
  exact ⟨i, j, a, b, atI, rfl, Array.mem_toList_iff.mp edge, atJ, rfl⟩

/-- The keys on a path that fulfils every promise: a behaviour may start at the first and go on from
each to the next. -/
theorem Accepting.keys (accepting : p.Accepting ρ) (part : Part c p) : ∃ key : Nat → ProductKey,
    (∀ i, ∃ node, p.nodes[ρ i]? = some node ∧ node.key = key i) ∧ c.Starts (key 0) ∧
      (∀ i, c.Moves (key i) (key (i + 1))) ∧
      ∀ promise < c.tableau.promises.length, ∀ i, ∃ j, i ≤ j ∧
        c.tableau.fulfils (key j).tableau promise = true := by
  have nodes (i : Nat) : ∃ node, p.nodes[ρ i]? = some node :=
    ⟨_, Array.getElem?_eq_getElem (accepting.lt_size i)⟩
  choose node at_node using nodes
  have flagged : (node 0).initial = true := by
    obtain ⟨a, at_a, flagged⟩ := (part.valid.initial _).mp accepting.initial
    obtain rfl := Option.some.inj ((at_node 0).symm.trans at_a)
    exact flagged
  refine ⟨fun i => (node i).key, fun i => ⟨node i, at_node i, rfl⟩, ?_, fun i => ?_,
    fun promise bound i => ?_⟩
  · exact part.starts _ ⟨ρ 0, node 0, at_node 0, rfl, flagged⟩
  · apply part.edges
    exact hasKeyEdge_of_edge part.valid (accepting.edges i) (at_node i) (at_node (i + 1))
  · rw [← part.tableau] at bound
    obtain ⟨j, later, fulfilled⟩ := accepting.fulfilled promise bound i
    refine ⟨j, later, ?_⟩
    simpa only [fulfils, tableauOf?, at_node, Option.map_some, part.tableau] using fulfilled

/-- The states on a path that fulfils every promise make up a behaviour that the tableau accepts. -/
theorem Accepting.accepts (accepting : p.Accepting ρ) (part : Part c p) (agrees : c.model.Agrees v)
    (states : ∀ i, p.stateOf? (ρ i) = some (σ i)) : c.tableau.Accepts v σ := by
  obtain ⟨key, nodes, ⟨_, s, here, admits⟩, moves, fulfilled⟩ := accepting.keys part
  have stored (i : Nat) : c.stored (key i).fingerprint = some (σ i) := by
    obtain ⟨node, at_node, same⟩ := nodes i
    have found := states i
    rw [stateOf?, at_node, Option.bind_some, same] at found
    exact part.filed _ _ found
  obtain rfl := Option.some.inj ((stored 0).symm.trans here)
  obtain ⟨listed, admitted⟩ := admits.holdsOn agrees
  refine ⟨fun i => (key i).tableau, listed, admitted, fun i => ?_, fulfilled⟩
  obtain ⟨_, _, _, s, s', here, there, moves⟩ := moves i
  obtain rfl := Option.some.inj ((stored i).symm.trans here)
  obtain rfl := Option.some.inj ((stored (i + 1)).symm.trans there)
  exact moves.holdsAlong agrees

/-- In an exact product, moves that fulfil every promise again and again are a path. -/
theorem exists_accepting (part : Part c p) (whole : Whole c p) {key : Nat → ProductKey}
    (starts : c.Starts (key 0)) (moves : ∀ i, c.Moves (key i) (key (i + 1)))
    (fulfilled : ∀ promise < c.tableau.promises.length, ∀ i, ∃ j, i ≤ j ∧
      c.tableau.fulfils (key j).tableau promise = true) : ∃ ρ, p.Accepting ρ := by
  have reached (i : Nat) : c.Reached (key i) := by
    induction i with
    | zero => exact .start starts
    | succ i ih => exact .step ih (moves i)
  choose ρ node at_node same using fun i => whole.hasKey (reached i)
  refine ⟨ρ, ?_, fun i => ?_, fun promise bound i => ?_⟩
  · obtain ⟨id, a, at_id, named, flagged⟩ := whole.starts _ starts
    obtain rfl := part.valid.unique _ _ _ _ at_id (at_node 0) (named.trans (same 0).symm)
    exact (part.valid.initial _).mpr ⟨a, at_id, flagged⟩
  · obtain ⟨x, y, a, b, atX, namedX, edge, atY, namedY⟩ :=
      whole.edge (whole.hasKey (reached i)) (moves i)
    obtain rfl := part.valid.unique _ _ _ _ atX (at_node i) (namedX.trans (same i).symm)
    obtain rfl := part.valid.unique _ _ _ _ atY (at_node (i + 1)) (namedY.trans (same (i + 1)).symm)
    rw [edge_iff part.valid, successors, atX]
    exact Array.mem_toList_iff.mpr edge
  · rw [part.tableau] at bound
    obtain ⟨j, later, kept⟩ := fulfilled promise bound i
    refine ⟨j, later, ?_⟩
    simpa only [fulfils, tableauOf?, at_node, Option.map_some, part.tableau, same] using kept

/-- So a path of any part of the exact product has its like in the exact product. -/
theorem Accepting.transfer {q : Product State} (accepting : q.Accepting ρ) (within : Part c q)
    (part : Part c p) (whole : Whole c p) : ∃ ρ', p.Accepting ρ' := by
  obtain ⟨key, _, starts, moves, fulfilled⟩ := accepting.keys within
  exact exists_accepting part whole starts moves fulfilled

end Product

namespace Scene

/-- A question that the model refuses, about stored states and a literal of the tableau. -/
theorem Refused.question {e : EvalError} (refused : c.Refused e) :
    ∃ x : Condition State, x.Filed c.stored ∧
      c.model.holds x.literal.predicate x.current.state (x.next.map (·.state)) = .error e ∧
      ∃ node ∈ c.tableau.nodes, match x.next with
        | none => x.literal ∈ node.state
        | some _ => x.literal ∈ node.action := by
  have first {conditions : List (Condition State)}
      (failed : c.model.testAll conditions = .error e) :
      ∃ x ∈ conditions,
        c.model.holds x.literal.predicate x.current.state (x.next.map (·.state)) = .error e := by
    induction conditions with
    | nil => simp [Model.testAll] at failed
    | cons x rest ih =>
      unfold Model.testAll Model.test at failed
      cases answer : c.model.holds x.literal.predicate x.current.state (x.next.map (·.state)) with
      | error e' =>
        simp only [answer, Except.error.injEq] at failed
        exact ⟨x, List.mem_cons_self, failed ▸ answer⟩
      | ok b =>
        simp only [answer] at failed
        split at failed
        · obtain ⟨y, member, refused⟩ := ih failed
          exact ⟨y, List.mem_cons_of_mem _ member, refused⟩
        · contradiction
        · contradiction
  cases refused with
  | start fp s start told stored member failed =>
    obtain ⟨x, asked, refused⟩ := first failed
    have here : Keyed.Filed c.stored ⟨fp, s⟩ := stored
    refine ⟨x, filed_admissions here member x asked, refused, ?_⟩
    obtain ⟨id, _, found⟩ := List.mem_filterMap.mp member
    obtain ⟨node, at_id, rfl⟩ := Option.map_eq_some_iff.mp found
    obtain ⟨l, literal, rfl⟩ := List.mem_map.mp asked
    exact ⟨node, Array.mem_of_getElem? at_id, literal⟩
  | move k reached next told fp listed s s' stored stored' edge member failed =>
    obtain ⟨x, asked, refused⟩ := first failed
    have here : Keyed.Filed c.stored ⟨k.fingerprint, s⟩ := stored
    have there : Keyed.Filed c.stored ⟨fp, s'⟩ := stored'
    refine ⟨x, filed_conditions here there edge.guard x asked, refused, ?_⟩
    obtain ⟨node, target, at_source, _, at_target, shape⟩ := Tableau.mem_edgesFrom.mp member
    rw [shape] at asked
    rcases List.mem_append.mp asked with ofStep | ofTarget
    · obtain ⟨l, literal, rfl⟩ := List.mem_map.mp ofStep
      exact ⟨node, Array.mem_of_getElem? at_source, literal⟩
    · obtain ⟨l, literal, rfl⟩ := List.mem_map.mp ofTarget
      exact ⟨target, Array.mem_of_getElem? at_target, literal⟩

end Scene
end TemporalCheck
