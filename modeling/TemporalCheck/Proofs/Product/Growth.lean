import TemporalCheck.Proofs.Product.Bound
import TemporalCheck.Proofs.Product.Exact

/-! Growth towards the exact product. Expanding a node settles it, unless the model refuses an
answer, and so does extending for all nodes on a fingerprint, those included that are added on the
way. -/
namespace TemporalCheck

variable {State : Type} {c : Scene State}

section Conditions

variable {stored : Fingerprint → Option State} {t : Tableau} {k k' : Keyed State}

theorem filed_admissions (filed : k.Filed stored) {start : TableauId × List (Condition State)}
    (member : start ∈ t.admissions k) : ∀ x ∈ start.2, x.Filed stored := by
  obtain ⟨_, _, found⟩ := List.mem_filterMap.mp member
  obtain ⟨node, _, rfl⟩ := Option.map_eq_some_iff.mp found
  intro x asked
  obtain ⟨l, _, rfl⟩ := List.mem_map.mp asked
  exact ⟨filed, by simp⟩

theorem filed_conditions (filed : k.Filed stored) (filed' : k'.Filed stored) (g : Guard) :
    ∀ x ∈ g.conditions k k', x.Filed stored := by
  intro x asked
  rcases List.mem_append.mp asked with ofStep | ofTarget
  · obtain ⟨l, _, rfl⟩ := List.mem_map.mp ofStep
    exact ⟨filed, by simpa using filed'⟩
  · obtain ⟨l, _, rfl⟩ := List.mem_map.mp ofTarget
    exact ⟨filed', by simp⟩

end Conditions

namespace Product

variable {p : Product State}

/-- Linking one target after the other adds their keys and the edges to them. -/
theorem change_links {stored : Fingerprint → Option State} (valid : p.Valid)
    (filed : p.Filed stored) {source : NodeId} {a : Node} (atSource : p.nodes[source]? = some a)
    (chosen : List (Keyed State × TableauId)) (given : ∀ x ∈ chosen, x.1.Filed stored) :
    Change stored p (p.linkAll source chosen).2
      {k | ∃ x ∈ chosen, k = ⟨x.1.fingerprint, x.2⟩}
      {e | e.1 = a.key ∧ ∃ x ∈ chosen, e.2 = ⟨x.1.fingerprint, x.2⟩} ∅ := by
  induction chosen generalizing p a with
  | nil => simpa [linkAll] using Change.refl valid filed
  | cons x rest ih =>
    rw [List.forall_mem_cons] at given
    have here := change_link valid filed atSource given.1
    obtain ⟨b, atSource', later⟩ := here.within.nodes source a atSource
    have there := ih here.valid here.filed atSource' given.2
    have both := here.trans there
    rw [later.key, Set.union_empty] at both
    refine both.congr ?_ ?_
    · intro k
      simp
    · rintro ⟨k, k'⟩
      simp only [List.exists_mem_cons_iff, Set.mem_ofPred_eq, Set.mem_union, Set.mem_singleton_iff,
        Prod.mk.injEq]
      tauto

structure Outgrown (c : Scene State) (p : Product State) (grown : Growth State) : Prop where
  coherent : grown.session.Coherent c.model c.stored
  part : Part c grown.product
  within : p.Within grown.product
  refused : ∀ e, grown.failure = some e → c.Refused e

theorem Outgrown.after {p q : Product State} {grown : Growth State} (within : p.Within q)
    (outgrown : Outgrown c q grown) (created : List NodeId) :
    Outgrown c p (grown.after created) where
  coherent := outgrown.coherent
  part := outgrown.part
  within := within.trans outgrown.within
  refused := outgrown.refused

/-- Expanding a node settles its key, or the model refuses an answer and nothing is added. -/
theorem expandNode_outgrown (part : Part c p) {s : Session} (coherent : s.Coherent c.model c.stored)
    (once : c.Once) {id : NodeId} {node : Node} (at_id : p.nodes[id]? = some node)
    {next : List Fingerprint} (told : .expanded node.key.fingerprint next ∈ c.events)
    {entries : List (Keyed State)} (lists : c.Lists next entries) :
    Outgrown c p (p.expandNode c.model s id entries) ∧
      ((p.expandNode c.model s id entries).failure = none →
        (p.expandNode c.model s id entries).product.Settled c node.key) := by
  have reached := part.keys node.key ⟨id, node, at_id, rfl⟩
  obtain ⟨state, found⟩ := (part.valid.stored node.key.fingerprint).mpr
    ⟨id, (part.valid.column _ id).mpr ⟨node, at_id, rfl⟩⟩
  have atState : Keyed.Filed c.stored ⟨node.key.fingerprint, state⟩ := part.filed _ _ found
  have filed : ∀ candidate ∈ p.moves node.key.tableau ⟨node.key.fingerprint, state⟩ entries,
      ∀ x ∈ candidate.2, x.Filed c.stored := by
    intro candidate member
    obtain ⟨k, listed, member⟩ := List.mem_flatMap.mp member
    obtain ⟨edge, _, rfl⟩ := List.mem_map.mp member
    exact filed_conditions atState ((lists k).mp listed).2 edge.guard
  have spec := Session.select_spec coherent filed
  unfold expandNode
  rw [at_id]
  dsimp only
  rw [found]
  dsimp only
  generalize s.select c.model _ = result at spec
  obtain ⟨e | chosen, s'⟩ := result
  · obtain ⟨coherent, candidate, member, failed⟩ := spec
    refine ⟨⟨coherent, part, .refl p, ?_⟩, by simp⟩
    intro e' same
    obtain rfl := Option.some.inj same
    obtain ⟨k, listed, offered⟩ := List.mem_flatMap.mp member
    obtain ⟨edge, leaving, rfl⟩ := List.mem_map.mp offered
    obtain ⟨listed, stored⟩ := (lists k).mp listed
    rw [part.tableau] at leaving
    exact .move node.key reached next told k.fingerprint listed state k.state atState stored edge
      leaving failed
  · obtain ⟨coherent, judged, taken⟩ := spec
    have taken_iff (k : Keyed State) (t : TableauId) : (k, t) ∈ chosen ↔ k ∈ entries ∧
        c.tableau.Moves c.model node.key.tableau ⟨node.key.fingerprint, state⟩ t k := by
      rw [taken]
      constructor
      · rintro ⟨candidate, member, same, holds⟩
        obtain ⟨k', listed, offered⟩ := List.mem_flatMap.mp member
        obtain ⟨edge, leaving, rfl⟩ := List.mem_map.mp offered
        obtain ⟨rfl, rfl⟩ := Prod.mk.inj same
        exact ⟨listed, edge, part.tableau ▸ leaving, rfl, holds⟩
      · rintro ⟨listed, edge, leaving, rfl, holds⟩
        refine ⟨_, List.mem_flatMap.mpr ⟨k, listed, List.mem_map.mpr ⟨edge, ?_, rfl⟩⟩, rfl, holds⟩
        exact part.tableau.symm ▸ leaving
    have moves {x : Keyed State × TableauId} (member : x ∈ chosen) :
        c.Moves node.key ⟨x.1.fingerprint, x.2⟩ := by
      obtain ⟨listed, moves⟩ := (taken_iff x.1 x.2).mp member
      obtain ⟨listed, stored⟩ := (lists x.1).mp listed
      exact ⟨next, told, listed, state, x.1.state, atState, stored, moves⟩
    have change := change_links part.valid part.filed at_id chosen fun x member =>
      ((lists x.1).mp ((taken_iff x.1 x.2).mp member).1).2
    refine ⟨⟨coherent, ?_, change.within, by simp⟩, fun _ => ⟨?_, ?_⟩⟩
    · refine part.change change ?_ ?_ (by simp)
      · rintro k ⟨x, member, rfl⟩
        exact reached.step (moves member)
      · rintro ⟨_, _⟩ ⟨rfl, x, member, rfl⟩
        exact moves member
    · rintro k' ⟨next', told', listed, s₁, s₂, stored, stored', moves⟩
      obtain rfl := once _ _ _ told told'
      obtain rfl := Option.some.inj (atState.symm.trans stored)
      refine (change.edges _ _).mpr (.inr ⟨rfl, (⟨k'.fingerprint, s₂⟩, k'.tableau), ?_, rfl⟩)
      exact (taken_iff _ _).mpr ⟨(lists ⟨k'.fingerprint, s₂⟩).mpr ⟨listed, stored'⟩, moves⟩
    · intro next' told' fp listed s₁ s₂ stored stored' edge member
      obtain rfl := once _ _ _ told told'
      obtain rfl := Option.some.inj (atState.symm.trans stored)
      have listed := (lists ⟨fp, s₂⟩).mpr ⟨listed, stored'⟩
      exact judged _ (List.mem_flatMap.mpr ⟨⟨fp, s₂⟩, listed,
        List.mem_map.mpr ⟨edge, part.tableau.symm ▸ member, rfl⟩⟩)

/-- Taking the starts one by one adds those that are admitted, unless the model refuses an
answer. -/
theorem beginAll_outgrown (part : Part c p) {s : Session} (coherent : s.Coherent c.model c.stored)
    (starts : List ((Keyed State × TableauId) × List (Condition State)))
    (offered : ∀ x ∈ starts, .initial x.1.1.fingerprint ∈ c.events ∧ x.1.1.Filed c.stored ∧
      (x.1.2, x.2) ∈ c.tableau.admissions x.1.1) :
    Outgrown c p (beginAll c.model starts p s) ∧
      ((beginAll c.model starts p s).failure = none → ∀ x ∈ starts,
        (∃ answer, c.model.testAll x.2 = .ok answer) ∧
          ((∀ y ∈ x.2, y.Holds c.model) →
            (beginAll c.model starts p s).product.HasKeyStart ⟨x.1.1.fingerprint, x.1.2⟩)) := by
  induction starts generalizing p s with
  | nil => exact ⟨⟨coherent, part, .refl p, by simp [beginAll]⟩, by simp⟩
  | cons start rest ih =>
    obtain ⟨⟨k, t⟩, conditions⟩ := start
    rw [List.forall_mem_cons] at offered
    obtain ⟨⟨told, stored, member⟩, offered⟩ := offered
    have spec := Session.testAll_spec coherent (filed_admissions stored member)
    unfold beginAll
    generalize s.testAll c.model conditions = result at spec
    obtain ⟨e | admitted, s'⟩ := result
    · refine ⟨⟨spec.2, part, .refl p, ?_⟩, by simp⟩
      intro e' same
      obtain rfl := Option.some.inj same
      exact .start _ k.state (t, conditions) told stored member spec.1.symm
    · have verdict : admitted = true ↔ ∀ y ∈ conditions, y.Holds c.model := by
        rw [← Model.testAll_eq_true_iff, ← spec.1, Except.ok.injEq]
      cases admitted with
      | false =>
        obtain ⟨outgrown, done⟩ := ih part spec.2 offered
        refine ⟨outgrown, fun complete => ?_⟩
        rintro x (_ | ⟨_, later⟩)
        · exact ⟨⟨false, spec.1.symm⟩, fun holds => absurd (verdict.mpr holds) (by simp)⟩
        · exact done complete x later
      | true =>
        have change := change_begin part.valid part.filed stored t
        have starts : c.Starts ⟨k.fingerprint, t⟩ :=
          ⟨told, k.state, stored, (t, conditions), member, rfl, verdict.mp rfl⟩
        have begun : Part c (p.begin k t).2 := by
          refine part.change change ?_ (by simp) ?_
          · rintro k rfl
            exact .start starts
          · rintro k rfl
            exact starts
        obtain ⟨outgrown, done⟩ := ih begun spec.2 offered
        refine ⟨outgrown.after change.within _, fun complete => ?_⟩
        rintro x (_ | ⟨_, later⟩)
        · exact ⟨⟨true, spec.1.symm⟩, fun _ =>
            ((change.starts _).mpr (.inr rfl)).within outgrown.within⟩
        · exact done complete x later

/-- Extending by initial states makes every admitted start there. -/
theorem extendInitial_outgrown (part : Part c p) {s : Session}
    (coherent : s.Coherent c.model c.stored) {entries : List (Keyed State)}
    (told : ∀ k ∈ entries, .initial k.fingerprint ∈ c.events ∧ k.Filed c.stored) :
    Outgrown c p (p.extendInitial c.model s entries) ∧
      ((p.extendInitial c.model s entries).failure = none → ∀ k ∈ entries,
        c.StartsAnswered k.fingerprint ∧ ∀ t, c.tableau.Admits c.model k t →
          (p.extendInitial c.model s entries).product.HasKeyStart ⟨k.fingerprint, t⟩) := by
  have offered : ∀ x ∈ p.starts entries, .initial x.1.1.fingerprint ∈ c.events ∧
      x.1.1.Filed c.stored ∧ (x.1.2, x.2) ∈ c.tableau.admissions x.1.1 := by
    intro x member
    obtain ⟨k, listed, offered⟩ := List.mem_flatMap.mp member
    obtain ⟨start, admitted, rfl⟩ := List.mem_map.mp offered
    exact ⟨(told k listed).1, (told k listed).2, part.tableau ▸ admitted⟩
  have listed {k : Keyed State} (member : k ∈ entries) {start : TableauId × List (Condition State)}
      (admitted : start ∈ c.tableau.admissions k) : ((k, start.1), start.2) ∈ p.starts entries :=
    List.mem_flatMap.mpr ⟨k, member, List.mem_map.mpr ⟨start, part.tableau.symm ▸ admitted, rfl⟩⟩
  obtain ⟨outgrown, done⟩ := beginAll_outgrown part coherent _ offered
  refine ⟨outgrown, fun complete k member => ⟨?_, ?_⟩⟩
  · intro state stored start admitted
    obtain rfl : k.state = state := Option.some.inj ((told k member).2.symm.trans stored)
    exact (done complete _ (listed member admitted)).1
  · rintro t ⟨start, admitted, rfl, holds⟩
    exact (done complete _ (listed member admitted)).2 holds

section Size

theorem Part.bounded (part : Part c p) : p.Bounded := fun k has =>
  part.tableau ▸ (part.keys k has).lt_size

/-- On one fingerprint there is at most one node for each tableau node. -/
theorem length_nodesOn_le (part : Part c p) (fp : Fingerprint) :
    (p.nodesOn fp).length ≤ c.tableau.size :=
  part.tableau ▸ part.bounded.length_nodesOn_le part.valid fp

/-- There are at most as many nodes as stored fingerprints times tableau nodes. -/
theorem size_le (part : Part c p) {fps : List Fingerprint}
    (listed : ∀ fp s, c.stored fp = some s → fp ∈ fps) :
    p.size ≤ fps.length * c.tableau.size := by
  rw [← part.tableau]
  refine part.bounded.size_le part.valid fun k has => ?_
  obtain ⟨s, found⟩ := exists_state part.valid has
  exact listed _ s (part.filed _ s found)

end Size

def SettledAt (c : Scene State) (p : Product State) (id : NodeId) : Prop :=
  ∀ node, p.nodes[id]? = some node → p.Settled c node.key

theorem SettledAt.within {q : Product State} {id : NodeId} {node : Node}
    (settled : p.SettledAt c id) (at_id : p.nodes[id]? = some node) (within : p.Within q) :
    q.SettledAt c id := by
  intro node' at_id'
  obtain ⟨b, at_b, later⟩ := within.nodes id node at_id
  obtain rfl := Option.some.inj (at_id'.symm.trans at_b)
  exact later.key.symm ▸ (settled node at_id).within within

/-- Extending from a position on settles all nodes on the fingerprint when those before are. -/
theorem extendFrom_outgrown (once : c.Once) {source : Fingerprint} {next : List Fingerprint}
    (told : .expanded source next ∈ c.events) {entries : List (Keyed State)}
    (lists : c.Lists next entries) {fuel i : Nat} (part : Part c p) {s : Session}
    (coherent : s.Coherent c.model c.stored) (enough : c.tableau.size ≤ i + fuel)
    (before : ∀ id ∈ (p.nodesOn source).take i, p.SettledAt c id) :
    Outgrown c p (extendFrom c.model source entries fuel i p s) ∧
      ((extendFrom c.model source entries fuel i p s).failure = none →
        ∀ id ∈ (extendFrom c.model source entries fuel i p s).product.nodesOn source,
          (extendFrom c.model source entries fuel i p s).product.SettledAt c id) := by
  induction fuel generalizing i p s with
  | zero =>
    have whole : (p.nodesOn source).take i = p.nodesOn source :=
      List.take_of_length_le ((length_nodesOn_le part source).trans (by omega))
    exact ⟨⟨coherent, part, .refl p, by simp [extendFrom]⟩, fun _ => whole ▸ before⟩
  | succ fuel ih =>
    unfold extendFrom
    cases at_i : (p.nodesOn source)[i]? with
    | none =>
      have whole : (p.nodesOn source).take i = p.nodesOn source :=
        List.take_of_length_le (List.getElem?_eq_none_iff.mp at_i)
      exact ⟨⟨coherent, part, .refl p, by simp⟩, fun _ => whole ▸ before⟩
    | some id =>
      obtain ⟨node, at_id, rfl⟩ :=
        (part.valid.column source id).mp (List.mem_of_getElem? at_i)
      obtain ⟨outgrown, settled⟩ := expandNode_outgrown part coherent once at_id told lists
      dsimp only
      generalize p.expandNode c.model s id entries = grown at outgrown settled
      cases failed : grown.failure with
      | some e => exact ⟨outgrown, fun absurdity => by simp [failed] at absurdity⟩
      | none =>
        have before : ∀ j ∈ (grown.product.nodesOn node.key.fingerprint).take (i + 1),
            grown.product.SettledAt c j := by
          obtain ⟨added, longer⟩ := outgrown.within.columns node.key.fingerprint
          obtain ⟨bound, _⟩ := List.getElem?_eq_some_iff.mp at_i
          rw [← longer, List.take_append_of_le_length bound, List.take_add_one, at_i]
          intro j member
          rcases List.mem_append.mp member with earlier | here
          · obtain ⟨other, at_j, _⟩ :=
              (part.valid.column _ j).mp (List.mem_of_mem_take earlier)
            exact (before j earlier).within at_j outgrown.within
          · obtain rfl : j = id := by simpa using here
            intro node' at_id'
            obtain ⟨b, at_b, later⟩ := outgrown.within.nodes j node at_id
            obtain rfl := Option.some.inj (at_id'.symm.trans at_b)
            exact later.key.symm ▸ settled failed
        obtain ⟨later, done⟩ := ih outgrown.part outgrown.coherent (by omega) before
        exact ⟨later.after outgrown.within _, done⟩

/-- Extending settles all nodes on the fingerprint, unless the model refuses an answer. -/
theorem extend_outgrown (once : c.Once) {source : Fingerprint} {next : List Fingerprint}
    (told : .expanded source next ∈ c.events) {entries : List (Keyed State)}
    (lists : c.Lists next entries) (part : Part c p) {s : Session}
    (coherent : s.Coherent c.model c.stored) :
    Outgrown c p (p.extend c.model s source entries) ∧
      ((p.extend c.model s source entries).failure = none →
        ∀ id ∈ (p.extend c.model s source entries).product.nodesOn source,
          (p.extend c.model s source entries).product.SettledAt c id) :=
  extendFrom_outgrown once told lists part coherent (by simp [part.tableau]) (by simp)

end Product
end TemporalCheck
