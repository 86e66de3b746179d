import TemporalCheck.Proofs.Semantics
import TemporalCheck.Proofs.Tableau.Build

/-! Which behaviours a tableau accepts. A run goes along the behaviour from node to node; it must
fit the literals and fulfil every promise again and again. What stands at the node of a run is true
of the behaviour from there on, and a behaviour of which the formula is true has a run: at every
position take the particle that is true there and puts nothing off that is true already. -/
namespace TemporalCheck

variable {State : Type} {v : Valuation State} {σ : Behaviour State}

theorem NormalForm.induction {P : NormalForm → Prop} (const : ∀ b, P (.const b))
    (state : ∀ l, P (.state l)) (action : ∀ l, P (.action l))
    (and : ∀ fs, (∀ f ∈ fs, P f) → P (.and fs)) (or : ∀ fs, (∀ f ∈ fs, P f) → P (.or fs))
    (always : ∀ f, P f → P (.always f)) (eventually : ∀ f, P f → P (.eventually f))
    (next : ∀ f, P f → P (.next f)) (f : NormalForm) : P f := by
  refine @NormalForm.rec P (fun fs => ∀ f ∈ fs, P f) const state action and or always eventually
    next ?_ ?_ f
  · simp
  · intro f fs here there g member
    rcases List.mem_cons.mp member with rfl | later
    · exact here
    · exact there g later

def truths (v : Valuation State) (σ : Behaviour State) (i : Nat) : Set NormalForm :=
  {f | f.Holds v σ i}

theorem saturated_truths (i : Nat) : Saturated (truths v σ i) := by
  intro f holds
  cases f with
  | const b =>
    cases b with
    | true => simp [NormalForm.demand, Demand.MetIn]
    | false => simp [truths] at holds
  | state | action | next => simp [NormalForm.demand, Demand.MetIn]
  | and fs => exact NormalForm.holds_and.mp holds
  | or fs => exact NormalForm.holds_or.mp holds
  | always f =>
    have always := NormalForm.holds_always.mp holds
    rintro g (_ | ⟨_, _ | ⟨_, _ | _⟩⟩)
    · exact always i le_rfl
    · refine NormalForm.holds_next.mpr (NormalForm.holds_always.mpr fun j later => ?_)
      exact always j (by omega)
  | eventually f =>
    obtain ⟨j, later, here⟩ := NormalForm.holds_eventually.mp holds
    by_cases now : j = i
    · exact ⟨f, by simp, now ▸ here⟩
    · refine ⟨.next (.eventually f), by simp, NormalForm.holds_next.mpr ?_⟩
      exact NormalForm.holds_eventually.mpr ⟨j, by omega, here⟩

theorem consistent_truths (i : Nat) : Consistent (truths v σ i) := by
  intro f holds g opposite contrary
  cases f <;> simp only [NormalForm.opposite?, Option.some.injEq, reduceCtorEq] at opposite
  all_goals
    subst opposite
    simp_all [truths, Literal.HoldsOn, Literal.HoldsAlong, Literal.opposite]

def Guard.HoldsAlong (v : Valuation State) (s s' : State) (g : Guard) : Prop :=
  (∀ l ∈ g.action, l.HoldsAlong v s s') ∧ ∀ l ∈ g.state, l.HoldsOn v s'

namespace Tableau

/-- The nodes `τ` accompany a behaviour. -/
structure Run (t : Tableau) (v : Valuation State) (σ : Behaviour State) (τ : Nat → TableauId) :
    Prop where
  initial : τ 0 ∈ t.initial
  admitted : ∃ node, t.nodes[τ 0]? = some node ∧ ∀ l ∈ node.state, l.HoldsOn v (σ 0)
  steps : ∀ i, ∃ e ∈ t.edgesFrom (τ i), e.target = τ (i + 1) ∧
    e.guard.HoldsAlong v (σ i) (σ (i + 1))
  fulfilled : ∀ promise < t.promises.length, ∀ i, ∃ j, i ≤ j ∧ t.fulfils (τ j) promise = true

def Accepts (t : Tableau) (v : Valuation State) (σ : Behaviour State) : Prop :=
  ∃ τ, t.Run v σ τ

variable {t : Tableau}

theorem mem_edgesFrom {id : TableauId} {e : Edge} :
    e ∈ t.edgesFrom id ↔ ∃ node next, t.nodes[id]? = some node ∧ e.target ∈ node.successors ∧
      t.nodes[e.target]? = some next ∧ e = ⟨id, e.target, ⟨node.action, next.state⟩⟩ := by
  rw [edgesFrom_eq]
  unfold outgoing
  cases at_id : t.nodes[id]? with
  | none => simp
  | some node =>
    simp only [List.mem_filterMap, Option.map_eq_some_iff]
    constructor
    · rintro ⟨target, successor, next, at_target, rfl⟩
      exact ⟨node, next, rfl, successor, at_target, rfl⟩
    · rintro ⟨node', next, same, successor, at_target, edge⟩
      obtain rfl := Option.some.inj same
      exact ⟨e.target, successor, next, at_target, edge.symm⟩

theorem fulfils_iff {id : TableauId} {node : Node} (at_id : t.nodes[id]? = some node)
    (promise : Nat) : t.fulfils id promise = true ↔ promise ∈ node.fulfils := by
  simp [fulfils, at_id]

section Soundness

variable {τ : Nat → TableauId}

theorem Run.node (run : t.Run v σ τ) (i : Nat) : ∃ node, t.nodes[τ i]? = some node := by
  obtain ⟨e, edge, _⟩ := run.steps i
  obtain ⟨node, _, at_id, _⟩ := mem_edgesFrom.mp edge
  exact ⟨node, at_id⟩

theorem Run.carries (faithful : t.Faithful) (run : t.Run v σ τ) {i : Nat} {node next : Node}
    (here : t.nodes[τ i]? = some node) (there : t.nodes[τ (i + 1)]? = some next)
    {f : NormalForm} (member : .next f ∈ t.members node) : f ∈ t.members next := by
  obtain ⟨e, edge, target, _⟩ := run.steps i
  obtain ⟨node', _, here', successor, _⟩ := mem_edgesFrom.mp edge
  obtain rfl := Option.some.inj (here.symm.trans here')
  obtain ⟨next', there', carried⟩ :=
    faithful.nextSeeded node (Array.mem_of_getElem? here) _ successor
  rw [target] at there'
  obtain rfl := Option.some.inj (there.symm.trans there')
  exact carried f member

theorem Run.stateHolds (faithful : t.Faithful) (run : t.Run v σ τ) {i : Nat} {node : Node}
    (here : t.nodes[τ i]? = some node) {l : Literal} (member : .state l ∈ t.members node) :
    l.HoldsOn v (σ i) := by
  have listed := (faithful.state node (Array.mem_of_getElem? here) l).mpr member
  cases i with
  | zero =>
    obtain ⟨node', here', admitted⟩ := run.admitted
    obtain rfl := Option.some.inj (here.symm.trans here')
    exact admitted l listed
  | succ i =>
    obtain ⟨e, edge, target, _, guarded⟩ := run.steps i
    obtain ⟨_, node', _, _, here', shape⟩ := mem_edgesFrom.mp edge
    rw [target] at here'
    obtain rfl := Option.some.inj (here.symm.trans here')
    rw [shape] at guarded
    exact guarded l listed

theorem Run.actionHolds (faithful : t.Faithful) (run : t.Run v σ τ) {i : Nat} {node : Node}
    (here : t.nodes[τ i]? = some node) {l : Literal} (member : .action l ∈ t.members node) :
    l.HoldsAlong v (σ i) (σ (i + 1)) := by
  have listed := (faithful.action node (Array.mem_of_getElem? here) l).mpr member
  obtain ⟨e, edge, _, guarded, _⟩ := run.steps i
  obtain ⟨node', _, here', _, _, shape⟩ := mem_edgesFrom.mp edge
  obtain rfl := Option.some.inj (here.symm.trans here')
  rw [shape] at guarded
  exact guarded l listed

/-- An invariant formula at a node stands at all later nodes of the run. -/
theorem Run.always_stays (faithful : t.Faithful) (run : t.Run v σ τ) {f : NormalForm} {i : Nat}
    {node : Node} (here : t.nodes[τ i]? = some node) (member : .always f ∈ t.members node)
    {j : Nat} (later : i ≤ j) :
    ∃ node, t.nodes[τ j]? = some node ∧ .always f ∈ t.members node := by
  induction j, later using Nat.le_induction with
  | base => exact ⟨node, here, member⟩
  | succ j _ ih =>
    obtain ⟨node, here, member⟩ := ih
    obtain ⟨next, there⟩ := run.node (j + 1)
    have met := faithful.saturated node (Array.mem_of_getElem? here) _ member
    exact ⟨next, there, run.carries faithful here there (met (.next (.always f)) (by simp))⟩

/-- An eventuality stays at the nodes of a run as long as its body is missing. -/
theorem Run.eventually_stays (faithful : t.Faithful) (run : t.Run v σ τ) {f : NormalForm} {i : Nat}
    {node : Node} (here : t.nodes[τ i]? = some node) (member : .eventually f ∈ t.members node)
    (missing : ∀ j, i ≤ j → ∀ node, t.nodes[τ j]? = some node → f ∉ t.members node)
    {j : Nat} (later : i ≤ j) :
    ∃ node, t.nodes[τ j]? = some node ∧ .eventually f ∈ t.members node := by
  induction j, later using Nat.le_induction with
  | base => exact ⟨node, here, member⟩
  | succ j later ih =>
    obtain ⟨node, here, member⟩ := ih
    obtain ⟨next, there⟩ := run.node (j + 1)
    obtain ⟨g, offered, chosen⟩ := faithful.saturated node (Array.mem_of_getElem? here) _ member
    rcases List.mem_cons.mp offered with rfl | offered
    · exact absurd chosen (missing j later node here)
    · rw [List.mem_singleton.mp offered] at chosen
      exact ⟨next, there, run.carries faithful here there chosen⟩

/-- The promises make the body of an eventuality appear at last. -/
theorem Run.eventually_arrives (faithful : t.Faithful) (run : t.Run v σ τ) {f : NormalForm}
    {i : Nat} {node : Node} (here : t.nodes[τ i]? = some node)
    (member : .eventually f ∈ t.members node) :
    ∃ j, i ≤ j ∧ ∃ node, t.nodes[τ j]? = some node ∧ f ∈ t.members node := by
  by_contra never
  have missing : ∀ j, i ≤ j → ∀ node, t.nodes[τ j]? = some node → f ∉ t.members node := by
    intro j later node here member
    exact never ⟨j, later, node, here, member⟩
  obtain ⟨promise, bound, kept⟩ :=
    faithful.promised node (Array.mem_of_getElem? here) f member
  obtain ⟨j, later, fulfilled⟩ := run.fulfilled promise bound i
  obtain ⟨node, here, member⟩ := run.eventually_stays faithful here member missing later
  have := (kept node (Array.mem_of_getElem? here)).mp ((fulfils_iff here promise).mp fulfilled)
  rcases this with body | absent
  · exact missing j later node here body
  · exact absent member

/-- What stands at a node of a run is true of the behaviour from there on. -/
theorem Run.holds (faithful : t.Faithful) (run : t.Run v σ τ) (f : NormalForm) :
    ∀ (i : Nat) (node : Node), t.nodes[τ i]? = some node → f ∈ t.members node →
      f.Holds v σ i := by
  induction f using NormalForm.induction with
  | const b =>
    intro i node here member
    have met := faithful.saturated node (Array.mem_of_getElem? here) _ member
    cases b <;> simp_all [NormalForm.demand, Demand.MetIn]
  | state l =>
    intro i node here member
    exact NormalForm.holds_state.mpr (run.stateHolds faithful here member)
  | action l =>
    intro i node here member
    exact NormalForm.holds_action.mpr (run.actionHolds faithful here member)
  | and fs ih =>
    intro i node here member
    have met := faithful.saturated node (Array.mem_of_getElem? here) _ member
    exact NormalForm.holds_and.mpr fun f part => ih f part i node here (met f part)
  | or fs ih =>
    intro i node here member
    obtain ⟨f, part, chosen⟩ := faithful.saturated node (Array.mem_of_getElem? here) _ member
    exact NormalForm.holds_or.mpr ⟨f, part, ih f part i node here chosen⟩
  | always f ih =>
    intro i node here member
    refine NormalForm.holds_always.mpr fun j later => ?_
    obtain ⟨node, here, member⟩ := run.always_stays faithful here member later
    have met := faithful.saturated node (Array.mem_of_getElem? here) _ member
    exact ih j node here (met f (by simp))
  | eventually f ih =>
    intro i node here member
    obtain ⟨j, later, node, here, member⟩ := run.eventually_arrives faithful here member
    exact NormalForm.holds_eventually.mpr ⟨j, later, ih j node here member⟩
  | next f ih =>
    intro i node here member
    obtain ⟨next, there⟩ := run.node (i + 1)
    have carried := run.carries faithful here there member
    exact NormalForm.holds_next.mpr (ih (i + 1) next there carried)

end Soundness

/-- The node with this id has only what is true at the position, and puts nothing off. -/
def Fits (t : Tableau) (v : Valuation State) (σ : Behaviour State) (i : Nat) (id : TableauId) :
    Prop :=
  ∃ node, t.nodes[id]? = some node ∧ Follows ∅ (truths v σ i) (t.members node)

theorem Fits.state (faithful : t.Faithful) {i : Nat} {id : TableauId} (fits : t.Fits v σ i id) :
    ∃ node, t.nodes[id]? = some node ∧ ∀ l ∈ node.state, l.HoldsOn v (σ i) := by
  obtain ⟨node, here, follows⟩ := fits
  refine ⟨node, here, fun l listed => ?_⟩
  have member := (faithful.state node (Array.mem_of_getElem? here) l).mp listed
  exact NormalForm.holds_state.mp (follows.inside member)

theorem Fits.initial (faithful : t.Faithful) (holds : t.negated.Holds v σ 0) :
    ∃ id ∈ t.initial, t.Fits v σ 0 id :=
  faithful.initialCovering (truths v σ 0) (saturated_truths 0) (consistent_truths 0) holds

/-- From a node that fits, an edge with a true guard leads to one that fits the next position. -/
theorem Fits.step (faithful : t.Faithful) {i : Nat} {id : TableauId} (fits : t.Fits v σ i id) :
    ∃ next, t.Fits v σ (i + 1) next ∧ ∃ e ∈ t.edgesFrom id, e.target = next ∧
      e.guard.HoldsAlong v (σ i) (σ (i + 1)) := by
  obtain ⟨node, here, follows⟩ := fits
  have member := Array.mem_of_getElem? here
  obtain ⟨next, successor, fits⟩ := faithful.nextCovering node member (truths v σ (i + 1))
    (saturated_truths _) (consistent_truths _) fun f carried =>
      NormalForm.holds_next.mp (follows.inside carried)
  obtain ⟨target, there, states⟩ := Fits.state faithful fits
  refine ⟨next, fits, ⟨id, next, node.action, target.state⟩,
    mem_edgesFrom.mpr ⟨node, target, here, successor, there, rfl⟩, rfl, fun l listed => ?_, states⟩
  have member := (faithful.action node member l).mp listed
  exact NormalForm.holds_action.mp (follows.inside member)

/-- Nodes that fit fulfil every promise again and again: a body that is true is taken at once. -/
theorem Fits.fulfilled (faithful : t.Faithful) {τ : Nat → TableauId}
    (fits : ∀ i, t.Fits v σ i (τ i)) {promise : Nat} (bound : promise < t.promises.length)
    (i : Nat) : ∃ j, i ≤ j ∧ t.fulfils (τ j) promise = true := by
  obtain ⟨f, kept⟩ := faithful.promise promise bound
  by_contra never
  have pending : ∀ j, i ≤ j → ∃ node, t.nodes[τ j]? = some node ∧
      Follows ∅ (truths v σ j) (t.members node) ∧ ¬t.Keeps f node := by
    intro j later
    obtain ⟨node, here, follows⟩ := fits j
    refine ⟨node, here, follows, fun keeps => never ⟨j, later, ?_⟩⟩
    exact (fulfils_iff here promise).mpr ((kept node (Array.mem_of_getElem? here)).mpr keeps)
  have promisedAt : ∀ j, i ≤ j → (NormalForm.eventually f).Holds v σ j := by
    intro j later
    obtain ⟨node, here, follows, unmet⟩ := pending j later
    exact follows.inside (by_contra fun absent => unmet (.inr absent))
  obtain ⟨j, later, now⟩ := NormalForm.holds_eventually.mp (promisedAt i le_rfl)
  obtain ⟨node, here, follows, unmet⟩ := pending j later
  refine unmet (.inl ?_)
  by_contra missing
  have member : .eventually f ∈ t.members node := by_contra fun absent => unmet (.inr absent)
  rcases follows.takesFirst _ member with absurdity | first
  · exact absurdity
  · exact missing (first now)

theorem accepts_of_holds (faithful : t.Faithful) (holds : t.negated.Holds v σ 0) :
    t.Accepts v σ := by
  obtain ⟨start, initial, fitsStart⟩ := Fits.initial faithful holds
  have step : ∀ i id, t.Fits v σ i id → ∃ next, t.Fits v σ (i + 1) next ∧
      ∃ e ∈ t.edgesFrom id, e.target = next ∧ e.guard.HoldsAlong v (σ i) (σ (i + 1)) :=
    fun i id fits => Fits.step faithful fits
  choose! next fitsNext edge using step
  let τ : Nat → TableauId := fun n => n.rec start next
  have fits : ∀ i, t.Fits v σ i (τ i) := by
    intro i
    induction i with
    | zero => exact fitsStart
    | succ i ih => exact fitsNext i (τ i) ih
  exact ⟨τ, initial, Fits.state faithful fitsStart, fun i => edge i (τ i) (fits i),
    fun promise bound i => Fits.fulfilled faithful fits bound i⟩

theorem holds_of_accepts (faithful : t.Faithful) (accepts : t.Accepts v σ) :
    t.negated.Holds v σ 0 := by
  obtain ⟨τ, run⟩ := accepts
  obtain ⟨node, here, seeded⟩ := faithful.initialSeeded (τ 0) run.initial
  exact run.holds faithful t.negated 0 node here seeded

theorem holds_counterexample (assumption : Option Formula) (property : Formula) :
    (counterexample assumption property).Holds v σ 0 ↔
      (∀ f ∈ assumption, f.Holds v σ 0) ∧ ¬property.Holds v σ 0 := by
  cases assumption with
  | none => simp [counterexample, Formula.holds_normal_iff]
  | some f => simp [counterexample, Formula.holds_normal_iff]

theorem build_faithful {assumption : Option Formula} {property : Formula}
    (built : build assumption property = .ok t) :
    t.Faithful ∧ t.negated = counterexample assumption property := by
  unfold build at built
  split at built
  · contradiction
  · split at built
    · contradiction
    · exact ofNormalForm_faithful built

/-- A tableau that was built accepts exactly the behaviours that meet the assumption, if there is
one, and violate the property. -/
theorem build_accepts_iff {assumption : Option Formula} {property : Formula}
    (built : build assumption property = .ok t) (v : Valuation State) (σ : Behaviour State) :
    t.Accepts v σ ↔ (∀ f ∈ assumption, f.Holds v σ 0) ∧ ¬property.Holds v σ 0 := by
  obtain ⟨faithful, negated⟩ := build_faithful built
  rw [← holds_counterexample, ← negated]
  exact ⟨holds_of_accepts faithful, accepts_of_holds faithful⟩

/-- A counter whose steps all satisfy the assumption and which never reaches what is promised. -/
theorem build_accepts_counting :
    ∃ t, build (some (.always (.atom (.action 1)))) (.eventually (.atom (.state 0))) = .ok t ∧
      t.Accepts ⟨fun _ _ => false, fun _ s s' => s < s'⟩ (fun i : Nat => i) := by
  have built : (build (some (.always (.atom (.action 1))))
      (.eventually (.atom (.state 0)))).isOk = true := by decide +kernel
  cases result : build (some (.always (.atom (.action 1)))) (.eventually (.atom (.state 0))) with
  | error r => simp [result, Except.isOk, Except.toBool] at built
  | ok t => exact ⟨t, rfl, (build_accepts_iff result _ _).mpr (by simp)⟩

end Tableau
end TemporalCheck
