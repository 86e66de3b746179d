import TemporalCheck.Proofs.Monitor.Exact
import TemporalCheck.Proofs.Product.Calls
import TemporalCheck.Proofs.Session.Replay

/-! A call that is made again. What has been judged is judged in the same way again, what has been
placed is found again, and every node on the source was expanded the first time, those included that
the first call added. So the second call changes nothing, nor does one that is given some of the
same states only. -/
namespace TemporalCheck

variable {State : Type} {model model' : Model State} {s t : Session}

def Growth.onto (g : Growth State) (f : Product State → Session → Growth State) : Growth State :=
  match g.failure with
  | some _ => g
  | none => (f g.product g.session).after g.created

theorem Growth.onto_of_failed {g : Growth State} {e : EvalError} (failed : g.failure = some e)
    (f : Product State → Session → Growth State) : g.onto f = g := by
  rw [onto, failed]

theorem Growth.onto_of_done {g : Growth State} (done : g.failure = none)
    (f : Product State → Session → Growth State) :
    g.onto f = (f g.product g.session).after g.created := by
  rw [onto, done]

namespace Product

variable {p q : Product State} {id : NodeId} {next fewer : List (Keyed State)} {e : EvalError}

section Again

variable {x : Placement State} {xs : List (Placement State)}

/-- A placement that was made before changes nothing. -/
theorem place_again {p' : Product State} (placed : Placed p p' x id) (valid : q.Valid)
    (within : p'.Within q) : q.place x = q := by
  have found := find?_within placed.valid valid within placed.found
  have ensured : q.ensure x.key x.state = (id, [], q) := by simp [ensure, found]
  rw [place_eq, ensured]
  cases source : x.source with
  | none =>
    have listed : id ∈ q.initial := by
      have earlier := (placed.initial id).mpr (.inr ⟨source, rfl⟩)
      rw [← Array.mem_toList_iff] at earlier ⊢
      exact within.initial.subset earlier
    obtain ⟨node, at_id, flagged⟩ := (valid.initial id).mp listed
    simp [markInitial, at_id, flagged]
  | some u =>
    have edge : id ∈ q.successors u :=
      within.mem_successors ((placed.successors u id).mpr (.inr ⟨source, rfl⟩))
    simp [addEdge, (hasEdge_iff valid).mpr edge]

/-- Nor does any of several placements that were made before. -/
theorem place_of_mem (valid : p.Valid) (sourced : Sourced p xs) (valid' : q.Valid)
    (within : (xs.foldl place p).Within q) (member : x ∈ xs) : q.place x = q := by
  induction xs generalizing p with
  | nil => simp at member
  | cons y rest ih =>
    obtain ⟨bound, sourced⟩ := sourced
    obtain ⟨id, placed⟩ := placed valid bound
    rcases List.mem_cons.mp member with rfl | later
    · exact place_again placed valid' ((built placed.valid sourced).within.trans within)
    · exact ih placed.valid sourced within later

end Again

section Node

def onward (p : Product State) (id : NodeId) (next : List (Keyed State)) :
    List ((Keyed State × TableauId) × List (Condition State)) :=
  match p.nodes[id]? with
  | none => []
  | some node =>
    match p.state? node.key.fingerprint with
    | none => []
    | some state => p.moves node.key.tableau ⟨node.key.fingerprint, state⟩ next

def settle (p : Product State) (id : NodeId) :
    Except EvalError (List (Keyed State × TableauId)) × Session → Growth State
  | (.error e, s) => { product := p, session := s, failure := some e }
  | (.ok chosen, s) =>
    { product := (p.linkAll id chosen).2, session := s, created := (p.linkAll id chosen).1 }

theorem expandNode_eq :
    p.expandNode model s id next = p.settle id (s.select model (p.onward id next)) := by
  unfold expandNode onward
  cases p.nodes[id]? with
  | none => rfl
  | some node =>
    dsimp only
    cases p.state? node.key.fingerprint with
    | none => rfl
    | some state =>
      dsimp only
      rcases s.select model _ with ⟨_ | _, _⟩ <;> rfl

theorem expandNode_recalls : s.Recalls (p.expandNode model s id next).session := by
  have recalls := (Session.replays_select (p.onward id next)).recalls model s
  rw [expandNode_eq]
  generalize s.select model _ = result at recalls ⊢
  obtain ⟨_ | _, s'⟩ := result
  · exact recalls
  · exact recalls

/-- A node is expanded when all its moves were judged. -/
theorem exists_chosen (done : (p.expandNode model s id next).failure = none) :
    ∃ chosen, s.select model (p.onward id next) =
        (.ok chosen, (p.expandNode model s id next).session) ∧
      (p.expandNode model s id next).product = (p.linkAll id chosen).2 := by
  rw [expandNode_eq] at done ⊢
  cases selected : s.select model (p.onward id next) with
  | mk result s' =>
    rw [selected] at done
    cases result with
    | error e => simp [settle] at done
    | ok chosen => exact ⟨chosen, rfl, rfl⟩

theorem onward_within (within : p.Within q) {node : Node} (valid : p.Valid)
    (at_id : p.nodes[id]? = some node) : q.onward id next = p.onward id next := by
  obtain ⟨state, stored⟩ := (valid.stored node.key.fingerprint).mpr
    ⟨id, (valid.column _ id).mpr ⟨node, at_id, rfl⟩⟩
  obtain ⟨node', at_id', later⟩ := within.nodes id node at_id
  have stored' := within.states _ _ stored
  simp only [onward, at_id, at_id', later.key, stored, stored', moves, within.tableau]

theorem onward_subset (among : fewer ⊆ next) : p.onward id fewer ⊆ p.onward id next := by
  unfold onward
  cases p.nodes[id]? with
  | none => exact List.Subset.refl _
  | some node =>
    dsimp only
    cases p.state? node.key.fingerprint with
    | none => exact List.Subset.refl _
    | some state =>
      intro move member
      obtain ⟨k, given, offered⟩ := List.mem_flatMap.mp member
      exact List.mem_flatMap.mpr ⟨k, among given, offered⟩

/-- Links that were made before change nothing. -/
theorem links_again (valid : p.Valid) (bound : id < p.size) (valid' : q.Valid)
    {chosen again : List (Keyed State × TableauId)} (among : again ⊆ chosen)
    (within : (p.linkAll id chosen).2.Within q) : q.linkAll id again = ([], q) := by
  have sourced : Sourced p (chosen.map (⟨some id, ·⟩ : _ → Placement State)) := by
    refine sourced_of_lt valid fun x member id' source => ?_
    obtain ⟨_, _, rfl⟩ := List.mem_map.mp member
    obtain rfl := Option.some.inj source
    exact bound
  rw [linkAll_eq] at within
  induction again with
  | nil => rfl
  | cons target rest ih =>
    obtain ⟨here, rest⟩ := List.cons_subset.mp among
    have known : (q.link id target).2 = q :=
      place_of_mem valid sourced valid' within (List.mem_map_of_mem here)
    have nothing : (q.link id target).1 = [] := (q.link_adds id target).eq_nil (by rw [known])
    simp only [linkAll, known, nothing, ih rest, List.nil_append]

theorem within_expandNode (valid : p.Valid) (model : Model State) (s : Session) (id : NodeId)
    (next : List (Keyed State)) :
    (p.expandNode model s id next).product.Valid ∧
      p.Within (p.expandNode model s id next).product := by
  have built := (@expandNode_from _ p model s next valid id).built valid
  exact ⟨built.valid, built.within⟩

/-- A node that was expanded is expanded again to no effect, also if not all states are given. -/
theorem expandNode_again (valid : p.Valid) {node : Node} (at_id : p.nodes[id]? = some node)
    (done : (p.expandNode model s id next).failure = none)
    (concurs : model.Concurs model' (s.askedFor model (p.onward id next)))
    (among : fewer ⊆ next) (valid' : q.Valid)
    (within : (p.expandNode model s id next).product.Within q)
    (recalls : (p.expandNode model s id next).session.Recalls t) :
    ∃ t', q.expandNode model' t id fewer = { product := q, session := t' } ∧ t.SameMemory t' := by
  have before : p.Within q := (within_expandNode valid model s id next).2.trans within
  obtain ⟨chosen, selected, grown⟩ := exists_chosen done
  obtain ⟨again, t', repeated, known, same⟩ :=
    Session.select_again selected concurs (onward_subset among) recalls
  rw [grown] at within
  refine ⟨t', ?_, same⟩
  rw [expandNode_eq, onward_within before valid at_id, repeated, settle,
    links_again valid (lt_size at_id) valid' known within]

end Node

section Starts

variable {k : Keyed State} {tab : TableauId} {conditions : List (Condition State)}
  {starts rest : List ((Keyed State × TableauId) × List (Condition State))} {s' : Session}

theorem beginAll_of_refused (refused : s.testAll model conditions = (.error e, s')) :
    beginAll model (((k, tab), conditions) :: starts) p s =
      { product := p, session := s', failure := some e } := by
  simp [beginAll, refused]

def enter (p : Product State) (k : Keyed State) (tab : TableauId) (admitted : Bool) :
    List NodeId × Product State :=
  if admitted then p.begin k tab else ([], p)

theorem beginAll_of_tested {admitted : Bool}
    (tested : s.testAll model conditions = (.ok admitted, s')) :
    beginAll model (((k, tab), conditions) :: starts) p s =
      (beginAll model starts (p.enter k tab admitted).2 s').after (p.enter k tab admitted).1 := by
  cases admitted <;> simp [beginAll, tested, enter, Growth.after]

theorem beginAll_recalls : s.Recalls (beginAll model starts p s).session := by
  induction starts generalizing p s with
  | nil => exact .refl s
  | cons start rest ih =>
    obtain ⟨⟨k, tab⟩, conditions⟩ := start
    have recalls := (Session.replays_testAll conditions).recalls model s
    cases tested : s.testAll model conditions with
    | mk result s' =>
      rw [tested] at recalls
      cases result with
      | error e =>
        rw [beginAll_of_refused tested]
        exact recalls
      | ok admitted =>
        rw [beginAll_of_tested tested]
        exact recalls.trans ih

theorem starts_within (within : p.Within q) (states : List (Keyed State)) :
    q.starts states = p.starts states := by
  simp only [Product.starts, within.tableau]

theorem starts_subset (among : fewer ⊆ next) : p.starts fewer ⊆ p.starts next := by
  intro start member
  obtain ⟨k, given, offered⟩ := List.mem_flatMap.mp member
  exact List.mem_flatMap.mpr ⟨k, among given, offered⟩

/-- What was done for a start is there already when it comes round again. -/
theorem begin_again (valid : p.Valid) (k : Keyed State) (tab : TableauId) (admitted : Bool) :
    (p.enter k tab admitted).2.Valid ∧ ∀ q : Product State, q.Valid →
      (p.enter k tab admitted).2.Within q → q.enter k tab admitted = ([], q) := by
  cases admitted with
  | true =>
    obtain ⟨id, placed⟩ := placed (x := ⟨none, (k, tab)⟩) valid (by simp)
    refine ⟨placed.valid, fun q valid' within => ?_⟩
    have known : (q.begin k tab).2 = q := place_again placed valid' within
    exact Prod.ext ((q.begin_adds k tab).eq_nil (by rw [known])) known
  | false => exact ⟨valid, fun _ _ _ => rfl⟩

/-- A start that was judged is judged in the same way again, and nothing is left to do about it. -/
theorem judged_of_beginAll (valid : p.Valid) (done : (beginAll model starts p s).failure = none)
    (member : ((k, tab), conditions) ∈ starts) : ∃ admitted : Bool,
      (∀ q : Product State, q.Valid → (beginAll model starts p s).product.Within q →
        q.enter k tab admitted = ([], q)) ∧
      ∀ t, (beginAll model starts p s).session.Recalls t →
        ∃ t', t.testAll model conditions = (.ok admitted, t') ∧ t.SameMemory t' := by
  induction starts generalizing p s with
  | nil => simp at member
  | cons start rest ih =>
    obtain ⟨⟨k', tab'⟩, conditions'⟩ := start
    cases tested : s.testAll model conditions' with
    | mk result s' =>
      cases result with
      | error e =>
        rw [beginAll_of_refused tested] at done
        simp at done
      | ok admitted =>
        rw [beginAll_of_tested tested] at done ⊢
        obtain ⟨valid', again⟩ := begin_again valid k' tab' admitted
        rcases List.mem_cons.mp member with here | later
        · obtain ⟨⟨rfl, rfl⟩, rfl⟩ : (k = k' ∧ tab = tab') ∧ conditions = conditions' := by
            simpa using here
          have built := (@beginAll_from _ _ model valid' rest s').built valid'
          refine ⟨admitted, fun q valid within => again q valid (built.within.trans within),
            fun t recalls => ?_⟩
          exact (Session.replays_testAll conditions).replay tested (.refl _)
            (beginAll_recalls.trans recalls)
        · exact ih valid' done later

theorem beginAll_again (valid : p.Valid) (done : (beginAll model starts p s).failure = none)
    (among : rest ⊆ starts) (valid' : q.Valid)
    (within : (beginAll model starts p s).product.Within q)
    (recalls : (beginAll model starts p s).session.Recalls t) :
    ∃ t', beginAll model rest q t = { product := q, session := t' } ∧ t.SameMemory t' := by
  induction rest generalizing t with
  | nil => exact ⟨t, rfl, .refl t⟩
  | cons start rest ih =>
    obtain ⟨⟨k, tab⟩, conditions⟩ := start
    obtain ⟨here, among⟩ := List.cons_subset.mp among
    obtain ⟨admitted, again, judged⟩ := judged_of_beginAll valid done here
    obtain ⟨t', tested, same⟩ := judged t recalls
    obtain ⟨t'', onward, same'⟩ := ih among (recalls.trans same.recalls)
    refine ⟨t'', ?_, same.trans same'⟩
    rw [beginAll_of_tested tested, again q valid' within, onward]
    rfl

end Starts

section Column

variable {source : Fingerprint} {fuel i : Nat}

theorem extendFrom_onto (at_i : (p.nodesOn source)[i]? = some id) :
    extendFrom model source next (fuel + 1) i p s =
      (p.expandNode model s id next).onto (extendFrom model source next fuel (i + 1)) := by
  rw [extendFrom, at_i]
  rfl

theorem extendFrom_recalls :
    s.Recalls (extendFrom model source next fuel i p s).session := by
  induction fuel generalizing i p s with
  | zero => exact .refl s
  | succ fuel ih =>
    cases at_i : (p.nodesOn source)[i]? with
    | none =>
      rw [extendFrom, at_i]
      exact .refl s
    | some id =>
      rw [extendFrom_onto at_i, Growth.onto]
      cases (p.expandNode model s id next).failure with
      | some e => exact expandNode_recalls
      | none => exact expandNode_recalls.trans ih

theorem within_extendFrom (valid : p.Valid) (model : Model State) (source : Fingerprint)
    (next : List (Keyed State)) (fuel i : Nat) (s : Session) :
    (extendFrom model source next fuel i p s).product.Valid ∧
      p.Within (extendFrom model source next fuel i p s).product := by
  have built := (@extendFrom_from _ p model s next valid source fuel i).built valid
  exact ⟨built.valid, built.within⟩

/-- The nodes on the fingerprint were expanded, also those that were added on the way. -/
theorem expanded_of_extendFrom (valid : p.Valid)
    (done : (extendFrom model source next fuel i p s).failure = none) {j : Nat} (low : i ≤ j)
    (high : j < i + fuel)
    (at_j : ((extendFrom model source next fuel i p s).product.nodesOn source)[j]? = some id)
    (among : fewer ⊆ next) (valid' : q.Valid)
    (within : (extendFrom model source next fuel i p s).product.Within q)
    (recalls : (extendFrom model source next fuel i p s).session.Recalls t) :
    ∃ t', q.expandNode model t id fewer = { product := q, session := t' } ∧ t.SameMemory t' := by
  induction fuel generalizing i p s with
  | zero => omega
  | succ fuel ih =>
    cases at_i : (p.nodesOn source)[i]? with
    | none =>
      rw [extendFrom, at_i] at at_j
      have beyond : (p.nodesOn source)[j]? = none :=
        List.getElem?_eq_none ((List.getElem?_eq_none_iff.mp at_i).trans low)
      rw [beyond] at at_j
      contradiction
    | some id' =>
      rw [extendFrom_onto at_i] at done at_j within recalls
      cases here : (p.expandNode model s id' next).failure with
      | some e =>
        rw [Growth.onto_of_failed here, here] at done
        contradiction
      | none =>
        simp only [Growth.onto_of_done here, Growth.product_after, Growth.session_after,
          Growth.failure_after] at done at_j within recalls
        obtain ⟨validNode, withinNode⟩ := within_expandNode valid model s id' next
        obtain ⟨_, onward⟩ := within_extendFrom validNode model source next fuel (i + 1)
          (p.expandNode model s id' next).session
        -- later nodes do not move an earlier one from its place on the fingerprint
        by_cases now : j = i
        · subst now
          obtain ⟨added, longer⟩ := (withinNode.trans onward).columns source
          have bound := (List.getElem?_eq_some_iff.mp at_i).1
          rw [← longer, List.getElem?_append_left bound, at_i] at at_j
          obtain rfl := Option.some.inj at_j
          obtain ⟨node, at_id, _⟩ := (valid.column source id').mp (List.mem_of_getElem? at_i)
          exact expandNode_again valid at_id here (.refl _) among valid' (onward.trans within)
            (extendFrom_recalls.trans recalls)
        · exact ih validNode done (by omega) (by omega) at_j within recalls

/-- Where expanding the nodes on a fingerprint is without effect, so is extending it. -/
theorem extendFrom_of_expanded {u : Session}
    (expanded : ∀ j id, i ≤ j → j < i + fuel → (q.nodesOn source)[j]? = some id →
      ∀ t, u.Recalls t → ∃ t', q.expandNode model t id next = { product := q, session := t' } ∧
        t.SameMemory t') (recalls : u.Recalls t) :
    ∃ t', extendFrom model source next fuel i q t = { product := q, session := t' } ∧
      t.SameMemory t' := by
  induction fuel generalizing i t with
  | zero => exact ⟨t, rfl, .refl t⟩
  | succ fuel ih =>
    cases at_i : (q.nodesOn source)[i]? with
    | none =>
      rw [extendFrom, at_i]
      exact ⟨t, rfl, .refl t⟩
    | some id =>
      obtain ⟨t', here, same⟩ := expanded i id (by omega) (by omega) at_i t recalls
      have others := fun j id (low : i + 1 ≤ j) (high : j < i + 1 + fuel) =>
        expanded j id (by omega) (by omega)
      obtain ⟨t'', onward, same'⟩ := ih others (recalls.trans same.recalls)
      refine ⟨t'', ?_, same.trans same'⟩
      rw [extendFrom_onto at_i, here, Growth.onto_of_done rfl, onward]
      rfl

end Column

def Call.repeated (s : Session) (given : List (Keyed State)) : Call State → Call State
  | .extendInitial model _ _ => .extendInitial model s given
  | .extend model _ source _ => .extend model s source given
  | .expandNode model _ id _ => .expandNode model s id given

theorem Call.repeat_idle (valid : p.Valid) {call : Call State}
    (done : (call.run p).failure = none) (among : fewer ⊆ call.given) :
    ∃ t, (call.repeated (call.run p).session fewer).run (call.run p).product =
      { product := (call.run p).product, session := t } ∧ (call.run p).session.SameMemory t := by
  obtain ⟨valid', within⟩ : (call.run p).product.Valid ∧ p.Within (call.run p).product :=
    ⟨((call.run_from valid).built valid).valid, ((call.run_from valid).built valid).within⟩
  cases call with
  | extendInitial model s states =>
    change ∃ t, beginAll model (starts _ fewer) _ _ = _ ∧ _
    rw [starts_within within]
    exact beginAll_again valid done (starts_subset among) valid' (.refl _) (.refl _)
  | extend model s source next =>
    change ∃ t, extendFrom model source fewer (Tableau.size _) 0 _ _ = _ ∧ _
    rw [within.tableau]
    refine extendFrom_of_expanded (fun j id low high at_j t recalls => ?_) (.refl _)
    exact expanded_of_extendFrom valid done low high at_j among valid' (.refl _) recalls
  | expandNode model s id next =>
    cases at_id : p.nodes[id]? with
    | some node =>
      exact expandNode_again valid at_id done (.refl _) among valid' (.refl _) (.refl _)
    | none =>
      have idle (s : Session) (next : List (Keyed State)) :
          p.expandNode model s id next = { product := p, session := s } := by
        simp [Product.expandNode, at_id]
      simp only [Call.repeated, Call.run, idle]
      exact ⟨s, rfl, .refl s⟩

/-- A call that was not stopped, in a product grown by any calls whatever, is without effect when it
is made again at once, with the same states or some of them: it adds no node, no edge and no initial
node, changes no state and counts nothing, and it is not stopped either. -/
theorem repeated_call (t : Tableau) (calls : List (Call State)) (call : Call State) :
    let p := ({ tableau := t } : Product State).grow calls
    let grown := call.run p
    grown.failure = none → ∀ given ⊆ call.given,
      let again := (call.repeated grown.session given).run grown.product
      again.product = grown.product ∧ again.failure = none ∧ again.created = [] ∧
        grown.session.SameMemory again.session := by
  intro p grown done given among again
  have valid : p.Valid := valid_grow t calls
  obtain ⟨s, idle, same⟩ := Call.repeat_idle valid done among
  change again = _ at idle
  rw [idle]
  exact ⟨rfl, rfl, rfl, same⟩

section Lamp

open Monitor (lamp)

/-- Two nodes, the second for lamps that are off and then take a step. -/
def watched : Tableau :=
  .ofNodes (.const false) (.const true) {}
    #[⟨[], [], [], [], [0, 1], 0, 0⟩, ⟨[], [⟨0, false⟩], [⟨1, true⟩], [], [1], 0, 0⟩] [0] []

/-- A lamp that is off may stay off. Its expansion adds a node that is then expanded as well, and
nothing of it is left to do when the step is given again. -/
theorem repeated_call_watched :
    let off : Keyed Bool := ⟨0, false⟩
    let p := ({ tableau := watched } : Product Bool).grow [.extendInitial lamp {} [off]]
    let call : Call Bool := .extend lamp {} 0 [off, ⟨1, true⟩, off]
    let grown := call.run p
    let again := (call.repeated grown.session [off]).run grown.product
    p.nodesOn 0 = [0] ∧ grown.product.nodesOn 0 = [0, 1] ∧ grown.failure = none ∧
      again.product = grown.product ∧ again.failure = none := by
  intro off p call grown again
  have done : grown.failure = none := by decide +kernel
  obtain ⟨same, complete, _⟩ := repeated_call watched _ call done [off] (by decide)
  exact ⟨by decide +kernel, by decide +kernel, done, same, complete⟩

end Lamp

end Product
end TemporalCheck
