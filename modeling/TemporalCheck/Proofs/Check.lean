import TemporalCheck.Check
import TemporalCheck.Proofs.Atoms
import TemporalCheck.Proofs.Exploration
import TemporalCheck.Proofs.Monitor.Verdict
import TemporalCheck.Proofs.Product.Behaviour

/-! What the verdicts of a check mean. A property that is reported to be satisfied holds of every
fair behaviour of the model, and the lasso of a violation is a fair behaviour of the model that
violates the property. -/
namespace TemporalCheck

variable {State : Type} {model : Model State} {settings : Settings} {fairness : List Formula}
  {properties : List (String × Formula)} {i : Nat} {name : String} {property : Formula}
  {t : Tableau}

section Assumption

theorem forall_foldl {α β : Type} {P : β → Prop} {Q : α → Prop} {g : β → α → β}
    (step : ∀ b a, P (g b a) ↔ P b ∧ Q a) (as : List α) (b : β) :
    P (as.foldl g b) ↔ P b ∧ ∀ a ∈ as, Q a := by
  induction as generalizing b with
  | nil => simp
  | cons a as ih => rw [List.foldl_cons, ih, step, List.forall_mem_cons, and_assoc]

/-- What is true of a conjunction just when it is true of both sides is true of the assumption just
when it is true of all that is assumed. -/
theorem forall_assumption {Q : Formula → Prop}
    (conj : ∀ f g, Q (Formula.conj [f, g]) ↔ Q f ∧ Q g) :
    (∀ f ∈ assumption fairness, Q f) ↔ ∀ f ∈ fairness, Q f := by
  unfold assumption
  rw [forall_foldl (P := fun assumed : Option Formula => ∀ f ∈ assumed, Q f) (Q := Q)]
  · simp
  · intro assumed f
    cases assumed with
    | none => simp
    | some g => simp [conj]

theorem holds_assumption {v : Valuation State} {σ : Behaviour State} :
    (∀ f ∈ assumption fairness, f.Holds v σ 0) ↔ ∀ f ∈ fairness, f.Holds v σ 0 :=
  forall_assumption fun f g => by simp

theorem asks_assumption {a : Atom} (asks : ∃ f ∈ assumption fairness, f.Asks a) :
    ∃ f ∈ fairness, f.Asks a := by
  by_contra silent
  have unasked : ∀ f ∈ assumption fairness, ¬f.Asks a :=
    (forall_assumption fun f g => by simp).mpr fun f member asks => silent ⟨f, member, asks⟩
  obtain ⟨f, member, asks⟩ := asks
  exact unasked f member asks

end Assumption

theorem Feed.withReaders_empty (n : Nat) : (Feed.withReaders n : Feed State).states = ∅ ∧
    (Feed.withReaders n : Feed State).events = #[] ∧
    (Feed.withReaders n : Feed State).status = .running := by
  induction n with
  | zero => exact ⟨rfl, rfl, rfl⟩
  | succ n ih => exact ih

def monitoredCount (fairness : List Formula) (properties : List (String × Formula)) : Nat :=
  (properties.filter fun row => (Tableau.build (assumption fairness) row.2).toOption.isSome).length

def exploredFeed (model : Model State) (settings : Settings) (fairness : List Formula)
    (properties : List (String × Formula)) : Feed State :=
  ((Feed.withReaders (monitoredCount fairness properties)).exploreModel model
    settings.exploration {}).2.1

theorem monitoredCount_ne_zero (listed : properties[i]? = some (name, property))
    (built : Tableau.build (assumption fairness) property = .ok t) :
    monitoredCount fairness properties ≠ 0 := by
  have member : (name, property) ∈ properties.filter fun row =>
      (Tableau.build (assumption fairness) row.2).toOption.isSome :=
    List.mem_filter.mpr ⟨List.mem_of_getElem? listed, by simp [built, Except.toOption]⟩
  exact fun empty => List.ne_nil_of_mem member (List.eq_nil_of_length_eq_zero empty)

/-- A property with a tableau is monitored on the explored feed, which is sound, and complete when
it is exhausted. -/
theorem check_monitored (listed : properties[i]? = some (name, property))
    (built : Tableau.build (assumption fairness) property = .ok t) :
    let feed := exploredFeed model settings fairness properties
    (check model settings fairness properties).feedStatus = feed.status ∧
      feed.Sound model settings.stuttering feed.events.toList ∧
      (feed.status = .exhausted → feed.Complete model feed.events.toList) ∧
      (check model settings fairness properties).properties[i]? =
        some ((Monitor.start name t settings).run model feed) := by
  intro feed
  have counted : ((properties.map fun row =>
      (row.1, Tableau.build (assumption fairness) row.2)).filter (·.2.toOption.isSome)).length =
      monitoredCount fairness properties := by
    rw [List.filter_map, List.length_map]
    rfl
  obtain ⟨stateless, eventless, running⟩ :=
    @Feed.withReaders_empty State (monitoredCount fairness properties)
  obtain ⟨status, sound, complete⟩ :=
    @Feed.exploreModel_spec State _ model settings.exploration stateless eventless running {}
  unfold check
  dsimp only
  rw [counted]
  simp only [monitoredCount_ne_zero listed built, if_false]
  refine ⟨status.symm, sound, fun exhausted => complete (status ▸ exhausted), ?_⟩
  rw [List.getElem?_map, List.getElem?_map, listed, Option.map_some, Option.map_some]
  dsimp only
  rw [built]
  rfl

/-- The outcome of a report, from a list of the verdicts. -/
theorem outcome_of_verdicts {reports : List (PropertyReport State)}
    {report : PropertyReport State} {verdicts : List (Option (Verdict State))}
    {verdict : Verdict State} (reported : reports[i]? = some report)
    (known : reports.map (·.verdict?) = verdicts) (here : verdicts[i]? = some (some verdict)) :
    report.outcome = .ok verdict := by
  rw [← known, List.getElem?_map, reported, Option.map_some, Option.some.injEq,
    PropertyReport.verdict?] at here
  cases outcome : report.outcome with
  | error e => simp [outcome, Except.toOption] at here
  | ok v => simpa [outcome, Except.toOption] using here

theorem Feed.Sound.once {stuttering : Bool} {feed : Feed State}
    (sound : feed.Sound model stuttering feed.events.toList) :
    Scene.Once ⟨model, feed.state?, t, feed.events.toList⟩ :=
  fun _ _ _ told told' => eq_of_nodup_sources sound.distinct told told'

theorem Monitor.run_concludes {stuttering : Bool} {feed : Feed State}
    (sound : feed.Sound model stuttering feed.events.toList) (name : String) (settings : Settings) :
    Monitor.Concludes ⟨model, feed.state?, t, feed.events.toList⟩ feed.status
      ((Monitor.start name t settings).run model feed).outcome :=
  @Monitor.drive_spec _ ⟨model, feed.state?, t, feed.events.toList⟩ feed rfl rfl sound.once name
    settings

/-- An evaluation error in a report stopped the monitor: it is what a call of the monitor came
to. -/
theorem Monitor.stops_of_refused {stuttering : Bool} {feed : Feed State} {e : EvalError}
    (sound : feed.Sound model stuttering feed.events.toList)
    (outcome : ((Monitor.start name t settings).run model feed).outcome =
      .ok (.indeterminate (.evaluation e)))
    (refused : Scene.Refused ⟨model, feed.state?, t, feed.events.toList⟩ e) :
    (Monitor.start name t settings).Stops model feed e := by
  rcases @Monitor.stops_or_found_of_refused _ ⟨model, feed.state?, t, feed.events.toList⟩ feed name
    settings e rfl rfl sound.once refused with ⟨e', stops, outcome'⟩ | ⟨_, decided⟩
  · obtain rfl : e = e' := by simpa using outcome.symm.trans outcome'
    exact stops
  · exact absurd outcome (decided _)

/-- How the report of a monitored property comes about. -/
theorem check_concludes (listed : properties[i]? = some (name, property))
    (built : Tableau.build (assumption fairness) property = .ok t) :
    ∃ (feed : Feed State) (report : PropertyReport State),
      (check model settings fairness properties).feedStatus = feed.status ∧
      feed.Sound model settings.stuttering feed.events.toList ∧
      (feed.status = .exhausted → feed.Complete model feed.events.toList) ∧
      (check model settings fairness properties).properties[i]? = some report ∧
      Monitor.Concludes ⟨model, feed.state?, t, feed.events.toList⟩ feed.status report.outcome := by
  obtain ⟨status, sound, complete, reported⟩ :=
    @check_monitored _ model settings _ _ _ _ _ _ listed built
  exact ⟨_, _, status, sound, complete, reported, Monitor.run_concludes sound name settings⟩

section Satisfied

variable {feed : Feed State} {p : Product State}

/-- In a complete exact product, a fair behaviour that violates the property would leave a violating
component. -/
theorem holds_of_clear (built : Tableau.build (assumption fairness) property = .ok t)
    (sound : feed.Sound model settings.stuttering feed.events.toList)
    (complete : feed.Complete model feed.events.toList) (separates : model.Separates)
    (answers : ∀ a, (∃ f ∈ fairness, f.Asks a) ∨ property.Asks a →
      model.Answers settings.stuttering a)
    (part : Product.Part ⟨model, feed.state?, t, feed.events.toList⟩ p)
    (whole : Product.Whole ⟨model, feed.state?, t, feed.events.toList⟩ p) (clear : p.Clear)
    {σ : Behaviour State} (behaves : model.Behaves settings.stuttering σ)
    (fair : ∀ f ∈ fairness, f.Holds model.valuation σ 0) : property.Holds model.valuation σ 0 := by
  by_contra violated
  obtain ⟨faithful, negated⟩ := Tableau.build_faithful built
  have holds : t.negated.Holds model.valuation σ 0 := by
    rw [negated, Tableau.holds_counterexample, holds_assumption]
    exact ⟨fair, violated⟩
  obtain ⟨τ, run⟩ := Tableau.accepts_of_holds faithful holds
  have stored (i : Nat) : feed.state? (model.fingerprint (σ i)) = some (σ i) :=
    complete.stored sound separates (behaves.reachable i)
  have ofState {node : Tableau.Node} (member : node ∈ t.nodes) {l : Literal}
      (asked : l ∈ node.state) : model.Answers settings.stuttering (.state l.predicate) :=
    answers _ (((Tableau.asks_of_build built member).1 l asked).imp_left asks_assumption)
  have ofAction {node : Tableau.Node} (member : node ∈ t.nodes) {l : Literal}
      (asked : l ∈ node.action) : model.Answers settings.stuttering (.action l.predicate) :=
    answers _ (((Tableau.asks_of_build built member).2 l asked).imp_left asks_assumption)
  have starts : Scene.Starts ⟨model, feed.state?, t, feed.events.toList⟩
      ⟨model.fingerprint (σ 0), τ 0⟩ := by
    obtain ⟨node, at_id, admitted⟩ := run.admitted
    refine ⟨complete.starts behaves.starts, σ 0, stored 0,
      Tableau.admits_iff.mpr ⟨run.initial, node, at_id, fun l asked => ?_⟩⟩
    exact Model.holds_of_holdsOn (ofState (Array.mem_of_getElem? at_id) asked)
      (behaves.reachable 0) (admitted l asked)
  have moves (i : Nat) : Scene.Moves ⟨model, feed.state?, t, feed.events.toList⟩
      ⟨model.fingerprint (σ i), τ i⟩ ⟨model.fingerprint (σ (i + 1)), τ (i + 1)⟩ := by
    obtain ⟨next, told, listed⟩ :=
      complete.steps sound separates (behaves.reachable i) (behaves.steps i)
    obtain ⟨e, member, target, along, on⟩ := run.steps i
    obtain ⟨node, node', at_source, _, at_target, shape⟩ := Tableau.mem_edgesFrom.mp member
    refine ⟨next, told, listed, σ i, σ (i + 1), stored i, stored (i + 1), e, member, target,
      Tableau.holds_conditions_iff.mpr ⟨fun l asked => ?_, fun l asked => ?_⟩⟩
    · have source : l ∈ node.action := by rwa [shape] at asked
      exact Model.holds_of_holdsAlong (ofAction (Array.mem_of_getElem? at_source) source)
        (behaves.reachable i) (behaves.steps i) (along l asked)
    · have aim : l ∈ node'.state := by rwa [shape] at asked
      exact Model.holds_of_holdsOn (ofState (Array.mem_of_getElem? at_target) aim)
        (behaves.reachable (i + 1)) (on l asked)
  obtain ⟨ρ, accepting⟩ := Product.exists_accepting part whole starts moves run.fulfilled
  obtain ⟨component, member, violating⟩ := accepting.exists_violating
  simp [clear component member] at violating

/-- What a monitor is refused is the answer to an atom of the property or of an assumption. -/
theorem refuses_of_refused (built : Tableau.build (assumption fairness) property = .ok t)
    (sound : feed.Sound model settings.stuttering feed.events.toList) {e : EvalError}
    (refused : Scene.Refused ⟨model, feed.state?, t, feed.events.toList⟩ e) :
    model.Refuses {a | (∃ f ∈ fairness, f.Asks a) ∨ property.Asks a} e := by
  obtain ⟨⟨l, k, next⟩, ⟨here, there⟩, failed, node, member, asked⟩ := refused.question
  have reachable := (sound.stored _ _ here).1
  obtain ⟨ofState, ofAction⟩ := Tableau.asks_of_build built member
  cases next with
  | none =>
    exact ⟨k.state, reachable, .inl ⟨l.predicate, (ofState l asked).imp_left asks_assumption,
      failed⟩⟩
  | some k' =>
    exact ⟨k.state, reachable, .inr ⟨l.predicate, k'.state,
      (ofAction l asked).imp_left asks_assumption, (sound.stored _ _ (there k' rfl)).1, failed⟩⟩

/-- A property that is reported to be satisfied has been checked on everything, and holds of every
behaviour of which the assumptions hold. When everything was explored, a property is satisfied or
violated, unless a call of its monitor has failed, where the model refused to answer one of the
atoms. -/
theorem check_misses_nothing (model : Model State) (settings : Settings) (fairness : List Formula)
    (properties : List (String × Formula)) (listed : properties[i]? = some (name, property))
    (accepted : Tableau.build (assumption fairness) property = .ok t) :
    ∃ report, (check model settings fairness properties).properties[i]? = some report ∧
      (model.Separates →
        (∀ a, (∃ f ∈ fairness, f.Asks a) ∨ property.Asks a →
          model.Answers settings.stuttering a) →
        report.outcome = .ok .satisfied →
          (check model settings fairness properties).feedStatus = .exhausted ∧
          ∀ σ, model.Behaves settings.stuttering σ →
            (∀ f ∈ fairness, f.Holds model.valuation σ 0) → property.Holds model.valuation σ 0) ∧
      ((check model settings fairness properties).feedStatus = .exhausted →
        report.outcome = .ok .satisfied ∨ (∃ lasso, report.outcome = .ok (.violated lasso)) ∨
          ∃ e, report.outcome = .ok (.indeterminate (.evaluation e)) ∧
            model.Refuses {a | (∃ f ∈ fairness, f.Asks a) ∨ property.Asks a} e ∧
            (Monitor.start name t settings).Stops model
              (exploredFeed model settings fairness properties) e) := by
  obtain ⟨status, sound, complete, reported⟩ :=
    @check_monitored _ model settings _ _ _ _ _ _ listed accepted
  generalize exploredFeed model settings fairness properties = feed at *
  have concludes := @Monitor.run_concludes _ _ t _ _ sound name settings
  refine ⟨_, reported, fun separates answers satisfied => ?_, fun exhausted => ?_⟩
  · rw [satisfied] at concludes
    generalize outcome : (.ok .satisfied : Outcome State) = result at concludes
    cases concludes with
    | refused e refused => simp at outcome
    | violated p component lasso part member violating found => simp at outcome
    | clear p part whole clear =>
      have exhausted : feed.status = .exhausted := by
        cases ended : feed.status <;> simp [Monitor.verdictAfter, ended] at outcome ⊢
      refine ⟨status.trans exhausted, fun σ behaves fair => ?_⟩
      exact holds_of_clear accepted sound (complete exhausted) separates answers part whole clear
        behaves fair
  · rw [status] at exhausted
    rw [exhausted] at concludes
    have stops {e : EvalError} := @Monitor.stops_of_refused _ _ settings name t _ feed e sound
    generalize ((Monitor.start name t settings).run model feed).outcome = result at concludes stops
    cases concludes with
    | refused e refused =>
      exact .inr (.inr ⟨e, rfl, refuses_of_refused accepted sound refused, stops rfl refused⟩)
    | violated p component lasso part member violating found => exact .inr (.inl ⟨lasso, rfl⟩)
    | clear p part whole clear => exact .inl rfl

section Lamp

open Monitor (lamp)

def blinks : Formula := .always (.eventually (.atom (.state 0)))

theorem separates_lamp : lamp.Separates := by
  intro on on' _ _ same
  cases on <;> cases on' <;> simp [lamp] at same ⊢

theorem answers_lamp (stuttering : Bool) (a : Atom) : lamp.Answers stuttering a := by
  cases a with
  | state p => exact fun s _ => ⟨_, rfl⟩
  | action p => exact fun s s' _ _ => ⟨_, rfl⟩

/-- A lamp that may stay as it is blinks if it changes again and again. -/
theorem check_misses_nothing_lamp :
    lamp.Separates ∧ (∀ a, lamp.Answers true a) ∧
      (check lamp { stuttering := true } [.infinitelyOften (.atom (.action 1))]
        [("blinks", blinks)]).properties.all (·.isSatisfied) = true ∧
      ∀ σ, lamp.Behaves true σ →
        (Formula.infinitelyOften (.atom (.action 1))).Holds lamp.valuation σ 0 →
          blinks.Holds lamp.valuation σ 0 := by
  have satisfied : (check lamp { stuttering := true } [.infinitelyOften (.atom (.action 1))]
      [("blinks", blinks)]).properties.all (·.isSatisfied) = true := by decide +kernel
  refine ⟨separates_lamp, answers_lamp true, satisfied, fun σ behaves changing => ?_⟩
  have accepted : (Tableau.build (assumption [.infinitelyOften (.atom (.action 1))])
      blinks).isOk = true := by decide +kernel
  cases built : Tableau.build (assumption [.infinitelyOften (.atom (.action 1))]) blinks with
  | error r => simp [built, Except.isOk, Except.toBool] at accepted
  | ok t =>
    obtain ⟨report, reported, sound, _⟩ := check_misses_nothing lamp { stuttering := true }
      [.infinitelyOften (.atom (.action 1))] [("blinks", blinks)] (i := 0) rfl built
    have here := List.all_eq_true.mp satisfied report (List.mem_of_getElem? reported)
    have outcome : report.outcome = .ok .satisfied := by
      unfold PropertyReport.isSatisfied at here
      split at here
      · assumption
      · contradiction
    exact (sound separates_lamp (fun a _ => answers_lamp true a) outcome).2 σ behaves
      (by simpa using changing)

end Lamp

end Satisfied

section Violated

open Monitor (lamp)

variable {c : Scene State} {p : Product State} {feed : Feed State} {u w : NodeId} {s s' : State}

theorem check_rejected {r : Rejection} (listed : properties[i]? = some (name, property))
    (rejected : Tableau.build (assumption fairness) property = .error r) :
    (check model settings fairness properties).properties[i]? = some (rejectionReport name r) := by
  unfold check
  dsimp only
  rw [List.map_map, List.getElem?_map, listed, Option.map_some]
  simp only [Function.comp_apply, rejected]

theorem Product.starts_of_initial (part : Product.Part c p) (initial : u ∈ p.initial)
    (state : p.stateOf? u = some s) :
    ∃ fp, .initial fp ∈ c.events ∧ c.stored fp = some s := by
  obtain ⟨node, at_u, flagged⟩ := (part.valid.initial u).mp initial
  rw [Product.stateOf?, at_u, Option.bind_some] at state
  obtain ⟨told, _⟩ := part.starts node.key ⟨u, node, at_u, rfl, flagged⟩
  exact ⟨node.key.fingerprint, told, part.filed _ _ state⟩

theorem Product.told_of_edge (part : Product.Part c p) (edge : p.digraph.Edge u w)
    (state : p.stateOf? u = some s) (state' : p.stateOf? w = some s') :
    ∃ fp fp' next, .expanded fp next ∈ c.events ∧ fp' ∈ next ∧ c.stored fp = some s ∧
      c.stored fp' = some s' := by
  obtain ⟨node, at_u, here⟩ := Option.bind_eq_some_iff.mp state
  obtain ⟨node', at_w, there⟩ := Option.bind_eq_some_iff.mp state'
  obtain ⟨next, told, member, _⟩ :=
    part.edges _ _ (Product.hasKeyEdge_of_edge part.valid edge at_u at_w)
  exact ⟨_, _, next, told, member, part.filed _ _ here, part.filed _ _ there⟩

/-- The lasso of a violation, which may be reported however exploration ends, is a lasso of the
model: its stem starts where behaviours start and meets its cycle, which returns to where it begins,
and all steps are steps of the model. The behaviour that goes along it for ever satisfies the
assumptions and violates the property, whatever is assumed of predicates that the model does not
answer. -/
theorem check_violated (model : Model State) (settings : Settings) (fairness : List Formula)
    (properties : List (String × Formula)) (separates : model.Separates)
    (listed : properties[i]? = some (name, property)) {report : PropertyReport State}
    (reported : (check model settings fairness properties).properties[i]? = some report)
    {lasso : Lasso State} (violated : report.outcome = .ok (.violated lasso)) :
    (∃ s, lasso.stem.head? = some s ∧ model.Starts s) ∧ 2 ≤ lasso.cycle.length ∧
      (∃ s, lasso.stem.getLast? = some s ∧ lasso.cycle.head? = some s ∧
        lasso.cycle.getLast? = some s) ∧
      lasso.stem.IsChain (model.Steps settings.stuttering) ∧
      lasso.cycle.IsChain (model.Steps settings.stuttering) ∧
      ∃ σ : Behaviour State, (∀ i, lasso.state? i = some (σ i)) ∧
        ∀ v, model.Agrees v → (∀ f ∈ fairness, f.Holds v σ 0) ∧ ¬property.Holds v σ 0 := by
  cases built : Tableau.build (assumption fairness) property with
  | error r =>
    rw [check_rejected listed built] at reported
    obtain rfl := Option.some.inj reported
    simp [rejectionReport] at violated
  | ok t =>
    obtain ⟨feed, report', _, sound, _, reported', concludes⟩ := check_concludes listed built
    obtain rfl := Option.some.inj (reported.symm.trans reported')
    rw [violated] at concludes
    generalize outcome : (.ok (.violated lasso) : Outcome State) = result at concludes
    cases concludes with
    | refused e refused => simp at outcome
    | clear p part whole clear =>
      cases ended : feed.status <;> simp [Monitor.verdictAfter, ended] at outcome
    | violated p component lasso' part member violating found =>
      obtain rfl : lasso = lasso' := by simpa using outcome
      obtain ⟨stem, cycle, loops, stems, cycles⟩ := Product.lasso_spec found
      have joint : Joint lasso.stem lasso.cycle :=
        Joint.related ⟨loops.joint, loops.long⟩ stems cycles fun id s s' here here' =>
          Option.some.inj (here.symm.trans here')
      have step : ∀ u w s s', p.digraph.Edge u w → p.stateOf? u = some s →
          p.stateOf? w = some s' → model.Steps settings.stuttering s s' := by
        intro u w s s' edge here there
        obtain ⟨fp, fp', next, told, listed, stored, stored'⟩ :=
          Product.told_of_edge part edge here there
        exact sound.steps separates told listed stored stored'
      have starts : ∃ s, lasso.stem.head? = some s ∧ model.Starts s := by
        obtain ⟨u, initial, head⟩ := loops.starts
        rw [List.head?_eq_getElem?] at head
        obtain ⟨s, head', state⟩ := exists_related stems head
        obtain ⟨fp, told, stored⟩ := Product.starts_of_initial part initial state
        exact ⟨s, by rw [List.head?_eq_getElem?, head'], sound.starts separates told stored⟩
      obtain ⟨ρ, accepting, on⟩ := loops.accepting
      choose σ at_σ states using fun i => unrolled_related stems cycles (on i)
      refine ⟨starts, joint.long, joint.joint, isChain_related loops.stemEdges stems step,
        isChain_related loops.cycleEdges cycles step, σ, at_σ, fun v agrees => ?_⟩
      obtain ⟨faithful, negated⟩ := Tableau.build_faithful built
      have holds := Tableau.holds_of_accepts faithful (accepting.accepts part agrees states)
      rwa [negated, Tableau.holds_counterexample, holds_assumption] at holds

/-- A lamp that may stay as it is can stay off for ever. -/
theorem check_violated_lamp :
    (check lamp { stuttering := true } [] [("blinks", blinks)]).properties.map (·.lasso?) =
        [some ⟨[false, false], [false, false]⟩] ∧
      ∃ σ : Behaviour Bool, (∀ i, Lasso.state? ⟨[false, false], [false, false]⟩ i = some (σ i)) ∧
        ¬blinks.Holds lamp.valuation σ 0 := by
  have found : (check lamp { stuttering := true } [] [("blinks", blinks)]).properties.map
      (·.lasso?) = [some ⟨[false, false], [false, false]⟩] := by decide +kernel
  refine ⟨found, ?_⟩
  have at_zero := congrArg (·[0]?) found
  rw [List.getElem?_map] at at_zero
  obtain ⟨report, reported, lasso⟩ := Option.map_eq_some_iff.mp at_zero
  have violated : report.outcome = .ok (.violated ⟨[false, false], [false, false]⟩) := by
    unfold PropertyReport.lasso? PropertyReport.verdict? at lasso
    cases outcome : report.outcome with
    | error e => simp [outcome, Except.toOption] at lasso
    | ok verdict =>
      cases verdict <;> simp_all [Except.toOption, Verdict.lasso?]
  obtain ⟨_, _, _, _, _, σ, states, fails⟩ :=
    check_violated lamp { stuttering := true } [] [("blinks", blinks)] separates_lamp rfl reported
      violated
  exact ⟨σ, states, (fails _ lamp.agrees_valuation).2⟩

end Violated

end TemporalCheck
