import TemporalCheck.Proofs.Check
import TemporalCheck.Proofs.Exploration.Limit

/-! What a looser state limit does to a verdict. Exploration records at least as much, in the same
order. So a violation is found again, unless the model now refuses an answer first, and a property
that is satisfied has been checked on everything already. -/
namespace TemporalCheck

variable {State : Type} {model : Model State} {settings settings' : Settings}
  {fairness : List Formula} {properties : List (String × Formula)} {i : Nat} {name : String}
  {property : Formula}

/-- Under a looser limit the same is explored, or the tighter limit cut exploration off and all that
it recorded is recorded again. -/
theorem exploredFeed_limit (model : Model State) (fairness : List Formula)
    (properties : List (String × Formula)) (stuttering : settings'.stuttering = settings.stuttering)
    (looser : ∀ n' ∈ settings'.maxStates, ∃ n ∈ settings.maxStates, n ≤ n') :
    let short := exploredFeed model settings fairness properties
    let long := exploredFeed model settings' fairness properties
    long = short ∨ (∃ limit, short.status = .truncated limit) ∧ short.Before long := by
  let limited := { settings.exploration with maxStates := settings'.exploration.maxStates }
  have limits : ∀ n' ∈ limited.maxStates, ∃ n ∈ settings.exploration.maxStates, n ≤ n' := by
    intro n' here
    obtain ⟨m', member, rfl⟩ := Option.map_eq_some_iff.mp (Option.mem_def.mp here)
    obtain ⟨m, there, le⟩ := looser m' member
    exact ⟨m.toNat, Option.map_eq_some_iff.mpr ⟨m, there, rfl⟩, UInt64.le_iff_toNat_le.mp le⟩
  have options : settings'.exploration =
      { limited with batch := settings'.exploration.batch } := by
    simp only [limited, Settings.exploration, stuttering]
  obtain ⟨stateless, eventless, running⟩ :=
    @Feed.withReaders_empty State (monitoredCount fairness properties)
  unfold exploredFeed
  generalize Feed.withReaders (monitoredCount fairness properties) = feed at *
  have batch : feed.exploreModel model settings'.exploration {} =
      feed.exploreModel model limited {} :=
    (congrArg (feed.exploreModel model · {}) options).trans
      (Feed.exploreModel_batch feed model limited _ {})
  obtain ⟨status, _⟩ :=
    @Feed.exploreModel_spec State feed model settings.exploration stateless eventless running {}
  rw [batch]
  rcases Exploration.explore_limit model limits feed {} with same | ⟨truncated, before⟩
  · left
    exact congrArg Exploration.finalFeed same
  · exact .inr ⟨truncated.imp fun limit cut => status.trans cut, before⟩

/-- A property that is satisfied under a state limit is satisfied under every looser one, and one
that is violated is violated, unless the monitor then is refused an answer that it asks for. When
the product is scanned, and how often, makes no difference. -/
theorem check_limit (model : Model State) (settings settings' : Settings)
    (fairness : List Formula) (properties : List (String × Formula))
    (stuttering : settings'.stuttering = settings.stuttering)
    (looser : ∀ limit' ∈ settings'.maxStates, ∃ limit ∈ settings.maxStates, limit ≤ limit')
    (listed : properties[i]? = some (name, property)) :
    ∃ report report',
      (check model settings fairness properties).properties[i]? = some report ∧
      (check model settings' fairness properties).properties[i]? = some report' ∧
      (report.outcome = .ok .satisfied → report'.outcome = .ok .satisfied) ∧
      ((∃ lasso, report.outcome = .ok (.violated lasso)) →
        (∃ lasso, report'.outcome = .ok (.violated lasso)) ∨
          ∃ e, report'.outcome = .ok (.indeterminate (.evaluation e)) ∧
            model.Refuses {a | (∃ f ∈ fairness, f.Asks a) ∨ property.Asks a} e ∧
            ∃ t, Tableau.build (assumption fairness) property = .ok t ∧
              (Monitor.start name t settings').Stops model
                (exploredFeed model settings' fairness properties) e) := by
  cases built : Tableau.build (assumption fairness) property with
  | error r =>
    refine ⟨_, _, check_rejected listed built, check_rejected listed built, ?_⟩
    simp [rejectionReport]
  | ok t =>
    obtain ⟨_, sound, _, reported⟩ :=
      @check_monitored _ model settings _ _ _ _ _ _ listed built
    obtain ⟨_, sound', _, reported'⟩ :=
      @check_monitored _ model settings' _ _ _ _ _ _ listed built
    have limits := exploredFeed_limit model fairness properties stuttering looser
    dsimp only at limits
    generalize exploredFeed model settings fairness properties = feed at *
    generalize exploredFeed model settings' fairness properties = feed' at *
    have concludes := @Monitor.run_concludes _ _ t _ _ sound name settings
    have concludes' := @Monitor.run_concludes _ _ t _ _ sound' name settings'
    refine ⟨_, _, reported, reported', fun satisfied => ?_, ?_⟩
    · rcases limits with rfl | ⟨⟨limit, truncated⟩, _⟩
      · exact (concludes.settled_iff .satisfied (by simp) (by simp) concludes').mp satisfied
      · have exhausted := (satisfied ▸ concludes).exhausted_of_satisfied
        simp [truncated] at exhausted
    · rintro ⟨lasso, violated⟩
      have wider : Scene.Widens ⟨model, feed.state?, t, feed.events.toList⟩
          ⟨model, feed'.state?, t, feed'.events.toList⟩ := by
        rcases limits with rfl | ⟨_, before⟩
        · exact .refl _
        · exact ⟨rfl, before.states, rfl, fun _ told => before.events.subset told⟩
      refine ((violated ▸ concludes).violated_or_refused_of_widens wider concludes').imp_right ?_
      rintro ⟨e, outcome, refused⟩
      exact ⟨e, outcome, refuses_of_refused built sound' refused, t, rfl,
        Monitor.stops_of_refused sound' outcome refused⟩

section March

def march : Model Nat where
  fingerprint s := s.toUInt64
  initial := .ok [0]
  successors s := .ok [s, min (s + 1) 3]
  holds _ _ _ := .ok false

theorem not_refuses_march (atoms : Set Atom) (e : EvalError) : ¬march.Refuses atoms e := by
  simp [Model.Refuses, march]

/-- What is found in two states is found again in all four. -/
theorem check_limit_march :
    (check march { maxStates := some 2 } [] [("blinks", blinks)]).feedStatus = .truncated 2 ∧
      (check march { maxStates := some 2 } [] [("blinks", blinks)]).properties.map (·.verdict?) =
        [some (.violated ⟨[0, 0], [0, 0]⟩)] ∧
      ∃ report lasso, (check march {} [] [("blinks", blinks)]).properties[0]? = some report ∧
        report.outcome = .ok (.violated lasso) := by
  have truncated : (check march { maxStates := some 2 } [] [("blinks", blinks)]).feedStatus =
      .truncated 2 := by decide +kernel
  have found : (check march { maxStates := some 2 } [] [("blinks", blinks)]).properties.map
      (·.verdict?) = [some (.violated ⟨[0, 0], [0, 0]⟩)] := by decide +kernel
  refine ⟨truncated, found, ?_⟩
  obtain ⟨report, report', reported, reported', _, violated⟩ :=
    check_limit march { maxStates := some 2 } {} [] [("blinks", blinks)] rfl (by simp)
      (i := 0) rfl
  have outcome := outcome_of_verdicts reported found rfl
  rcases violated ⟨_, outcome⟩ with ⟨lasso, again⟩ | ⟨e, _, refuses, _⟩
  · exact ⟨report', lasso, reported', again⟩
  · exact absurd refuses (not_refuses_march _ e)

end March

end TemporalCheck
