import TemporalCheck.Proofs.Check
import TemporalCheck.Proofs.Exploration.Batch

/-! When a product is scanned is a matter of time only. Checks that explore the same come to the
same verdicts, except that one may find a violation before it asks a question that the model refuses
to answer. -/
namespace TemporalCheck

variable {State : Type} {settings settings' : Settings} {i : Nat} {name : String}
  {property : Formula}

/-- What is explored depends on stuttering and the state limit. -/
theorem exploredFeed_eq (model : Model State) (fairness : List Formula)
    (properties : List (String × Formula)) (stuttering : settings'.stuttering = settings.stuttering)
    (maxStates : settings'.maxStates = settings.maxStates) :
    exploredFeed model settings' fairness properties =
      exploredFeed model settings fairness properties := by
  have options : settings'.exploration =
      { settings.exploration with batch := settings'.exploration.batch } := by
    simp only [Settings.exploration, stuttering, maxStates]
  unfold exploredFeed
  rw [options]
  exact congrArg (·.2.1) (Feed.exploreModel_batch _ model settings.exploration _ {})

/-- However often the product is scanned, a property is satisfied, or undecided because of the state
limit, under one schedule just when it is so under the other. A violation found by a scan at the end
is found under every schedule. A violation found earlier is found under every schedule as well,
unless the model refuses an answer that the monitor of the property then asks for. -/
theorem check_schedule (model : Model State) (settings settings' : Settings)
    (fairness : List Formula) (properties : List (String × Formula))
    (stuttering : settings'.stuttering = settings.stuttering)
    (maxStates : settings'.maxStates = settings.maxStates)
    (listed : properties[i]? = some (name, property)) :
    ∃ report report',
      (check model settings fairness properties).properties[i]? = some report ∧
      (check model settings' fairness properties).properties[i]? = some report' ∧
      (report.outcome = .ok .satisfied ↔ report'.outcome = .ok .satisfied) ∧
      (∀ limit, report.outcome = .ok (.indeterminate (.stateLimit limit)) ↔
        report'.outcome = .ok (.indeterminate (.stateLimit limit))) ∧
      ((∃ lasso, report.outcome = .ok (.violated lasso)) →
        (settings.mode = .final → ∃ lasso, report'.outcome = .ok (.violated lasso)) ∧
        ((∃ lasso, report'.outcome = .ok (.violated lasso)) ∨
          ∃ e, report'.outcome = .ok (.indeterminate (.evaluation e)) ∧
            model.Refuses {a | (∃ f ∈ fairness, f.Asks a) ∨ property.Asks a} e ∧
            ∃ t, Tableau.build (assumption fairness) property = .ok t ∧
              (Monitor.start name t settings').Stops model
                (exploredFeed model settings' fairness properties) e)) := by
  cases built : Tableau.build (assumption fairness) property with
  | error r =>
    refine ⟨_, _, check_rejected listed built, check_rejected listed built, ?_⟩
    simp [rejectionReport]
  | ok t =>
    obtain ⟨_, sound, _, reported⟩ :=
      @check_monitored _ model settings _ _ _ _ _ _ listed built
    obtain ⟨_, _, _, reported'⟩ :=
      @check_monitored _ model settings' _ _ _ _ _ _ listed built
    rw [exploredFeed_eq model fairness properties stuttering maxStates] at reported' ⊢
    generalize exploredFeed model settings fairness properties = feed at *
    have concludes := @Monitor.run_concludes _ _ t _ _ sound name settings
    have concludes' := @Monitor.run_concludes _ _ t _ _ sound name settings'
    refine ⟨_, _, reported, reported', ?_, fun limit => ?_, fun found => ?_⟩
    · exact concludes.settled_iff .satisfied (by simp) (by simp) concludes'
    · exact concludes.settled_iff _ (by simp) (by simp) concludes'
    · obtain ⟨lasso, violated⟩ := found
      rw [violated] at concludes
      have others := concludes.violated_or_refused concludes'
      refine ⟨fun final => others.resolve_right ?_, others.imp_right ?_⟩
      · rintro ⟨e, _, refused⟩
        have unscheduled : settings.scanEvery = none := by rw [Settings.scanEvery, final]
        rcases @Monitor.stops_or_found_of_refused _ ⟨model, feed.state?, t, feed.events.toList⟩ feed
          name settings e rfl rfl sound.once refused with ⟨e', _, outcome⟩ | ⟨scheduled, _⟩
        · have same := Except.ok.inj (violated.symm.trans outcome)
          contradiction
        · exact scheduled unscheduled
      · rintro ⟨e, outcome, refused⟩
        exact ⟨e, outcome, refuses_of_refused built sound refused, t, rfl,
          Monitor.stops_of_refused sound outcome refused⟩

section Drift

/-- The first state may stay, and the last one is no state that predicates are answered on. -/
def drift : Model Nat where
  fingerprint s := s.toUInt64
  initial := .ok [0]
  successors s := .ok (if s = 0 then [0, 1] else [2])
  holds p s _ := if s = 2 then .error (.unknownPredicate p) else .ok false

/-- Scanned after every event, a lasso is found before the last state is looked at. -/
theorem check_schedule_drift :
    (check drift { scanInterval := 1 } [] [("blinks", blinks)]).properties.map (·.verdict?) =
        [some (.violated ⟨[0, 0], [0, 0]⟩)] ∧
      (check drift { mode := .final } [] [("blinks", blinks)]).properties.map (·.verdict?) =
        [some (.indeterminate (.evaluation (.unknownPredicate 0)))] ∧
      drift.Refuses {a | (∃ f ∈ ([] : List Formula), f.Asks a) ∨ blinks.Asks a}
        (.unknownPredicate 0) := by
  have early : (check drift { scanInterval := 1 } [] [("blinks", blinks)]).properties.map
      (·.verdict?) = [some (.violated ⟨[0, 0], [0, 0]⟩)] := by decide +kernel
  have late : (check drift { mode := .final } [] [("blinks", blinks)]).properties.map
      (·.verdict?) = [some (.indeterminate (.evaluation (.unknownPredicate 0)))] := by
    decide +kernel
  refine ⟨early, late, ?_⟩
  obtain ⟨report, report', reported, reported', _, _, others⟩ :=
    check_schedule drift { scanInterval := 1 } { mode := .final } [] [("blinks", blinks)] rfl rfl
      (i := 0) rfl
  have found : report.outcome = .ok (.violated ⟨[0, 0], [0, 0]⟩) :=
    outcome_of_verdicts reported early rfl
  have refused : report'.outcome = .ok (.indeterminate (.evaluation (.unknownPredicate 0))) :=
    outcome_of_verdicts reported' late rfl
  rcases (others ⟨_, found⟩).2 with ⟨lasso, violated⟩ | ⟨e, outcome, refuses, _⟩
  · simp [refused] at violated
  · obtain rfl : EvalError.unknownPredicate 0 = e := by simpa [refused] using outcome
    exact refuses

end Drift

end TemporalCheck
