import TemporalCheck.Proofs.Check

/-! What can go wrong in a check. A property without tableau is reported as malformed, and that is
the only error: a violating component always has a lasso, and where the model refuses an answer the
verdict says so. -/
namespace TemporalCheck

variable {State : Type}

/-- The outcome of a property is an error just when the property has no tableau, and then it says
why. On its way the monitor of a property has no product with a violating component that has no
lasso. If the model refuses an answer that the monitor asks for, that is the verdict, and if it
refuses none, it has answered all that the consumed events depend on. -/
theorem check_error_iff {i : Nat} {name : String} {property : Formula} (model : Model State)
    (settings : Settings) (fairness : List Formula) (properties : List (String × Formula))
    (listed : properties[i]? = some (name, property)) :
    ∃ report, (check model settings fairness properties).properties[i]? = some report ∧
      (∀ e, report.outcome = .error e ↔
        ∃ r, Tableau.build (assumption fairness) property = .error r ∧ e = .malformed r.text) ∧
      ∀ t, Tableau.build (assumption fairness) property = .ok t →
        let feed := exploredFeed model settings fairness properties
        let m := Monitor.start name t settings
        report = m.run model feed ∧
        (∀ p, m.Builds model feed p → ∀ (d : Detector) scan, (d.scan p).1 = some scan →
          ∀ c ∈ scan.violating, ∃ lasso, p.lasso c = .ok lasso) ∧
        (∀ e, m.Stops model feed e → report.outcome = .ok (.indeterminate (.evaluation e))) ∧
        ((∀ e, ¬m.Stops model feed e) → Scene.Answered ⟨model, feed.state?, t,
          feed.events.toList.take report.stats.eventsConsumed⟩) := by
  cases built : Tableau.build (assumption fairness) property with
  | error r =>
    refine ⟨_, check_rejected listed built, fun e => ?_, by simp⟩
    simp only [rejectionReport, CheckError.ofRejection, Except.error.injEq, exists_eq_left',
      eq_comm]
  | ok t =>
    obtain ⟨_, sound, _, reported⟩ :=
      @check_monitored _ model settings _ _ _ _ _ _ listed built
    generalize exploredFeed model settings fairness properties = feed at *
    have once := @Feed.Sound.once _ _ t _ _ sound
    refine ⟨_, reported, fun e => ?_, fun t' same => ?_⟩
    · have unfailed : ((Monitor.start name t settings).run model feed).outcome ≠ .error e :=
        (Monitor.run_concludes sound name settings).ne_error e
      simp [unfailed]
    · obtain rfl := Except.ok.inj same
      refine ⟨rfl, fun p builds d scan scanned c member => ?_,
        fun e stops => Monitor.drive_of_stops rfl stops, fun unstopped => ?_⟩
      · exact @Monitor.Builds.exists_lasso _ ⟨model, feed.state?, t, feed.events.toList⟩ feed p name
          settings rfl rfl once builds _ _ scanned _ member
      · have spec := @Monitor.stops_or_answered _ ⟨model, feed.state?, t, feed.events.toList⟩ feed
          name settings rfl rfl once
        apply spec.resolve_left
        rintro ⟨e, stops, _⟩
        exact unstopped e stops

section Patchy

/-- All states but the first share a fingerprint, and predicates are answered on the first only. -/
def patchy : Model Nat where
  fingerprint s := if s = 0 then 0 else 1
  initial := .ok [0]
  successors s := .ok [s, s + 1]
  holds p s _ := if s = 0 then .ok false else .error (.unknownPredicate p)

def stays : Formula := .always (.atom (.state 0))

/-- A safety property is malformed, and the question whether the second state blinks is refused. -/
theorem check_error_iff_patchy :
    (check patchy {} [] [("stays", stays), ("blinks", blinks)]).properties.map (·.verdict?) =
        [none, some (.indeterminate (.evaluation (.unknownPredicate 0)))] ∧
      ∃ r, Tableau.build (assumption []) stays = .error r := by
  have verdicts : (check patchy {} [] [("stays", stays), ("blinks", blinks)]).properties.map
      (·.verdict?) = [none, some (.indeterminate (.evaluation (.unknownPredicate 0)))] := by
    decide +kernel
  refine ⟨verdicts, ?_⟩
  obtain ⟨report, reported, errors, _⟩ :=
    check_error_iff patchy {} [] [("stays", stays), ("blinks", blinks)] (i := 0) rfl
  have undecided : report.verdict? = none := by
    have at_zero := congrArg (·[0]?) verdicts
    rw [List.getElem?_map, reported] at at_zero
    exact Option.some.inj at_zero
  cases outcome : report.outcome with
  | ok verdict => simp [PropertyReport.verdict?, outcome, Except.toOption] at undecided
  | error e =>
    obtain ⟨r, rejected, _⟩ := (errors e).mp outcome
    exact ⟨r, rejected⟩

end Patchy

end TemporalCheck
