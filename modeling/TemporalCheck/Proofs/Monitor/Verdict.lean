import TemporalCheck.Proofs.Monitor.Drive
import TemporalCheck.Proofs.Product.Behaviour

/-! What the outcome of a monitor depends on. A violating component of one product that the monitor
has on its way is there in the exact product of all events as well, so that it does not matter when
the monitor scans, unless it stops before the end because the model refuses an answer. -/
namespace TemporalCheck.Monitor

open Product (Part Whole)

variable {State : Type} {d : Scene State} {feed : Feed State} {p : Product State}
  {status : FeedStatus} {outcome outcome' : Outcome State}

theorem outcome_of_lasso? {r : PropertyReport State} {lasso : Lasso State}
    (found : r.lasso? = some lasso) : r.outcome = .ok (.violated lasso) := by
  unfold PropertyReport.lasso? PropertyReport.verdict? at found
  cases outcome : r.outcome with
  | error e => simp [outcome, Except.toOption] at found
  | ok verdict => cases verdict <;> simp_all [Except.toOption, Verdict.lasso?]

theorem verdictAfter_ne_violated (status : FeedStatus) (lasso : Lasso State) :
    verdictAfter status ≠ .violated lasso := by
  cases status <;> simp [verdictAfter]

section Concludes

/-- A path of any part of the exact product has its like in the exact product, where it leaves a
violating component. -/
theorem not_accepting_of_clear {q : Product State} {ρ : Nat → NodeId} (part : Part d p)
    (whole : Whole d p) (clear : p.Clear) (within : Part d q) : ¬q.Accepting ρ := by
  intro accepting
  obtain ⟨ρ', accepting'⟩ := accepting.transfer within part whole
  obtain ⟨component, member, violating⟩ := accepting'.exists_violating
  simp [clear component member] at violating

/-- If no component of the exact product is violating, there is one way to end. -/
theorem Concludes.eq_of_clear (part : Part d p) (whole : Whole d p) (clear : p.Clear)
    (concludes : Concludes d status outcome) : outcome = .ok (verdictAfter status) := by
  cases concludes with
  | refused e refused => exact absurd whole.all_answered refused.not_answered
  | violated q component lasso within member violating found =>
    obtain ⟨ρ, accepting⟩ := Product.exists_accepting_of_violating member violating
    exact absurd accepting (not_accepting_of_clear part whole clear within)
  | clear p part whole clear => rfl

/-- A verdict that neither a violation nor a refused answer accounts for is the only one. -/
theorem Concludes.eq_of_settled {verdict : Verdict State}
    (unviolated : ∀ lasso, verdict ≠ .violated lasso)
    (unrefused : ∀ e, verdict ≠ .indeterminate (.evaluation e))
    (concludes : Concludes d status (.ok verdict)) (concludes' : Concludes d status outcome') :
    outcome' = .ok verdict := by
  generalize settled : (.ok verdict : Outcome State) = outcome at concludes
  cases concludes with
  | refused e refused => exact absurd (Except.ok.inj settled) (unrefused e)
  | violated p component lasso part member violating found =>
    exact absurd (Except.ok.inj settled) (unviolated lasso)
  | clear p part whole clear => exact concludes'.eq_of_clear part whole clear

theorem Concludes.settled_iff (verdict : Verdict State)
    (unviolated : ∀ lasso, verdict ≠ .violated lasso)
    (unrefused : ∀ e, verdict ≠ .indeterminate (.evaluation e))
    (concludes : Concludes d status outcome) (concludes' : Concludes d status outcome') :
    outcome = .ok verdict ↔ outcome' = .ok verdict := by
  constructor
  · intro settled
    exact (settled ▸ concludes).eq_of_settled unviolated unrefused concludes'
  · intro settled
    exact (settled ▸ concludes').eq_of_settled unviolated unrefused concludes

/-- After a violation, and when more has been stored and told than before it, the only other way to
end is with a refused answer. -/
theorem Concludes.violated_or_refused_of_widens {c : Scene State} {earlier : FeedStatus}
    {lasso : Lasso State} (wider : c.Widens d)
    (concludes : Concludes c earlier (.ok (.violated lasso)))
    (concludes' : Concludes d status outcome') : (∃ lasso', outcome' = .ok (.violated lasso')) ∨
      ∃ e, outcome' = .ok (.indeterminate (.evaluation e)) ∧ d.Refused e := by
  cases concludes' with
  | refused e refused => exact .inr ⟨e, rfl, refused⟩
  | violated p component lasso' part member violating found => exact .inl ⟨lasso', rfl⟩
  | clear p part whole clear =>
    generalize settled : (.ok (.violated lasso) : Outcome State) = outcome at concludes
    cases concludes with
    | refused e refused => simp at settled
    | violated q component lasso' within member violating found =>
      obtain ⟨ρ, accepting⟩ := Product.exists_accepting_of_violating member violating
      exact absurd accepting (not_accepting_of_clear part whole clear (within.widens wider))
    | clear q part' whole' clear' =>
      exact absurd (Except.ok.inj settled).symm (verdictAfter_ne_violated earlier lasso)

theorem Concludes.violated_or_refused {lasso : Lasso State}
    (concludes : Concludes d status (.ok (.violated lasso)))
    (concludes' : Concludes d status outcome') : (∃ lasso', outcome' = .ok (.violated lasso')) ∨
      ∃ e, outcome' = .ok (.indeterminate (.evaluation e)) ∧ d.Refused e :=
  concludes.violated_or_refused_of_widens (.refl d) concludes'

theorem Concludes.exhausted_of_satisfied (concludes : Concludes d status (.ok .satisfied)) :
    status = .exhausted := by
  generalize settled : (.ok .satisfied : Outcome State) = outcome at concludes
  cases concludes with
  | refused e refused => simp at settled
  | violated p component lasso part member violating found => simp at settled
  | clear p part whole clear => cases status <;> simp [verdictAfter] at settled ⊢

theorem Concludes.ne_error (concludes : Concludes d status outcome) (e : CheckError) :
    outcome ≠ .error e := by
  cases concludes <;> simp

end Concludes

section Course

variable {name : String} {settings : Settings} {told : List Event} {event : Event}
  {m : Monitor State} {result : Option EvalError × Monitor State} {e : EvalError}

theorem watching_of_consumed (stored : d.stored = feed.state?) (once : d.Once)
    {later : List Event} (split : d.events = told ++ later)
    (consumed : consume d.model feed told (start name d.tableau settings) = (none, m)) :
    Watching d told m := by
  have spec := @consume_spec _ d feed _ [] told later stored once split feed.status
    (watching_start d name settings)
  rwa [consumed] at spec

variable (stored : d.stored = feed.state?) (log : d.events = feed.events.toList) (once : d.Once)
include stored log once

theorem Takes.followed
    (takes : (Monitor.start name d.tableau settings).Takes d.model feed told event result) :
    ∃ m', Followed (d.after (told ++ [event])) m' result := by
  obtain ⟨later, m', split, undecided, rfl⟩ := takes
  rw [← log] at split
  have watching := watching_of_consumed stored once split undecided
  exact ⟨_, watching.followed stored once split⟩

/-- Every product that a monitor has on its way is a part of the exact product. -/
theorem Builds.part (builds : (Monitor.start name d.tableau settings).Builds d.model feed p) :
    Part d p := by
  cases builds with
  | start => exact Product.part_empty d
  | grown takes =>
    obtain ⟨_, advance, _⟩ := takes.followed stored log once
    obtain ⟨later, _, split, _⟩ := takes
    exact advance.tracks.part.extends
      (Scene.extends_after (log.trans (split.trans (List.append_cons _ _ later))))

/-- So whatever a scan of it reports has a lasso. -/
theorem Builds.exists_lasso
    (builds : (Monitor.start name d.tableau settings).Builds d.model feed p) {detector : Detector}
    {report : ScanReport} (scanned : (detector.scan p).1 = some report) {component : Component}
    (member : component ∈ report.violating) : ∃ lasso, p.lasso component = .ok lasso := by
  have part := builds.part stored log once
  obtain ⟨reachable, violating⟩ :=
    (Detector.mem_violating (Prod.ext scanned rfl) component).mp member
  exact Product.exists_lasso_of_violating part.valid reachable violating

/-- The exact product of all events, if the monitor consumes all of them. -/
theorem whole_of_consumed (consumed : consume d.model feed feed.events.toList
    (start name d.tableau settings) = (none, m)) : Whole d m.product := by
  rw [← log] at consumed
  exact (watching_of_consumed stored once (List.append_nil _).symm consumed).whole

/-- A monitor that does not stop has been answered all that the consumed events depend on. -/
theorem stops_or_answered :
    (∃ e, (start name d.tableau settings).Stops d.model feed e ∧
      (drive d.model feed (start name d.tableau settings)).1 =
        .ok (.indeterminate (.evaluation e))) ∨
    (d.after (d.events.take
      (drive d.model feed (start name d.tableau settings)).2.cursor)).Answered := by
  have ends := @ends_drive _ d.model feed (start name d.tableau settings) rfl
  generalize drive d.model feed (start name d.tableau settings) = result at ends
  cases ends with
  | refused takes => exact .inl ⟨_, ⟨_, _, _, takes⟩, rfl⟩
  | @found told event m' m'' outcome takes due scanned =>
    right
    have cursor : m''.cursor = told.length + 1 := by
      have kept := m'.scan_keeps.1
      rw [scanned] at kept
      rw [kept, takes.keeps.1]
      exact congrArg (· + 1) (Nat.zero_add _)
    obtain ⟨_, _, whole⟩ := takes.followed stored log once
    obtain ⟨later, _, split, _⟩ := takes
    have consumed : d.events.take m''.cursor = told ++ [event] := by
      rw [cursor, log, split, List.append_cons, List.take_left' (by simp)]
    exact consumed ▸ whole.all_answered
  | @finished m' consumed =>
    right
    have cursor : (m'.conclude feed.status).2.cursor = d.events.length := by
      have kept := @consume_keeps _ d.model feed feed.events.toList (start name d.tableau settings)
      rw [consumed] at kept
      rw [conclude_cursor, kept.2 rfl, log]
      exact Nat.zero_add _
    rw [cursor, List.take_length]
    exact (whole_of_consumed stored log once consumed).all_answered

/-- If the exact product depends on a refused answer, the monitor is refused one, or a scan before
the end finds something. -/
theorem stops_or_found_of_refused (refused : d.Refused e) :
    (∃ e', (start name d.tableau settings).Stops d.model feed e' ∧
      (drive d.model feed (start name d.tableau settings)).1 =
        .ok (.indeterminate (.evaluation e'))) ∨
    settings.scanEvery ≠ none ∧ ∀ reason,
      (drive d.model feed (start name d.tableau settings)).1 ≠ .ok (.indeterminate reason) := by
  have ends := @ends_drive _ d.model feed (start name d.tableau settings) rfl
  generalize drive d.model feed (start name d.tableau settings) = result at ends
  cases ends with
  | refused takes => exact .inl ⟨_, ⟨_, _, _, takes⟩, rfl⟩
  | found takes due scanned =>
    refine .inr ⟨fun unscheduled => ?_, scan_ne_indeterminate scanned⟩
    have never := takes.not_due unscheduled
    simp [due] at never
  | finished consumed =>
    exact absurd (whole_of_consumed stored log once consumed).all_answered refused.not_answered

end Course

end TemporalCheck.Monitor
