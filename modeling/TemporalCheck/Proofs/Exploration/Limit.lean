import TemporalCheck.Proofs.Exploration.Batch
import TemporalCheck.Proofs.Exploration.Script

/-! A looser state limit. Where a tighter limit cuts an exploration off, a looser one may let it go
on, and whatever was recorded up to there is recorded in both. -/
namespace TemporalCheck.Exploration

variable {State : Type} {model : Model State} {options : ExplorationOptions} {limit' : Option Nat}

theorem before_exploreFrom (fuel : Nat) (x : Exploration State) :
    x.feed.Before (finalFeed (exploreFrom model options fuel x)) := by
  induction fuel generalizing x with
  | zero => exact Feed.before_performAll x.feed (x.closing .exhausted)
  | succ fuel ih =>
    have step := Feed.before_performAll x.feed (x.operations model options)
    rw [performAll_operations] at step
    unfold exploreFrom
    generalize x.advance model options = progress at step
    cases progress with
    | ended status y => exact step
    | ongoing y => exact step.trans (ih y)

theorem before_begun (states : List State) (feed : Feed State) (session : Session) :
    feed.Before (begun model states feed session).flush.feed :=
  performAll_opening model states feed session ▸ Feed.before_performAll feed _

theorem before_explore (feed : Feed State) (session : Session) :
    feed.Before (finalFeed (explore model options feed session)) := by
  rw [explore_eq]
  cases model.initial with
  | error e => exact Feed.before_perform feed (.finish _)
  | ok states =>
    cases within : exceeded? options feed (states.map model.keyed) with
    | some limit =>
      simp only [within]
      exact Feed.before_perform feed (.finish _)
    | none =>
      simp only [within]
      exact (before_begun states feed _).trans (before_exploreFrom stepBound _)

section Looser

variable (model) (looser : ∀ n' ∈ limit', ∃ n ∈ options.maxStates, n ≤ n')
include looser

/-- What a limit allows is allowed by every looser limit. -/
theorem exceeded?_eq_none {feed : Feed State} {entries : List (Keyed State)}
    (within : exceeded? options feed entries = none) :
    exceeded? { options with maxStates := limit' } feed entries = none := by
  unfold exceeded? at within ⊢
  rw [Option.filter_eq_none_iff] at within ⊢
  intro n' here
  obtain ⟨n, there, le⟩ := looser n' here
  have := within n there
  simp only [decide_eq_true_eq] at this ⊢
  omega

/-- A step under a looser limit is the same, unless the tighter limit ends the exploration there. -/
theorem advance_limit (x : Exploration State) :
    x.advance model { options with maxStates := limit' } = x.advance model options ∨
      ∃ limit y, x.advance model options = .ended (.truncated limit) y ∧
        y.feed = x.flush.feed := by
  unfold advance
  cases x.queue with
  | nil => exact .inl rfl
  | cons source queue =>
    by_cases unread : x.feed.readers = 0
    · simp only [unread, if_true, true_or]
    · simp only [unread, if_false]
      cases x.session.successors model source.state with
      | mk result session =>
        cases result with
        | error e => exact .inl rfl
        | ok successors =>
          have entries : entriesFrom model { options with maxStates := limit' } source successors =
              entriesFrom model options source successors := rfl
          dsimp only
          rw [entries]
          cases within : exceeded? options x.feed (entriesFrom model options source successors) with
          | some limit => exact .inr ⟨limit, _, rfl, rfl⟩
          | none =>
            rw [exceeded?_eq_none looser within]
            exact .inl rfl

/-- Explorations under two limits are the same, or the tighter one was truncated and what it has
recorded is what the other has recorded first. -/
theorem exploreFrom_limit (fuel : Nat) (x : Exploration State) :
    let short := exploreFrom model options fuel x
    let long := exploreFrom model { options with maxStates := limit' } fuel x
    long = short ∨
      (∃ limit, short.1 = .truncated limit) ∧ (finalFeed short).Before (finalFeed long) := by
  induction fuel generalizing x with
  | zero => exact .inl rfl
  | succ fuel ih =>
    rcases advance_limit model looser x with same | ⟨limit, y, ended, feed⟩
    · simp only [exploreFrom, same]
      cases x.advance model options with
      | ended status y => exact .inl rfl
      | ongoing y => exact ih y
    · have published : exploreFrom model { options with maxStates := limit' } (fuel + 1) x.flush =
          exploreFrom model { options with maxStates := limit' } (fuel + 1) x :=
        @exploreFrom_batch _ model { options with maxStates := limit' } x x.flush options.batch
          (fuel + 1) (flush_flush x)
      have short : exploreFrom model options (fuel + 1) x = (.truncated limit, y) := by
        simp only [exploreFrom, ended]
      intro short' long
      refine .inr ⟨⟨limit, congrArg (·.1) short⟩, ?_⟩
      have here : (finalFeed short').Before x.flush.feed := by
        rw [show short' = (.truncated limit, y) from short, ← feed]
        exact Feed.before_of_finish y.feed _
      have onward := @before_exploreFrom _ model { options with maxStates := limit' } (fuel + 1)
        x.flush
      rw [published] at onward
      exact here.trans onward

theorem explore_limit (feed : Feed State) (session : Session) :
    let short := explore model options feed session
    let long := explore model { options with maxStates := limit' } feed session
    long = short ∨
      (∃ limit, short.1 = .truncated limit) ∧ (finalFeed short).Before (finalFeed long) := by
  have grown := @before_explore _ model { options with maxStates := limit' } feed session
  simp only [explore_eq] at grown ⊢
  cases answered : model.initial with
  | error e => exact .inl rfl
  | ok states =>
    rw [answered] at grown
    cases within : exceeded? options feed (states.map model.keyed) with
    | some limit =>
      simp only [within]
      exact .inr ⟨⟨limit, rfl⟩, (Feed.before_of_finish feed _).trans grown⟩
    | none =>
      simp only [within, exceeded?_eq_none looser within]
      exact exploreFrom_limit model looser stepBound _

end Looser

end TemporalCheck.Exploration
