import TemporalCheck.Proofs.Exploration.Batch
import TemporalCheck.Proofs.Exploration.Script

/-! What exploration publishes. How much it collects before it publishes decides where its events
are cut into batches. It does not decide which events there are, nor what else is done to the feed,
also when readers come and go. -/
namespace TemporalCheck

variable {State : Type}

namespace Feed

def published (operations : List (Operation State)) : List Event :=
  operations.flatMap fun
    | .publish events => events
    | _ => []

def silent (operations : List (Operation State)) : List (Operation State) :=
  operations.filter fun
    | .publish _ => false
    | _ => true

@[simp] theorem published_append (operations later : List (Operation State)) :
    published (operations ++ later) = published operations ++ published later :=
  List.flatMap_append

@[simp] theorem published_publish (events : List Event) :
    published [(.publish events : Operation State)] = events := by
  simp [published]

@[simp] theorem silent_publish (events : List Event) :
    silent [(.publish events : Operation State)] = [] := rfl

@[simp] theorem published_inserts (entries : List (Keyed State)) :
    published (entries.map .insert) = [] := by
  simp [published, List.flatMap_map]

@[simp] theorem silent_inserts (entries : List (Keyed State)) :
    silent (entries.map .insert) = entries.map .insert := by
  simp [silent]

/-- As long as the feed is not finished, all that is published gets into the log. -/
theorem events_performAll {f : Feed State} {operations : List (Operation State)}
    (running : f.status = .running) (unfinished : ∀ status, .finish status ∉ operations) :
    (f.performAll operations).status = .running ∧
      (f.performAll operations).events.toList = f.events.toList ++ published operations := by
  induction operations generalizing f with
  | nil => exact ⟨running, by simp [published]⟩
  | cons o rest ih =>
    have later : ∀ status, .finish status ∉ rest :=
      fun status member => unfinished status (List.mem_cons_of_mem o member)
    cases o with
    | insert k =>
      obtain ⟨events, status, _⟩ := insert_keeps f k
      have onward := @ih (f.insert k) (status.trans running) later
      rw [events] at onward
      exact onward
    | publish events =>
      have told : f.publish events = { f with events := f.events ++ events.toArray } := by
        simp [publish, running, FeedStatus.isFinished]
      have onward := @ih (f.publish events) (by rw [told, running]) later
      rw [told] at onward
      rw [performAll_cons, perform, told]
      refine ⟨onward.1, onward.2.trans ?_⟩
      simp [published]
    | finish status => exact absurd List.mem_cons_self (unfinished status)

end Feed

namespace Exploration

open Feed (Operation published silent)

variable {model : Model State} {options : ExplorationOptions} {x y : Exploration State}

def Progress.pending : Progress State → List Event
  | .ended _ x => x.pending
  | .ongoing x => x.pending

/-- A step that ends the exploration closes the feed, and no other step finishes it. -/
theorem operations_finish (model : Model State) (options : ExplorationOptions)
    (x : Exploration State) :
    match x.advance model options with
    | .ended status _ => x.operations model options = x.closing status
    | .ongoing _ => ∀ status, .finish status ∉ x.operations model options := by
  unfold operations advance
  cases x.queue with
  | nil => rfl
  | cons source queue =>
    by_cases unread : x.feed.readers = 0
    · simp only [unread, if_true]
    · simp only [unread, if_false, Session.successors]
      cases model.successors source.state with
      | error e => rfl
      | ok successors =>
        dsimp only
        cases exceeded? options x.feed (entriesFrom model options source successors) with
        | some limit => rfl
        | none =>
          dsimp only
          intro status member
          split at member <;> simp at member

section Script

variable {script : List (Operation State)}

/-- The feed is finished by the last operation only. -/
theorem Script.finishes (run : Script model options x script) :
    ∃ earlier status, script = earlier ++ [.finish status] ∧
      ∀ status, .finish status ∉ earlier := by
  induction run with
  | @last x y n status ended =>
    have closes := operations_finish model options (x.watched n)
    rw [ended] at closes
    exact ⟨[.publish (x.watched n).pending], status, closes, by simp⟩
  | @more x y n later ongoing rest ih =>
    have unended := operations_finish model options (x.watched n)
    rw [ongoing] at unended
    obtain ⟨earlier, status, rfl, unfinished⟩ := ih
    refine ⟨_, status, (List.append_assoc ..).symm, fun status member => ?_⟩
    rcases List.mem_append.mp member with now | after
    · exact unended status now
    · exact unfinished status after

/-- All that an exploration publishes gets into the log, however it ends. -/
theorem Scripted.events (scripted : Scripted model options script) (n : Nat) :
    (({ readers := n } : Feed State).performAll script).events.toList = published script := by
  obtain ⟨earlier, status, rfl, unfinished⟩ : ∃ earlier status,
      script = earlier ++ [.finish status] ∧ ∀ status, .finish status ∉ earlier := by
    cases scripted with
    | @failed e answered => exact ⟨[], .failed e, rfl, by simp⟩
    | @truncated states n limit answered beyond => exact ⟨[], .truncated limit, rfl, by simp⟩
    | @begun states n session later answered within run =>
      obtain ⟨earlier, status, rfl, unfinished⟩ := run.finishes
      refine ⟨_, status, (List.append_assoc ..).symm, fun status member => ?_⟩
      rcases List.mem_append.mp member with now | after
      · simp [opening] at now
      · exact unfinished status after
  have told := (@Feed.events_performAll State { readers := n } _ rfl unfinished).2
  rw [Feed.performAll_append, Feed.published_append]
  change (Feed.finish _ status).events.toList = _
  rw [(Feed.finish_keeps _ status).2.1, told]
  simp [published]

end Script

end Exploration
end TemporalCheck
