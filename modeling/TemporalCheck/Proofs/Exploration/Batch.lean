import TemporalCheck.Proofs.Exploration

/-! How many events exploration collects before it publishes them makes no difference. Whatever is
pending at the end is published then, and what a step does depends on the states of the feed and not
on its log. -/
namespace TemporalCheck

variable {State : Type}

namespace Feed

theorem publish_append (f : Feed State) (events later : List Event) :
    f.publish (events ++ later) = (f.publish events).publish later := by
  unfold publish
  split <;> simp

theorem insert_publish (f : Feed State) (k : Keyed State) (events : List Event) :
    (f.publish events).insert k = (f.insert k).publish events := by
  unfold publish insert contains
  by_cases finished : f.status.isFinished = true <;>
    by_cases known : f.states.contains k.fingerprint = true <;>
      simp [finished, known]

/-- Publishing changes the log only. -/
theorem publish_keeps (f : Feed State) (events : List Event) :
    (f.publish events).states = f.states ∧ (f.publish events).readers = f.readers := by
  unfold publish
  split <;> exact ⟨rfl, rfl⟩

end Feed

def Progress.flush : Progress State → Progress State
  | .ended status x => .ended status x.flush
  | .ongoing x => .ongoing x.flush

namespace Exploration

variable {model : Model State} {options : ExplorationOptions} {x y : Exploration State}

@[simp] theorem queue_flush (x : Exploration State) : x.flush.queue = x.queue := rfl

@[simp] theorem session_flush (x : Exploration State) : x.flush.session = x.session := rfl

@[simp] theorem readers_flush (x : Exploration State) : x.flush.feed.readers = x.feed.readers :=
  (Feed.publish_keeps _ _).2

@[simp] theorem contains_flush (x : Exploration State) (fp : Fingerprint) :
    x.flush.feed.contains fp = x.feed.contains fp := by
  simp only [flush, Feed.contains, (Feed.publish_keeps _ _).1]

@[simp] theorem flush_flush (x : Exploration State) : x.flush.flush = x.flush := by
  unfold flush
  dsimp only
  rw [← Feed.publish_append, List.append_nil]

theorem with_flush (x : Exploration State) (session : Session) (queue : List (Keyed State)) :
    ({ x.flush with session := session, queue := queue } : Exploration State) =
      ({ x with session := session, queue := queue } : Exploration State).flush :=
  rfl

theorem flush_tell (x : Exploration State) (e : Event) :
    (x.flush.tell e).flush = (x.tell e).flush := by
  unfold flush tell
  dsimp only
  rw [List.nil_append, Feed.publish_append]

theorem flush_if (full : Prop) [Decidable full] (x : Exploration State) :
    (if full then x.flush else x).flush = x.flush := by
  split
  · exact flush_flush x
  · rfl

/-- How much may be collected does not matter to the state limit. -/
theorem exceeded?_flush (n : Nat) (x : Exploration State) (entries : List (Keyed State)) :
    exceeded? { options with batch := n } x.flush.feed entries =
      exceeded? options x.feed entries := by
  unfold exceeded? Feed.stateCount
  simp only [contains_flush]
  simp only [flush, (Feed.publish_keeps _ _).1]

theorem discover_flush (entries : List (Keyed State)) (x : Exploration State) :
    discover entries x.flush = (discover entries x).flush := by
  induction entries generalizing x with
  | nil => rfl
  | cons k rest ih =>
    have stored : ({ x.flush with feed := x.flush.feed.insert k, queue := x.queue ++ [k] } :
        Exploration State) =
        Exploration.flush { x with feed := x.feed.insert k, queue := x.queue ++ [k] } := by
      simp only [flush, Feed.insert_publish]
    unfold discover
    rw [contains_flush]
    split
    · exact ih x
    · exact (congrArg (discover rest) stored).trans (ih _)

/-- What has been collected so far, and how much may be collected, matters to a step only until it
is published. -/
theorem advance_flush (n : Nat) (x : Exploration State) :
    (x.flush.advance model { options with batch := n }).flush =
      (x.advance model options).flush := by
  unfold advance
  simp only [queue_flush, session_flush, readers_flush]
  cases x.queue with
  | nil => simp only [Progress.flush, flush_flush]
  | cons source queue =>
    by_cases unread : x.feed.readers = 0
    · simp only [unread, if_true, Progress.flush, flush_flush]
    · simp only [unread, if_false]
      cases x.session.successors model source.state with
      | mk result session =>
        cases result with
        | error e => simp only [with_flush, Progress.flush, flush_flush]
        | ok successors =>
          have entries : entriesFrom model { options with batch := n } source successors =
              entriesFrom model options source successors := rfl
          simp only [with_flush, entries, exceeded?_flush]
          generalize ({ x with session := session, queue := queue } : Exploration State) = y
          cases exceeded? options x.feed (entriesFrom model options source successors) with
          | some limit => simp only [Progress.flush, flush_flush]
          | none =>
            generalize entriesFrom model options source successors = entries
            simp only [discover_flush, Progress.flush, flush_if]
            exact congrArg Progress.ongoing (flush_tell _ _)

theorem flush_of_ended {status : FeedStatus} (ended : x.advance model options = .ended status y) :
    y.flush = y := by
  unfold advance at ended
  split at ended
  · cases ended
    exact flush_flush _
  · split at ended
    · cases ended
      exact flush_flush _
    · split at ended
      · cases ended
        exact flush_flush _
      · dsimp only at ended
        split at ended
        · cases ended
          exact flush_flush _
        · contradiction

/-- Explorations that differ in what is pending, and in how much may be, take the same step. -/
theorem advance_batch (n : Nat) (same : y.flush = x.flush) :
    (y.advance model { options with batch := n }).flush = (x.advance model options).flush := by
  rw [← @advance_flush _ model options n x, ← same]
  exact (@advance_flush _ model { options with batch := n } n y).symm

/-- So they end in the same way. -/
theorem exploreFrom_batch (n fuel : Nat) (same : y.flush = x.flush) :
    exploreFrom model { options with batch := n } fuel y = exploreFrom model options fuel x := by
  induction fuel generalizing x y with
  | zero => exact congrArg (Prod.mk _) same
  | succ fuel ih =>
    have step := @advance_batch _ model options x y n same
    unfold exploreFrom
    cases here : x.advance model options with
    | ended status x' =>
      cases there : y.advance model { options with batch := n } with
      | ended status' y' =>
        rw [here, there] at step
        obtain ⟨rfl, same'⟩ := Progress.ended.inj step
        dsimp only
        rw [← flush_of_ended here, ← flush_of_ended there, same']
      | ongoing y' => simp [here, there, Progress.flush] at step
    | ongoing x' =>
      cases there : y.advance model { options with batch := n } with
      | ended status' y' => simp [here, there, Progress.flush] at step
      | ongoing y' =>
        rw [here, there] at step
        exact ih (Progress.ongoing.inj step)

theorem explore_batch (model : Model State) (options : ExplorationOptions) (n : Nat)
    (feed : Feed State) (session : Session) :
    explore model { options with batch := n } feed session =
      explore model options feed session := by
  have limit (entries : List (Keyed State)) :
      exceeded? { options with batch := n } feed entries = exceeded? options feed entries := rfl
  have onward (x : Exploration State) :
      exploreFrom model { options with batch := n } stepBound x =
        exploreFrom model options stepBound x := exploreFrom_batch n stepBound rfl
  unfold explore
  simp only [limit, onward]

end Exploration

/-- How exploration ends, and the feed that it leaves, do not depend on the batches. -/
theorem Feed.exploreModel_batch (feed : Feed State) (model : Model State)
    (options : ExplorationOptions) (n : Nat) (session : Session) :
    feed.exploreModel model { options with batch := n } session =
      feed.exploreModel model options session := by
  unfold exploreModel
  rw [Exploration.explore_batch]

end TemporalCheck
