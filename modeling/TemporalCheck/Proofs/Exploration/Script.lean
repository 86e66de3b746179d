import TemporalCheck.Proofs.Feed.Operation

/-! What an exploration does to its feed, operation by operation. Performed one after the other, the
operations of a step come to the step, and those of a whole script to the exploration. Every script
stores a state before it publishes an event that mentions it. -/
namespace TemporalCheck

variable {State : Type}

theorem Feed.Sound.mentions {f : Feed State} {model : Model State} {stuttering : Bool}
    {log : List Event} (sound : f.Sound model stuttering log) {e : Event} (told : e ∈ log)
    {fp : Fingerprint} (mentioned : fp ∈ e.fingerprints) : fp ∈ f.domain := by
  cases e with
  | initial fp' =>
    obtain ⟨_, _, _, stored⟩ := sound.initial fp' told
    exact List.mem_singleton.mp mentioned ▸ stored
  | expanded source next =>
    obtain ⟨s, _, stored, _, _, every⟩ := sound.expanded source next told
    rcases List.mem_cons.mp mentioned with rfl | listed
    · exact ⟨s, stored⟩
    · exact every fp listed

namespace Exploration

open Feed (Operation)

variable {model : Model State} {options : ExplorationOptions} {x y : Exploration State}

/-- The exploration with another number of readers on its feed. -/
def watched (x : Exploration State) (readers : Nat) : Exploration State :=
  { x with feed := { x.feed with readers := readers } }

/-- How every exploration ends: what is pending is published before the feed is finished. -/
def closing (x : Exploration State) (status : FeedStatus) : List (Operation State) :=
  [.publish x.pending, .finish status]

/-- What a step does to the feed. An entry that is known already is offered all the same. -/
def operations (model : Model State) (options : ExplorationOptions) (x : Exploration State) :
    List (Operation State) :=
  match x.queue with
  | [] => x.closing .exhausted
  | source :: _ =>
    if x.feed.readers = 0 then x.closing .cancelled
    else
      match model.successors source.state with
      | .error e => x.closing (.failed e)
      | .ok successors =>
        let entries := entriesFrom model options source successors
        match exceeded? options x.feed entries with
        | some limit => x.closing (.truncated limit)
        | none =>
          let event := Event.expanded source.fingerprint (entries.map (·.fingerprint))
          let pending := x.pending ++ [event]
          entries.map .insert ++
            if max options.batch 1 ≤ pending.length then [.publish pending] else []

theorem feed_discover (entries : List (Keyed State)) (x : Exploration State) :
    (discover entries x).feed = x.feed.performAll (entries.map .insert) := by
  induction entries generalizing x with
  | nil => rfl
  | cons k rest ih =>
    unfold discover
    split
    · next known =>
      rw [ih, List.map_cons, Feed.performAll_cons, Feed.perform, Feed.insert_of_contains known]
    · exact ih _

theorem pending_discover (entries : List (Keyed State)) (x : Exploration State) :
    (discover entries x).pending = x.pending := by
  rw [(discover_spec entries x).rest]

def Progress.feed : Progress State → Feed State
  | .ended status x => x.feed.finish status
  | .ongoing x => x.feed

theorem performAll_operations (model : Model State) (options : ExplorationOptions)
    (x : Exploration State) : x.feed.performAll (x.operations model options) =
      Progress.feed (x.advance model options) := by
  unfold operations advance
  cases x.queue with
  | nil => rfl
  | cons source queue =>
    by_cases unread : x.feed.readers = 0
    · simp only [unread, if_true]
      rfl
    · simp only [unread, if_false, Session.successors]
      cases model.successors source.state with
      | error e => rfl
      | ok successors =>
        dsimp only
        cases exceeded? options x.feed (entriesFrom model options source successors) with
        | some limit => rfl
        | none =>
          dsimp only
          generalize { x.session with calls.successors := x.session.calls.successors + 1 } = session
          generalize entriesFrom model options source successors = entries
          have stored : (discover entries { x with session := session, queue := queue }).feed =
              x.feed.performAll (entries.map .insert) := feed_discover _ _
          have pending : (discover entries { x with session := session, queue := queue }).pending =
              x.pending := pending_discover _ _
          generalize discover entries { x with session := session, queue := queue } = y
            at stored pending ⊢
          rw [Feed.performAll_append, ← stored, ← pending]
          generalize y.pending ++ [Event.expanded source.fingerprint
            (entries.map (·.fingerprint))] = told
          by_cases full : max options.batch 1 ≤ told.length
          · simp only [full, if_true]
            rfl
          · simp only [full, if_false]
            rfl

def finalFeed (result : FeedStatus × Exploration State) : Feed State :=
  result.2.feed.finish result.1

section Opening

def begun (model : Model State) (states : List State) (feed : Feed State) (session : Session) :
    Exploration State :=
  let x := discover (states.map model.keyed) { feed := feed, session := session }
  { x with pending := x.queue.map fun k => .initial k.fingerprint }

def opening (model : Model State) (states : List State) (feed : Feed State) (session : Session) :
    List (Operation State) :=
  (states.map model.keyed).map .insert ++ [.publish (begun model states feed session).pending]

theorem explore_eq (model : Model State) (options : ExplorationOptions) (feed : Feed State)
    (session : Session) : explore model options feed session =
      match model.initial with
      | .error e => (.failed e, { feed := feed, session := (session.initial model).2 })
      | .ok states =>
        match exceeded? options feed (states.map model.keyed) with
        | some limit =>
          (.truncated limit, { feed := feed, session := (session.initial model).2 })
        | none =>
          exploreFrom model options stepBound
            (begun model states feed (session.initial model).2).flush := by
  unfold explore Session.initial
  cases model.initial <;> rfl

theorem performAll_opening (model : Model State) (states : List State) (feed : Feed State)
    (session : Session) : feed.performAll (opening model states feed session) =
      (begun model states feed session).flush.feed := by
  have stored := feed_discover (states.map model.keyed) { feed := feed, session := session }
  rw [opening, Feed.performAll_append, ← stored]
  rfl

end Opening

section Script

/-- What an exploration may do to its feed from here on. Readers come and go meanwhile, so that at
every step there may be another number of them. -/
inductive Script (model : Model State) (options : ExplorationOptions) :
    Exploration State → List (Operation State) → Prop where
  | last {x y : Exploration State} {n : Nat} {status : FeedStatus}
    (ended : (x.watched n).advance model options = .ended status y) :
    Script model options x ((x.watched n).operations model options)
  | more {x y : Exploration State} {n : Nat} {later : List (Operation State)}
    (ongoing : (x.watched n).advance model options = .ongoing y)
    (rest : Script model options y later) :
    Script model options x ((x.watched n).operations model options ++ later)

inductive Scripted (model : Model State) (options : ExplorationOptions) :
    List (Operation State) → Prop where
  | failed {e : EvalError} (answered : model.initial = .error e) :
    Scripted model options [.finish (.failed e)]
  | truncated {states : List State} {n limit : Nat} (answered : model.initial = .ok states)
    (beyond : exceeded? options { readers := n } (states.map model.keyed) = some limit) :
    Scripted model options [.finish (.truncated limit)]
  | begun {states : List State} {n : Nat} {session : Session} {later : List (Operation State)}
    (answered : model.initial = .ok states)
    (within : exceeded? options { readers := n } (states.map model.keyed) = none)
    (rest : Script model options (begun model states { readers := n } session).flush later) :
    Scripted model options (opening model states { readers := n } session ++ later)

/-- What an exploration may have done to its feed so far. When it is left, even in the middle of a
step, the feed is finished, which makes no difference to one that is finished already. -/
inductive Performed (model : Model State) (options : ExplorationOptions) :
    List (Operation State) → Prop where
  | underway {script operations : List (Operation State)} (scripted : Scripted model options script)
    (part : operations <+: script) : Performed model options operations
  | left {script operations : List (Operation State)} (scripted : Scripted model options script)
    (part : operations <+: script) :
    Performed model options (operations ++ [.finish .cancelled])

theorem Explored.watched (explored : Explored model options x) (n : Nat) :
    Explored model options (x.watched n) where
  running := explored.running
  sound := explored.sound.mono (fun _ _ found => found) explored.sound.stored
  initial := explored.initial
  queued := explored.queued
  distinct := explored.distinct
  covered := explored.covered

theorem explored_begun {states : List State} {n : Nat} {session : Session}
    (answered : model.initial = .ok states) :
    Explored model options (begun model states { readers := n } session) :=
  explored_start rfl rfl rfl answered (discover_spec _ _)

/-- If readers neither come nor go, there is the script of the exploration itself. -/
theorem exists_script {fuel : Nat} (explored : Explored model options x)
    (enough : stepBound ≤ (sources x.log).length + fuel) :
    ∃ script, Script model options x script ∧
      x.feed.performAll script = finalFeed (exploreFrom model options fuel x) := by
  have performed := performAll_operations model options x
  induction fuel generalizing x with
  | zero =>
    have bound := length_le_stepBound explored.distinct
    rw [List.length_append, List.length_map] at bound
    have empty : x.queue = [] := List.eq_nil_of_length_eq_zero (by omega)
    have ended : x.advance model options = .ended .exhausted x.flush := by
      rw [advance, empty]
    refine ⟨_, @Script.last _ _ _ x _ x.feed.readers _ ended, ?_⟩
    exact performed.trans (congrArg Progress.feed ended)
  | succ fuel ih =>
    have step := advance_spec explored
    unfold exploreFrom
    cases advanced : x.advance model options with
    | ended status y =>
      refine ⟨_, @Script.last _ _ _ x _ x.feed.readers _ advanced, ?_⟩
      exact performed.trans (congrArg Progress.feed advanced)
    | ongoing y =>
      rw [advanced] at step performed
      obtain ⟨script, run, same⟩ :=
        ih step.1 (by rw [step.2]; omega) (performAll_operations model options y)
      refine ⟨_, @Script.more _ _ _ x _ x.feed.readers _ advanced run, ?_⟩
      exact (Feed.performAll_append _ _ _).trans
        ((congrArg (·.performAll script) performed).trans same)

theorem exists_scripted (model : Model State) (options : ExplorationOptions) (n : Nat)
    (session : Session) : ∃ script, Scripted model options script ∧
      ({ readers := n } : Feed State).performAll script =
        (({ readers := n } : Feed State).exploreModel model options session).2.1 := by
  change ∃ script, _ ∧ _ = finalFeed (explore model options { readers := n } session)
  rw [explore_eq]
  cases answered : model.initial with
  | error e => exact ⟨_, .failed answered, rfl⟩
  | ok states =>
    cases within : exceeded? options { readers := n } (states.map model.keyed) with
    | some limit =>
      simp only [within]
      exact ⟨_, .truncated answered within, rfl⟩
    | none =>
      simp only [within]
      have explored := @explored_begun _ model options states n (session.initial model).2 answered
      obtain ⟨script, run, same⟩ := exists_script explored.flush (Nat.le_add_left _ _)
      refine ⟨_, .begun answered within run, ?_⟩
      rw [Feed.performAll_append, performAll_opening, same]

end Script

section StoresFirst

theorem storesFirst_closing (explored : Explored model options x) (status : FeedStatus) :
    Feed.StoresFirst x.feed.domain (x.closing status) :=
  ⟨fun _ told _ mentioned => explored.sound.mentions (List.mem_append_right _ told) mentioned,
    trivial⟩

theorem storesFirst_operations (explored : Explored model options x) :
    Feed.StoresFirst x.feed.domain (x.operations model options) := by
  unfold operations
  cases first : x.queue with
  | nil => exact storesFirst_closing explored _
  | cons source queue =>
    dsimp only
    split
    · exact storesFirst_closing explored _
    cases model.successors source.state with
    | error e => exact storesFirst_closing explored _
    | ok successors =>
      dsimp only
      generalize entriesFrom model options source successors = entries
      cases exceeded? options x.feed entries with
      | some limit => exact storesFirst_closing explored _
      | none =>
        refine Feed.storesFirst_append.mpr ⟨Feed.storesFirst_inserts entries, ?_⟩
        rw [Feed.offered_inserts]
        split
        · refine ⟨fun e told fp mentioned => ?_, trivial⟩
          rcases List.mem_append.mp told with before | now
          · exact .inl (explored.sound.mentions (List.mem_append_right _ before) mentioned)
          · rw [List.mem_singleton.mp now] at mentioned
            rcases List.mem_cons.mp mentioned with rfl | listed
            · exact .inl ⟨source.state, explored.queued source (by simp [first])⟩
            · exact .inr listed
        · trivial

theorem Script.storesFirst {script : List (Operation State)} (explored : Explored model options x)
    (run : Script model options x script) : Feed.StoresFirst x.feed.domain script := by
  induction run with
  | @last x y n status ended => exact storesFirst_operations (explored.watched n)
  | @more x y n later ongoing rest ih =>
    have step := advance_spec (explored.watched n)
    have performed := performAll_operations model options (x.watched n)
    rw [ongoing] at step performed
    refine Feed.storesFirst_append.mpr ⟨storesFirst_operations (explored.watched n), ?_⟩
    have domain : (x.watched n).feed.domain ∪
        Feed.offered ((x.watched n).operations model options) = y.feed.domain := by
      rw [← Feed.domain_performAll, performed]
      rfl
    exact domain ▸ ih step.1

/-- An exploration stores every state before it publishes an event that mentions it. -/
theorem Scripted.storesFirst {script : List (Operation State)}
    (run : Scripted model options script) : Feed.StoresFirst ∅ script := by
  cases run with
  | failed answered => trivial
  | truncated answered beyond => trivial
  | @begun states n session later answered within rest =>
    have explored := @explored_begun _ model options states n session answered
    have fresh : ({ readers := n } : Feed State).domain = ∅ := by
      simp [Feed.domain, Feed.state?]
    have domain (operations : List (Operation State)) :
        (({ readers := n } : Feed State).performAll operations).domain =
          ∅ ∪ Feed.offered operations := by
      rw [Feed.domain_performAll, fresh]
    refine Feed.storesFirst_append.mpr ⟨Feed.storesFirst_append.mpr
      ⟨Feed.storesFirst_inserts _, fun e told fp mentioned => ?_, trivial⟩, ?_⟩
    · rw [← domain, ← feed_discover (states.map model.keyed) ⟨{ readers := n }, session, [], []⟩]
      exact explored.sound.mentions (List.mem_append_right _ told) mentioned
    · rw [← domain, performAll_opening]
      exact rest.storesFirst explored.flush

theorem Performed.storesFirst {operations : List (Operation State)}
    (performed : Performed model options operations) : Feed.StoresFirst ∅ operations := by
  cases performed with
  | underway scripted part =>
    obtain ⟨later, rfl⟩ := part
    exact (Feed.storesFirst_append.mp scripted.storesFirst).1
  | left scripted part =>
    obtain ⟨later, rfl⟩ := part
    exact Feed.storesFirst_append.mpr ⟨(Feed.storesFirst_append.mp scripted.storesFirst).1, trivial⟩

end StoresFirst

end Exploration
end TemporalCheck
