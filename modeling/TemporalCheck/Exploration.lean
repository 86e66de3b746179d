import TemporalCheck.Feed
import TemporalCheck.Session

/-! Breadth-first exploration of a model into a feed. A state is stored before any event mentions
it, and a step that would exceed the state limit is not taken at all. -/
namespace TemporalCheck

structure ExplorationOptions where
  /-- Lets every state be followed by itself. -/
  stuttering : Bool := false
  maxStates : Option Nat := none
  /-- How many events are collected before they are published. -/
  batch : Nat := 256
deriving DecidableEq, Repr

structure Exploration (State : Type) where
  feed : Feed State
  session : Session
  /-- Stored states whose successors are not known yet, the earliest first. -/
  queue : List (Keyed State) := []
  /-- Events not yet published. -/
  pending : List Event := []

inductive Progress (State : Type) where
  | ended (status : FeedStatus) (x : Exploration State)
  | ongoing (x : Exploration State)

/-- The entries with fingerprints not met before, each time the first. Those in `met` have been met
already. -/
def firstEntries {State : Type} (met : List Fingerprint) : List (Keyed State) → List (Keyed State)
  | [] => []
  | k :: rest =>
    if met.contains k.fingerprint then firstEntries met rest
    else k :: firstEntries (k.fingerprint :: met) rest

namespace Exploration

variable {State : Type}

/-- The limit, if storing the entries would exceed it. -/
def exceeded? (options : ExplorationOptions) (feed : Feed State) (entries : List (Keyed State)) :
    Option Nat :=
  options.maxStates.filter fun limit =>
    limit < feed.stateCount + ((firstEntries [] entries).filter fun k =>
      !feed.contains k.fingerprint).length

def flush (x : Exploration State) : Exploration State :=
  { x with feed := x.feed.publish x.pending, pending := [] }

/-- Stores the entries that are new, and queues those. -/
def discover : List (Keyed State) → Exploration State → Exploration State
  | [], x => x
  | k :: rest, x =>
    if x.feed.contains k.fingerprint then discover rest x
    else discover rest { x with feed := x.feed.insert k, queue := x.queue ++ [k] }

/-- The states that may follow `source`, each fingerprint once. -/
def entriesFrom (model : Model State) (options : ExplorationOptions) (source : Keyed State)
    (successors : List State) : List (Keyed State) :=
  firstEntries [] (successors.map model.keyed ++ if options.stuttering then [source] else [])

/-- Records what may follow the first state of the queue, or says how exploration ends. -/
def advance (model : Model State) (options : ExplorationOptions) (x : Exploration State) :
    Progress State :=
  match x.queue with
  | [] => .ended .exhausted x.flush
  | source :: queue =>
    if x.feed.readers = 0 then .ended .cancelled x.flush
    else
      match x.session.successors model source.state with
      | (.error e, session) => .ended (.failed e) { x with session := session }.flush
      | (.ok successors, session) =>
        let x := { x with session := session, queue := queue }
        let entries := entriesFrom model options source successors
        match exceeded? options x.feed entries with
        | some limit => .ended (.truncated limit) x.flush
        | none =>
          let x := discover entries x
          let event := Event.expanded source.fingerprint (entries.map (·.fingerprint))
          let x := { x with pending := x.pending ++ [event] }
          .ongoing (if max options.batch 1 ≤ x.pending.length then x.flush else x)

/-- Advances until exploration ends, at most `fuel` times. -/
def exploreFrom (model : Model State) (options : ExplorationOptions) :
    (fuel : Nat) → Exploration State → FeedStatus × Exploration State
  | 0, x => (.exhausted, x.flush)
  | fuel + 1, x =>
    match x.advance model options with
    | .ended status x => (status, x)
    | .ongoing x => exploreFrom model options fuel x

/-- The number of fingerprints. A state is queued when it is stored, so no exploration takes more
steps than this. -/
def stepBound : Nat := UInt64.size

def explore (model : Model State) (options : ExplorationOptions) (feed : Feed State)
    (session : Session) : FeedStatus × Exploration State :=
  match session.initial model with
  | (.error e, session) => (.failed e, { feed := feed, session := session })
  | (.ok states, session) =>
    let entries := states.map model.keyed
    match exceeded? options feed entries with
    | some limit => (.truncated limit, { feed := feed, session := session })
    | none =>
      let x := discover entries { feed := feed, session := session }
      let events := x.queue.map fun k => Event.initial k.fingerprint
      exploreFrom model options stepBound { x with pending := events }.flush

end Exploration

/-- Explores the model and finishes the feed. The status returned is that of this exploration, also
when the feed had been finished before. -/
def Feed.exploreModel {State : Type} (feed : Feed State) (model : Model State)
    (options : ExplorationOptions) (session : Session) : FeedStatus × Feed State × Session :=
  let (status, x) := Exploration.explore model options feed session
  (status, x.feed.finish status, x.session)

end TemporalCheck
