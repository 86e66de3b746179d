import TemporalCheck.Proofs.Exploration.Batch
import TemporalCheck.Proofs.Exploration.Order
import TemporalCheck.Proofs.Exploration.Script

/-! An exploration on its way through a model. Its queue holds what has been discovered and not
expanded, so it expands the sources in breadth-first order, and goes on until there is a reason to
stop. -/
namespace TemporalCheck

variable {State : Type}

namespace Exploration

variable {model : Model State} {options : ExplorationOptions} {starts order : List (Keyed State)}
  {x y : Exploration State} {source : Keyed State} {successors : List State}

theorem entriesFrom_eq (answered : model.successors source.state = .ok successors) :
    entriesFrom model options source successors =
      firstEntries [] (model.next options.stuttering source) := by
  rw [Model.next_of_answered answered]
  rfl

theorem map_entriesFrom (answered : model.successors source.state = .ok successors) :
    (entriesFrom model options source successors).map (·.fingerprint) =
      ((model.next options.stuttering source).map (·.fingerprint)).eraseDups := by
  rw [entriesFrom_eq answered, ← firsts_eq, map_firsts]

def expand (model : Model State) (options : ExplorationOptions) (x : Exploration State)
    (source : Keyed State) (queue : List (Keyed State)) (successors : List State) :
    Exploration State :=
  let entries := entriesFrom model options source successors
  (discover entries { x with
    session := (x.session.successors model source.state).2, queue := queue }).tell
      (.expanded source.fingerprint (entries.map (·.fingerprint)))

inductive Step (model : Model State) (options : ExplorationOptions) (x : Exploration State) :
    Progress State → Prop where
  | exhausted (empty : x.queue = []) : Step model options x (.ended .exhausted x.flush)
  | cancelled {source : Keyed State} {queue : List (Keyed State)}
    (first : x.queue = source :: queue) (unread : x.feed.readers = 0) :
    Step model options x (.ended .cancelled x.flush)
  | failed {source : Keyed State} {queue : List (Keyed State)} {e : EvalError}
    (first : x.queue = source :: queue) (watched : x.feed.readers ≠ 0)
    (refused : model.successors source.state = .error e) :
    Step model options x (.ended (.failed e)
      { x with session := (x.session.successors model source.state).2 }.flush)
  | truncated {source : Keyed State} {queue : List (Keyed State)} {successors : List State}
    {limit : Nat} (first : x.queue = source :: queue) (watched : x.feed.readers ≠ 0)
    (answered : model.successors source.state = .ok successors)
    (beyond : exceeded? options x.feed (entriesFrom model options source successors) =
      some limit) :
    Step model options x (.ended (.truncated limit)
      { x with session := (x.session.successors model source.state).2, queue := queue }.flush)
  | expanded {source : Keyed State} {queue : List (Keyed State)} {successors : List State}
    (first : x.queue = source :: queue) (watched : x.feed.readers ≠ 0)
    (answered : model.successors source.state = .ok successors)
    (within : exceeded? options x.feed (entriesFrom model options source successors) = none) :
    Step model options x (.ongoing
      (if max options.batch 1 ≤ (x.expand model options source queue successors).pending.length then
        (x.expand model options source queue successors).flush
      else x.expand model options source queue successors))

theorem advance_step (model : Model State) (options : ExplorationOptions) (x : Exploration State) :
    Step model options x (x.advance model options) := by
  unfold advance
  cases first : x.queue with
  | nil => exact .exhausted first
  | cons source queue =>
    by_cases unread : x.feed.readers = 0
    · simp only [unread, if_true]
      exact .cancelled first unread
    · simp only [unread, if_false, Session.successors]
      cases answered : model.successors source.state with
      | error e =>
        have step := @Step.failed _ model options x source queue e first unread answered
        rwa [first] at step
      | ok successors =>
        dsimp only
        cases room : exceeded? options x.feed (entriesFrom model options source successors) with
        | some limit => exact .truncated first unread answered room
        | none => exact .expanded first unread answered room

structure Traces (model : Model State) (options : ExplorationOptions)
    (starts order : List (Keyed State)) (x : Exploration State) : Prop where
  running : x.feed.status = .running
  watched : x.feed.readers ≠ 0
  recorded : x.feed.Recorded model options.stuttering starts order x.log
  queue : model.discoveries options.stuttering starts order = order ++ x.queue

structure Stopped (model : Model State) (options : ExplorationOptions)
    (starts order : List (Keyed State)) (status : FeedStatus) (x : Exploration State) : Prop where
  running : x.feed.status = .running
  recorded : x.feed.Recorded model options.stuttering starts order x.feed.events.toList
  stops : model.StopsAfter options starts order status

theorem stopped_flush {status : FeedStatus} (running : x.feed.status = .running)
    (recorded : x.feed.Recorded model options.stuttering starts order x.log)
    (stops : model.StopsAfter options starts order status) :
    Stopped model options starts order status x.flush where
  running := (feed_flush running).1
  recorded := by
    rw [events_flush running]
    exact recorded.congr (feed_flush running).2
  stops := stops

theorem Traces.flush (traces : Traces model options starts order x) :
    Traces model options starts order x.flush where
  running := (feed_flush traces.running).1
  watched := by
    rw [readers_flush]
    exact traces.watched
  recorded := by
    rw [log_flush traces.running]
    exact traces.recorded.congr (feed_flush traces.running).2
  queue := traces.queue

/-- The first of the queue is the next source. -/
theorem Traces.first (traces : Traces model options starts order x) :
    (model.discoveries options.stuttering starts order)[order.length]? = x.queue.head? := by
  rw [traces.queue, List.getElem?_append_right (Nat.le_refl _), Nat.sub_self,
    List.head?_eq_getElem?]

/-- What one more source adds is what the feed would store of what follows it. -/
theorem Traces.discoveries_append (traces : Traces model options starts order x)
    (answered : model.successors source.state = .ok successors) :
    model.discoveries options.stuttering starts (order ++ [source]) =
      model.discoveries options.stuttering starts order ++
        x.feed.fresh (entriesFrom model options source successors) := by
  have met (fp : Fingerprint) : fp ∈ x.feed.states.keys ↔
      fp ∈ (model.discoveries options.stuttering starts order).map (·.fingerprint) :=
    Feed.mem_keys.trans (traces.recorded.keys fp)
  rw [Model.discoveries_append, List.flatMap_singleton, entriesFrom_eq answered,
    Feed.fresh_firstEntries, Feed.fresh, firstEntries_congr met]

/-- Expanding the next source keeps the order. -/
theorem Traces.expand (traces : Traces model options starts order x) {queue : List (Keyed State)}
    (first : x.queue = source :: queue)
    (answered : model.successors source.state = .ok successors) :
    Traces model options starts (order ++ [source])
      (x.expand model options source queue successors) := by
  have added := traces.discoveries_append answered
  have told := @map_entriesFrom _ model options _ _ answered
  unfold Exploration.expand
  dsimp only
  generalize entriesFrom model options source successors = entries at added told
  generalize (x.session.successors model source.state).2 = session
  have rest := (discover_spec entries { x with session := session, queue := queue }).rest
  have fresh := discover_fresh entries { x with session := session, queue := queue }
  generalize discover entries { x with session := session, queue := queue } = y at rest fresh
  obtain ⟨queued, count, states⟩ := fresh
  dsimp only at queued count states
  have log : y.log = x.log := by
    rw [rest]
    rfl
  have kept : y.feed.status = x.feed.status ∧ y.feed.readers = x.feed.readers := by
    rw [rest]
    exact ⟨rfl, rfl⟩
  constructor
  case running => exact kept.1.trans traces.running
  case watched => exact fun unread => traces.watched (kept.2 ▸ unread)
  case queue =>
    change _ = _ ++ y.queue
    rw [added, traces.queue, first, queued]
    simp only [List.append_assoc, List.cons_append, List.nil_append]
  case recorded =>
    rw [log_tell, log]
    refine ⟨.next traces.recorded.ordered ?_ answered, ?_, fun fp s => ?_, ?_⟩
    · rw [traces.first, first, List.head?_cons]
    · rw [Model.breadthFirstLog_append, traces.recorded.log, told]
    · change y.feed.state? fp = some s ↔ _
      rw [states, added, List.mem_append, traces.recorded.stored]
    · change y.feed.stateCount = _
      rw [count, added, List.length_append, traces.recorded.count]

/-- A step keeps the order, or there is a reason to stop. -/
theorem advance_traces (traces : Traces model options starts order x) :
    match x.advance model options with
    | .ended status y => Stopped model options starts order status y
    | .ongoing y => ∃ source, Traces model options starts (order ++ [source]) y := by
  have next := traces.first
  have step := advance_step model options x
  generalize x.advance model options = progress at step
  cases step with
  | exhausted empty =>
    rw [empty] at next
    exact stopped_flush traces.running traces.recorded (.exhausted next)
  | cancelled first unread => exact absurd unread traces.watched
  | failed first watched refused =>
    rw [first] at next
    exact stopped_flush traces.running traces.recorded (.failed next refused)
  | @truncated source queue successors limit first watched answered beyond =>
    rw [first] at next
    rw [exceeded?_eq, Option.filter_eq_some_iff, decide_eq_true_iff] at beyond
    obtain ⟨limited, beyond⟩ := beyond
    refine stopped_flush traces.running traces.recorded (.truncated next answered limited ?_)
    rw [traces.discoveries_append answered, List.length_append, ← traces.recorded.count]
    exact beyond
  | @expanded source queue successors first watched answered within =>
    have onward := traces.expand first answered
    dsimp only
    split
    · exact ⟨source, onward.flush⟩
    · exact ⟨source, onward⟩

section Run

/-- No order discovers more than that many states beyond the sources expanded so far. -/
def Suffices (model : Model State) (options : ExplorationOptions)
    (starts order : List (Keyed State)) (fuel : Nat) : Prop :=
  ∀ order', model.BreadthFirst options.stuttering starts order' →
    (model.discoveries options.stuttering starts order').length ≤ order.length + fuel

theorem Suffices.next {fuel : Nat} (enough : Suffices model options starts order (fuel + 1))
    (source : Keyed State) : Suffices model options starts (order ++ [source]) fuel := by
  intro order' run
  have bound := enough order' run
  rw [List.length_append, List.length_singleton]
  omega

theorem Traces.queue_eq_nil (traces : Traces model options starts order x)
    (enough : Suffices model options starts order 0) : x.queue = [] := by
  have bound := enough order traces.recorded.ordered
  rw [traces.queue, List.length_append] at bound
  exact List.eq_nil_of_length_eq_zero (by omega)

variable {fuel : Nat}

/-- Steps that suffice lead to the end of the exploration. -/
theorem exploreFrom_stopped (traces : Traces model options starts order x)
    (enough : Suffices model options starts order fuel) :
    ∃ order', Stopped model options starts order' (exploreFrom model options fuel x).1
      (exploreFrom model options fuel x).2 := by
  induction fuel generalizing x order with
  | zero =>
    have next := traces.first
    rw [traces.queue_eq_nil enough] at next
    exact ⟨order, stopped_flush traces.running traces.recorded (.exhausted next)⟩
  | succ fuel ih =>
    have step := advance_traces traces
    unfold exploreFrom
    generalize x.advance model options = progress at step
    cases progress with
    | ended status y => exact ⟨order, step⟩
    | ongoing y =>
      obtain ⟨source, onward⟩ := step
      exact ih onward (enough.next source)

/-- More steps than suffice are not taken. -/
theorem exploreFrom_add (traces : Traces model options starts order x)
    (enough : Suffices model options starts order fuel) (n : Nat) :
    exploreFrom model options (fuel + n) x = exploreFrom model options fuel x := by
  induction fuel generalizing x order with
  | zero =>
    have ended : x.advance model options = .ended .exhausted x.flush := by
      rw [advance, traces.queue_eq_nil enough]
    cases n with
    | zero => rfl
    | succ n => rw [Nat.zero_add, exploreFrom, exploreFrom, ended]
  | succ fuel ih =>
    have step := advance_traces traces
    rw [Nat.add_right_comm, exploreFrom, exploreFrom]
    generalize x.advance model options = progress at step
    cases progress with
    | ended status y => rfl
    | ongoing y =>
      obtain ⟨source, onward⟩ := step
      exact ih onward (enough.next source)

/-- All numbers of steps that suffice lead to the same end. -/
theorem exploreFrom_eq {fuel' : Nat} (traces : Traces model options starts order x)
    (enough : Suffices model options starts order fuel)
    (enough' : Suffices model options starts order fuel') :
    exploreFrom model options fuel x = exploreFrom model options fuel' x := by
  rcases Nat.le_total fuel fuel' with less | less
  · rw [← Nat.add_sub_of_le less, exploreFrom_add traces enough]
  · rw [← Nat.add_sub_of_le less, exploreFrom_add traces enough']

theorem suffices_stepBound (model : Model State) (options : ExplorationOptions)
    (starts : List (Keyed State)) : Suffices model options starts [] stepBound := by
  intro order' _
  rw [List.length_nil, Nat.zero_add]
  exact Model.length_discoveries_le model options.stuttering starts order'

variable {states : List State} {readers : Nat} {session : Session}

theorem fresh_empty (readers : Nat) (entries : List (Keyed State)) :
    ({ readers := readers } : Feed State).fresh entries = firsts entries := by
  rw [firsts_eq]
  rfl

/-- At the beginning the starts are discovered and no source is expanded. -/
theorem traces_begun (states : List State) (watched : readers ≠ 0) :
    Traces model options (states.map model.keyed) []
      (begun model states { readers := readers } session) := by
  have rest := (discover_spec (states.map model.keyed)
    { feed := { readers := readers }, session := session }).rest
  have fresh := discover_fresh (states.map model.keyed)
    { feed := { readers := readers }, session := session }
  unfold begun
  dsimp only
  generalize discover _ _ = y at rest fresh
  obtain ⟨queued, count, stored⟩ := fresh
  rw [List.nil_append, fresh_empty] at queued
  rw [fresh_empty] at count stored
  have discovered : model.discoveries options.stuttering (states.map model.keyed) [] =
      firsts (states.map model.keyed) := by
    rw [Model.discoveries, List.flatMap_nil, List.append_nil]
  have kept : y.feed.status = .running ∧ y.feed.readers = readers ∧ y.feed.events = #[] := by
    rw [rest]
    exact ⟨rfl, rfl, rfl⟩
  constructor
  case running => exact kept.1
  case watched => exact fun unread => watched (kept.2.1 ▸ unread)
  case queue => rw [discovered, queued, List.nil_append]
  case recorded =>
    refine ⟨.start, ?_, fun fp s => ?_, ?_⟩
    · change y.feed.events.toList ++ y.queue.map _ = _
      rw [kept.2.2, queued, Model.breadthFirstLog, ← map_firsts, List.map_map, List.map_nil]
      simp only [List.nil_append, List.append_nil, Function.comp_def]
    · rw [stored, discovered]
      simp [Feed.state?]
    · rw [count, discovered]
      simp [Feed.stateCount]

/-- How an exploration ends that somebody reads, if there is room for the starts. -/
theorem explore_stopped (answered : model.initial = .ok states) (watched : readers ≠ 0)
    (room : exceeded? options { readers := readers } (states.map model.keyed) = none) :
    ∃ order, Stopped model options (states.map model.keyed) order
      (explore model options { readers := readers } session).1
      (explore model options { readers := readers } session).2 := by
  have traces := @traces_begun _ model options readers (session.initial model).2 states watched
  rw [explore_eq, answered]
  dsimp only
  rw [room]
  exact exploreFrom_stopped traces.flush (suffices_stepBound model options _)

end Run

end Exploration

end TemporalCheck
