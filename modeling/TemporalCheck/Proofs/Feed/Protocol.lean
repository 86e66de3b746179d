import TemporalCheck.Proofs.Exploration.Script
import TemporalCheck.Proofs.Monitor.Exact

/-! A feed and its readers, who go through the log each at its own pace while it is being written.
In whatever order the parties move, a reader is given the log from the beginning, without a gap, and
is not told that nothing more will come before it has been given everything. -/
namespace TemporalCheck.Feed

variable {State : Type} {f g h : Feed State}

structure Onward (f g : Feed State) : Prop where
  before : f.Before g
  frozen : f.status.isFinished = true → g.events = f.events ∧ g.status = f.status

theorem Onward.refl (f : Feed State) : f.Onward f := ⟨.refl f, fun _ => ⟨rfl, rfl⟩⟩

theorem Onward.trans (first : f.Onward g) (second : g.Onward h) : f.Onward h := by
  refine ⟨first.before.trans second.before, fun finished => ?_⟩
  obtain ⟨events, status⟩ := first.frozen finished
  obtain ⟨events', status'⟩ := second.frozen (status ▸ finished)
  exact ⟨events'.trans events, status'.trans status⟩

theorem onward_perform (f : Feed State) (o : Operation State) : f.Onward (f.perform o) :=
  ⟨before_perform f o, fun finished => perform_finished finished o⟩

/-- A reader of a feed: how far into the log it is, and the batches that it has been given. -/
structure Reader where
  cursor : Nat := 0
  batches : List FeedBatch := []

namespace Reader

def received (r : Reader) : List Event := r.batches.flatMap (·.events)

def receive (r : Reader) (batch : FeedBatch) : Reader :=
  ⟨r.cursor + batch.events.length, r.batches ++ [batch]⟩

/-- The reader has been given the log as far as its cursor, and no empty batch unless there is
nothing left to give. -/
structure Served (r : Reader) (f : Feed State) : Prop where
  received : r.received <+: f.events.toList
  cursor : r.received.length = r.cursor
  complete : ∀ b ∈ r.batches, b.events = [] →
    f.status.isFinished = true ∧ b.status = f.status ∧ r.cursor = f.length

variable {r : Reader}

theorem received_receive (r : Reader) (batch : FeedBatch) :
    (r.receive batch).received = r.received ++ batch.events := by
  simp [receive, received]

theorem served_new (f : Feed State) : Served {} f := ⟨List.nil_prefix, rfl, by simp⟩

theorem Served.onward (served : r.Served f) (later : f.Onward g) : r.Served g where
  received := served.received.trans later.before.events
  cursor := served.cursor
  complete := by
    intro b member empty
    obtain ⟨finished, status, cursor⟩ := served.complete b member empty
    obtain ⟨events, same⟩ := later.frozen finished
    rw [length, events, same]
    exact ⟨finished, status, cursor⟩

theorem Served.eq_take (served : r.Served f) :
    r.received = f.events.toList.take r.cursor ∧ r.cursor ≤ f.length := by
  rw [← served.cursor]
  exact ⟨List.prefix_iff_eq_take.mp served.received, served.received.length_le⟩

theorem events_read (f : Feed State) (cursor limit : Nat) :
    (f.read cursor limit).events = (f.events.toList.drop cursor).take (max limit 1) := by
  simp [read, List.extract_eq_take_drop]

/-- A batch is empty only if the reader has been given the whole log. -/
theorem length_le_of_read_nil {cursor limit : Nat} (empty : (f.read cursor limit).events = []) :
    f.length ≤ cursor := by
  rw [events_read, List.take_eq_nil_iff, List.drop_eq_nil_iff, Array.length_toList] at empty
  exact empty.resolve_left (by omega)

/-- A reader that need not wait is served again, whatever limit it names. -/
theorem Served.read (served : r.Served f) (ready : f.isPending r.cursor = false) (limit : Nat) :
    (r.receive (f.read r.cursor limit)).Served f := by
  obtain ⟨taken, within⟩ := served.eq_take
  refine ⟨?_, ?_, fun b member empty => ?_⟩
  · rw [received_receive, events_read, taken, ← List.take_add]
    exact List.take_prefix _ _
  · rw [received_receive, List.length_append, served.cursor]
    rfl
  · have all : r.cursor = f.length := by
      rcases List.mem_append.mp member with old | new
      · exact (served.complete b old empty).2.2
      · rw [List.mem_singleton.mp new] at empty
        exact Nat.le_antisymm within (length_le_of_read_nil empty)
    have nothing : (f.read r.cursor limit).events = [] := by
      rw [events_read, all, length, ← Array.length_toList, List.drop_length, List.take_nil]
    have finished : f.status.isFinished = true := by
      simpa [isPending, all] using ready
    refine ⟨finished, ?_, by rw [receive, nothing, all]; rfl⟩
    rcases List.mem_append.mp member with old | new
    · exact (served.complete b old empty).2.1
    · rw [List.mem_singleton.mp new]
      rfl

end Reader

structure Exchange (State : Type) where
  feed : Feed State := {}
  readers : Nat → Reader := fun _ => {}

inductive Move (State : Type) where
  | operate (o : Operation State)
  | read (n limit : Nat)
  | join
  | leave

def operated (moves : List (Move State)) : List (Operation State) :=
  moves.filterMap fun
    | .operate o => some o
    | _ => none

namespace Exchange

/-- A reader that has to wait is not given anything yet. -/
def move (x : Exchange State) : Move State → Exchange State
  | .operate o => { x with feed := x.feed.perform o }
  | .read n limit =>
    let r := x.readers n
    if x.feed.isPending r.cursor then x
    else { x with readers := Function.update x.readers n (r.receive (x.feed.read r.cursor limit)) }
  | .join => { x with feed := x.feed.addReader }
  | .leave => { x with feed := x.feed.dropReader }

def run (x : Exchange State) (moves : List (Move State)) : Exchange State := moves.foldl move x

theorem run_append (x : Exchange State) (moves later : List (Move State)) :
    x.run (moves ++ later) = (x.run moves).run later := List.foldl_append

def Served (x : Exchange State) : Prop := ∀ n, (x.readers n).Served x.feed

variable {x : Exchange State}

theorem onward_move (x : Exchange State) (m : Move State) : x.feed.Onward (x.move m).feed := by
  cases m with
  | operate o => exact onward_perform x.feed o
  | read n limit =>
    unfold move
    dsimp only
    split <;> exact .refl x.feed
  | join => exact ⟨⟨fun _ _ found => found, List.prefix_rfl⟩, fun _ => ⟨rfl, rfl⟩⟩
  | leave => exact ⟨⟨fun _ _ found => found, List.prefix_rfl⟩, fun _ => ⟨rfl, rfl⟩⟩

theorem onward_run (x : Exchange State) (moves : List (Move State)) :
    x.feed.Onward (x.run moves).feed := by
  induction moves generalizing x with
  | nil => exact .refl x.feed
  | cons m rest ih => exact (onward_move x m).trans (ih (x.move m))

theorem Served.move (served : x.Served) (m : Move State) : (x.move m).Served := by
  have onward := onward_move x m
  cases m with
  | read n limit =>
    unfold Exchange.move
    cases ready : x.feed.isPending (x.readers n).cursor with
    | true => simpa [ready] using served
    | false =>
      intro n'
      simp only [ready, Bool.false_eq_true, if_false]
      by_cases same : n' = n
      · subst same
        rw [Function.update_self]
        exact (served n').read ready limit
      · rw [Function.update_of_ne same]
        exact served n'
  | _ => exact fun n => (served n).onward onward

theorem Served.run (served : x.Served) (moves : List (Move State)) : (x.run moves).Served := by
  induction moves generalizing x with
  | nil => exact served
  | cons m rest ih => exact ih (served.move m)

/-- The feed is what the operations have made of it, but for the number of readers. -/
theorem feed_run (x : Exchange State) (moves : List (Move State)) (f : Feed State) (n : Nat)
    (feed : x.feed = { f with readers := n }) :
    ∃ n', (x.run moves).feed = { f.performAll (operated moves) with readers := n' } := by
  induction moves generalizing x f n with
  | nil => exact ⟨n, feed⟩
  | cons m rest ih =>
    cases m with
    | operate o =>
      refine ih (x.move (.operate o)) (f.perform o) n ?_
      exact (congrArg (·.perform o) feed).trans (perform_readers f n o)
    | read n' limit =>
      refine ih (x.move (.read n' limit)) f n ?_
      unfold move
      dsimp only
      split <;> exact feed
    | join => exact ih (x.move .join) f (n + 1) (congrArg addReader feed)
    | leave => exact ih (x.move .leave) f (n - 1) (congrArg dropReader feed)

/-- However far an exploration has come, its log does not mention a state that is not stored. -/
theorem grounded_run {model : Model State} {options : ExplorationOptions}
    {moves : List (Move State)} (performed : Exploration.Performed model options (operated moves)) :
    (({} : Exchange State).run moves).feed.Grounded := by
  have grounded : (({} : Feed State).performAll (operated moves)).Grounded :=
    Grounded.performAll (by simp [Grounded]) (Set.empty_subset _) performed.storesFirst
  obtain ⟨n, feed⟩ := feed_run ({} : Exchange State) moves {} 0 rfl
  rw [feed]
  exact grounded

/-- In whatever order a feed is operated on and read, a stored state stays, the log only grows, and
when the feed is finished neither its log nor its status changes any more. A reader has been given
exactly the log as far as its cursor, and an empty batch only if the feed is finished and the reader
has been given all of it. While a model is explored into the feed, every state that is mentioned to
a reader is stored. -/
theorem run_protocol (moves later : List (Move State)) :
    let x := ({} : Exchange State).run moves
    let y := ({} : Exchange State).run (moves ++ later)
    (∀ fp s, x.feed.state? fp = some s → y.feed.state? fp = some s) ∧
    x.feed.events.toList <+: y.feed.events.toList ∧
    (x.feed.status.isFinished = true →
      y.feed.events = x.feed.events ∧ y.feed.status = x.feed.status) ∧
    (∀ n, let r := x.readers n
      r.received = x.feed.events.toList.take r.cursor ∧ r.cursor ≤ x.feed.length ∧
      ∀ b ∈ r.batches, b.events = [] →
        x.feed.status.isFinished = true ∧ b.status = x.feed.status ∧ r.cursor = x.feed.length) ∧
    ∀ (model : Model State) (options : ExplorationOptions),
      Exploration.Performed model options (operated moves) →
      ∀ n, ∀ e ∈ (x.readers n).received, ∀ fp ∈ e.fingerprints,
        ∃ s, x.feed.state? fp = some s := by
  intro x y
  have onward : x.feed.Onward y.feed := by
    rw [show y = x.run later from run_append {} moves later]
    exact onward_run x later
  have served : x.Served := Served.run (fun _ => Reader.served_new _) moves
  refine ⟨onward.before.states, onward.before.events, onward.frozen, fun n => ?_,
    fun model options performed n e told fp mentioned => ?_⟩
  · obtain ⟨taken, within⟩ := (served n).eq_take
    exact ⟨taken, within, (served n).complete⟩
  · exact grounded_run performed e ((served n).received.subset told) fp mentioned

section Lamp

open Monitor (lamp)

theorem run_operate (x : Exchange State) (operations : List (Operation State)) :
    x.run (operations.map .operate) = { x with feed := x.feed.performAll operations } := by
  induction operations generalizing x with
  | nil => rfl
  | cons o rest ih => exact ih (x.move (.operate o))

/-- One reader takes a single event of an explored lamp, the other as many as there are. -/
theorem run_protocol_lamp : ∃ moves : List (Move Bool),
    Exploration.Performed lamp {} (operated moves) ∧
    let x := ({} : Exchange Bool).run moves
    (x.readers 0).received = [.initial 0] ∧
    (x.readers 1).received = [.initial 0, .expanded 0 [1], .expanded 1 [0]] ∧
    ∀ fp ∈ [0, 1], ∃ s, x.feed.state? fp = some s := by
  obtain ⟨script, scripted, same⟩ := Exploration.exists_scripted lamp {} 1 {}
  let reads : List (Move Bool) := [.read 0 0, .read 1 18446744073709551615]
  let moves := .join :: (script.map .operate ++ reads)
  have performed : Exploration.Performed lamp {} (operated moves) := by
    have all : operated moves = script := by
      simp [moves, reads, operated, List.filterMap_map]
    exact .underway scripted (all ▸ List.prefix_rfl)
  have ran : ({} : Exchange Bool).run moves =
      ({ feed := (({ readers := 1 } : Feed Bool).exploreModel lamp {} {}).2.1 } :
        Exchange Bool).run reads := by
    change (({} : Exchange Bool).move .join).run (script.map .operate ++ reads) = _
    rw [run_append, run_operate, ← same]
    rfl
  have given : (((({} : Exchange Bool).run moves).readers 0).received = [.initial 0]) ∧
      (((({} : Exchange Bool).run moves).readers 1).received =
        [.initial 0, .expanded 0 [1], .expanded 1 [0]]) := by
    rw [ran]
    decide +kernel
  refine ⟨moves, performed, given.1, given.2, ?_⟩
  obtain ⟨_, _, _, _, stored⟩ := run_protocol moves []
  intro fp listed
  exact stored lamp {} performed 1 (.expanded 0 [1]) (by simp [given.2]) fp listed

end Lamp

end Exchange
end TemporalCheck.Feed
