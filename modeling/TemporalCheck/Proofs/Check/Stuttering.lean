import TemporalCheck.Proofs.Check.Independence
import TemporalCheck.Proofs.Monitor.Predicates

/-! Stuttering is nothing but self-loops. A check that lets every state be followed by itself is the
check of the model in which every state is listed among its own successors, behind all others. -/
namespace TemporalCheck

variable {State : Type} {model : Model State} {options : ExplorationOptions}

/-- The model in which every state may also stay as it is. -/
def Model.looped (model : Model State) : Model State :=
  { model with successors := fun s => (model.successors s).map (· ++ [s]) }

namespace Exploration

variable {x y : Exploration State} {entries : List (Keyed State)}

def Filed (model : Model State) (entries : List (Keyed State)) : Prop :=
  ∀ k ∈ entries, model.keyed k.state = k

theorem Filed.append {later : List (Keyed State)} (filed : Filed model entries)
    (filed' : Filed model later) : Filed model (entries ++ later) :=
  List.forall_mem_append.mpr ⟨filed, filed'⟩

theorem filed_map (model : Model State) (states : List State) :
    Filed model (states.map model.keyed) := by
  intro k member
  obtain ⟨s, _, rfl⟩ := List.mem_map.mp member
  rfl

/-- A state that is stuttered on is filed like any other that follows. -/
theorem filed_entriesFrom {source : Keyed State} (filed : model.keyed source.state = source)
    (successors : List State) : Filed model (entriesFrom model options source successors) := by
  intro k member
  rcases of_mem_entriesFrom member with ⟨s, _, rfl⟩ | rfl
  · rfl
  · exact filed

/-- What is discovered is filed like the entries. -/
theorem filed_discover (filed : Filed model x.queue) (filed' : Filed model entries) :
    Filed model (discover entries x).queue := by
  induction entries generalizing x with
  | nil => exact filed
  | cons k rest ih =>
    obtain ⟨here, rest⟩ := List.forall_mem_cons.mp filed'
    unfold discover
    split
    · exact ih filed rest
    · exact ih (filed.append (by simpa [Filed] using here)) rest

theorem filed_advance (filed : Filed model x.queue)
    (ongoing : x.advance model options = .ongoing y) : Filed model y.queue := by
  unfold advance at ongoing
  split at ongoing
  · contradiction
  · next source queue first =>
    obtain ⟨here, others⟩ := List.forall_mem_cons.mp (first ▸ filed)
    split at ongoing
    · contradiction
    · split at ongoing
      · contradiction
      · next successors session _ =>
        dsimp only at ongoing
        split at ongoing
        · contradiction
        · have queued : Filed model (discover (entriesFrom model options source successors)
              { x with session := session, queue := queue }).queue :=
            filed_discover others (filed_entriesFrom here successors)
          cases ongoing
          split <;> exact queued

/-- The step that stuttering adds is the one along the self-loop. -/
theorem entriesFrom_looped {source : Keyed State} (filed : model.keyed source.state = source)
    (successors : List State) :
    entriesFrom model.looped { options with stuttering := false } source
        (successors ++ [source.state]) =
      entriesFrom model { options with stuttering := true } source successors := by
  have keyed : model.looped.keyed = model.keyed := rfl
  simp [entriesFrom, keyed, filed]

theorem exceeded?_looped (feed : Feed State) (entries : List (Keyed State)) :
    exceeded? { options with stuttering := false } feed entries =
      exceeded? { options with stuttering := true } feed entries := rfl

theorem advance_looped (filed : Filed model x.queue) :
    x.advance model.looped { options with stuttering := false } =
      x.advance model { options with stuttering := true } := by
  unfold advance
  cases queued : x.queue with
  | nil => rfl
  | cons source queue =>
    obtain ⟨here, _⟩ := List.forall_mem_cons.mp (queued ▸ filed)
    have answer : model.looped.successors source.state =
        (model.successors source.state).map (· ++ [source.state]) := rfl
    dsimp only [Session.successors]
    rw [answer]
    cases model.successors source.state with
    | error e => rfl
    | ok successors =>
      simp only [Except.map, entriesFrom_looped here, exceeded?_looped]

theorem exploreFrom_looped (fuel : Nat) (filed : Filed model x.queue) :
    exploreFrom model.looped { options with stuttering := false } fuel x =
      exploreFrom model { options with stuttering := true } fuel x := by
  induction fuel generalizing x with
  | zero => rfl
  | succ fuel ih =>
    unfold exploreFrom
    rw [advance_looped filed]
    cases onward : x.advance model { options with stuttering := true } with
    | ended status y => rfl
    | ongoing y => exact ih (filed_advance filed onward)

theorem explore_looped (model : Model State) (options : ExplorationOptions) (feed : Feed State)
    (session : Session) :
    explore model.looped { options with stuttering := false } feed session =
      explore model { options with stuttering := true } feed session := by
  have keyed : model.looped.keyed = model.keyed := rfl
  unfold explore
  dsimp only [Session.initial]
  rw [show model.looped.initial = model.initial from rfl, keyed]
  cases model.initial with
  | error e => rfl
  | ok states =>
    dsimp only
    rw [exceeded?_looped]
    cases exceeded? { options with stuttering := true } feed (states.map model.keyed) with
    | some limit => rfl
    | none =>
      refine exploreFrom_looped stepBound (filed_discover ?_ (filed_map model states))
      simp [Filed]

end Exploration

/-- An exploration with stuttering is the exploration of the model with self-loops, whatever stands
in the feed and however it ends. -/
theorem Feed.exploreModel_looped (feed : Feed State) (model : Model State)
    (options : ExplorationOptions) (session : Session) :
    feed.exploreModel model.looped { options with stuttering := false } session =
      feed.exploreModel model { options with stuttering := true } session := by
  unfold exploreModel
  rw [Exploration.explore_looped]

/-- A check with stuttering and a check of the model with self-loops are the same: they leave the
same log, states and status in their feed, and their reports agree on every verdict, lasso and
count. -/
theorem check_stuttering (model : Model State) (settings : Settings) (fairness : List Formula)
    (properties : List (String × Formula)) :
    let stuttering := { settings with stuttering := true }
    let plain := { settings with stuttering := false }
    (∀ (feed : Feed State) session,
      feed.exploreModel model.looped plain.exploration session =
        feed.exploreModel model stuttering.exploration session) ∧
      exploredFeed model.looped plain fairness properties =
        exploredFeed model stuttering fairness properties ∧
      check model.looped plain fairness properties =
        check model stuttering fairness properties := by
  intro stuttering plain
  have predicates : model.looped.holds = model.holds := rfl
  have explored (feed : Feed State) (session : Session) :
      feed.exploreModel model.looped plain.exploration session =
        feed.exploreModel model stuttering.exploration session :=
    Feed.exploreModel_looped feed model settings.exploration session
  have reported (feed : Feed State) (name : String) (t : Tableau) :
      (Monitor.start name t plain).run model.looped feed =
        (Monitor.start name t stuttering).run model feed :=
    Monitor.run_of_holds predicates feed _
  refine ⟨explored, ?_, ?_⟩
  · unfold exploredFeed
    rw [explored]
  · unfold check
    simp only [explored, reported]

end TemporalCheck
