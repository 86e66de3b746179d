import TemporalCheck.Proofs.Exploration.Trace

/-! Where exploration stops. The log is cut before the first source of which the model does not tell
what follows, or for which there is no room under the state limit, and nothing of that source is
stored. So the feed is consistent however exploration ends. -/
namespace TemporalCheck

variable {State : Type}

section Room

variable {f g : Feed State} {options : ExplorationOptions}

theorem Feed.stateCount_le_of_before (before : f.Before g) : f.stateCount ≤ g.stateCount := by
  have kept : f.states.keys ⊆ g.states.keys := by
    intro fp member
    obtain ⟨s, found⟩ := Feed.mem_keys.mp member
    exact Feed.mem_keys.mpr ⟨s, before.states fp s found⟩
  have counted := (List.subperm_of_subset Std.TreeMap.nodup_keys kept).length_le
  rwa [Std.TreeMap.length_keys, Std.TreeMap.length_keys] at counted

/-- No operation has to do with the number of readers, and so no number of them. -/
theorem Feed.performAll_readers (f : Feed State) (n : Nat) (operations : List (Operation State)) :
    ({ f with readers := n } : Feed State).performAll operations =
      { f.performAll operations with readers := n } := by
  induction operations generalizing f with
  | nil => rfl
  | cons o rest ih => rw [performAll_cons, perform_readers, ih, performAll_cons]

def Feed.Fits (f : Feed State) (options : ExplorationOptions) : Prop :=
  ∀ limit ∈ options.maxStates, f.stateCount ≤ limit

theorem Feed.Fits.congr (fits : f.Fits options) (states : g.states = f.states) :
    g.Fits options := by
  intro limit limited
  rw [Feed.stateCount, states]
  exact fits limit limited

namespace Exploration

open Feed (Operation)

variable {model : Model State} {x y : Exploration State}

/-- Where the limit is not exceeded there is room for what is discovered. -/
theorem fits_discover {entries : List (Keyed State)}
    (within : exceeded? options x.feed entries = none) :
    (discover entries x).feed.Fits options := by
  intro limit limited
  rw [exceeded?_eq, Option.filter_eq_none_iff] at within
  have room := within limit limited
  rw [decide_eq_true_iff, Nat.not_lt] at room
  rw [(discover_fresh entries x).2.1]
  exact room

theorem fits_flush (fits : x.feed.Fits options) : x.flush.feed.Fits options :=
  fits.congr (Feed.publish_keeps _ _).1

/-- A step that there is no room for is not taken. -/
theorem fits_advance (fits : x.feed.Fits options) :
    (Progress.feed (x.advance model options)).Fits options := by
  have step := advance_step model options x
  generalize x.advance model options = progress at step
  have ended (status : FeedStatus) {y : Exploration State} (fits : y.feed.Fits options) :
      (y.flush.feed.finish status).Fits options :=
    (fits_flush fits).congr (Feed.finish_keeps _ _).1
  cases step with
  | exhausted empty => exact ended _ fits
  | cancelled first unread => exact ended _ fits
  | failed first watched refused => exact ended _ fits
  | truncated first watched answered beyond => exact ended _ fits
  | @expanded source queue successors first watched answered within =>
    have grown : (x.expand model options source queue successors).feed.Fits options :=
      @fits_discover _ _ { x with
        session := (x.session.successors model source.state).2, queue := queue } _ within
    rw [Progress.feed]
    split
    · exact fits_flush grown
    · exact grown

theorem Script.fits {script : List (Operation State)} (run : Script model options x script)
    (fits : x.feed.Fits options) : (x.feed.performAll script).Fits options := by
  have performed (x : Exploration State) (n : Nat) :
      ({ x.feed.performAll ((x.watched n).operations model options) with readers := n } :
        Feed State) = Progress.feed ((x.watched n).advance model options) :=
    (Feed.performAll_readers x.feed n _).symm.trans
      (performAll_operations model options (x.watched n))
  induction run with
  | @last x y n status ended =>
    have taken := @fits_advance _ options model (x.watched n) fits
    rw [← performed] at taken
    exact taken.congr rfl
  | @more x y n later ongoing rest ih =>
    have taken := @fits_advance _ options model (x.watched n) fits
    have here := performed x n
    rw [ongoing] at taken here
    have onward := ih taken
    rw [← show _ = y.feed from here, Feed.performAll_readers] at onward
    rw [Feed.performAll_append]
    exact onward.congr rfl

/-- However far an exploration has come, the feed does not hold more states than the limit allows,
also when readers have come and gone. -/
theorem Performed.fits {operations : List (Operation State)}
    (performed : Performed model options operations) :
    (({} : Feed State).performAll operations).Fits options := by
  have empty (n : Nat) : ({ readers := n } : Feed State).Fits options :=
    fun limit _ => Nat.zero_le _
  have whole {script : List (Operation State)} (scripted : Scripted model options script) :
      (({} : Feed State).performAll script).Fits options := by
    cases scripted with
    | failed answered => exact (empty 0).congr (Feed.finish_keeps {} _).1
    | truncated answered beyond => exact (empty 0).congr (Feed.finish_keeps {} _).1
    | @begun states n session later answered within run =>
      have opened : (begun model states { readers := n } session).flush.feed.Fits options :=
        fits_flush (@fits_discover _ _ { feed := { readers := n }, session := session } _ within)
      have onward := run.fits opened
      rw [← performAll_opening, ← Feed.performAll_append, Feed.performAll_readers ({} : Feed State)]
        at onward
      exact onward.congr rfl
  have cut {script operations : List (Operation State)} (scripted : Scripted model options script)
      (part : operations <+: script) : (({} : Feed State).performAll operations).Fits options := by
    obtain ⟨later, rfl⟩ := part
    intro limit limited
    have bound := whole scripted limit limited
    rw [Feed.performAll_append] at bound
    exact Nat.le_trans (Feed.stateCount_le_of_before (Feed.before_performAll _ later)) bound
  cases performed with
  | underway scripted part => exact cut scripted part
  | left scripted part =>
    rw [Feed.performAll_append]
    exact (cut scripted part).congr (Feed.finish_keeps _ _).1

end Exploration

end Room

section Outcome

variable {model : Model State} {options : ExplorationOptions} {status status' : FeedStatus}
  {log log' : List Event} {stored stored' : List (Keyed State)}

namespace Model

/-- How the exploration of a model ends, with what it has recorded and stored by then. If the starts
are refused, or there is no room for them, that is nothing. Otherwise the sources are expanded in
breadth-first order as long as there is room, until there is a reason to stop. -/
inductive ExploresTo (model : Model State) (options : ExplorationOptions) :
    FeedStatus → List Event → List (Keyed State) → Prop where
  | refused {e : EvalError} (refused : model.initial = .error e) :
    ExploresTo model options (.failed e) [] []
  | crowded {states : List State} {limit : Nat} (answered : model.initial = .ok states)
    (limited : options.maxStates = some limit)
    (beyond : limit < (firsts (states.map model.keyed)).length) :
    ExploresTo model options (.truncated limit) [] []
  | stopped {states : List State} {order : List (Keyed State)} {status : FeedStatus}
    (answered : model.initial = .ok states)
    (ordered : model.BreadthFirst options.stuttering (states.map model.keyed) order)
    (room : ∀ limit ∈ options.maxStates,
      (model.discoveries options.stuttering (states.map model.keyed) order).length ≤ limit)
    (stops : model.StopsAfter options (states.map model.keyed) order status) :
    ExploresTo model options status
      (model.breadthFirstLog options.stuttering (states.map model.keyed) order)
      (model.discoveries options.stuttering (states.map model.keyed) order)

theorem length_firsts_le (model : Model State) (stuttering : Bool)
    (starts order : List (Keyed State)) :
    (firsts starts).length ≤ (model.discoveries stuttering starts order).length := by
  have none : model.discoveries stuttering starts [] = firsts starts := by
    rw [discoveries, List.flatMap_nil, List.append_nil]
  rw [← none]
  exact (discoveries_prefix_append model stuttering starts [] order).length_le

/-- There is one way for an exploration to end. -/
theorem ExploresTo.unique (ends : model.ExploresTo options status log stored)
    (ends' : model.ExploresTo options status' log' stored') :
    status = status' ∧ log = log' ∧ stored = stored' := by
  cases ends with
  | refused refused =>
    cases ends' with
    | refused refused' =>
      obtain rfl := Except.error.inj (refused.symm.trans refused')
      exact ⟨rfl, rfl, rfl⟩
    | crowded answered' => simp [refused] at answered'
    | stopped answered' => simp [refused] at answered'
  | @crowded states limit answered limited beyond =>
    cases ends' with
    | refused refused' => simp [answered] at refused'
    | crowded answered' limited' =>
      obtain rfl := Option.some.inj (limited.symm.trans limited')
      exact ⟨rfl, rfl, rfl⟩
    | @stopped states' order' _ answered' ordered' room' =>
      obtain rfl := Except.ok.inj (answered.symm.trans answered')
      have bound := room' limit limited
      have least := length_firsts_le model options.stuttering (states.map model.keyed) order'
      omega
  | @stopped states order _ answered ordered room stops =>
    cases ends' with
    | refused refused' => simp [answered] at refused'
    | @crowded states' limit answered' limited' beyond' =>
      obtain rfl := Except.ok.inj (answered.symm.trans answered')
      have bound := room limit limited'
      have least := length_firsts_le model options.stuttering (states.map model.keyed) order
      omega
    | @stopped states' order' _ answered' ordered' room' stops' =>
      obtain rfl := Except.ok.inj (answered.symm.trans answered')
      obtain rfl : order = order' := by
        rcases ordered.comparable ordered' with longer | longer
        · exact stops.eq_of_prefix longer ordered' room'
        · exact (stops'.eq_of_prefix longer ordered room).symm
      exact ⟨stops.eq_status stops', rfl, rfl⟩

def fingerprints (model : Model State) : Set Fingerprint :=
  {fp | ∃ s, model.Reachable s ∧ model.fingerprint s = fp}

/-- Distinct discoveries are fingerprints of states that can be reached. -/
theorem BreadthFirst.length_le {states : List State} {order : List (Keyed State)}
    {stuttering : Bool} (answered : model.initial = .ok states)
    (run : model.BreadthFirst stuttering (states.map model.keyed) order) :
    (model.discoveries stuttering (states.map model.keyed) order).length ≤
      model.fingerprints.ncard := by
  have distinct := nodup_discoveries model stuttering (states.map model.keyed) order
  rw [← List.length_map (·.fingerprint), ← List.toFinset_card_of_nodup distinct,
    ← Set.ncard_coe_finset, List.coe_toFinset]
  refine Set.ncard_le_ncard (fun fp member => ?_) (Set.toFinite _)
  obtain ⟨k, discovered, rfl⟩ := List.mem_map.mp member
  exact ⟨k.state, run.reachable answered discovered⟩

end Model

/-- What comes of an exploration that somebody reads. -/
theorem Exploration.explore_exploresTo {readers : Nat} {session : Session}
    {run : FeedStatus × Exploration State}
    (explored : explore model options { readers := readers + 1 } session = run)
    (fits : run.2.feed.Fits options) :
    ∃ stored, model.ExploresTo options run.1 run.2.feed.events.toList stored ∧
      (∀ fp s, run.2.feed.state? fp = some s ↔ ⟨fp, s⟩ ∈ stored) ∧
      ∀ fp, (∃ s, run.2.feed.state? fp = some s) ↔
        ∃ e ∈ run.2.feed.events.toList, fp ∈ e.fingerprints := by
  cases answered : model.initial with
  | error e =>
    rw [explore_eq, answered] at explored
    subst explored
    exact ⟨[], .refused answered, by simp [Feed.state?], by simp [Feed.state?]⟩
  | ok states =>
    cases room : exceeded? options { readers := readers + 1 } (states.map model.keyed) with
    | some limit =>
      rw [explore_eq, answered] at explored
      dsimp only at explored
      rw [room] at explored
      subst explored
      rw [exceeded?_eq, fresh_empty, Option.filter_eq_some_iff, decide_eq_true_iff] at room
      have beyond : limit < (firsts (states.map model.keyed)).length := by
        simpa [Feed.stateCount] using room.2
      exact ⟨[], .crowded answered room.1 beyond, by simp [Feed.state?], by simp [Feed.state?]⟩
    | none =>
      obtain ⟨order, stopped⟩ :=
        @explore_stopped _ model options states (readers + 1) session answered (by simp) room
      rw [explored] at stopped
      obtain ⟨running, recorded, stops⟩ := stopped
      refine ⟨_, ?_, recorded.stored, recorded.mentioned⟩
      rw [recorded.log]
      exact .stopped answered recorded.ordered
        (fun limit limited => recorded.count ▸ fits limit limited) stops

namespace Feed

/-- An explored feed does not hold more states than the limit allows. -/
theorem fits_exploreModel (model : Model State) (options : ExplorationOptions) (readers : Nat)
    (session : Session) :
    (({ readers := readers } : Feed State).exploreModel model options session).2.1.Fits
      options := by
  obtain ⟨script, scripted, same⟩ := Exploration.exists_scripted model options readers session
  have whole := (performAll_readers ({} : Feed State) readers script).symm.trans same
  rw [← whole]
  exact (Exploration.Performed.underway scripted List.prefix_rfl).fits.congr rfl

theorem exploreModel_exploresTo (model : Model State) (options : ExplorationOptions)
    (readers : Nat) (session : Session) :
    let result := ({ readers := readers + 1 } : Feed State).exploreModel model options session
    ∃ stored, model.ExploresTo options result.1 result.2.1.events.toList stored ∧
      (∀ fp s, result.2.1.state? fp = some s ↔ ⟨fp, s⟩ ∈ stored) ∧
      ∀ fp, (∃ s, result.2.1.state? fp = some s) ↔
        ∃ e ∈ result.2.1.events.toList, fp ∈ e.fingerprints := by
  have fits := fits_exploreModel model options (readers + 1) session
  unfold exploreModel at fits ⊢
  cases explored : Exploration.explore model options { readers := readers + 1 } session with
  | mk status x =>
    rw [explored] at fits
    obtain ⟨states, events, _⟩ := finish_keeps x.feed status
    have outcome := Exploration.explore_exploresTo explored (fits.congr states.symm)
    dsimp only at outcome ⊢
    simpa only [state?, states, events] using outcome

/-- If no call fails, exploration is cut off just when the limit is less than the number of
fingerprints that can be reached. -/
theorem exploreModel_truncated_iff (model : Model State) (options : ExplorationOptions)
    (readers : Nat) (session : Session) (unfailing : model.Unfailing) (separates : model.Separates)
    (limit : Nat) :
    (({ readers := readers + 1 } : Feed State).exploreModel model options session).1 =
        .truncated limit ↔
      options.maxStates = some limit ∧ limit < model.fingerprints.ncard := by
  obtain ⟨⟨states, answered⟩, told⟩ := unfailing
  obtain ⟨stored, ends, filed, _⟩ := exploreModel_exploresTo model options readers session
  obtain ⟨_, sound, complete⟩ :=
    @exploreModel_spec State { readers := readers + 1 } model options rfl rfl rfl session
  generalize ({ readers := readers + 1 } : Feed State).exploreModel model options session = result
    at ends filed sound complete
  have covered : result.1 = .exhausted → model.fingerprints.ncard ≤ stored.length := by
    intro exhausted
    have kept : model.fingerprints ⊆ {fp | fp ∈ stored.map (·.fingerprint)} := by
      rintro fp ⟨s, reachable, rfl⟩
      have found := (complete exhausted).stored sound separates reachable
      exact List.mem_map.mpr ⟨_, (filed _ _).mp found, rfl⟩
    refine (Set.ncard_le_ncard kept (Set.toFinite _)).trans ?_
    rw [← List.length_map (·.fingerprint), ← List.coe_toFinset, Set.ncard_coe_finset]
    exact List.toFinset_card_le _
  generalize result.2.1.events.toList = log at ends
  generalize result.1 = status at ends covered
  constructor
  · rintro rfl
    cases ends with
    | @crowded states' _ answered' limited beyond =>
      have starts := @Model.BreadthFirst.start _ model options.stuttering (states'.map model.keyed)
      have bound := starts.length_le answered'
      have least := Model.length_firsts_le model options.stuttering (states'.map model.keyed) []
      exact ⟨limited, by omega⟩
    | @stopped states' order _ answered' ordered room stops =>
      cases stops with
      | truncated first told limited beyond =>
        exact ⟨limited, beyond.trans_le ((ordered.next first told).length_le answered')⟩
  · rintro ⟨limited, beyond⟩
    cases ends with
    | refused refused => simp [answered] at refused
    | crowded _ limited' =>
      obtain rfl := Option.some.inj (limited.symm.trans limited')
      rfl
    | @stopped states' order _ answered' ordered room stops =>
      cases stops with
      | exhausted all =>
        have bound := room limit limited
        have least := covered rfl
        omega
      | failed first refused =>
        have reachable := (ordered.reachable answered' (List.mem_of_getElem? first)).1
        obtain ⟨successors, answers⟩ := told _ reachable
        simp [refused] at answers
      | truncated _ _ limited' =>
        obtain rfl := Option.some.inj (limited.symm.trans limited')
        rfl

/-- Exploration that somebody reads stops just where it has to. How it ends, what it has recorded
and what it has stored is what follows from the model and the limit, and nothing else; the feed says
so too, and mentions exactly what it stores. At no moment does it hold more states than the limit
allows, also when readers leave in the meantime. If the model answers all calls and its fingerprints
are distinct, exploration is cut off just when more of them can be reached than the limit allows. -/
theorem exploreModel_stops (model : Model State) (options : ExplorationOptions) (readers : Nat)
    (session : Session) :
    let result := ({ readers := readers + 1 } : Feed State).exploreModel model options session
    let feed := result.2.1
    feed.status = result.1 ∧
    (∃ stored, (∀ fp s, feed.state? fp = some s ↔ ⟨fp, s⟩ ∈ stored) ∧
      ∀ status log stored', model.ExploresTo options status log stored' ↔
        status = result.1 ∧ log = feed.events.toList ∧ stored' = stored) ∧
    (∀ fp, (∃ s, feed.state? fp = some s) ↔ ∃ e ∈ feed.events.toList, fp ∈ e.fingerprints) ∧
    (∀ limit ∈ options.maxStates, feed.stateCount ≤ limit ∧
      ∀ operations, Exploration.Performed model options operations →
        (({} : Feed State).performAll operations).stateCount ≤ limit) ∧
    (model.Unfailing → model.Separates → ∀ limit, result.1 = .truncated limit ↔
      options.maxStates = some limit ∧ limit < model.fingerprints.ncard) := by
  intro result feed
  obtain ⟨status, _⟩ :=
    @exploreModel_spec State { readers := readers + 1 } model options rfl rfl rfl session
  obtain ⟨stored, ends, filed, mentioned⟩ := exploreModel_exploresTo model options readers session
  refine ⟨status, ⟨stored, filed, fun status' log stored' => ⟨fun ends' => ?_, ?_⟩⟩, mentioned,
    fun limit limited => ⟨?_, fun operations performed => performed.fits limit limited⟩,
    exploreModel_truncated_iff model options readers session⟩
  · exact ends'.unique ends
  · rintro ⟨rfl, rfl, rfl⟩
    exact ends
  · exact fits_exploreModel model options (readers + 1) session limit limited

section Early

def ragged : Model Nat where
  fingerprint s := s.toUInt64
  initial := .ok [0, 0]
  successors s := if s = 2 then .error (.successors 2 "unknown") else .ok [s + 1, s, s + 1]
  holds _ _ _ := .ok true

/-- Four states that follow each other in a ring. The last may also stay. -/
def ring : Model (Fin 4) where
  fingerprint s := s.val.toUInt64
  initial := .ok [2, 0, 2]
  successors s := .ok (if s = 3 then [3, 0] else [s + 1, s + 1])
  holds _ _ _ := .ok true

theorem unfailing_ring : ring.Unfailing :=
  ⟨⟨_, rfl⟩, fun _ _ => ⟨_, rfl⟩⟩

theorem separates_ring : ring.Separates := by
  have distinct : ∀ s s', ring.fingerprint s = ring.fingerprint s' → s = s' := by decide
  exact fun s s' _ _ same => distinct s s' same

/-- Where the model refuses an answer, its question is the last that is asked, and what it was about
is stored all the same. Where there is room for three states, more than three can be reached. -/
theorem exploreModel_stops_early :
    (let result := ({ readers := 1 } : Feed Nat).exploreModel ragged {} {};
      result.1 = .failed (.successors 2 "unknown") ∧
        result.2.1.events.toList = [.initial 0, .expanded 0 [1, 0], .expanded 1 [2, 1]] ∧
        (∃ s, result.2.1.state? 2 = some s) ∧ ¬∃ s, result.2.1.state? 3 = some s) ∧
    (let result := ({ readers := 1 } : Feed (Fin 4)).exploreModel ring { maxStates := some 3 } {};
      result.1 = .truncated 3 ∧
        result.2.1.events.toList = [.initial 2, .initial 0, .expanded 2 [3]] ∧
        3 < ring.fingerprints.ncard) := by
  constructor
  · intro result
    have log : result.2.1.events.toList =
        [.initial 0, .expanded 0 [1, 0], .expanded 1 [2, 1]] := by decide +kernel
    obtain ⟨_, _, mentioned, _⟩ := exploreModel_stops ragged {} 0 {}
    change ∀ fp, (∃ s, result.2.1.state? fp = some s) ↔ _ at mentioned
    refine ⟨by decide +kernel, log, ?_, ?_⟩
    · rw [mentioned, log]
      decide
    · rw [mentioned, log]
      decide
  · intro result
    have truncated : result.1 = .truncated 3 := by decide +kernel
    obtain ⟨_, _, _, _, limited⟩ := exploreModel_stops ring { maxStates := some 3 } 0 {}
    exact ⟨truncated, by decide +kernel,
      ((limited unfailing_ring separates_ring 3).mp truncated).2⟩

end Early

end Feed

end Outcome

end TemporalCheck
