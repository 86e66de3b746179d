import TemporalCheck.Proofs.Exploration.Cutoff

/-! Exploration without a limit. If the model answers, every state that can be reached is stored and
expanded once, in breadth-first order, and entries that the model lists again make no difference. -/
namespace TemporalCheck

variable {State : Type}

section Repeats

namespace Model

def listed (model : Model State) (answer : Except EvalError (List State)) :
    Except EvalError (List (Keyed State)) :=
  answer.map fun states => firsts (states.map model.keyed)

structure Repeats (model model' : Model State) : Prop where
  fingerprint : model'.fingerprint = model.fingerprint
  initial : model.listed model'.initial = model.listed model.initial
  successors : ∀ s, model.listed (model'.successors s) = model.listed (model.successors s)

def plain (model : Model State) : Model State where
  fingerprint := model.fingerprint
  initial := (model.listed model.initial).map fun entries => entries.map (·.state)
  successors s := (model.listed (model.successors s)).map fun entries => entries.map (·.state)
  holds := model.holds

theorem listed_listed (model : Model State) (answer : Except EvalError (List State)) :
    model.listed ((model.listed answer).map fun entries => entries.map (·.state)) =
      model.listed answer := by
  cases answer with
  | error e => rfl
  | ok states =>
    have keyed : ((firsts (states.map model.keyed)).map (·.state)).map model.keyed =
        firsts (states.map model.keyed) := by
      rw [List.map_map]
      refine (List.map_congr_left fun k member => ?_).trans (List.map_id _)
      obtain ⟨s, _, rfl⟩ := List.mem_map.mp (mem_of_mem_firsts member)
      rfl
    have distinct : ((firsts (states.map model.keyed)).map (·.fingerprint)).Nodup :=
      firsts_eq (states.map model.keyed) ▸ nodup_firstEntries _ _
    exact congrArg Except.ok ((congrArg firsts keyed).trans (firsts_of_nodup distinct))

theorem repeats_plain (model : Model State) : model.Repeats model.plain where
  fingerprint := rfl
  initial := model.listed_listed model.initial
  successors s := model.listed_listed (model.successors s)

variable {model model' : Model State}

theorem Repeats.keyed (repeats : model.Repeats model') : model'.keyed = model.keyed := by
  funext s
  rw [Model.keyed, repeats.fingerprint]
  rfl

theorem cases_of_listed {answer answer' : Except EvalError (List State)}
    (same : model.listed answer' = model.listed answer) :
    (∃ e, answer' = .error e ∧ answer = .error e) ∨
      ∃ states' states, answer' = .ok states' ∧ answer = .ok states ∧
        firsts (states'.map model.keyed) = firsts (states.map model.keyed) := by
  cases answer with
  | error e =>
    cases answer' with
    | error e' => exact .inl ⟨e, congrArg _ (Except.error.inj same), rfl⟩
    | ok states' => simp [listed, Except.map] at same
  | ok states =>
    cases answer' with
    | error e' => simp [listed, Except.map] at same
    | ok states' => exact .inr ⟨states', states, rfl, rfl, Except.ok.inj same⟩

end Model

namespace Exploration

variable {model model' : Model State} {options : ExplorationOptions} {x : Exploration State}

/-- Entries that have been stored meanwhile may be left out. -/
theorem discover_firstEntries {met : List Fingerprint} (entries : List (Keyed State))
    (known : ∀ fp ∈ met, x.feed.contains fp = true) :
    discover (firstEntries met entries) x = discover entries x := by
  induction entries generalizing met x with
  | nil => rfl
  | cons k rest ih =>
    by_cases here : k.fingerprint ∈ met
    · simp only [firstEntries, List.contains_iff_mem, here, if_true, discover,
        known k.fingerprint here, ih known]
    · have onward {y : Exploration State} (stored : ∃ s, y.feed.state? k.fingerprint = some s)
          (kept : ∀ fp, x.feed.contains fp = true → y.feed.contains fp = true) :
          ∀ fp ∈ k.fingerprint :: met, y.feed.contains fp = true := by
        intro fp member
        rcases List.mem_cons.mp member with rfl | old
        · exact Feed.contains_iff.mpr stored
        · exact kept fp (known fp old)
      simp only [firstEntries, List.contains_iff_mem, here, if_false, discover]
      cases present : x.feed.contains k.fingerprint with
      | true =>
        simp only [if_true]
        exact ih (onward (Feed.contains_iff.mp present) fun _ stored => stored)
      | false =>
        simp only [Bool.false_eq_true, if_false]
        apply ih
        apply onward
        · exact ⟨k.state, by simp [Feed.state?_insert present]⟩
        · intro fp stored
          obtain ⟨s, found⟩ := Feed.contains_iff.mp stored
          exact Feed.contains_iff.mpr ⟨s, (Feed.before_insert x.feed k).states fp s found⟩

theorem discover_congr {entries entries' : List (Keyed State)}
    (same : firsts entries' = firsts entries) : discover entries' x = discover entries x := by
  have known : ∀ fp ∈ ([] : List Fingerprint), x.feed.contains fp = true := by simp
  rw [← discover_firstEntries entries known, ← discover_firstEntries entries' known, ← firsts_eq,
    ← firsts_eq, same]

theorem exceeded?_congr {feed : Feed State} {entries entries' : List (Keyed State)}
    (same : firsts entries' = firsts entries) :
    exceeded? options feed entries' = exceeded? options feed entries := by
  rw [exceeded?_eq, exceeded?_eq, ← Feed.fresh_firstEntries, ← Feed.fresh_firstEntries feed entries,
    ← firsts_eq, ← firsts_eq, same]

theorem entriesFrom_congr (repeats : model.Repeats model') {source : Keyed State}
    {successors successors' : List State}
    (same : firsts (successors'.map model.keyed) = firsts (successors.map model.keyed)) :
    entriesFrom model' options source successors' =
      entriesFrom model options source successors := by
  have met (fp : Fingerprint) : fp ∈ [] ++ (successors'.map model.keyed).map (·.fingerprint) ↔
      fp ∈ [] ++ (successors.map model.keyed).map (·.fingerprint) := by
    rw [List.nil_append, List.nil_append, ← mem_map_firsts, same, mem_map_firsts]
  rw [entriesFrom, entriesFrom, repeats.keyed, firstEntries_append, firstEntries_append,
    ← firsts_eq, ← firsts_eq, same, firstEntries_congr met]

theorem advance_repeats (repeats : model.Repeats model') (x : Exploration State) :
    x.advance model' options = x.advance model options := by
  unfold advance
  cases x.queue with
  | nil => rfl
  | cons source queue =>
    dsimp only [Session.successors]
    rcases Model.cases_of_listed (repeats.successors source.state) with
      ⟨e, refused', refused⟩ | ⟨states', states, answered', answered, same⟩
    · rw [refused', refused]
    · rw [answered', answered]
      simp only [entriesFrom_congr repeats same]

theorem exploreFrom_repeats (repeats : model.Repeats model') (fuel : Nat) (x : Exploration State) :
    exploreFrom model' options fuel x = exploreFrom model options fuel x := by
  induction fuel generalizing x with
  | zero => rfl
  | succ fuel ih =>
    rw [exploreFrom, exploreFrom, advance_repeats repeats]
    cases x.advance model options with
    | ended status y => rfl
    | ongoing y => exact ih y

theorem explore_repeats (repeats : model.Repeats model') (feed : Feed State) (session : Session) :
    explore model' options feed session = explore model options feed session := by
  unfold explore
  dsimp only [Session.initial]
  rcases Model.cases_of_listed repeats.initial with
    ⟨e, refused', refused⟩ | ⟨states', states, answered', answered, same⟩
  · rw [refused', refused]
  · rw [answered', answered]
    simp only [repeats.keyed, exceeded?_congr same, discover_congr same,
      exploreFrom_repeats repeats]

end Exploration

theorem Feed.exploreModel_repeats {model model' : Model State} (repeats : model.Repeats model')
    (feed : Feed State) (options : ExplorationOptions) (session : Session) :
    feed.exploreModel model' options session = feed.exploreModel model options session := by
  unfold exploreModel
  rw [Exploration.explore_repeats repeats]

end Repeats

section Exhaustive

variable {model : Model State} {options : ExplorationOptions} {status : FeedStatus}
  {log : List Event} {stored : List (Keyed State)}

/-- Without a limit and a refusal everything is expanded, in the order in which it was
discovered. -/
theorem Model.ExploresTo.exhausted (ends : model.ExploresTo options status log stored)
    (unlimited : options.maxStates = none) (unfailing : model.Unfailing) :
    status = .exhausted ∧ ∃ states, model.initial = .ok states ∧
      model.BreadthFirst options.stuttering (states.map model.keyed) stored ∧
      model.discoveries options.stuttering (states.map model.keyed) stored = stored ∧
      log = model.breadthFirstLog options.stuttering (states.map model.keyed) stored := by
  obtain ⟨⟨states, answered⟩, told⟩ := unfailing
  cases ends with
  | refused refused => simp [answered] at refused
  | crowded _ limited => simp [unlimited] at limited
  | @stopped states' order _ answered' ordered room stops =>
    cases stops with
    | failed first refused =>
      have reachable := (ordered.reachable answered' (List.mem_of_getElem? first)).1
      obtain ⟨successors, answers⟩ := told _ reachable
      simp [refused] at answers
    | truncated _ _ limited => simp [unlimited] at limited
    | exhausted all =>
      -- the sources come first among the discoveries, and no discovery is left after them
      have order_eq := ordered.prefix_discoveries.eq_of_length_le (List.getElem?_eq_none_iff.mp all)
      rw [← order_eq]
      exact ⟨rfl, states', answered', ordered, order_eq.symm, rfl⟩

/-- The sources of a complete order are counted by their fingerprints. -/
theorem Model.ncard_fingerprints {order : List (Keyed State)}
    (distinct : (order.map (·.fingerprint)).Nodup)
    (all : ∀ fp, fp ∈ order.map (·.fingerprint) ↔ fp ∈ model.fingerprints) :
    model.fingerprints.ncard = order.length := by
  have same : model.fingerprints = ↑(order.map (·.fingerprint)).toFinset := by
    ext fp
    rw [List.coe_toFinset]
    exact (all fp).symm
  rw [same, Set.ncard_coe_finset, List.toFinset_card_of_nodup distinct, List.length_map]

/-- As many steps as there are fingerprints to be reached are enough without a limit. -/
theorem Exploration.exploreFrom_enough {states : List State} {readers fuel : Nat}
    (answered : model.initial = .ok states) (watched : readers ≠ 0)
    (unlimited : options.maxStates = none) (enough : model.fingerprints.ncard ≤ fuel)
    (session : Session) :
    exploreFrom model options fuel
      (begun model states { readers := readers } (session.initial model).2).flush =
        explore model options { readers := readers } session := by
  have traces := @traces_begun _ model options readers (session.initial model).2 states watched
  have suffices_fuel : Suffices model options (states.map model.keyed) [] fuel := by
    intro order run
    have bound := run.length_le answered
    rw [List.length_nil]
    omega
  have room : exceeded? options { readers := readers } (states.map model.keyed) = none := by
    rw [exceeded?_eq, unlimited, Option.filter_none]
  rw [explore_eq, answered]
  dsimp only
  rw [room]
  exact exploreFrom_eq traces.flush suffices_fuel (suffices_stepBound model options _)

namespace Feed

/-- Exploration without a limit, if the model answers all calls and its fingerprints are distinct,
comes to an end and misses nothing. Each source is expanded once, in the order of discovery, and
what is stored is what can be reached. As many steps as there are sources are enough for it, and
entries that the model lists again make no difference. -/
theorem exploreModel_exhaustive (model : Model State) (options : ExplorationOptions)
    (readers : Nat) (session : Session) (unlimited : options.maxStates = none)
    (unfailing : model.Unfailing) (separates : model.Separates) :
    let fresh : Feed State := { readers := readers + 1 }
    let result := fresh.exploreModel model options session
    let feed := result.2.1
    result.1 = .exhausted ∧ feed.status = .exhausted ∧
    (∃ states order, model.initial = .ok states ∧
      model.BreadthFirst options.stuttering (states.map model.keyed) order ∧
      model.discoveries options.stuttering (states.map model.keyed) order = order ∧
      feed.events.toList =
        model.breadthFirstLog options.stuttering (states.map model.keyed) order ∧
      (order.map (·.fingerprint)).Nodup ∧
      (∀ fp, fp ∈ order.map (·.fingerprint) ↔ fp ∈ model.fingerprints) ∧
      ∀ fuel, order.length ≤ fuel →
        Exploration.exploreFrom model options fuel
          (Exploration.begun model states fresh (session.initial model).2).flush =
            Exploration.explore model options fresh session) ∧
    (∀ fp s, feed.state? fp = some s ↔ model.Reachable s ∧ model.fingerprint s = fp) ∧
    ∀ model', model.Repeats model' → fresh.exploreModel model' options session = result := by
  intro fresh result feed
  obtain ⟨same, sound, complete⟩ := @exploreModel_spec State fresh model options rfl rfl rfl session
  obtain ⟨stored, ends, filed, _⟩ := exploreModel_exploresTo model options readers session
  obtain ⟨exhausted, states, answered, ordered, all, log⟩ := ends.exhausted unlimited unfailing
  have reached (fp : Fingerprint) (s : State) :
      feed.state? fp = some s ↔ model.Reachable s ∧ model.fingerprint s = fp := by
    constructor
    · exact sound.stored fp s
    · rintro ⟨reachable, rfl⟩
      exact (complete exhausted).stored sound separates reachable
  have distinct : (stored.map (·.fingerprint)).Nodup :=
    all ▸ Model.nodup_discoveries model options.stuttering _ _
  have every (fp : Fingerprint) : fp ∈ stored.map (·.fingerprint) ↔ fp ∈ model.fingerprints := by
    rw [List.mem_map]
    constructor
    · rintro ⟨k, member, rfl⟩
      exact ⟨k.state, (reached _ _).mp ((filed _ _).mpr member)⟩
    · rintro ⟨s, found⟩
      exact ⟨⟨fp, s⟩, (filed fp s).mp ((reached fp s).mpr found), rfl⟩
  refine ⟨exhausted, same.trans exhausted,
    ⟨states, stored, answered, ordered, all, log, distinct, every, fun fuel enough => ?_⟩,
    reached, fun model' repeats => exploreModel_repeats repeats fresh options session⟩
  rw [← Model.ncard_fingerprints distinct every] at enough
  exact Exploration.exploreFrom_enough answered (Nat.succ_ne_zero readers) unlimited enough session

section Ring

/-- The ring is told of from both of its starts, each state once. -/
theorem exploreModel_exhaustive_ring :
    let result := ({ readers := 1 } : Feed (Fin 4)).exploreModel ring { stuttering := true } {}
    result.1 = .exhausted ∧
      result.2.1.events.toList = [.initial 2, .initial 0, .expanded 2 [3, 2], .expanded 0 [1, 0],
        .expanded 3 [3, 0], .expanded 1 [2, 1]] ∧
      ring.Reachable 1 ∧ ring.plain.initial = .ok [2, 0] ∧
      ({ readers := 1 } : Feed (Fin 4)).exploreModel ring.plain { stuttering := true } {} =
        result := by
  intro result
  obtain ⟨exhausted, _, _, stored, again⟩ :=
    exploreModel_exhaustive ring { stuttering := true } 0 {} rfl unfailing_ring separates_ring
  have found : result.2.1.state? 1 = some 1 := by decide +kernel
  exact ⟨exhausted, by decide +kernel, ((stored 1 1).mp found).1, rfl,
    again ring.plain ring.repeats_plain⟩

end Ring

end Feed

end Exhaustive

end TemporalCheck
