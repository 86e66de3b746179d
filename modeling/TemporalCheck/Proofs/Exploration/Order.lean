import TemporalCheck.Proofs.Exploration.First

/-! The order of a breadth-first exploration. States are discovered one after the other, the starts
first and then what follows each source, and they are expanded in the order of their discovery.
Together with the model that order determines what is stored and what is recorded. -/
namespace TemporalCheck

variable {State : Type}

namespace Model

variable {model : Model State} {stuttering : Bool} {starts order : List (Keyed State)}
  {source k : Keyed State} {successors : List State}

def Unfailing (model : Model State) : Prop :=
  (∃ states, model.initial = .ok states) ∧
    ∀ s, model.Reachable s → ∃ successors, model.successors s = .ok successors

/-- What the model lists to follow a source. The source itself comes last if stuttering is on. -/
def next (model : Model State) (stuttering : Bool) (source : Keyed State) : List (Keyed State) :=
  match model.successors source.state with
  | .error _ => []
  | .ok successors => successors.map model.keyed ++ if stuttering then [source] else []

def discoveries (model : Model State) (stuttering : Bool) (starts order : List (Keyed State)) :
    List (Keyed State) :=
  firsts (starts ++ order.flatMap (model.next stuttering))

/-- Sources are expanded in breadth-first order: the next one is always the earliest discovery that
has not been expanded yet. -/
inductive BreadthFirst (model : Model State) (stuttering : Bool) (starts : List (Keyed State)) :
    List (Keyed State) → Prop where
  | start : BreadthFirst model stuttering starts []
  | next {order : List (Keyed State)} {source : Keyed State} {successors : List State}
    (earlier : BreadthFirst model stuttering starts order)
    (first : (model.discoveries stuttering starts order)[order.length]? = some source)
    (answered : model.successors source.state = .ok successors) :
    BreadthFirst model stuttering starts (order ++ [source])

def breadthFirstLog (model : Model State) (stuttering : Bool) (starts order : List (Keyed State)) :
    List Event :=
  (starts.map (·.fingerprint)).eraseDups.map .initial ++ order.map fun source =>
    .expanded source.fingerprint ((model.next stuttering source).map (·.fingerprint)).eraseDups

/-- Why exploration goes no further: there is nothing left to expand, or the model does not tell
what follows the next source, or there is no room for it. -/
inductive StopsAfter (model : Model State) (options : ExplorationOptions)
    (starts order : List (Keyed State)) : FeedStatus → Prop where
  | exhausted
    (all : (model.discoveries options.stuttering starts order)[order.length]? = none) :
    StopsAfter model options starts order .exhausted
  | failed {source : Keyed State} {e : EvalError}
    (first : (model.discoveries options.stuttering starts order)[order.length]? = some source)
    (refused : model.successors source.state = .error e) :
    StopsAfter model options starts order (.failed e)
  | truncated {source : Keyed State} {successors : List State} {limit : Nat}
    (first : (model.discoveries options.stuttering starts order)[order.length]? = some source)
    (answered : model.successors source.state = .ok successors)
    (limited : options.maxStates = some limit)
    (beyond : limit <
      (model.discoveries options.stuttering starts (order ++ [source])).length) :
    StopsAfter model options starts order (.truncated limit)

theorem next_of_answered (answered : model.successors source.state = .ok successors) :
    model.next stuttering source =
      successors.map model.keyed ++ if stuttering then [source] else [] := by
  rw [next, answered]

theorem mem_map_discoveries {fp : Fingerprint} :
    fp ∈ (model.discoveries stuttering starts order).map (·.fingerprint) ↔
      fp ∈ starts.map (·.fingerprint) ∨
        ∃ source ∈ order, fp ∈ (model.next stuttering source).map (·.fingerprint) := by
  rw [discoveries, mem_map_firsts, List.map_append, List.mem_append, List.map_flatMap,
    List.mem_flatMap]

theorem nodup_discoveries (model : Model State) (stuttering : Bool)
    (starts order : List (Keyed State)) :
    ((model.discoveries stuttering starts order).map (·.fingerprint)).Nodup := by
  rw [discoveries, firsts_eq]
  exact nodup_firstEntries _ _

theorem length_discoveries_le (model : Model State) (stuttering : Bool)
    (starts order : List (Keyed State)) :
    (model.discoveries stuttering starts order).length ≤ Exploration.stepBound := by
  rw [← List.length_map (·.fingerprint)]
  exact Exploration.length_le_stepBound (nodup_discoveries model stuttering starts order)

/-- More sources add what follows them and has not been discovered. -/
theorem discoveries_append (model : Model State) (stuttering : Bool)
    (starts order later : List (Keyed State)) :
    model.discoveries stuttering starts (order ++ later) =
      model.discoveries stuttering starts order ++
        firstEntries ((model.discoveries stuttering starts order).map (·.fingerprint))
          (later.flatMap (model.next stuttering)) := by
  simp only [discoveries, List.flatMap_append, firsts_eq]
  rw [← List.append_assoc, firstEntries_append, List.nil_append]
  congr 1
  apply firstEntries_congr
  intro fp
  rw [← firsts_eq, mem_map_firsts]

theorem discoveries_prefix_append (model : Model State) (stuttering : Bool)
    (starts order later : List (Keyed State)) :
    model.discoveries stuttering starts order <+:
      model.discoveries stuttering starts (order ++ later) :=
  discoveries_append model stuttering starts order later ▸ List.prefix_append _ _

theorem breadthFirstLog_append (model : Model State) (stuttering : Bool)
    (starts order : List (Keyed State)) (source : Keyed State) :
    model.breadthFirstLog stuttering starts (order ++ [source]) =
      model.breadthFirstLog stuttering starts order ++
        [.expanded source.fingerprint
          ((model.next stuttering source).map (·.fingerprint)).eraseDups] := by
  simp only [breadthFirstLog, List.map_append, List.append_assoc, List.map_singleton]

/-- What is expanded was discovered before. -/
theorem BreadthFirst.prefix_discoveries (run : model.BreadthFirst stuttering starts order) :
    order <+: model.discoveries stuttering starts order := by
  induction run with
  | start => exact List.nil_prefix
  | @next order source successors earlier first answered ih =>
    obtain ⟨rest, all⟩ := ih
    rw [← all, List.getElem?_append_right (Nat.le_refl _), Nat.sub_self] at first
    obtain ⟨later, rfl⟩ : ∃ later, rest = source :: later := by
      cases rest with
      | nil => simp at first
      | cons k later => exact ⟨later, by simpa using first⟩
    have split : order ++ source :: later = (order ++ [source]) ++ later := List.append_cons ..
    have here : order ++ [source] <+: model.discoveries stuttering starts order :=
      all ▸ split ▸ List.prefix_append _ later
    exact here.trans (discoveries_prefix_append model stuttering starts order [source])

/-- Whatever is discovered from states that can be reached can be reached. -/
theorem BreadthFirst.reachable {states : List State} (answered : model.initial = .ok states)
    (run : model.BreadthFirst stuttering (states.map model.keyed) order)
    (member : k ∈ model.discoveries stuttering (states.map model.keyed) order) :
    model.Reachable k.state ∧ model.fingerprint k.state = k.fingerprint := by
  induction run generalizing k with
  | start =>
    have listed := mem_of_mem_firsts member
    rw [List.flatMap_nil, List.append_nil] at listed
    obtain ⟨s, start, rfl⟩ := List.mem_map.mp listed
    exact ⟨.start ⟨states, answered, start⟩, rfl⟩
  | @next order source successors earlier first told ih =>
    obtain ⟨reachable, same⟩ := ih (List.mem_of_getElem? first)
    rw [discoveries_append, List.mem_append] at member
    rcases member with old | new
    · exact ih old
    · have listed := mem_of_mem_firstEntries new
      rw [List.flatMap_singleton, next_of_answered told, List.mem_append] at listed
      rcases listed with successor | itself
      · obtain ⟨s, follows, rfl⟩ := List.mem_map.mp successor
        exact ⟨reachable.step ⟨successors, told, follows⟩, rfl⟩
      · cases stuttering with
        | false => simp at itself
        | true => exact List.mem_singleton.mp itself ▸ ⟨reachable, same⟩

/-- The sources expanded up to any moment are in breadth-first order, and the next one is the
earliest discovery that has not been expanded by then. -/
theorem BreadthFirst.inits {later : List (Keyed State)}
    (run : model.BreadthFirst stuttering starts (order ++ k :: later)) :
    model.BreadthFirst stuttering starts order ∧
      (model.discoveries stuttering starts order)[order.length]? = some k ∧
      ∃ successors, model.successors k.state = .ok successors := by
  generalize whole : order ++ k :: later = total at run
  induction run generalizing later with
  | start => simp at whole
  | @next earlier source successors run first answered ih =>
    rcases List.eq_nil_or_concat later with rfl | ⟨between, last, rfl⟩
    · obtain ⟨rfl, same⟩ := List.append_inj' whole rfl
      obtain rfl := (List.cons.inj same).1
      exact ⟨run, first, successors, answered⟩
    · rw [List.concat_eq_append, ← List.cons_append, ← List.append_assoc] at whole
      exact ih (List.append_inj' whole rfl).1

/-- There is one breadth-first order, as far as it goes. -/
theorem BreadthFirst.comparable {order' : List (Keyed State)}
    (run : model.BreadthFirst stuttering starts order)
    (run' : model.BreadthFirst stuttering starts order') : order <+: order' ∨ order' <+: order := by
  induction run with
  | start => exact .inl List.nil_prefix
  | @next order source successors earlier first answered ih =>
    rcases ih with ⟨rest, rfl⟩ | shorter
    · cases rest with
      | nil => exact .inr (by simp)
      | cons k later =>
        obtain ⟨_, first', _⟩ := run'.inits
        obtain rfl : source = k := Option.some.inj (first.symm.trans first')
        exact .inl ⟨later, (List.append_cons ..).symm⟩
    · exact .inr (shorter.trans (List.prefix_append _ _))

section StopsAfter

variable {options : ExplorationOptions} {status status' : FeedStatus} {order' : List (Keyed State)}

/-- There is one reason to stop after an order. -/
theorem StopsAfter.eq_status (stops : model.StopsAfter options starts order status)
    (stops' : model.StopsAfter options starts order status') : status = status' := by
  cases stops <;> cases stops' <;> simp_all

/-- Where there is a reason to stop, no longer order has room. -/
theorem StopsAfter.eq_of_prefix (stops : model.StopsAfter options starts order status)
    (longer : order <+: order') (run : model.BreadthFirst options.stuttering starts order')
    (room : ∀ limit ∈ options.maxStates,
      (model.discoveries options.stuttering starts order').length ≤ limit) : order = order' := by
  obtain ⟨rest, rfl⟩ := longer
  cases rest with
  | nil => exact (List.append_nil order).symm
  | cons k later =>
    obtain ⟨_, next, successors, told⟩ := run.inits
    cases stops with
    | exhausted all => simp [next] at all
    | failed first refused =>
      obtain rfl := Option.some.inj (next.symm.trans first)
      simp [told] at refused
    | @truncated source _ limit first _ limited beyond =>
      obtain rfl := Option.some.inj (next.symm.trans first)
      have longer := discoveries_prefix_append model options.stuttering starts (order ++ [k]) later
      have bound := room limit limited
      rw [List.append_cons] at bound
      exact absurd (longer.length_le.trans bound) (Nat.not_le.mpr beyond)

end StopsAfter

end Model

section Recorded

variable {f g : Feed State} {model : Model State} {stuttering : Bool}
  {starts order : List (Keyed State)} {log : List Event}

structure Feed.Recorded (f : Feed State) (model : Model State) (stuttering : Bool)
    (starts order : List (Keyed State)) (log : List Event) : Prop where
  ordered : model.BreadthFirst stuttering starts order
  log : log = model.breadthFirstLog stuttering starts order
  stored : ∀ fp s, f.state? fp = some s ↔ ⟨fp, s⟩ ∈ model.discoveries stuttering starts order
  count : f.stateCount = (model.discoveries stuttering starts order).length

theorem Feed.Recorded.congr (recorded : f.Recorded model stuttering starts order log)
    (states : g.states = f.states) : g.Recorded model stuttering starts order log where
  ordered := recorded.ordered
  log := recorded.log
  stored := by
    intro fp s
    rw [Feed.state?, states]
    exact recorded.stored fp s
  count := by
    rw [Feed.stateCount, states]
    exact recorded.count

/-- Exactly the fingerprints of the discoveries have a state. -/
theorem Feed.Recorded.keys (recorded : f.Recorded model stuttering starts order log)
    (fp : Fingerprint) : (∃ s, f.state? fp = some s) ↔
      fp ∈ (model.discoveries stuttering starts order).map (·.fingerprint) := by
  constructor
  · rintro ⟨s, found⟩
    exact List.mem_map.mpr ⟨_, (recorded.stored fp s).mp found, rfl⟩
  · intro member
    obtain ⟨k, discovered, rfl⟩ := List.mem_map.mp member
    exact ⟨k.state, (recorded.stored _ _).mpr discovered⟩

/-- Exactly the fingerprints that the log mentions have a state. -/
theorem Feed.Recorded.mentioned (recorded : f.Recorded model stuttering starts order log)
    (fp : Fingerprint) : (∃ s, f.state? fp = some s) ↔ ∃ e ∈ log, fp ∈ e.fingerprints := by
  rw [recorded.keys, recorded.log]
  constructor
  · intro discovered
    rcases Model.mem_map_discoveries.mp discovered with start | ⟨source, expanded, listed⟩
    · refine ⟨.initial fp, List.mem_append_left _ ?_, List.mem_singleton.mpr rfl⟩
      exact List.mem_map_of_mem (List.mem_eraseDups.mpr start)
    · refine ⟨_, List.mem_append_right _ (List.mem_map_of_mem expanded), ?_⟩
      exact List.mem_cons_of_mem _ (List.mem_eraseDups.mpr listed)
  · rintro ⟨e, told, mentioned⟩
    rcases List.mem_append.mp told with start | expansion
    · obtain ⟨fp', listed, rfl⟩ := List.mem_map.mp start
      rw [List.mem_singleton.mp mentioned]
      exact Model.mem_map_discoveries.mpr (.inl (List.mem_eraseDups.mp listed))
    · obtain ⟨source, expanded, rfl⟩ := List.mem_map.mp expansion
      rcases List.mem_cons.mp mentioned with rfl | listed
      · exact List.mem_map_of_mem (recorded.ordered.prefix_discoveries.subset expanded)
      · exact Model.mem_map_discoveries.mpr
          (.inr ⟨source, expanded, List.mem_eraseDups.mp listed⟩)

end Recorded

end TemporalCheck
