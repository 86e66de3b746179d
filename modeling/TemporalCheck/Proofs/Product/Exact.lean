import TemporalCheck.Feed
import TemporalCheck.Proofs.Product.Operations
import TemporalCheck.Proofs.Session

/-! The exact product of what a feed tells and a tableau, and how a product grows towards it.
Growing never adds what the exact product does not have; a node is settled when all its edges are
there. -/
namespace TemporalCheck

variable {State : Type}

namespace Tableau

def Admits (t : Tableau) (model : Model State) (k : Keyed State) (id : TableauId) : Prop :=
  ∃ start ∈ t.admissions k, start.1 = id ∧ ∀ c ∈ start.2, c.Holds model

def Moves (t : Tableau) (model : Model State) (id : TableauId) (k : Keyed State)
    (id' : TableauId) (k' : Keyed State) : Prop :=
  ∃ e ∈ t.edgesFrom id, e.target = id' ∧ ∀ c ∈ e.guard.conditions k k', c.Holds model

variable {t : Tableau} {model : Model State} {k k' : Keyed State} {id id' : TableauId}

theorem lt_size_of_mem_admissions {start : TableauId × List (Condition State)}
    (member : start ∈ t.admissions k) : start.1 < t.size := by
  obtain ⟨_, _, found⟩ := List.mem_filterMap.mp member
  obtain ⟨node, at_id, rfl⟩ := Option.map_eq_some_iff.mp found
  exact (Array.getElem?_eq_some_iff.mp at_id).1

theorem lt_size_of_mem_edgesFrom {e : Edge} (member : e ∈ t.edgesFrom id) : e.target < t.size := by
  rw [edgesFrom_eq] at member
  unfold outgoing at member
  split at member
  · simp at member
  · obtain ⟨_, _, found⟩ := List.mem_filterMap.mp member
    obtain ⟨node, at_id, rfl⟩ := Option.map_eq_some_iff.mp found
    exact (Array.getElem?_eq_some_iff.mp at_id).1

theorem Admits.lt_size (admits : t.Admits model k id) : id < t.size := by
  obtain ⟨start, member, rfl, _⟩ := admits
  exact lt_size_of_mem_admissions member

theorem Moves.lt_size (moves : t.Moves model id k id' k') : id' < t.size := by
  obtain ⟨e, member, rfl, _⟩ := moves
  exact lt_size_of_mem_edgesFrom member

end Tableau

/-- What a product is to be exact about: a model, the states filed under the fingerprints, a tableau
and the events told so far. -/
structure Scene (State : Type) where
  model : Model State
  stored : Fingerprint → Option State
  tableau : Tableau
  events : List Event

namespace Scene

def Starts (c : Scene State) (k : ProductKey) : Prop :=
  .initial k.fingerprint ∈ c.events ∧ ∃ s, c.stored k.fingerprint = some s ∧
    c.tableau.Admits c.model ⟨k.fingerprint, s⟩ k.tableau

def Moves (c : Scene State) (k k' : ProductKey) : Prop :=
  ∃ next, .expanded k.fingerprint next ∈ c.events ∧ k'.fingerprint ∈ next ∧
    ∃ s s', c.stored k.fingerprint = some s ∧ c.stored k'.fingerprint = some s' ∧
      c.tableau.Moves c.model k.tableau ⟨k.fingerprint, s⟩ k'.tableau ⟨k'.fingerprint, s'⟩

/-- The least set of keys that has all starts and whatever can be reached from there. -/
inductive Reached (c : Scene State) : ProductKey → Prop where
  | start {k} : c.Starts k → Reached c k
  | step {k k'} : Reached c k → c.Moves k k' → Reached c k'

def Once (c : Scene State) : Prop :=
  ∀ source next next', .expanded source next ∈ c.events → .expanded source next' ∈ c.events →
    next = next'

def StartsAnswered (c : Scene State) (fp : Fingerprint) : Prop :=
  ∀ s, c.stored fp = some s → ∀ start ∈ c.tableau.admissions ⟨fp, s⟩,
    ∃ answer, c.model.testAll start.2 = .ok answer

def MovesAnswered (c : Scene State) (k : ProductKey) : Prop :=
  ∀ next, .expanded k.fingerprint next ∈ c.events → ∀ fp ∈ next, ∀ s s',
    c.stored k.fingerprint = some s → c.stored fp = some s' →
      ∀ e ∈ c.tableau.edgesFrom k.tableau,
        ∃ answer, c.model.testAll (e.guard.conditions ⟨k.fingerprint, s⟩ ⟨fp, s'⟩) = .ok answer

structure Answered (c : Scene State) : Prop where
  starts : ∀ fp, .initial fp ∈ c.events → c.StartsAnswered fp
  moves : ∀ k, c.Reached k → c.MovesAnswered k

inductive Refused (c : Scene State) (e : EvalError) : Prop where
  | start (fp : Fingerprint) (s : State) (start : TableauId × List (Condition State))
      (told : .initial fp ∈ c.events) (stored : c.stored fp = some s)
      (member : start ∈ c.tableau.admissions ⟨fp, s⟩) (failed : c.model.testAll start.2 = .error e)
  | move (k : ProductKey) (reached : c.Reached k) (next : List Fingerprint)
      (told : .expanded k.fingerprint next ∈ c.events) (fp : Fingerprint) (listed : fp ∈ next)
      (s s' : State) (stored : c.stored k.fingerprint = some s) (stored' : c.stored fp = some s')
      (edge : Tableau.Edge) (member : edge ∈ c.tableau.edgesFrom k.tableau)
      (failed : c.model.testAll (edge.guard.conditions ⟨k.fingerprint, s⟩ ⟨fp, s'⟩) = .error e)

theorem Refused.not_answered {c : Scene State} {e : EvalError} (refused : c.Refused e) :
    ¬c.Answered := by
  intro answered
  cases refused with
  | start fp s start told stored member failed =>
    obtain ⟨answer, given⟩ := answered.starts fp told s stored start member
    simp [failed] at given
  | move k reached next told fp listed s s' stored stored' edge member failed =>
    obtain ⟨answer, given⟩ :=
      answered.moves k reached next told fp listed s s' stored stored' edge member
    simp [failed] at given

theorem Reached.lt_size {c : Scene State} {k : ProductKey} (reached : c.Reached k) :
    k.tableau < c.tableau.size := by
  cases reached with
  | start starts =>
    obtain ⟨_, s, _, admits⟩ := starts
    exact admits.lt_size
  | step _ moves =>
    obtain ⟨_, _, _, s, s', _, _, moves⟩ := moves
    exact moves.lt_size

/-- The same scene when more has been stored and more has been told. -/
structure Widens (c d : Scene State) : Prop where
  model : d.model = c.model
  stored : ∀ fp s, c.stored fp = some s → d.stored fp = some s
  tableau : d.tableau = c.tableau
  events : ∀ e ∈ c.events, e ∈ d.events

structure Extends (c d : Scene State) : Prop where
  model : d.model = c.model
  stored : d.stored = c.stored
  tableau : d.tableau = c.tableau
  events : ∀ e ∈ c.events, e ∈ d.events

variable {c d : Scene State} {k k' : ProductKey}

theorem Widens.refl (c : Scene State) : c.Widens c :=
  ⟨rfl, fun _ _ stored => stored, rfl, fun _ told => told⟩

theorem Widens.starts (wider : c.Widens d) (starts : c.Starts k) : d.Starts k := by
  obtain ⟨told, s, stored, admits⟩ := starts
  refine ⟨wider.events _ told, s, wider.stored _ s stored, ?_⟩
  rwa [wider.model, wider.tableau]

theorem Widens.moves (wider : c.Widens d) (moves : c.Moves k k') : d.Moves k k' := by
  obtain ⟨next, told, member, s, s', stored, stored', moves⟩ := moves
  refine ⟨next, wider.events _ told, member, s, s', wider.stored _ s stored,
    wider.stored _ s' stored', ?_⟩
  rwa [wider.model, wider.tableau]

theorem Widens.reached (wider : c.Widens d) (reached : c.Reached k) : d.Reached k := by
  induction reached with
  | start starts => exact .start (wider.starts starts)
  | step _ moves ih => exact .step ih (wider.moves moves)

theorem Extends.widens (later : c.Extends d) : c.Widens d :=
  ⟨later.model, fun _ _ stored => later.stored ▸ stored, later.tableau, later.events⟩

theorem Extends.starts (later : c.Extends d) (starts : c.Starts k) : d.Starts k :=
  later.widens.starts starts

theorem Extends.moves (later : c.Extends d) (moves : c.Moves k k') : d.Moves k k' :=
  later.widens.moves moves

theorem Extends.reached (later : c.Extends d) (reached : c.Reached k) : d.Reached k :=
  later.widens.reached reached

theorem Extends.refused {e : EvalError} (later : c.Extends d) (refused : c.Refused e) :
    d.Refused e := by
  have reaches {k : ProductKey} : c.Reached k → d.Reached k := later.reached
  have events := later.events
  obtain ⟨model, stored, tableau, _⟩ := c
  obtain ⟨_, _, _, _⟩ := d
  obtain rfl : _ = model := later.model
  obtain rfl : _ = stored := later.stored
  obtain rfl : _ = tableau := later.tableau
  cases refused with
  | start fp s start told stored member failed =>
    exact .start fp s start (events _ told) stored member failed
  | move k reached next told fp listed s s' stored stored' edge member failed =>
    exact .move k (reaches reached) next (events _ told) fp listed s s' stored stored' edge member
      failed

theorem Extends.once (later : c.Extends d) (once : d.Once) : c.Once :=
  fun source next next' told told' =>
    once source next next' (later.events _ told) (later.events _ told')

def Lists (c : Scene State) (fps : List Fingerprint) (entries : List (Keyed State)) : Prop :=
  ∀ k, k ∈ entries ↔ k.fingerprint ∈ fps ∧ c.stored k.fingerprint = some k.state

end Scene

namespace Product

variable {c d : Scene State} {p q : Product State} {k k' : ProductKey}

/-- The product has nothing that the exact product of the scene does not have. -/
structure Part (c : Scene State) (p : Product State) : Prop where
  valid : p.Valid
  filed : p.Filed c.stored
  tableau : p.tableau = c.tableau
  keys : ∀ k, p.HasKey k → c.Reached k
  edges : ∀ k k', p.HasKeyEdge k k' → c.Moves k k'
  starts : ∀ k, p.HasKeyStart k → c.Starts k

theorem part_empty (c : Scene State) : Part c { tableau := c.tableau } where
  valid := valid_empty _
  filed := filed_empty _ _
  tableau := rfl
  keys := by simp [HasKey]
  edges := by simp [HasKeyEdge]
  starts := by simp [HasKeyStart]

theorem Part.widens (part : Part c p) (wider : c.Widens d) : Part d p where
  valid := part.valid
  filed := fun fp s found => wider.stored fp s (part.filed fp s found)
  tableau := part.tableau.trans wider.tableau.symm
  keys := fun k has => wider.reached (part.keys k has)
  edges := fun k k' has => wider.moves (part.edges k k' has)
  starts := fun k has => wider.starts (part.starts k has)

theorem Part.extends (part : Part c p) (later : c.Extends d) : Part d p :=
  part.widens later.widens

/-- What a change adds to a part of the exact product must be part of it. -/
theorem Part.change {K S : Set ProductKey} {E : Set (ProductKey × ProductKey)} (part : Part c p)
    (change : Change c.stored p q K E S) (keys : ∀ k ∈ K, c.Reached k)
    (edges : ∀ e ∈ E, c.Moves e.1 e.2) (starts : ∀ k ∈ S, c.Starts k) : Part c q where
  valid := change.valid
  filed := change.filed
  tableau := change.within.tableau.trans part.tableau
  keys := by
    intro k has
    rcases (change.keys k).mp has with old | new
    · exact part.keys k old
    · exact keys k new
  edges := by
    intro k k' has
    rcases (change.edges k k').mp has with old | new
    · exact part.edges k k' old
    · exact edges (k, k') new
  starts := by
    intro k has
    rcases (change.starts k).mp has with old | new
    · exact part.starts k old
    · exact starts k new

/-- The node of a key has all its edges, and the model has answered for all of them. -/
structure Settled (c : Scene State) (p : Product State) (k : ProductKey) : Prop where
  edges : ∀ k', c.Moves k k' → p.HasKeyEdge k k'
  answered : c.MovesAnswered k

theorem HasKeyEdge.within (has : p.HasKeyEdge k k') (within : p.Within q) : q.HasKeyEdge k k' := by
  obtain ⟨i, j, a, b, atI, rfl, edge, atJ, rfl⟩ := has
  obtain ⟨a', atI, laterA⟩ := within.nodes i a atI
  obtain ⟨b', atJ, laterB⟩ := within.nodes j b atJ
  have kept := laterA.successors.subset (Array.mem_toList_iff.mpr edge)
  exact ⟨i, j, a', b', atI, laterA.key, Array.mem_toList_iff.mp kept, atJ, laterB.key⟩

theorem HasKeyStart.within (has : p.HasKeyStart k) (within : p.Within q) : q.HasKeyStart k := by
  obtain ⟨id, a, at_id, rfl, flagged⟩ := has
  obtain ⟨b, at_id, later⟩ := within.nodes id a at_id
  exact ⟨id, b, at_id, later.key, later.initial flagged⟩

theorem Settled.within (settled : p.Settled c k) (within : p.Within q) : q.Settled c k :=
  ⟨fun k' moves => (settled.edges k' moves).within within, settled.answered⟩

end Product
end TemporalCheck
