import TemporalCheck.Monitor
import TemporalCheck.Proofs.Product.Created
import TemporalCheck.Proofs.Product.Growth

/-! A monitor that has followed some events has the exact product of them. Nodes may be added before
or after it is told what follows their states; in the first case the event expands them, in the
second they are settled as soon as they are there. -/
namespace TemporalCheck

variable {State : Type}

def Scene.tell (c : Scene State) (e : Event) : Scene State := { c with events := c.events ++ [e] }

theorem Scene.extends_tell (c : Scene State) (e : Event) : c.Extends (c.tell e) :=
  ⟨rfl, rfl, rfl, fun _ member => List.mem_append_left _ member⟩

namespace Product

variable {c : Scene State} {p : Product State} {k k' : ProductKey}

/-- The product lacks nothing that the exact product has, and the model has answered for all of
it. -/
structure Whole (c : Scene State) (p : Product State) : Prop where
  settled : ∀ id, p.SettledAt c id
  starts : ∀ k, c.Starts k → p.HasKeyStart k
  answered : ∀ fp, .initial fp ∈ c.events → c.StartsAnswered fp

theorem whole_empty (nothing : c.events = []) : Whole c { tableau := c.tableau } where
  settled := by simp [SettledAt]
  starts := by simp [Scene.Starts, nothing]
  answered := by simp [nothing]

theorem HasKeyStart.hasKey (has : p.HasKeyStart k) : p.HasKey k := by
  obtain ⟨id, node, at_id, same, _⟩ := has
  exact ⟨id, node, at_id, same⟩

theorem HasKeyEdge.hasKey_source (has : p.HasKeyEdge k k') : p.HasKey k := by
  obtain ⟨i, _, a, _, atI, same, _⟩ := has
  exact ⟨i, a, atI, same⟩

theorem HasKeyEdge.hasKey_target (has : p.HasKeyEdge k k') : p.HasKey k' := by
  obtain ⟨_, j, _, b, _, _, _, atJ, same⟩ := has
  exact ⟨j, b, atJ, same⟩

theorem Whole.edge (whole : Whole c p) (has : p.HasKey k) (moves : c.Moves k k') :
    p.HasKeyEdge k k' := by
  obtain ⟨id, node, at_id, rfl⟩ := has
  exact (whole.settled id node at_id).edges k' moves

theorem Whole.hasKey (whole : Whole c p) (reached : c.Reached k) : p.HasKey k := by
  induction reached with
  | start starts => exact (whole.starts _ starts).hasKey
  | step _ moves ih => exact (whole.edge ih moves).hasKey_target

theorem hasKey_iff_reached (part : Part c p) (whole : Whole c p) (k : ProductKey) :
    p.HasKey k ↔ c.Reached k :=
  ⟨part.keys k, whole.hasKey⟩

theorem hasKeyEdge_iff_moves (part : Part c p) (whole : Whole c p) (k k' : ProductKey) :
    p.HasKeyEdge k k' ↔ c.Reached k ∧ c.Moves k k' :=
  ⟨fun has => ⟨part.keys k has.hasKey_source, part.edges k k' has⟩,
    fun ⟨reached, moves⟩ => whole.edge (whole.hasKey reached) moves⟩

theorem hasKeyStart_iff_starts (part : Part c p) (whole : Whole c p) (k : ProductKey) :
    p.HasKeyStart k ↔ c.Starts k :=
  ⟨part.starts k, whole.starts k⟩

theorem Whole.all_answered (whole : Whole c p) : c.Answered where
  starts := whole.answered
  moves := by
    intro k reached
    obtain ⟨id, node, at_id, rfl⟩ := whole.hasKey reached
    exact (whole.settled id node at_id).answered

/-- What is told about other sources leaves a key settled. -/
theorem Settled.tell {e : Event} (settled : p.Settled c k)
    (other : ∀ next, e ≠ .expanded k.fingerprint next) : p.Settled (c.tell e) k := by
  have earlier {next : List Fingerprint}
      (told : .expanded k.fingerprint next ∈ (c.tell e).events) :
      .expanded k.fingerprint next ∈ c.events := by
    rcases List.mem_append.mp told with old | new
    · exact old
    · exact absurd (List.mem_singleton.mp new).symm (other next)
  constructor
  · rintro k' ⟨next, told, rest⟩
    exact settled.edges k' ⟨next, earlier told, rest⟩
  · intro next told
    exact settled.answered next (earlier told)

end Product

namespace Monitor

open Product (Part Whole SettledAt Outgrown)

/-- The monitor has followed the events of the scene, perhaps not to the end. -/
structure Tracks (c : Scene State) (m : Monitor State) : Prop where
  part : Part c m.product
  coherent : m.session.Coherent c.model c.stored
  known : ∀ fp next, m.known[fp]? = some next ↔ .expanded fp next ∈ c.events

theorem tracks_start (c : Scene State) (nothing : c.events = []) (name : String)
    (settings : Settings) : Tracks c (Monitor.start name c.tableau settings) where
  part := Product.part_empty c
  coherent := Session.coherent_empty
  known := by simp [start, nothing]

structure Advance (c : Scene State) (m m' : Monitor State) : Prop where
  tracks : Tracks c m'
  within : m.product.Within m'.product

section Settle

variable {c : Scene State} {feed : Feed State} {m : Monitor State}

theorem resolve_lists (stored : c.stored = feed.state?) (tracks : Tracks c m)
    (fps : List Fingerprint) : c.Lists fps (m.resolve feed fps) := by
  have found (fp : Fingerprint) : (m.product.state? fp).or (feed.state? fp) = feed.state? fp := by
    cases inProduct : m.product.state? fp with
    | none => simp
    | some s => rw [Option.some_or, ← stored, tracks.part.filed fp s inProduct]
  intro k
  simp only [resolve, found, List.mem_filterMap, Option.map_eq_some_iff, stored]
  constructor
  · rintro ⟨fp, member, s, inFeed, rfl⟩
    exact ⟨member, inFeed⟩
  · rintro ⟨member, inFeed⟩
    exact ⟨k.fingerprint, member, k.state, inFeed, rfl⟩

theorem mem_keys_states {fp : Fingerprint} {s : State} (found : feed.state? fp = some s) :
    fp ∈ feed.states.keys := by
  rw [Feed.state?] at found
  rw [Std.TreeMap.mem_keys, Std.TreeMap.mem_iff_isSome_getElem?, found, Option.isSome_some]

theorem product_size_le (stored : c.stored = feed.state?) (tracks : Tracks c m) :
    m.product.size ≤ feed.stateCount * c.tableau.size := by
  have listed : ∀ fp s, c.stored fp = some s → fp ∈ feed.states.keys :=
    fun fp s found => mem_keys_states (stored ▸ found)
  simpa [Feed.stateCount] using Product.size_le tracks.part listed

/-- Settling from a list of nodes to do settles all nodes when the others are. The nodes to do and
those that may still be added are counted by the fuel. -/
theorem settleFrom_advance (stored : c.stored = feed.state?) (once : c.Once) {fuel : Nat}
    {todo : List NodeId} (tracks : Tracks c m)
    (enough : todo.length + (feed.stateCount * c.tableau.size - m.product.size) < fuel)
    (others : ∀ id, id ∉ todo → m.product.SettledAt c id) :
    Advance c m (settleFrom c.model feed fuel todo m).2 ∧
      match (settleFrom c.model feed fuel todo m).1 with
      | none => ∀ id, (settleFrom c.model feed fuel todo m).2.product.SettledAt c id
      | some e => c.Refused e := by
  induction fuel generalizing todo m with
  | zero => simp at enough
  | succ fuel ih =>
    cases todo with
    | nil => exact ⟨⟨tracks, .refl _⟩, fun id => others id (by simp)⟩
    | cons id todo =>
      unfold settleFrom
      cases found : (m.product.node? id).bind fun node => m.known[node.key.fingerprint]? with
      | none =>
        -- nothing is known to follow, so that there is nothing to settle
        have settled : m.product.SettledAt c id := by
          intro node at_id
          have unknown : m.known[node.key.fingerprint]? = none := by
            simpa [Product.node?, at_id] using found
          have untold {next : List Fingerprint} :
              .expanded node.key.fingerprint next ∉ c.events := by
            intro told
            rw [(tracks.known _ _).mpr told] at unknown
            contradiction
          exact ⟨fun k' ⟨next, told, _⟩ => absurd told untold,
            fun next told => absurd told untold⟩
        refine ih tracks (by simp only [List.length_cons] at enough; omega) fun j notTodo => ?_
        by_cases here : j = id
        · exact here ▸ settled
        · exact others j (by simp [here, notTodo])
      | some next =>
        obtain ⟨node, at_id, known⟩ := Option.bind_eq_some_iff.mp found
        have told := (tracks.known _ _).mp known
        obtain ⟨outgrown, settled⟩ := Product.expandNode_outgrown tracks.part tracks.coherent once
          at_id told (resolve_lists stored tracks next)
        have adds := @Product.expandNode_adds _ m.product c.model m.session (m.resolve feed next) id
        dsimp only
        generalize m.product.expandNode c.model m.session id (m.resolve feed next) = grown
          at outgrown settled adds
        have tracks' : Tracks c { m with product := grown.product, session := grown.session } :=
          ⟨outgrown.part, outgrown.coherent, tracks.known⟩
        cases failed : grown.failure with
        | some e => exact ⟨⟨tracks', outgrown.within⟩, outgrown.refused e failed⟩
        | none =>
          have bound := product_size_le stored tracks'
          have grows := outgrown.within.size_le
          dsimp only at bound
          have others' : ∀ j, j ∉ grown.created.reverse ++ todo →
              grown.product.SettledAt c j := by
            intro j absent node' at_j
            simp only [List.mem_append, List.mem_reverse, adds.mem_iff, not_or, not_and] at absent
            have old : j < m.product.size := by
              by_contra new
              exact absent.1 (Nat.le_of_not_lt new) (Product.lt_size at_j)
            by_cases here : j = id
            · subst here
              obtain ⟨b, at_b, later⟩ := outgrown.within.nodes j node at_id
              obtain rfl := Option.some.inj (at_j.symm.trans at_b)
              exact later.key.symm ▸ settled failed
            · have at_old := Array.getElem?_eq_getElem old
              exact (others j (by simp [here, absent.2])).within at_old outgrown.within node' at_j
          have counted : (grown.created.reverse ++ todo).length +
              (feed.stateCount * c.tableau.size - grown.product.size) < fuel := by
            simp only [List.length_append, List.length_reverse, adds.length_eq,
              List.length_cons] at enough ⊢
            omega
          obtain ⟨advance, done⟩ := ih tracks' counted others'
          exact ⟨⟨advance.tracks, outgrown.within.trans advance.within⟩, done⟩

def Concluded (c : Scene State) (m : Monitor State) (result : Option EvalError × Monitor State) :
    Prop :=
  Advance c m result.2 ∧
    match result.1 with
    | none => ∀ id, result.2.product.SettledAt c id
    | some e => c.Refused e

/-- Absorbing growth settles the nodes that it added. -/
theorem absorb_concluded (stored : c.stored = feed.state?) (once : c.Once) (tracks : Tracks c m)
    {grown : Growth State} (outgrown : Outgrown c m.product grown)
    (adds : m.product.Adds grown.product grown.created)
    (settled : grown.failure = none → ∀ id, id < m.product.size → grown.product.SettledAt c id) :
    Concluded c m (absorb c.model feed m grown) ∧
      grown.product.Within (absorb c.model feed m grown).2.product ∧
      ((absorb c.model feed m grown).1 = none → grown.failure = none) := by
  have tracks' : Tracks c { m with product := grown.product, session := grown.session } :=
    ⟨outgrown.part, outgrown.coherent, tracks.known⟩
  unfold absorb
  dsimp only
  cases failed : grown.failure with
  | some e =>
    exact ⟨⟨⟨tracks', outgrown.within⟩, outgrown.refused e failed⟩, .refl _, by simp⟩
  | none =>
    have fuel : grown.created.reverse.length +
        (feed.stateCount * c.tableau.size - grown.product.size) < grown.created.length +
          (grown.product.states.size + feed.stateCount) * grown.product.tableau.size + 1 := by
      rw [List.length_reverse, outgrown.part.tableau, Nat.add_mul]
      omega
    have others : ∀ id, id ∉ grown.created.reverse → grown.product.SettledAt c id := by
      intro id absent node at_id
      rw [List.mem_reverse, adds.mem_iff, not_and] at absent
      have old : id < m.product.size := by
        by_contra new
        exact absent (Nat.le_of_not_lt new) (Product.lt_size at_id)
      exact settled failed id old node at_id
    obtain ⟨advance, done⟩ := settleFrom_advance stored once tracks' fuel others
    exact ⟨⟨⟨advance.tracks, outgrown.within.trans advance.within⟩, done⟩, advance.within,
      fun _ => rfl⟩

end Settle

section Apply

variable {c : Scene State} {feed : Feed State} {m : Monitor State}

theorem Tracks.tell_initial (tracks : Tracks c m) (fp : Fingerprint) :
    Tracks (c.tell (.initial fp)) m where
  part := tracks.part.extends (c.extends_tell _)
  coherent := tracks.coherent
  known := by simp [Scene.tell, tracks.known]

theorem Tracks.tell_expanded {source : Fingerprint} {next : List Fingerprint}
    (once : (c.tell (.expanded source next)).Once) (tracks : Tracks c m) :
    Tracks (c.tell (.expanded source next)) { m with known := m.known.insert source next } where
  part := tracks.part.extends (c.extends_tell _)
  coherent := tracks.coherent
  known := by
    intro fp next'
    have told : .expanded source next ∈ (c.tell (.expanded source next)).events := by
      simp [Scene.tell]
    simp only [Std.TreeMap.getElem?_insert, Std.LawfulEqCmp.compare_eq_iff_eq]
    split
    · next same =>
      subst same
      rw [Option.some.injEq]
      exact ⟨fun same => same ▸ told, fun told' => once _ _ _ told told'⟩
    · next other =>
      rw [tracks.known]
      simp [Scene.tell, Ne.symm other]

def Followed (d : Scene State) (m : Monitor State) (result : Option EvalError × Monitor State) :
    Prop :=
  Advance d m result.2 ∧
    match result.1 with
    | none => Whole d result.2.product
    | some e => d.Refused e

theorem apply_initial {d : Scene State} {fp : Fingerprint} (later : d = c.tell (.initial fp))
    (stored : d.stored = feed.state?) (once : d.Once) (tracks : Tracks c m)
    (whole : Whole c m.product) : Followed d m (m.apply d.model feed (.initial fp)) := by
  have tracks : Tracks d m := later ▸ tracks.tell_initial fp
  have lists := resolve_lists stored tracks [fp]
  have told : ∀ k ∈ m.resolve feed [fp], .initial k.fingerprint ∈ d.events ∧ k.Filed d.stored := by
    intro k member
    obtain ⟨here, filed⟩ := (lists k).mp member
    exact ⟨by simp [later, Scene.tell, List.mem_singleton.mp here], filed⟩
  obtain ⟨outgrown, begun⟩ := Product.extendInitial_outgrown tracks.part tracks.coherent told
  have settled : ∀ id, id < m.product.size → (m.product.extendInitial d.model m.session
      (m.resolve feed [fp])).product.SettledAt d id := by
    intro id old
    have at_id := Array.getElem?_eq_getElem old
    refine Product.SettledAt.within (fun node at_node => ?_) at_id outgrown.within
    exact later ▸ (whole.settled id node at_node).tell (by simp)
  obtain ⟨⟨advance, done⟩, within, unfailed⟩ :=
    absorb_concluded stored once tracks outgrown
      (Product.extendInitial_adds (m.resolve feed [fp])) fun _ => settled
  change Followed d m (absorb d.model feed m _)
  refine ⟨advance, ?_⟩
  generalize absorb d.model feed m _ = result at advance done within unfailed
  obtain ⟨_ | e, m'⟩ := result
  · have begun := begun (unfailed rfl)
    refine ⟨done, ?_, ?_⟩
    · rintro k ⟨startTold, s, filed, admits⟩
      rcases List.mem_append.mp (later ▸ startTold : _ ∈ (c.tell _).events) with old | new
      · subst later
        exact (whole.starts k ⟨old, s, filed, admits⟩).within advance.within
      · have here : k.fingerprint = fp := by simpa using new
        have member := (lists ⟨k.fingerprint, s⟩).mpr ⟨by simp [here], filed⟩
        exact ((begun _ member).2 k.tableau admits).within within
    · intro fp' startTold s filed
      rcases List.mem_append.mp (later ▸ startTold : _ ∈ (c.tell _).events) with old | new
      · subst later
        exact whole.answered fp' old s filed
      · have here : fp' = fp := by simpa using new
        exact (begun _ ((lists ⟨fp', s⟩).mpr ⟨by simp [here], filed⟩)).1 s filed
  · exact done

theorem apply_expanded {d : Scene State} {source : Fingerprint} {next : List Fingerprint}
    (later : d = c.tell (.expanded source next)) (stored : d.stored = feed.state?) (once : d.Once)
    (tracks : Tracks c m) (whole : Whole c m.product) :
    Followed d m (m.apply d.model feed (.expanded source next)) := by
  have onward {k : ProductKey} (settled : m.product.Settled c k) (other : source ≠ k.fingerprint) :
      m.product.Settled d k :=
    later ▸ settled.tell fun next' same => other (Event.expanded.inj same).1
  have tracks : Tracks d { m with known := m.known.insert source next } := by
    subst later
    exact tracks.tell_expanded once
  have told : .expanded source next ∈ d.events := by simp [later, Scene.tell]
  have lists := resolve_lists stored tracks next
  obtain ⟨outgrown, column⟩ :=
    Product.extend_outgrown once told lists tracks.part tracks.coherent
  have settled : (m.product.extend d.model m.session source
      (Monitor.resolve { m with known := m.known.insert source next } feed next)).failure = none →
      ∀ id, id < m.product.size → (m.product.extend d.model m.session source
        (Monitor.resolve { m with known := m.known.insert source next } feed
          next)).product.SettledAt d id := by
    intro complete id old
    have at_id := Array.getElem?_eq_getElem old
    by_cases here : source = m.product.nodes[id].key.fingerprint
    · obtain ⟨b, at_b, later⟩ := outgrown.within.nodes id _ at_id
      exact column complete id ((outgrown.part.valid.column source id).mpr
        ⟨b, at_b, by rw [later.key, here]⟩)
    · refine Product.SettledAt.within (fun node at_node => ?_) at_id outgrown.within
      obtain rfl := Option.some.inj (at_id.symm.trans at_node)
      exact onward (whole.settled id _ at_id) here
  obtain ⟨⟨advance, done⟩, within, _⟩ :=
    absorb_concluded stored once tracks outgrown (Product.extend_adds source) settled
  change Followed d m (absorb d.model feed { m with known := m.known.insert source next } _)
  refine ⟨⟨advance.tracks, advance.within⟩, ?_⟩
  generalize absorb d.model feed _ _ = result at advance done within
  obtain ⟨_ | e, m'⟩ := result
  · have startTold {fp : Fingerprint} (told : .initial fp ∈ d.events) : .initial fp ∈ c.events := by
      simpa [later, Scene.tell] using told
    refine ⟨done, ?_, ?_⟩
    · rintro k ⟨told, s, filed, admits⟩
      subst later
      exact (whole.starts k ⟨startTold told, s, filed, admits⟩).within advance.within
    · intro fp told
      subst later
      exact whole.answered fp (startTold told)
  · exact done

theorem apply_followed {d : Scene State} {e : Event} (later : d = c.tell e)
    (stored : d.stored = feed.state?) (once : d.Once) (tracks : Tracks c m)
    (whole : Whole c m.product) : Followed d m (m.apply d.model feed e) := by
  cases e with
  | initial fp => exact apply_initial later stored once tracks whole
  | expanded source next => exact apply_expanded later stored once tracks whole

end Apply

section Follow

variable {c d : Scene State} {feed : Feed State} {m : Monitor State}

def follow (model : Model State) (feed : Feed State) :
    List Event → Monitor State → Option EvalError × Monitor State
  | [], m => (none, m)
  | e :: rest, m =>
    match m.apply model feed e with
    | (some failure, m) => (some failure, m)
    | (none, m) => follow model feed rest m

theorem follow_spec {events : List Event} (later : d = { c with events := c.events ++ events })
    (stored : d.stored = feed.state?) (once : d.Once) (tracks : Tracks c m)
    (whole : Whole c m.product) :
    match follow d.model feed events m with
    | (none, m') => Tracks d m' ∧ Whole d m'.product
    | (some e, _) => d.Refused e := by
  induction events generalizing c m with
  | nil =>
    obtain rfl : d = c := by simpa using later
    exact ⟨tracks, whole⟩
  | cons e rest ih =>
    have told : d = { c.tell e with events := (c.tell e).events ++ rest } := by
      simp [later, Scene.tell]
    have onward : (c.tell e).Extends d := by
      subst told
      exact ⟨rfl, rfl, rfl, fun _ member => List.mem_append_left _ member⟩
    have step :=
      apply_followed rfl (onward.stored.symm.trans stored) (onward.once once) tracks whole
    rw [← onward.model] at step
    unfold follow
    generalize m.apply d.model feed e = result at step
    obtain ⟨_ | failure, m'⟩ := result
    · exact ih told step.1.tracks step.2
    · exact onward.refused step.2

/-- From the start on, the events are followed exactly, or the model refuses an answer. -/
theorem follow_start (stored : d.stored = feed.state?) (once : d.Once) (name : String)
    (settings : Settings) :
    match follow d.model feed d.events (start name d.tableau settings) with
    | (none, m) => Tracks d m ∧ Whole d m.product
    | (some e, _) => d.Refused e :=
  @follow_spec _ { d with events := [] } d feed _ d.events rfl stored once
    (tracks_start _ rfl name settings) (Product.whole_empty rfl)

end Follow

/-- A monitor that has followed a list of events has the exact product of it: its nodes are the
least set with the starts that is closed under the moves, its edges all moves between them, and the
nodes flagged as initial the starts, each of them once. The order of the events makes no
difference. -/
theorem follow_exact (name : String) (settings : Settings) (tableau : Tableau) (model : Model State)
    (feed : Feed State) (events : List Event)
    (once : Scene.Once ⟨model, feed.state?, tableau, events⟩)
    (complete : (follow model feed events (start name tableau settings)).1 = none) :
    let scene : Scene State := ⟨model, feed.state?, tableau, events⟩
    let p := (follow model feed events (start name tableau settings)).2.product
    p.Valid ∧ (∀ k, p.HasKey k ↔ scene.Reached k) ∧
    (∀ k k', p.HasKeyEdge k k' ↔ scene.Reached k ∧ scene.Moves k k') ∧
    (∀ k, p.HasKeyStart k ↔ scene.Starts k) ∧
    ∀ events', events.Perm events' →
      (follow model feed events' (start name tableau settings)).1 = none ∧
      let q := (follow model feed events' (start name tableau settings)).2.product
      (∀ k, q.HasKey k ↔ p.HasKey k) ∧ (∀ k k', q.HasKeyEdge k k' ↔ p.HasKeyEdge k k') ∧
      (∀ k, q.HasKeyStart k ↔ p.HasKeyStart k) := by
  intro scene p
  have spec := @follow_start _ scene feed rfl once name settings
  obtain ⟨tracks, whole⟩ : Tracks scene _ ∧ Whole scene p := by
    rw [← Prod.eta (follow _ _ _ _), show (follow _ _ _ _).1 = none from complete] at spec
    exact spec
  have keys := Product.hasKey_iff_reached tracks.part whole
  have edges := Product.hasKeyEdge_iff_moves tracks.part whole
  have starts := Product.hasKeyStart_iff_starts tracks.part whole
  refine ⟨tracks.part.valid, keys, edges, starts, fun events' perm => ?_⟩
  let scene' : Scene State := ⟨model, feed.state?, tableau, events'⟩
  have forth : scene.Extends scene' := ⟨rfl, rfl, rfl, fun _ => perm.mem_iff.mp⟩
  have back : scene'.Extends scene := ⟨rfl, rfl, rfl, fun _ => perm.mem_iff.mpr⟩
  have spec' := @follow_start _ scene' feed rfl (back.once once) name settings
  change match follow model feed events' (start name tableau settings) with
    | (none, m) => Tracks scene' m ∧ Whole scene' m.product
    | (some e, _) => scene'.Refused e at spec'
  generalize follow model feed events' (start name tableau settings) = result at spec'
  obtain ⟨_ | e, m'⟩ := result
  · obtain ⟨tracks', whole'⟩ := spec'
    have reached (k : ProductKey) : scene'.Reached k ↔ scene.Reached k :=
      ⟨back.reached, forth.reached⟩
    have moves (k k' : ProductKey) : scene'.Moves k k' ↔ scene.Moves k k' :=
      ⟨back.moves, forth.moves⟩
    have begins (k : ProductKey) : scene'.Starts k ↔ scene.Starts k :=
      ⟨back.starts, forth.starts⟩
    refine ⟨rfl, fun k => ?_, fun k k' => ?_, fun k => ?_⟩
    · rw [keys, ← reached, Product.hasKey_iff_reached tracks'.part whole']
    · rw [edges, ← reached, ← moves, Product.hasKeyEdge_iff_moves tracks'.part whole']
    · rw [starts, ← begins, Product.hasKeyStart_iff_starts tracks'.part whole']
  · exact absurd whole.all_answered (back.refused spec').not_answered

section Blinking

/-- A lamp that is off at first and then goes on and off. Predicate 0 asks whether it is on, all
others whether it changes. -/
def lamp : Model Bool where
  fingerprint on := if on then 1 else 0
  initial := .ok [false]
  successors on := .ok [!on]
  holds p on next := .ok (if p = 0 then on else next != some on)

def anything : Tableau :=
  .ofNodes (.const false) (.const true) {} #[⟨[], [], [], [], [0], 0, 0⟩] [0] []

def lampFeed : Feed Bool := (({} : Feed Bool).insert (lamp.keyed false)).insert (lamp.keyed true)

/-- It is known that the lamp goes off again before it is known that it can be on. -/
theorem follow_exact_lamp :
    let events : List Event := [.expanded 1 [0], .initial 0, .expanded 0 [1]]
    let run := follow lamp lampFeed events (start "lamp" anything {})
    Scene.Once ⟨lamp, lampFeed.state?, anything, events⟩ ∧ run.1 = none ∧
      Scene.Reached ⟨lamp, lampFeed.state?, anything, events⟩ ⟨1, 0⟩ := by
  intro events run
  have once : Scene.Once ⟨lamp, lampFeed.state?, anything, events⟩ := by
    intro source next next' told told'
    simp only [events, List.mem_cons, Event.expanded.injEq, reduceCtorEq, List.not_mem_nil,
      or_false, false_or] at told told'
    rcases told with ⟨rfl, rfl⟩ | ⟨rfl, rfl⟩ <;> simpa [eq_comm] using told'
  have complete : run.1 = none := by decide +kernel
  refine ⟨once, complete, ?_⟩
  obtain ⟨-, keys, -⟩ := follow_exact "lamp" {} anything lamp lampFeed events once complete
  have found : run.2.product.nodes[1]?.map (·.key) = some ⟨1, 0⟩ := by decide +kernel
  obtain ⟨node, at_id, same⟩ := Option.map_eq_some_iff.mp found
  exact (keys ⟨1, 0⟩).mp ⟨1, node, at_id, same⟩

end Blinking

end Monitor
end TemporalCheck
