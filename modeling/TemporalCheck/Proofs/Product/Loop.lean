import TemporalCheck.Loop
import TemporalCheck.Proofs.Product.Bound
import TemporalCheck.Proofs.Product.Repeat

/-! The loop that expands the nodes on a fingerprint comes to an end. It may add nodes to the list
that it goes through, but only for nodes of the tableau, and no more than one for each. -/
namespace TemporalCheck.Product

variable {State : Type} {p q : Product State} {model : Model State} {s : Session}
  {next : List (Keyed State)} {id : NodeId}

section Keys

variable {key k : ProductKey} {state : State} {x : Placement State} {xs : List (Placement State)}

theorem hasKey_ensure (has : (p.ensure key state).2.2.HasKey k) : p.HasKey k ∨ k = key := by
  unfold ensure at has
  cases found : p.find? key with
  | some id =>
    rw [found] at has
    exact .inl has
  | none =>
    rw [found] at has
    obtain ⟨id, node, at_id, rfl⟩ := has
    rw [getElem?_add] at at_id
    split at at_id
    · exact .inr (congrArg Node.key (Option.some.inj at_id)).symm
    · exact .inl ⟨id, node, at_id, rfl⟩

theorem hasKey_markInitial (has : (p.markInitial id).HasKey k) : p.HasKey k := by
  cases at_id : p.nodes[id]? with
  | none => rwa [markInitial_of_missing at_id] at has
  | some node => exact ((touched_markInitial at_id).hasKey k).mp has

theorem hasKey_addEdge {source : NodeId} (has : (p.addEdge source id).HasKey k) : p.HasKey k := by
  by_cases present : p.hasEdge source id
  · rwa [addEdge_of_present present] at has
  · exact ((touched_addEdge present).hasKey k).mp has

/-- A placement adds no key but its own. -/
theorem hasKey_place (has : (p.place x).HasKey k) : p.HasKey k ∨ k = x.key := by
  rw [place_eq] at has
  cases source : x.source with
  | none =>
    rw [source] at has
    exact hasKey_ensure (hasKey_markInitial has)
  | some u =>
    rw [source] at has
    exact hasKey_ensure (hasKey_addEdge has)

theorem From.hasKey (grown : From p q xs) (has : q.HasKey k) :
    p.HasKey k ∨ ∃ x ∈ xs, k = x.key := by
  obtain ⟨-, rfl⟩ := grown
  induction xs generalizing p with
  | nil => exact .inl has
  | cons x xs ih =>
    rcases ih has with earlier | ⟨y, later, rfl⟩
    · rcases hasKey_place earlier with old | rfl
      · exact .inl old
      · exact .inr ⟨x, List.mem_cons_self, rfl⟩
    · exact .inr ⟨y, List.mem_cons_of_mem x later, rfl⟩

end Keys

section Bounds

variable {x : Placement State} {xs : List (Placement State)} {source : Fingerprint}

theorem From.bounded (grown : From p q xs) (valid : p.Valid) (bounded : p.Bounded)
    (inside : ∀ x ∈ xs, x.target.2 < p.tableau.size) : q.Bounded := by
  intro k has
  rw [(grown.built valid).within.tableau]
  rcases grown.hasKey has with old | ⟨x, member, rfl⟩
  · exact bounded k old
  · exact inside x member

/-- A move goes to a node of the tableau. -/
theorem lt_size_of_allowed (member : x ∈ p.allowed model s id next) :
    x.target.2 < p.tableau.size := by
  unfold allowed at member
  split at member
  · simp at member
  split at member
  · simp at member
  split at member
  · simp at member
  · next chosen selected =>
    obtain ⟨target, taken, rfl⟩ := List.mem_map.mp member
    obtain ⟨candidate, listed, rfl⟩ := exists_candidate_of_select selected taken
    obtain ⟨k, given, offered⟩ := List.mem_flatMap.mp listed
    obtain ⟨edge, leaving, rfl⟩ := List.mem_map.mp offered
    exact Tableau.lt_size_of_mem_edgesFrom leaving

theorem bounded_expandNode (valid : p.Valid) (bounded : p.Bounded) (model : Model State)
    (s : Session) (id : NodeId) (next : List (Keyed State)) :
    (p.expandNode model s id next).product.Bounded :=
  (expandNode_from valid id).bounded valid bounded fun _ => lt_size_of_allowed

theorem bounded_extendFrom (valid : p.Valid) (bounded : p.Bounded) (model : Model State)
    (source : Fingerprint) (next : List (Keyed State)) (fuel i : Nat) (s : Session) :
    (extendFrom model source next fuel i p s).product.Bounded := by
  induction fuel generalizing i p s with
  | zero => exact bounded
  | succ fuel ih =>
    cases at_i : (p.nodesOn source)[i]? with
    | none =>
      rw [extendFrom, at_i]
      exact bounded
    | some id =>
      have bounded' := bounded_expandNode valid bounded model s id next
      rw [extendFrom_onto at_i, Growth.onto]
      cases (p.expandNode model s id next).failure with
      | some e => exact bounded'
      | none => exact ih (within_expandNode valid model s id next).1 bounded' (i + 1) _

/-- Whatever calls a product is grown by, its nodes stand for nodes of the tableau. -/
theorem bounded_run (valid : p.Valid) (bounded : p.Bounded) (call : Call State) :
    (call.run p).product.Bounded := by
  cases call with
  | extendInitial model s states =>
    refine (Call.run_from valid _).bounded valid bounded fun x member => ?_
    obtain ⟨candidate, listed, same⟩ := exists_candidate_of_admitted member
    obtain ⟨k, given, offered⟩ := List.mem_flatMap.mp listed
    obtain ⟨start, admitted, rfl⟩ := List.mem_map.mp offered
    rw [← same]
    exact Tableau.lt_size_of_mem_admissions admitted
  | extend model s source next => exact bounded_extendFrom valid bounded model source next _ 0 s
  | expandNode model s id next => exact bounded_expandNode valid bounded model s id next

theorem bounded_grow (t : Tableau) (calls : List (Call State)) :
    (({ tableau := t } : Product State).grow calls).Bounded := by
  have onward (p : Product State) (valid : p.Valid) (bounded : p.Bounded) :
      (p.grow calls).Bounded := by
    induction calls generalizing p with
    | nil => exact bounded
    | cons call calls ih =>
      have grown : (call.run p).product.Valid := ((call.run_from valid).built valid).valid
      exact ih _ grown (bounded_run valid bounded call)
  exact onward _ (valid_empty t) (bounded_empty t)

end Bounds

section Column

variable {source : Fingerprint} {fuel i : Nat}

theorem drop_of_within (within : p.Within q) (at_i : (p.nodesOn source)[i]? = some id) :
    (q.nodesOn source).drop i = id :: (q.nodesOn source).drop (i + 1) := by
  obtain ⟨rest, longer⟩ := within.columns source
  obtain ⟨bound, rfl⟩ := List.getElem?_eq_some_iff.mp at_i
  have bound' : i < (q.nodesOn source).length := by
    rw [← longer, List.length_append]
    omega
  rw [List.drop_eq_getElem_cons bound']
  simp only [← longer, List.getElem_append_left bound]

theorem extendLoop_ended (missing : (p.nodesOn source)[i]? = none) :
    extendLoop model source next i p s = some ([], { product := p, session := s }) := by
  rw [extendLoop, missing]

structure Visited (source : Fingerprint) (i : Nat) (visited : List NodeId) (grown : Growth State) :
    Prop where
  through : visited <+: (grown.product.nodesOn source).drop i
  whole : grown.failure = none → visited = (grown.product.nodesOn source).drop i

theorem visited_nil (missing : (p.nodesOn source)[i]? = none) :
    Visited source i [] { product := p, session := s } where
  through := List.nil_prefix
  whole _ := (List.drop_of_length_le (List.getElem?_eq_none_iff.mp missing)).symm

/-- The node at the position, and what is visited behind it. -/
theorem Visited.turn {visited created : List NodeId} {grown : Growth State}
    (within : p.Within grown.product) (at_i : (p.nodesOn source)[i]? = some id)
    (behind : Visited source (i + 1) visited grown) :
    Visited source i (id :: visited) (grown.after created) where
  through := by
    rw [Growth.product_after, drop_of_within within at_i]
    exact List.cons_prefix_cons.mpr ⟨rfl, behind.through⟩
  whole done := by rw [Growth.product_after, drop_of_within within at_i, behind.whole done]

/-- The loop ends, with what a number of turns comes to that is enough for the tableau. -/
theorem exists_visited (valid : p.Valid) (bounded : p.Bounded) (model : Model State)
    (source : Fingerprint) (next : List (Keyed State)) (s : Session)
    (enough : p.tableau.size ≤ i + fuel) : ∃ visited,
      extendLoop model source next i p s =
        some (visited, extendFrom model source next fuel i p s) ∧
      Visited source i visited (extendFrom model source next fuel i p s) := by
  induction fuel generalizing i p s with
  | zero =>
    have short := bounded.length_nodesOn_le valid source
    have missing : (p.nodesOn source)[i]? = none := List.getElem?_eq_none (short.trans enough)
    exact ⟨[], extendLoop_ended missing, visited_nil missing⟩
  | succ fuel ih =>
    cases at_i : (p.nodesOn source)[i]? with
    | none =>
      rw [extendFrom, at_i]
      exact ⟨[], extendLoop_ended at_i, visited_nil at_i⟩
    | some id =>
      have grown := within_expandNode valid model s id next
      rw [extendFrom_onto at_i, extendLoop, at_i]
      dsimp only
      cases failed : (p.expandNode model s id next).failure with
      | some e =>
        rw [Growth.onto_of_failed failed]
        refine ⟨[id], rfl, ?_, fun done => absurd (failed.symm.trans done) (by simp)⟩
        rw [drop_of_within grown.2 at_i]
        exact List.prefix_append [id] _
      | none =>
        rw [Growth.onto_of_done failed]
        have bounded' := bounded_expandNode valid bounded model s id next
        have enough' : (p.expandNode model s id next).product.tableau.size ≤ i + 1 + fuel := by
          rw [grown.2.tableau]
          omega
        obtain ⟨visited, looped, behind⟩ := ih grown.1 bounded' _ enough'
        have later := (within_extendFrom grown.1 model source next fuel (i + 1)
          (p.expandNode model s id next).session).2
        refine ⟨id :: visited, ?_, behind.turn (grown.2.trans later) at_i⟩
        rw [looped]
        rfl

/-- What is visited when a fingerprint is extended: the nodes on it in their order, each once, and
all of them where the model answers. -/
structure Visits (p : Product State) (source : Fingerprint) (visited : List NodeId)
    (grown : Growth State) : Prop where
  distinct : visited.Nodup
  through : visited <+: grown.product.nodesOn source
  few : visited.length ≤ p.tableau.size
  whole : grown.failure = none → visited = grown.product.nodesOn source

theorem exists_visits (valid : p.Valid) (bounded : p.Bounded) (model : Model State) (s : Session)
    (source : Fingerprint) (next : List (Keyed State)) : ∃ visited,
      extendLoop model source next 0 p s = some (visited, p.extend model s source next) ∧
      p.Visits source visited (p.extend model s source next) := by
  obtain ⟨visited, looped, through, whole⟩ := exists_visited valid bounded model source next s
    (Nat.le_add_left p.tableau.size 0)
  have grown := within_extendFrom valid model source next p.tableau.size 0 s
  have bounded' := bounded_extendFrom valid bounded model source next p.tableau.size 0 s
  have short := bounded'.length_nodesOn_le grown.1 source
  rw [grown.2.tableau] at short
  have distinct := (grown.1.ascending source).imp Nat.ne_of_lt
  exact ⟨visited, looped, distinct.sublist through.sublist, through, through.length_le.trans short,
    whole⟩

end Column

end TemporalCheck.Product
