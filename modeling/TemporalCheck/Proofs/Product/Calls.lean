import TemporalCheck.Proofs.Product.Created
import TemporalCheck.Proofs.Product.Placement

/-! A product that is grown by any calls whatever, in any order, also of models that contradict each
other or refuse answers. What a call adds is a list of placements. -/
namespace TemporalCheck.Product

variable {State : Type} {p q : Product State}

/-- A call that grows a product, with the model that it asks and the session it does so in. -/
inductive Call (State : Type) where
  | extendInitial (model : Model State) (s : Session) (states : List (Keyed State))
  | extend (model : Model State) (s : Session) (source : Fingerprint) (next : List (Keyed State))
  | expandNode (model : Model State) (s : Session) (id : NodeId) (next : List (Keyed State))

def Call.run (p : Product State) : Call State → Growth State
  | .extendInitial model s states => p.extendInitial model s states
  | .extend model s source next => p.extend model s source next
  | .expandNode model s id next => p.expandNode model s id next

def Call.given : Call State → List (Keyed State)
  | .extendInitial _ _ states => states
  | .extend _ _ _ next => next
  | .expandNode _ _ _ next => next

def Call.model : Call State → Model State
  | .extendInitial model _ _ => model
  | .extend model _ _ _ => model
  | .expandNode model _ _ _ => model

def Call.session : Call State → Session
  | .extendInitial _ s _ => s
  | .extend _ s _ _ => s
  | .expandNode _ s _ _ => s

def Call.again (model : Model State) (s : Session) : Call State → Call State
  | .extendInitial _ _ states => .extendInitial model s states
  | .extend _ _ source next => .extend model s source next
  | .expandNode _ _ id next => .expandNode model s id next

def grow (p : Product State) (calls : List (Call State)) : Product State :=
  calls.foldl (fun p call => (call.run p).product) p

/-- The starts that the model admits before it refuses an answer. -/
def admitted (model : Model State) :
    List ((Keyed State × TableauId) × List (Condition State)) → Session →
    List (Placement State)
  | [], _ => []
  | (target, conditions) :: rest, s =>
    match s.testAll model conditions with
    | (.error _, _) => []
    | (.ok true, s) => ⟨none, target⟩ :: admitted model rest s
    | (.ok false, s) => admitted model rest s

def allowed (p : Product State) (model : Model State) (s : Session) (id : NodeId)
    (next : List (Keyed State)) : List (Placement State) :=
  match p.nodes[id]? with
  | none => []
  | some node =>
    match p.state? node.key.fingerprint with
    | none => []
    | some state =>
      match (s.select model (p.moves node.key.tableau ⟨node.key.fingerprint, state⟩ next)).1 with
      | .error _ => []
      | .ok chosen => chosen.map (⟨some id, ·⟩)

def allowedFrom (model : Model State) (source : Fingerprint) (next : List (Keyed State)) :
    (fuel i : Nat) → Product State → Session → List (Placement State)
  | 0, _, _, _ => []
  | fuel + 1, i, p, s =>
    match (p.nodesOn source)[i]? with
    | none => []
    | some id =>
      let grown := p.expandNode model s id next
      p.allowed model s id next ++
        match grown.failure with
        | some _ => []
        | none => allowedFrom model source next fuel (i + 1) grown.product grown.session

def Call.placements (p : Product State) : Call State → List (Placement State)
  | .extendInitial model s states => admitted model (p.starts states) s
  | .extend model s source next => allowedFrom model source next p.tableau.size 0 p s
  | .expandNode model s id next => p.allowed model s id next

def placements (p : Product State) : List (Call State) → List (Placement State)
  | [] => []
  | call :: rest => call.placements p ++ placements (call.run p).product rest

variable {model : Model State} {s : Session} {next : List (Keyed State)}

section Given

variable {candidates : List ((Keyed State × TableauId) × List (Condition State))}
  {x : Placement State}

theorem exists_candidate_of_select {chosen : List (Keyed State × TableauId)}
    (selected : (s.select model candidates).1 = .ok chosen) {target : Keyed State × TableauId}
    (member : target ∈ chosen) : ∃ candidate ∈ candidates, candidate.1 = target := by
  induction candidates generalizing s chosen with
  | nil =>
    obtain rfl : [] = chosen := by simpa [Session.select] using selected
    simp at member
  | cons candidate rest ih =>
    obtain ⟨first, conditions⟩ := candidate
    unfold Session.select at selected
    generalize s.testAll model conditions = tested at selected
    obtain ⟨e | answer, s'⟩ := tested
    · contradiction
    dsimp only at selected
    cases onward : Session.select model rest s' with
    | mk result s'' =>
      rw [onward] at selected
      cases result with
      | error e => contradiction
      | ok others =>
        have later : target ∈ others → ∃ candidate ∈ (first, conditions) :: rest,
            candidate.1 = target := by
          intro here
          obtain ⟨candidate, listed, same⟩ := ih (congrArg (·.1) onward) here
          exact ⟨candidate, List.mem_cons_of_mem _ listed, same⟩
        obtain rfl := Except.ok.inj selected
        split at member
        · rcases List.mem_cons.mp member with rfl | here
          · exact ⟨_, List.mem_cons_self, rfl⟩
          · exact later here
        · exact later member

theorem exists_candidate_of_admitted (member : x ∈ admitted model candidates s) :
    ∃ candidate ∈ candidates, candidate.1 = x.target := by
  induction candidates generalizing s with
  | nil => simp [admitted] at member
  | cons candidate rest ih =>
    obtain ⟨target, conditions⟩ := candidate
    have later {s : Session} (here : x ∈ admitted model rest s) :
        ∃ candidate ∈ (target, conditions) :: rest, candidate.1 = x.target := by
      obtain ⟨candidate, listed, same⟩ := ih here
      exact ⟨candidate, List.mem_cons_of_mem _ listed, same⟩
    unfold admitted at member
    generalize s.testAll model conditions = tested at member
    obtain ⟨answer, s'⟩ := tested
    rcases answer with e | _ | _
    · simp at member
    · exact later member
    · rcases List.mem_cons.mp member with rfl | here
      · exact ⟨_, List.mem_cons_self, rfl⟩
      · exact later here

theorem given_of_allowed {id : NodeId} (member : x ∈ p.allowed model s id next) :
    x.target.1 ∈ next := by
  unfold allowed at member
  split at member
  · simp at member
  split at member
  · simp at member
  split at member
  · simp at member
  · next chosen selected =>
    obtain ⟨target, taken, rfl⟩ := List.mem_map.mp member
    obtain ⟨candidate, listed, rfl⟩ := exists_candidate_of_select selected taken
    obtain ⟨k, given, offered⟩ := List.mem_flatMap.mp listed
    obtain ⟨edge, _, rfl⟩ := List.mem_map.mp offered
    exact given

theorem given_of_allowedFrom {source : Fingerprint} {fuel i : Nat}
    (member : x ∈ allowedFrom model source next fuel i p s) : x.target.1 ∈ next := by
  induction fuel generalizing p s i with
  | zero => simp [allowedFrom] at member
  | succ fuel ih =>
    unfold allowedFrom at member
    split at member
    · simp at member
    rcases List.mem_append.mp member with here | later
    · exact given_of_allowed here
    · split at later
      · simp at later
      · exact ih later

/-- Only what a call is given is placed. -/
theorem given_of_placements {call : Call State} (member : x ∈ call.placements p) :
    x.target.1 ∈ call.given := by
  cases call with
  | extendInitial model s states =>
    obtain ⟨candidate, listed, same⟩ := exists_candidate_of_admitted member
    obtain ⟨k, given, offered⟩ := List.mem_flatMap.mp listed
    obtain ⟨start, _, rfl⟩ := List.mem_map.mp offered
    exact same ▸ given
  | extend model s source next => exact given_of_allowedFrom member
  | expandNode model s id next => exact given_of_allowed member

theorem exists_call_of_placements {calls : List (Call State)} (member : x ∈ placements p calls) :
    ∃ call ∈ calls, x.target.1 ∈ call.given := by
  induction calls generalizing p with
  | nil => simp [placements] at member
  | cons call rest ih =>
    rcases List.mem_append.mp member with here | later
    · exact ⟨call, List.mem_cons_self, given_of_placements here⟩
    · obtain ⟨call', listed, given⟩ := ih later
      exact ⟨call', List.mem_cons_of_mem _ listed, given⟩

end Given

theorem sourced_of_lt (valid : p.Valid) {xs : List (Placement State)}
    (bound : ∀ x ∈ xs, ∀ id ∈ x.source, id < p.size) : Sourced p xs := by
  induction xs generalizing p with
  | nil => trivial
  | cons x rest ih =>
    obtain ⟨here, bound⟩ := List.forall_mem_cons.mp bound
    obtain ⟨_, placed⟩ := placed valid here
    exact ⟨here, ih placed.valid fun y member id source =>
      (bound y member id source).trans_le placed.within.size_le⟩

structure From (p q : Product State) (xs : List (Placement State)) : Prop where
  sourced : Sourced p xs
  product : q = xs.foldl place p

theorem From.built {xs : List (Placement State)} (placed : From p q xs) (valid : p.Valid) :
    Built p q xs :=
  placed.product ▸ Product.built valid placed.sourced

theorem From.append {r : Product State} {xs ys : List (Placement State)} (first : From p q xs)
    (second : From q r ys) : From p r (xs ++ ys) := by
  obtain ⟨sourced, rfl⟩ := first
  obtain ⟨sourced', rfl⟩ := second
  exact ⟨sourced_append.mpr ⟨sourced, sourced'⟩, List.foldl_append.symm⟩

theorem beginAll_from (valid : p.Valid)
    (starts : List ((Keyed State × TableauId) × List (Condition State))) (s : Session) :
    From p (beginAll model starts p s).product (admitted model starts s) := by
  induction starts generalizing p s with
  | nil => exact ⟨trivial, rfl⟩
  | cons start rest ih =>
    obtain ⟨⟨k, t⟩, conditions⟩ := start
    unfold beginAll admitted
    obtain ⟨answer, s'⟩ := s.testAll model conditions
    rcases answer with e | _ | _
    · exact ⟨trivial, rfl⟩
    · exact ih valid s'
    · have bound : ∀ id ∈ (⟨none, (k, t)⟩ : Placement State).source, id < p.size := by simp
      obtain ⟨_, placed⟩ := placed valid bound
      obtain ⟨sourced, product⟩ := ih placed.valid s'
      exact ⟨⟨bound, sourced⟩, product⟩

theorem expandNode_from (valid : p.Valid) (id : NodeId) :
    From p (p.expandNode model s id next).product (p.allowed model s id next) := by
  have nothing : From p p [] := ⟨trivial, rfl⟩
  unfold expandNode allowed
  cases at_id : p.nodes[id]? with
  | none => exact nothing
  | some node =>
    dsimp only
    cases p.state? node.key.fingerprint with
    | none => exact nothing
    | some state =>
      dsimp only
      obtain ⟨e | chosen, s'⟩ := s.select model _
      · exact nothing
      · refine ⟨sourced_of_lt valid fun x member id' source => ?_, ?_⟩
        · obtain ⟨_, _, rfl⟩ := List.mem_map.mp member
          obtain rfl := Option.some.inj source
          exact lt_size at_id
        · exact linkAll_eq id chosen

theorem extendFrom_from (valid : p.Valid) (source : Fingerprint) (fuel i : Nat) :
    From p (extendFrom model source next fuel i p s).product
      (allowedFrom model source next fuel i p s) := by
  induction fuel generalizing p s i with
  | zero => exact ⟨trivial, rfl⟩
  | succ fuel ih =>
    unfold extendFrom allowedFrom
    cases (p.nodesOn source)[i]? with
    | none => exact ⟨trivial, rfl⟩
    | some id =>
      have expanded := @expandNode_from _ p model s next valid id
      dsimp only
      generalize p.expandNode model s id next = grown at expanded
      have valid' : grown.product.Valid := (expanded.built valid).valid
      cases grown.failure with
      | some e => simpa using expanded
      | none => exact expanded.append (ih valid' (i + 1))

theorem Call.run_from (valid : p.Valid) (call : Call State) :
    From p (call.run p).product (call.placements p) := by
  cases call with
  | extendInitial model s states => exact beginAll_from valid _ s
  | extend model s source next => exact extendFrom_from valid source _ 0
  | expandNode model s id next => exact expandNode_from valid id

theorem Call.run_adds (p : Product State) (call : Call State) :
    p.Adds (call.run p).product (call.run p).created := by
  cases call with
  | extendInitial model s states => exact extendInitial_adds states
  | extend model s source next => exact extend_adds source
  | expandNode model s id next => exact expandNode_adds id

theorem grow_from (valid : p.Valid) (calls : List (Call State)) :
    From p (p.grow calls) (placements p calls) := by
  induction calls generalizing p with
  | nil => exact ⟨trivial, rfl⟩
  | cons call rest ih =>
    have called := call.run_from valid
    have valid' : (call.run p).product.Valid := (called.built valid).valid
    exact called.append (ih valid')

theorem built_grow (valid : p.Valid) (calls : List (Call State)) :
    Built p (p.grow calls) (placements p calls) :=
  (grow_from valid calls).built valid

theorem valid_grow (t : Tableau) (calls : List (Call State)) :
    (({ tableau := t } : Product State).grow calls).Valid :=
  (built_grow (valid_empty t) calls).valid

theorem counted_grow (t : Tableau) (calls : List (Call State)) :
    (({ tableau := t } : Product State).grow calls).Counted :=
  (built_grow (valid_empty t) calls).counted (by simp [Counted, edgeCount, size])

/-- Whatever calls a product is grown by, its index, edges, states and lists agree with each other
and tell what the calls have placed of the states given to them: the nodes by their keys, the edges,
and the initial nodes, each of them once. A fingerprint has the state of the first placement on it,
which its first node comes from. All that is added is counted, a further call tells which nodes it
has added, and further calls only append. -/
theorem grow_agrees (t : Tableau) (calls later : List (Call State)) :
    let p := ({ tableau := t } : Product State).grow calls
    let placed := placements ({ tableau := t } : Product State) calls
    p = placed.foldl place { tableau := t } ∧
    (∀ x ∈ placed, ∃ call ∈ calls, x.target.1 ∈ call.given) ∧
    (∀ (k : ProductKey) (id : NodeId),
      p.index[k]? = some id ↔ ∃ node, p.nodes[id]? = some node ∧ node.key = k) ∧
    (∀ fp, (p.nodesOn fp).Pairwise (· < ·) ∧ ∀ id, id ∈ p.nodesOn fp ↔
      ∃ node, p.nodes[id]? = some node ∧ node.key.fingerprint = fp) ∧
    (∀ u w, (⟨u, w⟩ ∈ p.edges ↔ w ∈ p.successors u) ∧
      (w ∈ p.successors u ↔ ∃ x ∈ placed, x.source = some u ∧ p.find? x.key = some w)) ∧
    (∀ u, (p.successors u).Nodup ∧ ∀ w ∈ p.successors u, u < p.size ∧ w < p.size) ∧
    p.initial.toList.Nodup ∧
    (∀ id, (id ∈ p.initial ↔ ∃ node, p.nodes[id]? = some node ∧ node.initial = true) ∧
      (id ∈ p.initial ↔ ∃ x ∈ placed, x.source = none ∧ p.find? x.key = some id)) ∧
    (∀ fp, ((∃ s, p.state? fp = some s) ↔ ∃ id, id ∈ p.nodesOn fp) ∧
      ∀ x, placed.find? (·.key.fingerprint == fp) = some x → p.state? fp = some x.state ∧
        ∃ id, (p.nodesOn fp).head? = some id ∧ p.find? x.key = some id) ∧
    p.edges.size = ((List.range p.size).map fun u => (p.successors u).length).sum ∧
    p.generation = p.size + p.edges.size + p.initial.size ∧
    (∀ call : Call State, (call.run p).created = (call.run p).product.addedSince p.size) ∧
    p.Within (p.grow later) := by
  intro p placed
  obtain ⟨sourced, product⟩ := grow_from (valid_empty t) calls
  have built : Built { tableau := t } p placed := built_grow (valid_empty t) calls
  have valid := built.valid
  have edges (u w : NodeId) : w ∈ p.successors u ↔
      ∃ x ∈ placed, x.source = some u ∧ p.find? x.key = some w := by
    rw [built.successors]
    simp [successors]
  have starts (id : NodeId) : id ∈ p.initial ↔
      ∃ x ∈ placed, x.source = none ∧ p.find? x.key = some id := by
    rw [built.initial]
    simp
  have first (fp : Fingerprint) (x : Placement State)
      (found : placed.find? (·.key.fingerprint == fp) = some x) :
      p.state? fp = some x.state ∧ ∃ id, (p.nodesOn fp).head? = some id ∧
        p.find? x.key = some id := by
    rw [show p = placed.foldl place { tableau := t } from product]
    exact state?_first (valid_empty t) sourced (by simp [state?]) found
  refine ⟨product, fun x => exists_call_of_placements, fun k id => valid.indexed,
    fun fp => ⟨valid.ascending fp, valid.column fp⟩,
    fun u w => ⟨hasEdge_iff valid, edges u w⟩,
    fun u => ⟨nodup_successors valid u, fun w edge => ?_⟩, valid.initialDistinct,
    fun id => ⟨valid.initial id, starts id⟩, fun fp => ⟨valid.stored fp, first fp⟩,
    edgeCount_eq_sum valid, counted_grow t calls, fun call => (call.run_adds p).created,
    (built_grow valid later).within⟩
  exact ⟨lt_size_of_mem_successors edge, lt_size_of_edge valid edge⟩

section Becomes

variable {r : Product State}

def Becomes (p q : Product State) : Prop := ∃ calls : List (Call State), q = p.grow calls

theorem Becomes.refl (p : Product State) : p.Becomes p := ⟨[], rfl⟩

theorem Becomes.trans (first : p.Becomes q) (second : q.Becomes r) : p.Becomes r := by
  obtain ⟨calls, rfl⟩ := first
  obtain ⟨later, rfl⟩ := second
  exact ⟨calls ++ later, by simp [grow]⟩

theorem becomes_run (p : Product State) (call : Call State) : p.Becomes (call.run p).product :=
  ⟨[call], rfl⟩

theorem Becomes.within (becomes : p.Becomes q) (valid : p.Valid) : q.Valid ∧ p.Within q := by
  obtain ⟨calls, rfl⟩ := becomes
  have built := built_grow valid calls
  exact ⟨built.valid, built.within⟩

/-- Every change is counted, so that an equal count means that nothing has changed. -/
theorem Becomes.eq_of_generation (becomes : p.Becomes q) (valid : p.Valid)
    (same : p.generation = q.generation) : q = p := by
  rcases (becomes.within valid).2.generation with equal | newer
  · exact equal.symm
  · omega

end Becomes

end TemporalCheck.Product
