import TemporalCheck.Proofs.Product.Loop

/-! Growth comes to an end. Settling adds nodes that are to be settled in their turn, but every node
that is added takes up one of finitely many keys. What counts the turns is the nodes to do together
with the keys that are still free. -/
namespace TemporalCheck

variable {State : Type} {model : Model State} {feed : Feed State} {fps : List Fingerprint}

namespace Product

variable {p q : Product State}

structure Confined (fps : List Fingerprint) (p : Product State) : Prop where
  valid : p.Valid
  bounded : p.Bounded
  fingerprints : ∀ k, p.HasKey k → k.fingerprint ∈ fps

theorem Confined.mem_of_state? (confined : p.Confined fps) {fp : Fingerprint} {s : State}
    (stored : p.state? fp = some s) : fp ∈ fps := by
  obtain ⟨id, member⟩ := (confined.valid.stored fp).mp ⟨s, stored⟩
  obtain ⟨t, -, has, -⟩ := exists_key confined.valid member
  exact confined.fingerprints _ has

theorem Confined.size_le (confined : p.Confined fps) : p.size ≤ fps.length * p.tableau.size :=
  confined.bounded.size_le confined.valid confined.fingerprints

/-- Expanding a node keeps to the fingerprints that are given to it. -/
theorem Confined.expandNode (confined : p.Confined fps) {next : List (Keyed State)}
    (given : ∀ k ∈ next, k.fingerprint ∈ fps) (model : Model State) (s : Session) (id : NodeId) :
    (p.expandNode model s id next).product.Confined fps where
  valid := (within_expandNode confined.valid model s id next).1
  bounded := bounded_expandNode confined.valid confined.bounded model s id next
  fingerprints := by
    intro k has
    rcases (expandNode_from confined.valid id).hasKey has with old | ⟨x, member, rfl⟩
    · exact confined.fingerprints k old
    · exact given _ (given_of_allowed member)

/-- The nodes to do, and the keys that are still free. -/
def ahead (fps : List Fingerprint) (p : Product State) (todo : List NodeId) : Nat :=
  todo.length + (fps.length * p.tableau.size - p.size)

/-- A node that is added takes up a free key, so that less is ahead by the node dealt with. -/
theorem Confined.ahead_lt (confined : q.Confined fps) (grown : p.Within q) {created : List NodeId}
    (adds : p.Adds q created) (id : NodeId) (todo : List NodeId) :
    q.ahead fps (created.reverse ++ todo) < p.ahead fps (id :: todo) := by
  have size := confined.size_le
  have larger := adds.size_le
  rw [grown.tableau] at size
  simp only [ahead, grown.tableau, List.length_append, List.length_reverse, adds.length_eq,
    List.length_cons]
  omega

end Product

namespace Monitor

variable {m : Monitor State} {todo : List NodeId} {fuel : Nat}

theorem mem_of_resolve (confined : m.product.Confined fps)
    (listed : ∀ fp s, feed.state? fp = some s → fp ∈ fps) (next : List Fingerprint) :
    ∀ k ∈ m.resolve feed next, k.fingerprint ∈ fps := by
  intro k member
  obtain ⟨fp, -, found⟩ := List.mem_filterMap.mp member
  obtain ⟨s, stored, rfl⟩ := Option.map_eq_some_iff.mp found
  rcases Option.or_eq_some_iff.mp stored with inProduct | ⟨-, inFeed⟩
  · exact confined.mem_of_state? inProduct
  · exact listed fp s inFeed

/-- What was added is to do before the rest, the latest first. -/
theorem perm_regroup (added todo rest : List NodeId) :
    ((added.reverse ++ todo) ++ rest).Perm (todo ++ (added ++ rest)) := by
  rw [← List.append_assoc]
  have here := (List.reverse_perm added).append_right todo
  exact (here.trans List.perm_append_comm).append_right rest

/-- What settling comes to: nodes were expanded for each time that they were to do, and once where
they were added on the way. -/
structure WorkedOff (fps : List Fingerprint) (m : Monitor State) (todo expanded : List NodeId)
    (m' : Monitor State) : Prop where
  confined : m'.product.Confined fps
  within : m.product.Within m'.product
  expanded : expanded.Subperm (todo ++ m'.product.addedSince m.product.size)

variable {m₁ m' : Monitor State} {id : NodeId} {expanded : List NodeId}

/-- A node of which it is not known what follows is passed over. -/
theorem WorkedOff.skip (worked : WorkedOff fps m todo expanded m') :
    WorkedOff fps m (id :: todo) expanded m' where
  confined := worked.confined
  within := worked.within
  expanded := worked.expanded.trans (List.sublist_cons_self id _).subperm

/-- The nodes that are added when a node is expanded are to be worked off with the rest. -/
theorem WorkedOff.turn {created : List NodeId} (grown : m.product.Within m₁.product)
    (adds : m.product.Adds m₁.product created)
    (worked : WorkedOff fps m₁ (created.reverse ++ todo) expanded m') :
    WorkedOff fps m (id :: todo) (id :: expanded) m' where
  confined := worked.confined
  within := grown.trans worked.within
  expanded := by
    rw [Product.addedSince_append adds.size_le worked.within.size_le, ← adds.created,
      List.cons_append, List.subperm_cons]
    exact worked.expanded.trans (perm_regroup _ _ _).subperm

/-- The loop ends, with what a number of turns comes to that is enough for the nodes to do and the
keys that are free. -/
theorem exists_expanded (model : Model State)
    (listed : ∀ fp s, feed.state? fp = some s → fp ∈ fps) (confined : m.product.Confined fps)
    (enough : m.product.ahead fps todo < fuel) : ∃ expanded,
      settleLoop model feed todo m = some (expanded, settleFrom model feed fuel todo m) ∧
      WorkedOff fps m todo expanded (settleFrom model feed fuel todo m).2 := by
  induction fuel generalizing todo m with
  | zero => simp at enough
  | succ fuel ih =>
    cases todo with
    | nil =>
      refine ⟨[], ?_, confined, .refl _, List.nil_subperm⟩
      rw [settleLoop]
      rfl
    | cons id todo =>
      rw [settleLoop]
      unfold settleFrom
      cases found : (m.product.node? id).bind fun node => m.known[node.key.fingerprint]? with
      | none =>
        have enough' : m.product.ahead fps todo < fuel := by
          simp only [Product.ahead, List.length_cons] at enough ⊢
          omega
        obtain ⟨expanded, looped, worked⟩ := ih confined enough'
        exact ⟨expanded, looped, worked.skip⟩
      | some next =>
        dsimp only
        have given := mem_of_resolve confined listed next
        have grown := (Product.within_expandNode confined.valid model m.session id
          (m.resolve feed next)).2
        have confined' := confined.expandNode given model m.session id
        have adds := @Product.expandNode_adds _ m.product model m.session (m.resolve feed next) id
        generalize m.product.expandNode model m.session id (m.resolve feed next) = growth
          at grown confined' adds
        cases failed : growth.failure with
        | some e =>
          refine ⟨[id], rfl, confined', grown, ?_⟩
          exact List.singleton_subperm_iff.mpr (List.mem_cons_self)
        | none =>
          have less := confined'.ahead_lt grown adds id todo
          have enough' := Nat.lt_of_lt_of_le less (Nat.le_of_lt_succ enough)
          obtain ⟨expanded, looped, worked⟩ := ih
            (m := { m with product := growth.product, session := growth.session }) confined' enough'
          refine ⟨id :: expanded, ?_, worked.turn grown adds⟩
          rw [looped]
          rfl

/-- The loop ends, and any number of turns that is enough comes to the same. -/
theorem settleLoop_ends (valid : m.product.Valid) (bounded : m.product.Bounded)
    (model : Model State) (feed : Feed State) (todo : List NodeId) :
    ∃ expanded failure m', settleLoop model feed todo m = some (expanded, failure, m') ∧
      WorkedOff (m.product.states.keys ++ feed.states.keys) m todo expanded m' ∧
      ∀ fuel, todo.length + (m.product.states.size + feed.stateCount) * m.product.tableau.size <
        fuel → settleFrom model feed fuel todo m = (failure, m') := by
  have confined : m.product.Confined (m.product.states.keys ++ feed.states.keys) := by
    refine ⟨valid, bounded, fun k has => ?_⟩
    obtain ⟨s, stored⟩ := Product.exists_state valid has
    exact List.mem_append_left _ (Product.mem_keys_states stored)
  have listed : ∀ fp s, feed.state? fp = some s →
      fp ∈ m.product.states.keys ++ feed.states.keys := by
    exact fun fp s stored => List.mem_append_right _ (mem_keys_states stored)
  have count : (m.product.states.keys ++ feed.states.keys).length =
      m.product.states.size + feed.stateCount := by
    simp [Feed.stateCount]
  have enough {fuel : Nat} (many : todo.length +
      (m.product.states.size + feed.stateCount) * m.product.tableau.size < fuel) :
      m.product.ahead (m.product.states.keys ++ feed.states.keys) todo < fuel := by
    rw [Product.ahead, count]
    omega
  obtain ⟨expanded, looped, worked⟩ :=
    exists_expanded model listed confined (enough (Nat.lt_succ_self _))
  refine ⟨expanded, _, _, looped, worked, fun fuel many => ?_⟩
  obtain ⟨expanded', looped', -⟩ := exists_expanded model listed confined (enough many)
  exact (Prod.mk.inj (Option.some.inj (looped'.symm.trans looped))).2

end Monitor

/-- Growth ends. The loop that extends a fingerprint visits its nodes once each, and the one that
settles what is to do expands a node once for each time that it is to do, and once if it was added
meanwhile. So there are never more nodes than fingerprints times tableau nodes, and both loops come
to what they are run for with a number of turns. -/
theorem growth_ends (t : Tableau) (calls : List (Product.Call State)) :
    let p := ({ tableau := t } : Product State).grow calls
    p.size ≤ p.states.size * t.size ∧
    (∀ model s source next, ∃ visited,
      Product.extendLoop model source next 0 p s =
          some (visited, p.extend model s source next) ∧
        visited.Nodup ∧ visited <+: (p.extend model s source next).product.nodesOn source ∧
        visited.length ≤ t.size ∧
        ((p.extend model s source next).failure = none →
          visited = (p.extend model s source next).product.nodesOn source)) ∧
    ∀ (m : Monitor State), m.product = p → ∀ model feed todo,
      ∃ expanded failure m', m.settleLoop model feed todo = some (expanded, failure, m') ∧
        expanded.Subperm (todo ++ m'.product.addedSince p.size) ∧
        ((∀ id ∈ todo, id < p.size) → ∀ id, p.size ≤ id → expanded.count id ≤ 1) ∧
        m'.product.size ≤ m'.product.states.size * t.size ∧
        m'.product.size ≤ (p.states.size + feed.stateCount) * t.size ∧
        (∀ fuel, todo.length + (p.states.size + feed.stateCount) * t.size < fuel →
          m.settleFrom model feed fuel todo = (failure, m')) ∧
        ∀ created, todo = created.reverse → m.settle model feed created = (failure, m') := by
  intro p
  have valid : p.Valid := Product.valid_grow t calls
  have bounded : p.Bounded := Product.bounded_grow t calls
  have tableau : p.tableau = t := (Product.built_grow (Product.valid_empty t) calls).within.tableau
  refine ⟨tableau ▸ bounded.size_le_states valid, fun model s source next => ?_, ?_⟩
  · obtain ⟨visited, looped, visits⟩ := Product.exists_visits valid bounded model s source next
    exact ⟨visited, looped, visits.distinct, visits.through, tableau ▸ visits.few, visits.whole⟩
  · rintro m same model feed todo
    rw [← same] at valid bounded tableau ⊢
    obtain ⟨expanded, failure, m', looped, worked, steady⟩ :=
      Monitor.settleLoop_ends valid bounded model feed todo
    have tableau' : m'.product.tableau = t := worked.within.tableau.trans tableau
    have few := worked.confined.bounded.size_le_states worked.confined.valid
    have fits := worked.confined.size_le
    rw [tableau', List.length_append, Std.TreeMap.length_keys, Std.TreeMap.length_keys] at fits
    rw [tableau] at steady
    refine ⟨expanded, failure, m', looped, worked.expanded, fun old id new => ?_, tableau' ▸ few,
      fits, steady, fun created same => ?_⟩
    · have unlisted : todo.count id = 0 :=
        List.count_eq_zero.mpr fun member => absurd (old id member) (Nat.not_lt.mpr new)
      have once := List.nodup_iff_count_le_one.mp
        (List.nodup_range' (s := m.product.size) (n := m'.product.size - m.product.size)) id
      have bound := worked.expanded.count_le id
      rw [List.count_append, unlisted, Nat.zero_add] at bound
      exact bound.trans once
    · rw [Monitor.settle, ← same, tableau]
      exact steady _ (by rw [same, List.length_reverse]; exact Nat.lt_succ_self _)

section Lamp

open Monitor (lamp lampFeed)

/-- A lamp that is off and may go on or stay off. Extending that adds a second node to those it goes
through; settling the first node adds two others, which are settled in their turn. -/
theorem growth_ends_lamp :
    let p := ({ tableau := Product.watched } : Product Bool).grow
      [.extendInitial lamp {} [⟨0, false⟩]]
    let m : Monitor Bool :=
      { name := "lamp", product := p, scanEvery := none, batch := 1
        known := (({} : Std.TreeMap Fingerprint (List Fingerprint)).insert 0 [0, 1]).insert 1 [0] }
    Product.extendLoop lamp 0 [⟨0, false⟩, ⟨1, true⟩] 0 p {} =
        some ([0, 1], p.extend lamp {} 0 [⟨0, false⟩, ⟨1, true⟩]) ∧
      ∃ expanded m', m.settleLoop lamp lampFeed [0] = some (expanded, none, m') ∧
        m'.product.size = 3 ∧ expanded.Subperm [0, 1, 2] := by
  intro p m
  obtain ⟨-, visits, settles⟩ :=
    growth_ends Product.watched [.extendInitial lamp {} [⟨0, false⟩]]
  constructor
  · obtain ⟨visited, looped, -, -, -, whole⟩ := visits lamp {} 0 [⟨0, false⟩, ⟨1, true⟩]
    have done : (p.extend lamp {} 0 [⟨0, false⟩, ⟨1, true⟩]).failure = none := by decide +kernel
    have nodes : (p.extend lamp {} 0 [⟨0, false⟩, ⟨1, true⟩]).product.nodesOn 0 = [0, 1] := by
      decide +kernel
    obtain rfl : visited = [0, 1] := (whole done).trans nodes
    exact looped
  · obtain ⟨expanded, failure, m', looped, among, -, -, -, steady, -⟩ :=
      settles m rfl lamp lampFeed [0]
    have result := steady 100 (by decide +kernel)
    have failed : (m.settleFrom lamp lampFeed 100 [0]).1 = none := by decide +kernel
    have size : (m.settleFrom lamp lampFeed 100 [0]).2.product.size = 3 := by decide +kernel
    rw [result] at failed size
    obtain rfl : failure = none := failed
    dsimp only at size
    have start : p.size = 1 := by decide +kernel
    refine ⟨expanded, m', looped, size, ?_⟩
    rw [Product.addedSince, size, start] at among
    exact among

end Lamp

end TemporalCheck
