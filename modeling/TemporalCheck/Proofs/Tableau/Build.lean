import TemporalCheck.Proofs.Tableau.Expansion
import TemporalCheck.Tableau.Build

/-! What the construction of a tableau guarantees. The nodes reached from a node are the particles
of what it carries to the next position, and the initial ones are the particles of the formula
itself. What is said of a node while the closure still grows stays true, because its members do not
change. -/
namespace TemporalCheck

theorem ok_of_bind_eq_ok {x : Except ε α} {f : α → Except ε β} {b : β}
    (done : (x >>= f) = .ok b) : ∃ a, x = .ok a ∧ f a = .ok b := by
  cases x with
  | error e => contradiction
  | ok a => exact ⟨a, rfl, done⟩

theorem exists_of_forall₂ {R : α → β → Prop} {xs : List α} {ys : List β} {x : α}
    (related : List.Forall₂ R xs ys) (member : x ∈ xs) : ∃ y ∈ ys, R x y := by
  induction related with
  | nil => simp at member
  | cons here _ ih =>
    rcases List.mem_cons.mp member with rfl | later
    · exact ⟨_, List.mem_cons_self, here⟩
    · obtain ⟨y, found, there⟩ := ih later
      exact ⟨y, List.mem_cons_of_mem _ found, there⟩

theorem closed_univ : Closed Set.univ := ⟨fun _ _ _ _ => trivial, fun _ _ => trivial⟩

namespace Tableau

namespace Draft

variable {limit : Nat} {d e : Draft}

structure Within (d e : Draft) : Prop where
  closure : d.closure.Within e.closure
  particles : ∀ (id : TableauId) (p : Particle), d.particles[id]? = some p →
    e.particles[id]? = some p

theorem Within.refl (d : Draft) : d.Within d := ⟨.refl _, fun _ _ at_id => at_id⟩

/-- The ids are places of the particles of a set: each contains it, and every saturated and
consistent set around it includes one of them. -/
structure Leads (d : Draft) (seed : Set NormalForm) (ids : List TableauId) : Prop where
  seeded : ∀ id ∈ ids, ∃ p, d.particles[id]? = some p ∧ seed ⊆ d.closure.members p
  covering : ∀ T, Saturated T → Consistent T → seed ⊆ T →
    ∃ id ∈ ids, ∃ p, d.particles[id]? = some p ∧ Follows ∅ T (d.closure.members p)

/-- The invariant of the construction, with a set that the formulas stay in. -/
structure Sound (limit : Nat) (Γ : Set NormalForm) (d : Draft) : Prop where
  distinct : d.closure.Distinct
  admitted : ∀ p ∈ d.particles, d.closure.Admits p
  saturated : ∀ p ∈ d.particles, Saturated (d.closure.members p)
  consistent : ∀ p ∈ d.particles, Consistent (d.closure.members p)
  inside : ∀ p ∈ d.particles, d.closure.members p ⊆ Γ
  bounded : d.particles.size ≤ limit
  completed : d.successors.size ≤ d.particles.size
  leads : ∀ (id : TableauId) (ids : List TableauId) (p : Particle),
    d.successors[id]? = some ids → d.particles[id]? = some p →
      d.Leads {f | .next f ∈ d.closure.members p} ids

theorem members_within {p : Particle} (within : d.closure.Within e.closure)
    (admitted : ∀ p ∈ d.particles, d.closure.Admits p) {id : TableauId}
    (at_id : d.particles[id]? = some p) : e.closure.members p = d.closure.members p :=
  Closure.members_within (admitted p (Array.mem_of_getElem? at_id)) within

theorem Leads.within {seed : Set NormalForm} {ids : List TableauId} (leads : d.Leads seed ids)
    (within : d.Within e) (admitted : ∀ p ∈ d.particles, d.closure.Admits p) :
    e.Leads seed ids where
  seeded := by
    intro id member
    obtain ⟨p, at_id, subset⟩ := leads.seeded id member
    refine ⟨p, within.particles id p at_id, ?_⟩
    rwa [members_within within.closure admitted at_id]
  covering := by
    intro T saturated consistent subset
    obtain ⟨id, member, p, at_id, follows⟩ := leads.covering T saturated consistent subset
    refine ⟨id, member, p, within.particles id p at_id, ?_⟩
    rwa [members_within within.closure admitted at_id]

structure Placed (limit : Nat) (d : Draft) (ps : List Particle) (ids : List TableauId)
    (e : Draft) : Prop where
  closure : e.closure = d.closure
  successors : e.successors = d.successors
  particles : ∀ (id : TableauId) (p : Particle), d.particles[id]? = some p →
    e.particles[id]? = some p
  placed : List.Forall₂ (fun id p => e.particles[id]? = some p) ids ps
  origin : ∀ p ∈ e.particles, p ∈ d.particles ∨ p ∈ ps
  grown : d.particles.size ≤ e.particles.size
  bounded : d.particles.size ≤ limit → e.particles.size ≤ limit

theorem place_placed {p : Particle} {id : TableauId} (done : d.place limit p = .ok (id, e)) :
    Placed limit d [p] [id] e := by
  unfold place at done
  split at done
  · next j found =>
    cases done
    refine ⟨rfl, rfl, fun _ _ at_id => at_id, .cons (getElem?_of_idxOf? found) .nil,
      fun _ member => .inl member, le_rfl, fun bound => bound⟩
  · split at done
    · next room =>
      cases done
      refine ⟨rfl, rfl, ?_, .cons (by simp) .nil, ?_, by simp, fun _ => by simpa using room⟩
      · intro id q at_id
        obtain ⟨bound, value⟩ := Array.getElem?_eq_some_iff.mp at_id
        simp [Array.getElem?_push_lt bound, value]
      · intro q member
        simpa using Array.mem_push.mp member
    · contradiction

theorem placeAll_placed {ps : List Particle} {ids : List TableauId}
    (done : d.placeAll limit ps = .ok (ids, e)) : Placed limit d ps ids e := by
  induction ps generalizing d ids e with
  | nil =>
    cases done
    exact ⟨rfl, rfl, fun _ _ at_id => at_id, .nil, fun _ member => .inl member, le_rfl,
      fun bound => bound⟩
  | cons p ps ih =>
    obtain ⟨⟨id, d₁⟩, first, done⟩ := ok_of_bind_eq_ok done
    obtain ⟨⟨rest, d₂⟩, later, done⟩ := ok_of_bind_eq_ok done
    cases done
    have here := place_placed first
    have there := ih later
    obtain ⟨at_id, _⟩ := List.forall₂_cons.mp here.placed
    refine ⟨there.closure.trans here.closure, there.successors.trans here.successors,
      fun id p at_id => there.particles id p (here.particles id p at_id),
      .cons (there.particles id p at_id) there.placed, ?_, here.grown.trans there.grown,
      fun bound => there.bounded (here.bounded bound)⟩
    intro q member
    rcases there.origin q member with earlier | new
    · rcases here.origin q earlier with old | new
      · exact .inl old
      · exact .inr (by simpa using .inl (List.mem_singleton.mp new))
    · exact .inr (List.mem_cons_of_mem p new)

/-- Placing the particles of a seed keeps the invariant and leads to them. -/
theorem placeSeed_sound {Γ : Set NormalForm} (closed : Closed Γ) {seed : List NormalForm}
    {ids : List TableauId} (sound : d.Sound limit Γ) (wanted : ∀ f ∈ seed, f ∈ Γ)
    (done : d.placeSeed limit seed = .ok (ids, e)) :
    d.Within e ∧ e.Sound limit Γ ∧ e.successors = d.successors ∧ e.Leads {f | f ∈ seed} ids := by
  unfold placeSeed at done
  have spec := Closure.particles_spec sound.distinct seed
  generalize d.closure.particles seed = result at done spec
  obtain ⟨found, closure⟩ := result
  have placed := placeAll_placed done
  obtain ⟨closure', particles, successors⟩ := e
  obtain rfl : closure' = closure := placed.closure
  obtain rfl : successors = d.successors := placed.successors
  have within : d.Within ⟨closure', particles, d.successors⟩ := ⟨spec.within, placed.particles⟩
  have old {p : Particle} (member : p ∈ d.particles) :
      closure'.members p = d.closure.members p :=
    Closure.members_within (sound.admitted p member) spec.within
  refine ⟨within, ?_, rfl, ?_, ?_⟩
  · constructor
    · exact spec.distinct
    · intro p member
      rcases placed.origin p member with earlier | new
      · exact (sound.admitted p earlier).within spec.within
      · exact spec.admitted p new
    · intro p member
      rcases placed.origin p member with earlier | new
      · exact old earlier ▸ sound.saturated p earlier
      · exact spec.saturated p new
    · intro p member
      rcases placed.origin p member with earlier | new
      · exact old earlier ▸ sound.consistent p earlier
      · exact spec.consistent p new
    · intro p member
      rcases placed.origin p member with earlier | new
      · exact old earlier ▸ sound.inside p earlier
      · exact spec.inside Γ closed wanted p new
    · exact placed.bounded sound.bounded
    · exact sound.completed.trans placed.grown
    · intro id ids p completed at_id
      obtain ⟨bound, _⟩ := Array.getElem?_eq_some_iff.mp completed
      have bound := Nat.lt_of_lt_of_le bound sound.completed
      have earlier : d.particles[id]? = some d.particles[id] := Array.getElem?_eq_getElem bound
      obtain rfl := Option.some.inj ((placed.particles id _ earlier).symm.trans at_id)
      have leads := (sound.leads id ids _ completed earlier).within within sound.admitted
      rwa [← old (Array.mem_of_getElem? earlier)] at leads
  · intro id member
    obtain ⟨p, found, at_id⟩ := exists_of_forall₂ placed.placed member
    exact ⟨p, at_id, fun f member => spec.seeded p found f member⟩
  · intro T saturated consistent subset
    obtain ⟨p, found, follows⟩ := spec.covering T saturated consistent subset
    obtain ⟨id, member, at_id⟩ := exists_of_forall₂ placed.placed.flip found
    exact ⟨id, member, p, at_id, follows⟩

/-- Nothing is drafted yet for a formula. -/
theorem sound_start (limit : Nat) (Γ : Set NormalForm) (f : NormalForm) :
    Sound limit Γ { closure := ((⟨#[]⟩ : Closure).intern f).2 } := by
  refine ⟨Closure.distinct_intern f Closure.distinct_empty, ?_, ?_, ?_, ?_, ?_, ?_, ?_⟩
  all_goals simp

theorem Sound.carried {Γ : Set NormalForm} (closed : Closed Γ) (sound : d.Sound limit Γ)
    {id : TableauId} {p : Particle} (at_id : d.particles[id]? = some p) :
    ∀ f ∈ d.closure.carried p, f ∈ Γ := fun f carried =>
  closed.next f (sound.inside p (Array.mem_of_getElem? at_id) (Closure.mem_carried.mp carried))

/-- Working out the successors of one more node keeps the invariant. -/
theorem Sound.push {Γ : Set NormalForm} (closed : Closed Γ) (sound : d.Sound limit Γ)
    {p : Particle} {ids : List TableauId} (at_id : d.particles[d.successors.size]? = some p)
    (placed : d.placeSeed limit (d.closure.carried p) = .ok (ids, e)) :
    d.Within e ∧ Sound limit Γ { e with successors := e.successors.push ids } ∧
      e.successors = d.successors := by
  obtain ⟨within, sound', same, leads⟩ :=
    placeSeed_sound closed sound (sound.carried closed at_id) placed
  have at_id' := within.particles _ p at_id
  have carried : {f | f ∈ d.closure.carried p} = {f | .next f ∈ e.closure.members p} := by
    ext f
    rw [members_within within.closure sound.admitted at_id]
    exact Closure.mem_carried
  rw [carried] at leads
  refine ⟨within, { sound' with completed := ?_, leads := ?_ }, same⟩
  · obtain ⟨bound, _⟩ := Array.getElem?_eq_some_iff.mp at_id'
    simpa [same] using bound
  · intro id later q completed at_q
    rw [Array.getElem?_push] at completed
    split at completed
    · next last =>
      subst last
      obtain rfl := Option.some.inj completed
      rw [same] at at_q
      obtain rfl := Option.some.inj (at_id'.symm.trans at_q)
      exact ⟨leads.seeded, leads.covering⟩
    · have earlier := sound'.leads id later q completed at_q
      exact ⟨earlier.seeded, earlier.covering⟩

theorem complete_of_none {fuel : Nat} (ended : d.particles[d.successors.size]? = none) :
    complete limit fuel d = .ok d := by
  cases fuel with
  | zero => rfl
  | succ fuel => simp only [complete, ended]

/-- A turn of the construction finds all nodes dealt with, or places the successors of the next. -/
theorem complete_cases {fuel : Nat} (done : complete limit (fuel + 1) d = .ok e) :
    (d.particles[d.successors.size]? = none ∧ d = e) ∨
    ∃ p ids d', d.particles[d.successors.size]? = some p ∧
      d.placeSeed limit (d.closure.carried p) = .ok (ids, d') ∧
      complete limit fuel { d' with successors := d'.successors.push ids } = .ok e := by
  cases at_id : d.particles[d.successors.size]? with
  | none => exact .inl ⟨rfl, Except.ok.inj ((complete_of_none at_id).symm.trans done)⟩
  | some p =>
    simp only [complete, at_id] at done
    obtain ⟨⟨ids, d'⟩, placed, done⟩ := ok_of_bind_eq_ok done
    exact .inr ⟨p, ids, d', rfl, placed, done⟩

/-- The construction keeps its invariant, and ends with the successors of every node: there is fuel
for as many nodes as the limit allows. -/
theorem complete_sound {Γ : Set NormalForm} (closed : Closed Γ) {fuel : Nat}
    (sound : d.Sound limit Γ) (done : complete limit fuel d = .ok e)
    (enough : limit ≤ d.successors.size + fuel) :
    d.Within e ∧ e.Sound limit Γ ∧ e.particles.size = e.successors.size := by
  induction fuel generalizing d with
  | zero =>
    cases done
    have := sound.bounded
    have := sound.completed
    exact ⟨.refl _, sound, by omega⟩
  | succ fuel ih =>
    obtain ⟨ended, rfl⟩ | ⟨p, ids, d', at_id, placed, done⟩ := complete_cases done
    · have := Array.getElem?_eq_none_iff.mp ended
      have := sound.completed
      exact ⟨.refl _, sound, by omega⟩
    · obtain ⟨within, pushed, same⟩ := sound.push closed at_id placed
      obtain ⟨within₂, sound₂, full⟩ := ih pushed done (by simp [same]; omega)
      exact ⟨⟨within.closure.trans within₂.closure, fun id q at_q =>
        within₂.particles id q (within.particles id q at_q)⟩, sound₂, full⟩

end Draft

def members (t : Tableau) (node : Node) : Set NormalForm := t.closure.members node.particle

/-- Whether a node fulfils the promise to make `f` true at last. -/
def Keeps (t : Tableau) (f : NormalForm) (node : Node) : Prop :=
  f ∈ t.members node ∨ .eventually f ∉ t.members node

structure Faithful (t : Tableau) : Prop where
  saturated : ∀ node ∈ t.nodes, Saturated (t.members node)
  consistent : ∀ node ∈ t.nodes, Consistent (t.members node)
  inside : ∀ Γ, Closed Γ → t.negated ∈ Γ → ∀ node ∈ t.nodes, t.members node ⊆ Γ
  state : ∀ node ∈ t.nodes, ∀ l, l ∈ node.state ↔ .state l ∈ t.members node
  action : ∀ node ∈ t.nodes, ∀ l, l ∈ node.action ↔ .action l ∈ t.members node
  initialSeeded : ∀ id ∈ t.initial, ∃ node, t.nodes[id]? = some node ∧ t.negated ∈ t.members node
  initialCovering : ∀ T, Saturated T → Consistent T → t.negated ∈ T →
    ∃ id ∈ t.initial, ∃ node, t.nodes[id]? = some node ∧ Follows ∅ T (t.members node)
  nextSeeded : ∀ node ∈ t.nodes, ∀ id ∈ node.successors, ∃ next, t.nodes[id]? = some next ∧
    ∀ f, .next f ∈ t.members node → f ∈ t.members next
  nextCovering : ∀ node ∈ t.nodes, ∀ T, Saturated T → Consistent T →
    (∀ f, .next f ∈ t.members node → f ∈ T) →
      ∃ id ∈ node.successors, ∃ next, t.nodes[id]? = some next ∧ Follows ∅ T (t.members next)
  promise : ∀ i < t.promises.length, ∃ f, ∀ node ∈ t.nodes, i ∈ node.fulfils ↔ t.Keeps f node
  promised : ∀ node ∈ t.nodes, ∀ f, .eventually f ∈ t.members node →
    ∃ i < t.promises.length, ∀ node ∈ t.nodes, i ∈ node.fulfils ↔ t.Keeps f node

section Nodes

variable {c : Closure} {p : Particle} {promises : List FormulaId} {ids : List TableauId}

theorem mem_nodeOf_state (l : Literal) :
    l ∈ (nodeOf c promises p ids).state ↔ .state l ∈ c.members p := by
  simp only [nodeOf, List.mem_filterMap]
  constructor
  · rintro ⟨id, member, asked⟩
    split at asked
    · next found =>
      obtain rfl := Option.some.inj asked
      exact ⟨id, member, found⟩
    · contradiction
  · rintro ⟨id, member, found⟩
    exact ⟨id, member, by simp [found]⟩

theorem mem_nodeOf_action (l : Literal) :
    l ∈ (nodeOf c promises p ids).action ↔ .action l ∈ c.members p := by
  simp only [nodeOf, List.mem_filterMap]
  constructor
  · rintro ⟨id, member, asked⟩
    split at asked
    · next found =>
      obtain rfl := Option.some.inj asked
      exact ⟨id, member, found⟩
    · contradiction
  · rintro ⟨id, member, found⟩
    exact ⟨id, member, by simp [found]⟩

theorem formula?_of_mem_promises {id : FormulaId} :
    id ∈ c.promises ↔ ∃ f, c.formula? id = some (.eventually f) := by
  simp only [Closure.promises, List.mem_filter, List.mem_range]
  constructor
  · rintro ⟨_, eventuality⟩
    split at eventuality
    · next f found => exact ⟨f, found⟩
    · contradiction
  · rintro ⟨f, found⟩
    obtain ⟨bound, _⟩ := Array.getElem?_eq_some_iff.mp found
    exact ⟨bound, by simp [found]⟩

theorem mem_fulfilment {f : NormalForm} {i : Nat} {promise : FormulaId} (distinct : c.Distinct)
    (at_i : promises[i]? = some promise) (found : c.formula? promise = some (.eventually f)) :
    i ∈ fulfilment c promises p ↔ f ∈ c.members p ∨ .eventually f ∉ c.members p := by
  obtain ⟨bound, _⟩ := List.getElem?_eq_some_iff.mp at_i
  have promised := Closure.contains_iff_mem_members distinct found p
  have body : ((c.children promise).any fun id => p.contains id) = true ↔ f ∈ c.members p := by
    simp only [Closure.children, found, NormalForm.children]
    cases numbered : c.idOf? f with
    | none =>
      have absent : f ∉ c.members p := by
        rintro ⟨id, _, at_id⟩
        rw [(Closure.idOf?_eq_some_iff distinct).mpr at_id] at numbered
        contradiction
      simp [numbered, absent]
    | some id =>
      have := Closure.contains_iff_mem_members distinct (Closure.formula?_of_idOf? numbered) p
      simpa [numbered] using this
  simp only [fulfilment, List.mem_filter, List.mem_range, at_i, Bool.or_eq_true,
    Bool.not_eq_true']
  rw [body, ← promised, Bool.not_eq_true]
  exact ⟨fun h => h.2.symm, fun h => ⟨bound, h.symm⟩⟩

end Nodes

/-- The nodes of a draft are those of its particles, with the places of their edges. -/
theorem getElem?_layOut_nodes {d : Draft} {id : TableauId} {node : Node} :
    (layOut d.nodes).1[id]? = some node ↔
      ∃ p ids, d.particles[id]? = some p ∧ d.successors[id]? = some ids ∧
        node = (nodeOf d.closure d.closure.promises p ids).placed d.nodes id := by
  rw [getElem?_layOut, Option.map_eq_some_iff, Draft.nodes, Array.getElem?_zipWith]
  constructor
  · rintro ⟨old, found, rfl⟩
    split at found
    · next p ids atP atIds =>
      obtain rfl := Option.some.inj found
      exact ⟨p, ids, atP, atIds, rfl⟩
    · contradiction
  · rintro ⟨p, ids, atP, atIds, rfl⟩
    simp [atP, atIds]

/-- A finished draft becomes a faithful tableau. -/
theorem faithful_of_draft {d : Draft} {limit : Nat} {property : Formula} {negated : NormalForm}
    {initial : List TableauId} (sound : ∀ Γ, Closed Γ → negated ∈ Γ → d.Sound limit Γ)
    (full : d.particles.size = d.successors.size) (leads : d.Leads {negated} initial) :
    Faithful (ofNodes property negated d.closure d.nodes initial d.closure.promises) := by
  have inside := sound
  replace sound := sound Set.univ closed_univ trivial
  have origin {node : Node} (member : node ∈ (layOut d.nodes).1) :
      ∃ (id : TableauId) (p : Particle) (ids : List TableauId), d.particles[id]? = some p ∧
        d.successors[id]? = some ids ∧
        node = (nodeOf d.closure d.closure.promises p ids).placed d.nodes id := by
    obtain ⟨id, _, at_id⟩ := Array.mem_iff_getElem.mp member
    exact ⟨id, getElem?_layOut_nodes.mp (at_id ▸ Array.getElem?_eq_getElem _)⟩
  have place {id : TableauId} {p : Particle} (atP : d.particles[id]? = some p) :
      ∃ node, (layOut d.nodes).1[id]? = some node ∧ node.particle = p := by
    obtain ⟨bound, _⟩ := Array.getElem?_eq_some_iff.mp atP
    have atIds := Array.getElem?_eq_getElem (full ▸ bound)
    exact ⟨_, getElem?_layOut_nodes.mpr ⟨p, _, atP, atIds, rfl⟩, rfl⟩
  constructor
  case saturated =>
    intro node member
    obtain ⟨id, p, ids, atP, _, rfl⟩ := origin member
    exact sound.saturated p (Array.mem_of_getElem? atP)
  case consistent =>
    intro node member
    obtain ⟨id, p, ids, atP, _, rfl⟩ := origin member
    exact sound.consistent p (Array.mem_of_getElem? atP)
  case inside =>
    intro Γ closed inΓ node member
    obtain ⟨id, p, ids, atP, _, rfl⟩ := origin member
    exact (inside Γ closed inΓ).inside p (Array.mem_of_getElem? atP)
  case state =>
    intro node member l
    obtain ⟨id, p, ids, atP, _, rfl⟩ := origin member
    change l ∈ (nodeOf d.closure d.closure.promises p ids).state ↔ _
    exact mem_nodeOf_state l
  case action =>
    intro node member l
    obtain ⟨id, p, ids, atP, _, rfl⟩ := origin member
    change l ∈ (nodeOf d.closure d.closure.promises p ids).action ↔ _
    exact mem_nodeOf_action l
  case initialSeeded =>
    intro id member
    obtain ⟨p, atP, subset⟩ := leads.seeded id member
    obtain ⟨node, at_id, rfl⟩ := place atP
    exact ⟨node, at_id, subset rfl⟩
  case initialCovering =>
    intro T saturated consistent inT
    obtain ⟨id, member, p, atP, follows⟩ :=
      leads.covering T saturated consistent (Set.singleton_subset_iff.mpr inT)
    obtain ⟨node, at_id, rfl⟩ := place atP
    exact ⟨id, member, node, at_id, follows⟩
  case nextSeeded =>
    intro node member next successor
    obtain ⟨id, p, ids, atP, atIds, rfl⟩ := origin member
    obtain ⟨q, atQ, subset⟩ := (sound.leads id ids p atIds atP).seeded next successor
    obtain ⟨target, at_next, rfl⟩ := place atQ
    exact ⟨target, at_next, fun f carried => subset carried⟩
  case nextCovering =>
    intro node member T saturated consistent wanted
    obtain ⟨id, p, ids, atP, atIds, rfl⟩ := origin member
    obtain ⟨next, successor, q, atQ, follows⟩ :=
      (sound.leads id ids p atIds atP).covering T saturated consistent wanted
    obtain ⟨target, at_next, rfl⟩ := place atQ
    exact ⟨next, successor, target, at_next, follows⟩
  case promise =>
    intro i bound
    obtain ⟨f, found⟩ := formula?_of_mem_promises.mp (List.getElem_mem bound)
    refine ⟨f, fun node member => ?_⟩
    obtain ⟨id, p, ids, _, _, rfl⟩ := origin member
    exact mem_fulfilment sound.distinct (List.getElem?_eq_getElem bound) found
  case promised =>
    rintro node - f ⟨promise, _, found⟩
    obtain ⟨i, bound, at_i⟩ := List.getElem_of_mem (formula?_of_mem_promises.mpr ⟨f, found⟩)
    refine ⟨i, bound, fun node member => ?_⟩
    obtain ⟨id, p, ids, _, _, rfl⟩ := origin member
    exact mem_fulfilment sound.distinct (at_i ▸ List.getElem?_eq_getElem bound) found

theorem ofNormalForm_faithful {limit : Nat} {property : Formula} {negated : NormalForm}
    {t : Tableau} (built : ofNormalForm limit property negated = .ok t) :
    t.Faithful ∧ t.negated = negated := by
  unfold ofNormalForm at built
  obtain ⟨⟨initial, d⟩, placed, built⟩ := ok_of_bind_eq_ok built
  obtain ⟨e, completed, built⟩ := ok_of_bind_eq_ok built
  cases built
  have start (Γ : Set NormalForm) := Draft.sound_start limit Γ negated
  have sound : ∀ Γ, Closed Γ → negated ∈ Γ → d.Sound limit Γ ∧ e.Sound limit Γ := by
    intro Γ closed inΓ
    obtain ⟨_, sound, _, _⟩ := Draft.placeSeed_sound closed (start Γ) (by simpa using inΓ) placed
    exact ⟨sound, (Draft.complete_sound closed sound completed (by omega)).2.1⟩
  obtain ⟨_, placedSound, _, leads⟩ :=
    Draft.placeSeed_sound closed_univ (start Set.univ) (by simp) placed
  obtain ⟨within, _, full⟩ := Draft.complete_sound closed_univ placedSound completed (by omega)
  have leads₂ := leads.within within placedSound.admitted
  simp only [List.mem_singleton] at leads₂
  exact ⟨faithful_of_draft (fun Γ closed inΓ => (sound Γ closed inΓ).2) full leads₂, rfl⟩

end Tableau
end TemporalCheck
