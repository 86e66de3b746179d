import TemporalCheck.Proofs.Digraph.Reach
import TemporalCheck.Proofs.Tableau.Parts

/-! The shape of a tableau. Its nodes are distinct particles, numbered in the order in which a
breadth-first search comes across them. What is said here of the closure is said of the finished
one, although the particles were worked out while it still grew. -/
namespace TemporalCheck.Tableau

theorem nodup_push {xs : Array α} {x : α} (distinct : xs.toList.Nodup) (new : x ∉ xs) :
    (xs.push x).toList.Nodup := by
  rw [Array.toList_push]
  exact distinct.append (List.nodup_singleton x) (by simpa using new)

namespace Draft

variable {limit : Nat} {d e : Draft} {p : Particle} {ps : List Particle} {id : TableauId}
  {ids initial met : List TableauId} {seed : List NormalForm} {Γ : Set NormalForm}

theorem place_cases (done : d.place limit p = .ok (id, e)) :
    (id < d.particles.size ∧ e = d) ∨ (id = d.particles.size ∧ p ∉ d.particles ∧
      e = { d with particles := d.particles.push p }) := by
  unfold place at done
  split at done
  · next found =>
    cases done
    exact .inl ⟨(Array.getElem?_eq_some_iff.mp (getElem?_of_idxOf? found)).1, rfl⟩
  · next missing =>
    split at done
    · cases done
      exact .inr ⟨rfl, by simpa using missing, rfl⟩
    · contradiction

theorem nodup_placeAll (done : d.placeAll limit ps = .ok (ids, e))
    (distinct : d.particles.toList.Nodup) : e.particles.toList.Nodup := by
  induction ps generalizing d ids e with
  | nil =>
    cases done
    exact distinct
  | cons p ps ih =>
    obtain ⟨⟨id, d₁⟩, first, done⟩ := ok_of_bind_eq_ok done
    obtain ⟨⟨rest, d₂⟩, later, done⟩ := ok_of_bind_eq_ok done
    cases done
    refine ih later ?_
    rcases place_cases first with ⟨_, rfl⟩ | ⟨_, new, rfl⟩
    · exact distinct
    · exact nodup_push distinct new

/-- New nodes are numbered in the order in which they are come across. -/
theorem order_placeAll (done : d.placeAll limit ps = .ok (ids, e))
    (order : met.eraseDups = List.range d.particles.size) :
    (met ++ ids).eraseDups = List.range e.particles.size := by
  induction ps generalizing d ids e met with
  | nil =>
    cases done
    rwa [List.append_nil]
  | cons p ps ih =>
    obtain ⟨⟨id, d₁⟩, first, done⟩ := ok_of_bind_eq_ok done
    obtain ⟨⟨rest, d₂⟩, later, done⟩ := ok_of_bind_eq_ok done
    cases done
    have known : id ∈ met ↔ id < d.particles.size := by
      rw [← List.mem_eraseDups, order, List.mem_range]
    have here : (met ++ [id]).eraseDups = List.range d₁.particles.size := by
      rw [eraseDups_concat]
      rcases place_cases first with ⟨old, rfl⟩ | ⟨rfl, -, rfl⟩
      · rw [if_pos (known.mpr old), order]
      · rw [if_neg (by simp [known]), order, Array.size_push, List.range_succ]
    simpa using ih later here

theorem mem_of_order {n m : Nat} (order : met.eraseDups = List.range n)
    (later : (met ++ ids).eraseDups = List.range m) (new : n ≤ id) (bound : id < m) :
    id ∈ ids := by
  have found : id ∈ met ++ ids := by rwa [← List.mem_eraseDups, later, List.mem_range]
  have unmet : id ∉ met := by rwa [← List.mem_eraseDups, order, List.mem_range, Nat.not_lt]
  exact (List.mem_append.mp found).resolve_left unmet

/-- The ids are the places of the particles of a seed, and will be in every later closure. -/
def Lists (d : Draft) (seed : List NormalForm) (ids : List TableauId) : Prop :=
  ∀ c : Closure, c.Distinct → d.closure.Within c →
    ids.map (d.particles[·]?) = (c.particles seed).1.map some ∧ (c.particles seed).2 = c

theorem Lists.within (lists : d.Lists seed ids) (within : d.Within e) : e.Lists seed ids := by
  intro c distinct later
  obtain ⟨places, same⟩ := lists c distinct (within.closure.trans later)
  refine ⟨?_, same⟩
  rw [← places]
  refine List.map_congr_left fun id member => ?_
  have listed : d.particles[id]? ∈ (c.particles seed).1.map some :=
    places ▸ List.mem_map_of_mem member
  obtain ⟨p, _, at_id⟩ := List.mem_map.mp listed
  rw [← at_id]
  exact within.particles id p at_id.symm

theorem placeSeed_placed (done : d.placeSeed limit seed = .ok (ids, e)) :
    Placed limit { d with closure := (d.closure.particles seed).2 }
      (d.closure.particles seed).1 ids e :=
  placeAll_placed done

theorem placeSeed_lists (distinct : d.closure.Distinct)
    (done : d.placeSeed limit seed = .ok (ids, e)) : e.Lists seed ids := by
  intro c later within
  have placed := placeSeed_placed done
  have closure : e.closure = (d.closure.particles seed).2 := placed.closure
  rw [Closure.particles_again distinct later (closure ▸ within)]
  have places := List.forall₂_map_left_iff.mpr (List.forall₂_map_right_iff.mpr placed.placed)
  exact ⟨(congrFun₂ List.forall₂_eq_eq_eq _ _).mp places, rfl⟩

structure Charted (limit : Nat) (Γ : Set NormalForm) (initial : List TableauId) (d : Draft) :
    Prop where
  sound : d.Sound limit Γ
  listed : d.closure.listed ⊆ Γ
  distinct : d.particles.toList.Nodup
  order : (initial ++ d.successors.toList.flatten).eraseDups = List.range d.particles.size
  earlier : ∀ id < d.particles.size, id ∈ initial ∨
    ∃ j < id, ∃ ids, d.successors[j]? = some ids ∧ id ∈ ids
  joined : ∀ (j : Nat) (ids : List TableauId) (p : Particle), d.successors[j]? = some ids →
    d.particles[j]? = some p → d.Lists (d.closure.carried p) ids

/-- The first nodes are the particles of the formula. -/
theorem charted_start (closed : Closed Γ) (sound : d.Sound limit Γ) (listed : d.closure.listed ⊆ Γ)
    (empty : d.particles = #[]) (unknown : d.successors = #[]) (wanted : ∀ f ∈ seed, f ∈ Γ)
    (done : d.placeSeed limit seed = .ok (ids, e)) : e.Charted limit Γ ids := by
  obtain ⟨_, sound', same, _⟩ := placeSeed_sound closed sound wanted done
  have closure : e.closure = (d.closure.particles seed).2 := (placeSeed_placed done).closure
  have none : ([] : List TableauId).eraseDups = List.range d.particles.size := by simp [empty]
  have order : ids.eraseDups = List.range e.particles.size := order_placeAll done none
  rw [unknown] at same
  constructor
  case sound => exact sound'
  case listed => exact closure ▸ Closure.listed_particles closed listed wanted
  case distinct => exact nodup_placeAll done (by simp [empty])
  case order => simpa [same] using order
  case earlier =>
    intro id bound
    rw [← List.mem_range, ← order, List.mem_eraseDups] at bound
    exact .inl bound
  case joined => simp [same]

/-- Working out the successors of one more node adds the nodes that have not been come across. -/
theorem Charted.push (closed : Closed Γ) (charted : d.Charted limit Γ initial)
    (at_id : d.particles[d.successors.size]? = some p)
    (done : d.placeSeed limit (d.closure.carried p) = .ok (ids, e)) :
    Charted limit Γ initial { e with successors := e.successors.push ids } := by
  obtain ⟨sound, listed, distinct, order, earlier, joined⟩ := charted
  obtain ⟨within, sound', same⟩ := sound.push closed at_id done
  have closure : e.closure = (d.closure.particles (d.closure.carried p)).2 :=
    (placeSeed_placed done).closure
  have wanted := sound.carried closed at_id
  have distinct' := nodup_placeAll done distinct
  have order' := order_placeAll done order
  constructor
  case sound => exact sound'
  case listed => exact closure ▸ Closure.listed_particles closed listed wanted
  case distinct => exact distinct'
  case order => simpa [same] using order'
  case earlier =>
    intro id bound
    have here : d.successors.size < d.particles.size := (Array.getElem?_eq_some_iff.mp at_id).1
    by_cases old : id < d.particles.size
    · refine (earlier id old).imp_right ?_
      rintro ⟨j, before, ids', at_j, member⟩
      have room := (Array.getElem?_eq_some_iff.mp at_j).1
      refine ⟨j, before, ids', ?_, member⟩
      rwa [same, Array.getElem?_push, if_neg room.ne]
    · -- what is new was first mentioned by the node whose successors were worked out
      have member := mem_of_order order order' (Nat.not_lt.mp old) bound
      exact .inr ⟨d.successors.size, by omega, ids, by simp [same], member⟩
  case joined =>
    intro j ids' q completed at_j
    change e.particles[j]? = some q at at_j
    change e.Lists (e.closure.carried q) ids'
    have here : d.successors.size < d.particles.size := (Array.getElem?_eq_some_iff.mp at_id).1
    have bound : j < d.successors.size + 1 := by
      simpa [same] using (Array.getElem?_eq_some_iff.mp completed).1
    have known : d.particles[j]? = some q := by
      have room : j < d.particles.size := by omega
      have before := Array.getElem?_eq_getElem room
      exact before.trans ((within.particles j _ before).symm.trans at_j)
    -- a particle carries on the same in the closure as it was when its successors were worked out
    rw [Closure.carried_within (sound.admitted q (Array.mem_of_getElem? known)) within.closure]
    rw [same, Array.getElem?_push] at completed
    split at completed
    · next last =>
      subst last
      obtain rfl := Option.some.inj completed
      obtain rfl := Option.some.inj (at_id.symm.trans known)
      exact placeSeed_lists sound.distinct done
    · exact (joined j ids' q completed known).within within

theorem complete_charted (closed : Closed Γ) {fuel : Nat} (charted : d.Charted limit Γ initial)
    (done : complete limit fuel d = .ok e) : e.Charted limit Γ initial := by
  induction fuel generalizing d with
  | zero =>
    cases done
    exact charted
  | succ fuel ih =>
    obtain ⟨-, rfl⟩ | ⟨p, ids, d', at_id, placed, done⟩ := complete_cases done
    · exact charted
    · exact ih (charted.push closed at_id placed) done

end Draft

def particle? (t : Tableau) (id : TableauId) : Option Particle := t.nodes[id]?.map (·.particle)

def digraph (t : Tableau) : Digraph := ⟨t.nodes.map (·.successors)⟩

def edgesBefore (t : Tableau) (id : TableauId) : Nat :=
  ((t.nodes.toList.take id).map (·.successors.length)).sum

/-- The ids are the nodes of the particles of a seed, each once and in their order. The closure has
all that it takes to work the particles out. -/
structure Lists (t : Tableau) (seed : List NormalForm) (ids : List TableauId) : Prop where
  distinct : ids.Nodup
  particles : ids.map t.particle? = (t.closure.particles seed).1.map some
  finished : (t.closure.particles seed).2 = t.closure

structure Shaped (t : Tableau) : Prop where
  distinct : (t.nodes.toList.map (·.particle)).Nodup
  admitted : ∀ node ∈ t.nodes, t.closure.Admits node.particle
  possible : ∀ node ∈ t.nodes, .const false ∉ t.members node
  consistent : ∀ node ∈ t.nodes, Consistent (t.members node)
  initial : t.initial = List.range t.initial.length ∧ t.Lists [t.negated] t.initial
  /-- Nodes are numbered when they are first mentioned, as initial nodes or as successors. -/
  order : (t.initial ++ t.nodes.toList.flatMap (·.successors)).eraseDups = List.range t.size
  earlier : ∀ id < t.size, id ∈ t.initial ∨
    ∃ j < id, ∃ node, t.nodes[j]? = some node ∧ id ∈ node.successors
  reached : ∀ id < t.size, t.digraph.Reached t.initial id
  successors : ∀ node ∈ t.nodes, t.Lists (t.closure.carried node.particle) node.successors
  state : ∀ node ∈ t.nodes, ∀ l, l ∈ node.state ↔ .state l ∈ t.members node
  action : ∀ node ∈ t.nodes, ∀ l, l ∈ node.action ↔ .action l ∈ t.members node
  edges : ∀ id node, t.nodes[id]? = some node → List.Forall₂ (fun next edge => ∃ target,
    t.nodes[next]? = some target ∧ edge = ⟨id, next, ⟨node.action, target.state⟩⟩)
      node.successors (t.edgesFrom id)
  /-- All edges stand in one list, those of a node behind those of the nodes before it. -/
  places : ∀ id node, t.nodes[id]? = some node →
    node.start = t.edgesBefore id ∧ node.stop = t.edgesBefore id + node.successors.length
  slices : ∀ id node, t.nodes[id]? = some node →
    t.edgesFrom id = (t.edges.drop (t.edgesBefore id)).take node.successors.length
  whole : t.edges = (List.range t.size).flatMap t.edgesFrom
  promises : (t.promises.map fun id => (t.closure.formula? id).map (·.toFormula)).Perm
    (t.negated.toFormula.promises.map some)
  fulfils : ∀ id node i promise f, t.nodes[id]? = some node → t.promises[i]? = some promise →
    t.closure.formula? promise = some (.eventually f) → (t.fulfils id i = true ↔ t.Keeps f node)

section Edges

variable {t : Tableau} {id next : TableauId} {node : Node} {seed : List NormalForm}
  {ids : List TableauId}

theorem Lists.exists_node (lists : t.Lists seed ids) (member : id ∈ ids) :
    ∃ node, t.nodes[id]? = some node := by
  have listed : t.particle? id ∈ (t.closure.particles seed).1.map some :=
    lists.particles ▸ List.mem_map_of_mem member
  obtain ⟨p, _, at_id⟩ := List.mem_map.mp listed
  obtain ⟨node, found, _⟩ := Option.map_eq_some_iff.mp at_id.symm
  exact ⟨node, found⟩

theorem edge_of_mem (at_id : t.nodes[id]? = some node) (member : next ∈ node.successors)
    (bound : next < t.size) : t.digraph.Edge id next := by
  have size : t.digraph.size = t.size := Array.size_map
  refine List.mem_filter.mpr ⟨?_, by simpa [size] using bound⟩
  simpa [digraph, Array.getD_eq_getD_getElem?, at_id] using member

/-- Every node is reached, if each comes from one before it. -/
theorem reached_of_earlier (earlier : ∀ id < t.size, id ∈ t.initial ∨
    ∃ j < id, ∃ node, t.nodes[j]? = some node ∧ id ∈ node.successors) (id : Nat)
    (bound : id < t.size) : t.digraph.Reached t.initial id := by
  induction id using Nat.strong_induction_on with
  | _ id ih =>
    rcases earlier id bound with initial | ⟨j, before, node, at_j, member⟩
    · have size : t.digraph.size = t.size := Array.size_map
      exact ⟨id, initial, size ▸ bound, .refl id⟩
    · exact (ih j before (by omega)).next (edge_of_mem at_j member bound).reaches

/-- No successor is left out of the edges. -/
theorem edgesFrom_joins (at_id : t.nodes[id]? = some node)
    (known : ∀ next ∈ node.successors, ∃ target, t.nodes[next]? = some target) :
    List.Forall₂ (fun next edge => ∃ target, t.nodes[next]? = some target ∧
      edge = ⟨id, next, ⟨node.action, target.state⟩⟩) node.successors (t.edgesFrom id) := by
  rw [edgesFrom_eq, outgoing, at_id]
  dsimp only
  generalize node.successors = ids at known ⊢
  induction ids with
  | nil => exact .nil
  | cons next rest ih =>
    obtain ⟨⟨target, found⟩, known⟩ := List.forall_mem_cons.mp known
    rw [List.filterMap_cons, found]
    exact .cons ⟨target, found, rfl⟩ (ih known)

theorem length_edgesOfFirst (count : ∀ (id : Nat) node, t.nodes[id]? = some node →
      (outgoing t.nodes id).length = node.successors.length) (bound : id ≤ t.size) :
    (edgesOfFirst t.nodes id).length = t.edgesBefore id := by
  rw [edgesOfFirst, List.length_flatMap, edgesBefore, List.map_take]
  congr 1
  apply List.ext_getElem
  · simpa [size] using bound
  · intro j low low'
    have inside : j < t.nodes.size := by simp at low'; omega
    simpa using count j t.nodes[j] (Array.getElem?_eq_getElem inside)

theorem edgesBefore_succ (at_id : t.nodes[id]? = some node) :
    t.edgesBefore (id + 1) = t.edgesBefore id + node.successors.length := by
  have listed : t.nodes.toList[id]? = some node := by rwa [Array.getElem?_toList]
  simp [edgesBefore, List.take_add_one, listed]

theorem places_eq (at_id : t.nodes[id]? = some node)
    (count : ∀ (id : Nat) node, t.nodes[id]? = some node →
      (outgoing t.nodes id).length = node.successors.length) :
    node.start = t.edgesBefore id ∧ node.stop = t.edgesBefore id + node.successors.length := by
  have bound : id < t.size := (Array.getElem?_eq_some_iff.mp at_id).1
  obtain ⟨start, stop⟩ := t.laid.places id node at_id
  rw [start, stop, length_edgesOfFirst count bound.le, length_edgesOfFirst count bound,
    edgesBefore_succ at_id]
  exact ⟨rfl, rfl⟩

end Edges

/-- The tableau that comes of a finished draft. -/
structure Finishes (limit : Nat) (d : Draft) (t : Tableau) : Prop where
  charted : d.Charted limit t.negated.around t.initial
  full : d.particles.size = d.successors.size
  seeded : d.Lists [t.negated] t.initial
  parts : ∀ f : NormalForm, f.PartOf t.negated → f ∈ d.closure.listed
  closure : t.closure = d.closure
  promises : t.promises = d.closure.promises
  nodes : t.nodes = (layOut d.nodes).1

variable {limit : Nat} {d : Draft} {t : Tableau} {id : TableauId} {node : Node}

theorem ofNormalForm_finishes {property : Formula} {negated : NormalForm}
    (built : ofNormalForm limit property negated = .ok t) :
    ∃ d, Finishes limit d t ∧ t.negated = negated := by
  unfold ofNormalForm at built
  obtain ⟨⟨initial, d⟩, placed, built⟩ := ok_of_bind_eq_ok built
  obtain ⟨e, completed, built⟩ := ok_of_bind_eq_ok built
  cases built
  have closed := negated.closed_around
  have here : negated ∈ negated.around := .inl .refl
  have interned := Closure.listed_intern_empty negated
  have start := Draft.sound_start limit negated.around negated
  have charted : d.Charted limit negated.around initial := by
    refine Draft.charted_start closed start ?_ rfl rfl (by simpa using here) placed
    exact interned.trans_subset fun f part => .inl part
  obtain ⟨within, -, -, -⟩ := Draft.placeSeed_sound closed start (by simpa using here) placed
  obtain ⟨within', -, full⟩ := Draft.complete_sound closed charted.sound completed (by omega)
  refine ⟨e, ⟨Draft.complete_charted closed charted completed, full, ?_, ?_, rfl, rfl, rfl⟩, rfl⟩
  · exact (Draft.placeSeed_lists start.distinct placed).within within'
  · intro f part
    exact (within.closure.trans within'.closure).listed (interned ▸ part)

namespace Finishes

variable (finishes : Finishes limit d t)
include finishes

theorem getElem?_nodes_iff : t.nodes[id]? = some node ↔
    ∃ p ids, d.particles[id]? = some p ∧ d.successors[id]? = some ids ∧
      node = (nodeOf d.closure d.closure.promises p ids).placed d.nodes id := by
  rw [finishes.nodes]
  exact getElem?_layOut_nodes

theorem origin (member : node ∈ t.nodes) : ∃ (id : TableauId) (p : Particle)
    (ids : List TableauId), d.particles[id]? = some p ∧ d.successors[id]? = some ids ∧
      node = (nodeOf d.closure d.closure.promises p ids).placed d.nodes id := by
  obtain ⟨id, _, at_id⟩ := Array.mem_iff_getElem.mp member
  exact ⟨id, finishes.getElem?_nodes_iff.mp (at_id ▸ Array.getElem?_eq_getElem _)⟩

theorem size_eq : t.size = d.particles.size := by
  simp [size, finishes.nodes, Draft.nodes, finishes.full]

theorem map_particle : t.nodes.toList.map (·.particle) = d.particles.toList := by
  rw [finishes.nodes, map_layOut d.nodes fun _ _ => rfl, Draft.nodes]
  apply List.ext_getElem
  · simp [finishes.full]
  · intro i bound bound'
    simp [nodeOf]

theorem map_successors : t.nodes.toList.map (·.successors) = d.successors.toList := by
  rw [finishes.nodes, map_layOut d.nodes fun _ _ => rfl, Draft.nodes]
  apply List.ext_getElem
  · simp [finishes.full]
  · intro i bound bound'
    simp [nodeOf]

theorem particle?_eq (id : TableauId) : t.particle? id = d.particles[id]? := by
  rw [particle?, ← Array.getElem?_toList, ← List.getElem?_map, finishes.map_particle,
    Array.getElem?_toList]

theorem lists {seed : List NormalForm} {ids : List TableauId} (lists : d.Lists seed ids) :
    t.Lists seed ids := by
  obtain ⟨places, same⟩ := lists d.closure finishes.charted.sound.distinct (.refl _)
  rw [← finishes.closure] at places same
  have particles : ids.map t.particle? = (t.closure.particles seed).1.map some := by
    rw [← places]
    exact List.map_congr_left fun id _ => finishes.particle?_eq id
  have apart := (Closure.nodup_particles t.closure seed).map (Option.some_injective _)
  exact ⟨.of_map _ (particles ▸ apart), particles, same⟩

theorem initial_eq : t.initial = List.range t.initial.length := by
  have order := finishes.charted.order
  rw [List.eraseDups_append, eraseDups_of_nodup (finishes.lists finishes.seeded).distinct] at order
  have front : t.initial <+: List.range d.particles.size := ⟨_, order⟩
  have bound := front.length_le
  rw [List.length_range] at bound
  have taken := List.prefix_iff_eq_take.mp front
  rwa [List.take_range, Nat.min_eq_left bound] at taken

theorem successors (member : node ∈ t.nodes) :
    t.Lists (t.closure.carried node.particle) node.successors := by
  obtain ⟨id, p, ids, at_id, completed, rfl⟩ := finishes.origin member
  rw [finishes.closure]
  exact finishes.lists (finishes.charted.joined id ids p completed at_id)

theorem earlier (bound : id < t.size) : id ∈ t.initial ∨
    ∃ j < id, ∃ node, t.nodes[j]? = some node ∧ id ∈ node.successors := by
  refine (finishes.charted.earlier id (finishes.size_eq ▸ bound)).imp_right ?_
  rintro ⟨j, before, ids, completed, member⟩
  have room : j < d.particles.size :=
    finishes.full ▸ (Array.getElem?_eq_some_iff.mp completed).1
  have at_j := finishes.getElem?_nodes_iff.mpr
    ⟨_, ids, Array.getElem?_eq_getElem room, completed, rfl⟩
  exact ⟨j, before, _, at_j, member⟩

theorem promised : (t.promises.map fun id => (t.closure.formula? id).map (·.toFormula)).Perm
    (t.negated.toFormula.promises.map some) := by
  rw [finishes.promises, finishes.closure]
  refine Closure.promises_perm finishes.charted.sound.distinct fun g => ⟨fun listed => ?_, ?_⟩
  · rcases finishes.charted.listed listed with part | ⟨h, _, absurdity⟩
    · exact part
    · contradiction
  · exact finishes.parts _

theorem fulfils_iff_keeps {i : Nat} {promise : FormulaId} {f : NormalForm}
    (at_id : t.nodes[id]? = some node) (at_i : t.promises[i]? = some promise)
    (found : t.closure.formula? promise = some (.eventually f)) :
    t.fulfils id i = true ↔ t.Keeps f node := by
  obtain ⟨p, ids, _, _, rfl⟩ := finishes.getElem?_nodes_iff.mp at_id
  rw [fulfils_iff at_id, Keeps, members, finishes.closure]
  exact mem_fulfilment finishes.charted.sound.distinct (finishes.promises ▸ at_i)
    (finishes.closure ▸ found)

/-- What comes of a finished draft has the shape of a tableau. -/
theorem shaped (faithful : t.Faithful) : t.Shaped := by
  have joins (id : TableauId) (node : Node) (at_id : t.nodes[id]? = some node) :=
    edgesFrom_joins at_id fun next member =>
      (finishes.successors (Array.mem_of_getElem? at_id)).exists_node member
  have places (id : TableauId) (node : Node) (at_id : t.nodes[id]? = some node) :=
    places_eq at_id fun id node at_id => t.edgesFrom_eq id ▸ (joins id node at_id).length_eq.symm
  constructor
  case distinct => exact finishes.map_particle ▸ finishes.charted.distinct
  case admitted =>
    intro node member
    obtain ⟨id, p, ids, at_id, _, rfl⟩ := finishes.origin member
    exact finishes.closure ▸ finishes.charted.sound.admitted p (Array.mem_of_getElem? at_id)
  case possible =>
    intro node member false
    obtain ⟨f, absurdity, _⟩ := faithful.saturated node member _ false
    simp at absurdity
  case consistent => exact faithful.consistent
  case initial => exact ⟨finishes.initial_eq, finishes.lists finishes.seeded⟩
  case order =>
    rw [List.flatMap_def, finishes.map_successors, finishes.size_eq]
    exact finishes.charted.order
  case earlier => exact fun id bound => finishes.earlier bound
  case reached => exact reached_of_earlier fun id bound => finishes.earlier bound
  case successors => exact fun node member => finishes.successors member
  case state => exact faithful.state
  case action => exact faithful.action
  case edges => exact joins
  case places => exact places
  case slices =>
    intro id node at_id
    obtain ⟨start, stop⟩ := places id node at_id
    rw [edgesFrom, at_id]
    dsimp only
    rw [start, stop, List.drop_take, Nat.add_sub_cancel_left]
  case whole =>
    rw [funext t.edgesFrom_eq]
    exact t.laid.whole
  case promises => exact finishes.promised
  case fulfils => exact fun id node i promise f => finishes.fulfils_iff_keeps

end Finishes

/-- Every tableau that is built has the shape of a tableau, and it is that of the negated
property. -/
theorem build_shaped {assumption : Option Formula} {property : Formula}
    (built : build assumption property = .ok t) :
    t.Shaped ∧ t.negated = counterexample assumption property := by
  obtain ⟨faithful, negated⟩ := build_faithful built
  refine ⟨?_, negated⟩
  unfold build at built
  split at built
  · contradiction
  · split at built
    · contradiction
    · obtain ⟨d, finishes, _⟩ := ofNormalForm_finishes built
      exact finishes.shaped faithful

/-- A lamp that blinks for ever. The second node waits for the first, from which the lamp is off. -/
theorem build_shaped_blinking :
    ∃ t, build none (.always (.eventually (.atom (.state 0)))) = .ok t ∧ t.initial = [0, 1] ∧
      t.nodes.toList.map (·.successors) = [[2], [0, 1], [2]] ∧ t.Shaped := by
  have shape : (build none (.always (.eventually (.atom (.state 0))))).toOption.map
      (fun t => (t.initial, t.nodes.toList.map (·.successors))) =
        some ([0, 1], [[2], [0, 1], [2]]) := by decide +kernel
  cases result : build none (.always (.eventually (.atom (.state 0)))) with
  | error r => simp [result, Except.toOption] at shape
  | ok t =>
    obtain ⟨initial, successors⟩ : t.initial = [0, 1] ∧
        t.nodes.toList.map (·.successors) = [[2], [0, 1], [2]] := by
      simpa [result, Except.toOption] using shape
    exact ⟨t, rfl, initial, successors, (build_shaped result).1⟩

end TemporalCheck.Tableau
