import Mathlib
import TemporalCheck.Product

/-! A growing product. Its lists agree with each other at every moment, nothing that was recorded is
ever changed, and each operation adds just what it is asked to add: keys, edges between keys and
keys where behaviours start. -/
namespace TemporalCheck.Product

variable {State : Type} {p q r : Product State}

/-- The index, the edges and the lists of a product agree with its nodes. -/
structure Valid (p : Product State) : Prop where
  indexed : ∀ {key : ProductKey} {id : NodeId}, p.find? key = some id ↔
    ∃ node, p.nodes[id]? = some node ∧ node.key = key
  edges : ∀ {u w : NodeId}, p.hasEdge u w = true ↔ ∃ node, p.nodes[u]? = some node ∧
    w ∈ node.successors
  column : ∀ (fp : Fingerprint) (id : NodeId), id ∈ p.nodesOn fp ↔
    ∃ node, p.nodes[id]? = some node ∧ node.key.fingerprint = fp
  ascending : ∀ fp, (p.nodesOn fp).Pairwise (· < ·)
  stored : ∀ fp, (∃ s, p.state? fp = some s) ↔ ∃ id, id ∈ p.nodesOn fp
  successors : ∀ node ∈ p.nodes, ∀ next ∈ node.successors, next < p.size
  distinct : ∀ node ∈ p.nodes, node.successors.toList.Nodup
  initial : ∀ id : NodeId, id ∈ p.initial ↔ ∃ node, p.nodes[id]? = some node ∧ node.initial = true
  initialDistinct : p.initial.toList.Nodup

structure Node.Later (a b : Node) : Prop where
  key : b.key = a.key
  successors : a.successors.toList <+: b.successors.toList
  initial : a.initial = true → b.initial = true

/-- A product at two moments, the second not before the first. -/
structure Within (p q : Product State) : Prop where
  tableau : q.tableau = p.tableau
  nodes : ∀ (id : NodeId) (a : Node), p.nodes[id]? = some a →
    ∃ b, q.nodes[id]? = some b ∧ a.Later b
  states : ∀ fp s, p.state? fp = some s → q.state? fp = some s
  columns : ∀ fp, p.nodesOn fp <+: q.nodesOn fp
  initial : p.initial.toList <+: q.initial.toList
  generation : p = q ∨ p.generation < q.generation

def HasKey (p : Product State) (k : ProductKey) : Prop :=
  ∃ (id : NodeId) (node : Node), p.nodes[id]? = some node ∧ node.key = k

def HasKeyEdge (p : Product State) (k k' : ProductKey) : Prop :=
  ∃ (i j : NodeId) (a b : Node), p.nodes[i]? = some a ∧ a.key = k ∧ j ∈ a.successors ∧
    p.nodes[j]? = some b ∧ b.key = k'

def HasKeyStart (p : Product State) (k : ProductKey) : Prop :=
  ∃ (id : NodeId) (node : Node), p.nodes[id]? = some node ∧ node.key = k ∧ node.initial = true

/-- Every state of the product is the one that is filed under its fingerprint. -/
def Filed (stored : Fingerprint → Option State) (p : Product State) : Prop :=
  ∀ fp s, p.state? fp = some s → stored fp = some s

/-- From `p` to `q`, exactly the given keys, edges and starts are added. -/
structure Change (stored : Fingerprint → Option State) (p q : Product State)
    (keys : Set ProductKey) (edges : Set (ProductKey × ProductKey)) (starts : Set ProductKey) :
    Prop where
  valid : q.Valid
  filed : q.Filed stored
  within : p.Within q
  keys : ∀ k, q.HasKey k ↔ p.HasKey k ∨ k ∈ keys
  edges : ∀ k k', q.HasKeyEdge k k' ↔ p.HasKeyEdge k k' ∨ (k, k') ∈ edges
  starts : ∀ k, q.HasKeyStart k ↔ p.HasKeyStart k ∨ k ∈ starts

section Order

theorem Node.Later.refl (a : Node) : a.Later a := ⟨rfl, List.prefix_rfl, fun flagged => flagged⟩

theorem Node.Later.trans {a b c : Node} (first : a.Later b) (second : b.Later c) : a.Later c :=
  ⟨second.key.trans first.key, first.successors.trans second.successors,
    fun flagged => second.initial (first.initial flagged)⟩

theorem Within.refl (p : Product State) : p.Within p :=
  ⟨rfl, fun _ a at_id => ⟨a, at_id, .refl a⟩, fun _ _ found => found,
    fun _ => List.prefix_rfl, List.prefix_rfl, .inl rfl⟩

theorem Within.trans (first : p.Within q) (second : q.Within r) : p.Within r where
  tableau := second.tableau.trans first.tableau
  nodes := by
    intro id a at_id
    obtain ⟨b, at_id, later⟩ := first.nodes id a at_id
    obtain ⟨c, at_id, latest⟩ := second.nodes id b at_id
    exact ⟨c, at_id, later.trans latest⟩
  states := fun fp s found => second.states fp s (first.states fp s found)
  columns := fun fp => (first.columns fp).trans (second.columns fp)
  initial := first.initial.trans second.initial
  generation := by
    rcases first.generation with rfl | newer
    · exact second.generation
    · rcases second.generation with rfl | newest
      · exact .inr newer
      · exact .inr (newer.trans newest)

theorem Within.size_le (within : p.Within q) : p.size ≤ q.size := by
  by_contra smaller
  have bound : q.size < p.size := by omega
  obtain ⟨b, at_id, _⟩ := within.nodes q.size p.nodes[q.size] (Array.getElem?_eq_getElem bound)
  obtain ⟨absurdity, _⟩ := Array.getElem?_eq_some_iff.mp at_id
  exact Nat.lt_irrefl _ absurdity

variable {stored : Fingerprint → Option State} {K K' S S' : Set ProductKey}
  {E E' : Set (ProductKey × ProductKey)}

theorem Change.refl (valid : p.Valid) (filed : p.Filed stored) : Change stored p p ∅ ∅ ∅ :=
  ⟨valid, filed, .refl p, by simp, by simp, by simp⟩

theorem Change.trans (first : Change stored p q K E S) (second : Change stored q r K' E' S') :
    Change stored p r (K ∪ K') (E ∪ E') (S ∪ S') where
  valid := second.valid
  filed := second.filed
  within := first.within.trans second.within
  keys := by simp [second.keys, first.keys, or_assoc]
  edges := by simp [second.edges, first.edges, or_assoc]
  starts := by simp [second.starts, first.starts, or_assoc]

theorem Change.congr (change : Change stored p q K E S) (keys : ∀ k, k ∈ K' ↔ k ∈ K)
    (edges : ∀ e, e ∈ E' ↔ e ∈ E) : Change stored p q K' E' S :=
  { change with
    keys := by simp only [keys, change.keys, implies_true]
    edges := by simp only [edges, change.edges, implies_true] }

end Order

section Lookup

/-- No two nodes have the same key, since the index has one of them only. -/
theorem Valid.unique (valid : p.Valid) (i j : NodeId) (a b : Node) (atI : p.nodes[i]? = some a)
    (atJ : p.nodes[j]? = some b) (same : a.key = b.key) : i = j := by
  have first := valid.indexed.mpr ⟨a, atI, rfl⟩
  have second := valid.indexed.mpr ⟨b, atJ, rfl⟩
  rw [same, second] at first
  exact (Option.some.inj first).symm

theorem find?_eq_none_iff (valid : p.Valid) {key : ProductKey} :
    p.find? key = none ↔ ¬p.HasKey key := by
  constructor
  · rintro missing ⟨id, node, found⟩
    rw [valid.indexed.mpr ⟨node, found⟩] at missing
    contradiction
  · intro missing
    cases found : p.find? key with
    | none => rfl
    | some id =>
      obtain ⟨node, here⟩ := valid.indexed.mp found
      exact absurd ⟨id, node, here⟩ missing

end Lookup

theorem valid_empty (t : Tableau) : ({ tableau := t } : Product State).Valid := by
  constructor <;> simp [find?, hasEdge, nodesOn, state?]

theorem filed_empty (t : Tableau) (stored : Fingerprint → Option State) :
    ({ tableau := t } : Product State).Filed stored := by
  simp [Filed, state?]

end TemporalCheck.Product
