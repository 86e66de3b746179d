import TemporalCheck.Product.Growth
import TemporalCheck.Proofs.Product.Operations

/-! Which nodes growth tells to be new: those whose numbers lie between the sizes of the product
before and after. -/
namespace TemporalCheck

variable {State : Type}

namespace Growth

variable {g : Growth State} {created : List NodeId}

@[simp] theorem product_after : (g.after created).product = g.product := rfl

@[simp] theorem session_after : (g.after created).session = g.session := rfl

@[simp] theorem failure_after : (g.after created).failure = g.failure := rfl

end Growth

namespace Product

variable {p q r : Product State}

/-- From `p` to `q`, the nodes listed are the new ones. -/
structure Adds (p q : Product State) (created : List NodeId) : Prop where
  size_le : p.size ≤ q.size
  created : created = q.addedSince p.size

theorem addedSince_append (first : p.size ≤ q.size) (second : q.size ≤ r.size) :
    r.addedSince p.size = q.addedSince p.size ++ r.addedSince q.size := by
  have start : p.size + (q.size - p.size) = q.size := by omega
  have span : r.size - p.size = (q.size - p.size) + (r.size - q.size) := by omega
  rw [addedSince, addedSince, addedSince, span, ← List.range'_append]
  simp [start]

theorem Adds.nothing (same : q.size = p.size) : p.Adds q [] := ⟨same.ge, by simp [addedSince, same]⟩

theorem Adds.trans {xs ys : List NodeId} (first : p.Adds q xs) (second : q.Adds r ys) :
    p.Adds r (xs ++ ys) where
  size_le := first.size_le.trans second.size_le
  created := by
    rw [first.created, second.created, addedSince_append first.size_le second.size_le]

theorem Adds.congr {xs : List NodeId} (adds : p.Adds q xs) (same : r.size = q.size) :
    p.Adds r xs := by
  simpa using adds.trans (.nothing same)

theorem Adds.mem_iff {xs : List NodeId} (adds : p.Adds q xs) {id : NodeId} :
    id ∈ xs ↔ p.size ≤ id ∧ id < q.size := by
  rw [adds.created, addedSince, List.mem_range'_1, Nat.add_sub_cancel' adds.size_le]

theorem Adds.length_eq {xs : List NodeId} (adds : p.Adds q xs) : xs.length = q.size - p.size := by
  rw [adds.created, addedSince, List.length_range']

theorem Adds.eq_nil {xs : List NodeId} (adds : p.Adds q xs) (same : q.size = p.size) : xs = [] :=
  List.eq_nil_of_length_eq_zero (by simp [adds.length_eq, same])

section Place

theorem ensure_adds (p : Product State) (key : ProductKey) (state : State) :
    p.Adds (p.ensure key state).2.2 (p.ensure key state).2.1 := by
  unfold ensure
  cases p.find? key with
  | some id => exact .nothing rfl
  | none => exact ⟨by simp, by simp [addedSince]⟩

theorem size_addEdge (source target : NodeId) : (p.addEdge source target).size = p.size := by
  by_cases present : p.hasEdge source target
  · rw [addEdge_of_present present]
  · exact (touched_addEdge present).size_eq

theorem size_markInitial (id : NodeId) : (p.markInitial id).size = p.size := by
  cases at_id : p.nodes[id]? with
  | none => rw [markInitial_of_missing at_id]
  | some a => exact (touched_markInitial at_id).size_eq

theorem begin_adds (p : Product State) (k : Keyed State) (t : TableauId) :
    p.Adds (p.begin k t).2 (p.begin k t).1 :=
  (p.ensure_adds ⟨k.fingerprint, t⟩ k.state).congr (size_markInitial _)

theorem link_adds (p : Product State) (source : NodeId) (target : Keyed State × TableauId) :
    p.Adds (p.link source target).2 (p.link source target).1 :=
  (p.ensure_adds ⟨target.1.fingerprint, target.2⟩ target.1.state).congr (size_addEdge _ _)

theorem linkAll_adds (p : Product State) (source : NodeId)
    (targets : List (Keyed State × TableauId)) :
    p.Adds (p.linkAll source targets).2 (p.linkAll source targets).1 := by
  induction targets generalizing p with
  | nil => exact .nothing rfl
  | cons target rest ih => exact (p.link_adds source target).trans (ih _)

end Place

section Grow

variable {model : Model State} {s : Session} {next : List (Keyed State)} {created : List NodeId}

theorem Adds.after {grown : Growth State} (first : p.Adds q created)
    (second : q.Adds grown.product grown.created) :
    p.Adds (grown.after created).product (grown.after created).created :=
  first.trans second

theorem beginAll_adds (starts : List ((Keyed State × TableauId) × List (Condition State))) :
    p.Adds (beginAll model starts p s).product (beginAll model starts p s).created := by
  induction starts generalizing p s with
  | nil => exact .nothing rfl
  | cons start rest ih =>
    obtain ⟨⟨k, t⟩, conditions⟩ := start
    unfold beginAll
    obtain ⟨answer, s'⟩ := s.testAll model conditions
    rcases answer with e | _ | _
    · exact .nothing rfl
    · exact ih
    · exact (p.begin_adds k t).after ih

theorem extendInitial_adds (states : List (Keyed State)) :
    p.Adds (p.extendInitial model s states).product (p.extendInitial model s states).created :=
  beginAll_adds _

theorem expandNode_adds (id : NodeId) :
    p.Adds (p.expandNode model s id next).product (p.expandNode model s id next).created := by
  unfold expandNode
  cases p.nodes[id]? with
  | none => exact .nothing rfl
  | some node =>
    dsimp only
    cases p.state? node.key.fingerprint with
    | none => exact .nothing rfl
    | some state =>
      dsimp only
      obtain ⟨e | chosen, s'⟩ := s.select model _
      · exact .nothing rfl
      · exact p.linkAll_adds id chosen

theorem extendFrom_adds (source : Fingerprint) (fuel i : Nat) :
    p.Adds (extendFrom model source next fuel i p s).product
      (extendFrom model source next fuel i p s).created := by
  induction fuel generalizing p s i with
  | zero => exact .nothing rfl
  | succ fuel ih =>
    unfold extendFrom
    cases (p.nodesOn source)[i]? with
    | none => exact .nothing rfl
    | some id =>
      have expanded := @expandNode_adds _ p model s next id
      dsimp only
      generalize p.expandNode model s id next = grown at expanded
      cases failed : grown.failure with
      | some e => simpa only [failed] using expanded
      | none => exact expanded.after (ih _)

theorem extend_adds (source : Fingerprint) :
    p.Adds (p.extend model s source next).product (p.extend model s source next).created :=
  extendFrom_adds source _ 0

end Grow

end Product
end TemporalCheck
