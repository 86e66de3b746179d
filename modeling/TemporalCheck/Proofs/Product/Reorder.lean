import TemporalCheck.Proofs.Digraph.Reorder
import TemporalCheck.Proofs.Monitor.Exact
import TemporalCheck.Proofs.Product.Calls
import TemporalCheck.Proofs.Product.Lasso

/-! Products with the same content, whose lists of successors and of initial nodes may be in another
order. Scans report the same, and so do lassos come out the same. -/
namespace TemporalCheck

variable {State : Type}

namespace Product

variable {p q : Product State} {c : Component}

/-- The products have the same nodes under the same numbers, with the same states, edges and initial
nodes. -/
structure Reordered (p q : Product State) : Prop where
  tableau : q.tableau = p.tableau
  keys : ∀ id : NodeId, q.nodes[id]?.map (·.key) = p.nodes[id]?.map (·.key)
  states : ∀ fp, q.state? fp = p.state? fp
  successors : ∀ u v, v ∈ q.successors u ↔ v ∈ p.successors u
  initial : ∀ v, v ∈ q.initial ↔ v ∈ p.initial

namespace Reordered

variable (same : p.Reordered q)
include same

theorem size_eq : q.size = p.size := by
  refine eq_of_forall_ge_iff fun id => ?_
  rw [size, size, ← Array.getElem?_eq_none_iff, ← Array.getElem?_eq_none_iff,
    ← Option.map_eq_none_iff (f := (·.key)), same.keys, Option.map_eq_none_iff]

theorem digraph : p.digraph.Reordered q.digraph where
  size := by rw [size_digraph, size_digraph, same.size_eq]
  edges := fun u v => by rw [edge_iff_of_lt, edge_iff_of_lt, same.successors, same.size_eq]

theorem initial_toList (v : NodeId) : v ∈ q.initial.toList ↔ v ∈ p.initial.toList := by
  rw [Array.mem_toList_iff, Array.mem_toList_iff, same.initial]

theorem contains_eq (u v : NodeId) : (q.successors u).contains v = (p.successors u).contains v := by
  rw [Bool.eq_iff_iff, List.contains_iff_mem, List.contains_iff_mem, same.successors]

theorem fulfils_eq : q.fulfils = p.fulfils := by
  funext id promise
  unfold fulfils tableauOf?
  have keys := same.keys id
  rw [same.tableau]
  cases at_id : p.nodes[id]? with
  | none =>
    rw [at_id, Option.map_none, Option.map_eq_none_iff] at keys
    rw [keys]
  | some a =>
    rw [at_id, Option.map_some] at keys
    obtain ⟨b, at_id', key⟩ := Option.map_eq_some_iff.mp keys
    rw [at_id', Option.map_some, Option.map_some, key]

theorem isViolating_eq : q.isViolating = p.isViolating := by
  funext c
  unfold isViolating isNontrivial
  simp only [same.contains_eq, same.fulfils_eq, same.tableau]

section Lasso

theorem tour_eq (root : NodeId) (legs : Nat) (pending : List Nat) (current : NodeId) :
    q.tour c root legs pending current = p.tour c root legs pending current := by
  have within (goal : NodeId → Bool) (source : NodeId) :
      q.pathWithin? c goal source = p.pathWithin? c goal source :=
    same.digraph.path?_eq c.contains goal (same.digraph.edges source)
  induction legs generalizing pending current with
  | zero =>
    cases pending with
    | nil => rw [tour_nil, tour_nil, within]
    | cons promise others => rfl
  | succ legs ih =>
    cases pending with
    | nil => rw [tour_nil, tour_nil, within]
    | cons promise others => simp only [tour, within, same.fulfils_eq, ih]

theorem stemTo_eq : q.stemTo c = p.stemTo c := by
  unfold stemTo
  rw [same.digraph.path?_eq _ _ same.initial_toList]

theorem cycleFrom_eq (root : NodeId) : q.cycleFrom c root = p.cycleFrom c root := by
  unfold cycleFrom
  simp only [same.tableau, same.fulfils_eq, same.tour_eq]

theorem stateOf?_eq (id : NodeId) : q.stateOf? id = p.stateOf? id := by
  have through (r : Product State) :
      r.stateOf? id = (r.nodes[id]?.map (·.key)).bind fun key => r.state? key.fingerprint := by
    rw [stateOf?, Option.bind_map]
    rfl
  rw [through, through, same.keys]
  exact Option.bind_congr fun key _ => same.states key.fingerprint

theorem project_eq (ids : List NodeId) : q.project ids = p.project ids := by
  induction ids with
  | nil => rfl
  | cons id rest ih => simp only [project, same.stateOf?_eq, ih]

theorem lasso_eq (c : Component) : q.lasso c = p.lasso c := by
  unfold lasso
  simp only [same.stemTo_eq, same.cycleFrom_eq, same.project_eq]

end Lasso

/-- Where every change has been counted, the generations are the same. -/
theorem generation_eq (valid : p.Valid) (valid' : q.Valid) (counted : p.Counted)
    (counted' : q.Counted) : q.generation = p.generation := by
  have lengths (u : NodeId) : (q.successors u).length = (p.successors u).length :=
    ((List.perm_ext_iff_of_nodup (nodup_successors valid' u) (nodup_successors valid u)).mpr
      (same.successors u)).length_eq
  have edgeCount : q.edgeCount = p.edgeCount := by
    simp only [edgeCount_eq_sum valid, edgeCount_eq_sum valid', same.size_eq, lengths]
  have initial : q.initial.size = p.initial.size := by
    rw [← Array.length_toList, ← Array.length_toList]
    exact ((List.perm_ext_iff_of_nodup valid'.initialDistinct valid.initialDistinct).mpr
      same.initial_toList).length_eq
  unfold Counted at counted counted'
  rw [counted, counted', same.size_eq, edgeCount, initial]

end Reordered

/-- Components with the same least node are the same. -/
theorem eq_of_least {d : Component} (member : c ∈ p.reachableComponents)
    (member' : d ∈ p.reachableComponents) (least : c.least?.getD 0 = d.least?.getD 0) : c = d := by
  have component := Digraph.isComponent_of_mem member
  have component' := Digraph.isComponent_of_mem member'
  obtain ⟨v, first, here, _⟩ := c.least?_eq_some component.nonempty
  obtain ⟨w, first', here', _⟩ := d.least?_eq_some component'.nonempty
  rw [first, first', Option.getD_some, Option.getD_some] at least
  exact component.eq_of_mem component' here (least ▸ here')

end Product

namespace Detector

open Product (Call Reordered)

variable {p q : Product State} {d d' e e' : Detector} {report report' : ScanReport}

/-- What else a scan reports. -/
theorem counts_spec (scanned : d.scan p = (some report, d')) :
    report.generation = p.generation ∧ report.components = p.reachableComponents.length := by
  unfold scan at scanned
  split at scanned
  · simp at scanned
  · obtain rfl := Option.some.inj (Prod.mk.inj scanned).1
    exact ⟨rfl, rfl⟩

theorem scan_reordered (same : p.Reordered q) (scanned : d.scan p = (some report, d'))
    (scanned' : e.scan q = (some report', e')) :
    report'.violating = report.violating ∧ report'.components = report.components := by
  have components : q.reachableComponents.Perm p.reachableComponents :=
    same.digraph.components_perm same.initial_toList
  obtain ⟨perm, sorted⟩ := violating_spec scanned
  obtain ⟨perm', sorted'⟩ := violating_spec scanned'
  constructor
  · rw [same.isViolating_eq] at perm'
    have both : report'.violating.Perm report.violating :=
      perm'.trans ((components.filter _).trans perm.symm)
    refine both.eq_of_pairwise (fun c c' member member' le ge => ?_) sorted' sorted
    have member := (mem_violating scanned c).mp (both.subset member)
    have member' := (mem_violating scanned c').mp member'
    exact Product.eq_of_least member.1 member'.1 (le_antisymm le ge)
  · rw [(counts_spec scanned).2, (counts_spec scanned').2, components.length_eq]

theorem scan_eq_of_reordered (same : p.Reordered q) (generation : q.generation = p.generation)
    (d : Detector) : d.scan q = d.scan p := by
  by_cases last : d.lastScanned = some p.generation
  · rw [scan_skipped last, scan_skipped (last.trans (congrArg some generation.symm))]
  · obtain ⟨report, first⟩ := exists_first_scan p
    obtain ⟨report', first'⟩ := exists_first_scan q
    have alike := scan_reordered same (Prod.ext first rfl) (Prod.ext first' rfl)
    have counts := (counts_spec (Prod.ext first rfl)).1
    have counts' := (counts_spec (Prod.ext first' rfl)).1
    rw [scan_due last, scan_due (generation ▸ last), first, first', generation]
    have equal : report' = report := calc
      report' = ⟨report'.generation, report'.components, report'.violating⟩ := rfl
      _ = ⟨report.generation, report.components, report.violating⟩ := by
        rw [alike.1, alike.2, counts, counts', generation]
    rw [equal]

end Detector

namespace Product

/-- What scans report and the lassos that are taken depend on the content of a product only, and not
on the order of its lists. If the products have been grown by calls, then one leads to a scan being
left out just when the other does. -/
theorem results_eq_of_reordered (p q : Product State) (same : p.Reordered q) :
    (∀ (d e : Detector) (report report' : ScanReport), (d.scan p).1 = some report →
      (e.scan q).1 = some report' →
      report'.violating = report.violating ∧ report'.components = report.components) ∧
    (∀ c, q.lasso c = p.lasso c) ∧
    ∀ t calls calls', p = ({ tableau := t } : Product State).grow calls →
      q = ({ tableau := t } : Product State).grow calls' → ∀ d : Detector, d.scan q = d.scan p := by
  refine ⟨fun d e report report' scanned scanned' => ?_, same.lasso_eq, ?_⟩
  · exact Detector.scan_reordered same (Prod.ext scanned rfl) (Prod.ext scanned' rfl)
  · intro t calls calls' grown grown'
    have generation := same.generation_eq (grown ▸ valid_grow t calls)
      (grown' ▸ valid_grow t calls') (grown ▸ counted_grow t calls)
      (grown' ▸ counted_grow t calls')
    exact Detector.scan_eq_of_reordered same generation

section Order

open Monitor (anything lamp)

def triangle (next starts : List (Keyed Bool)) : Product Bool :=
  ({ tableau := anything } : Product Bool).grow [.extendInitial lamp {} [⟨0, false⟩],
    .extend lamp {} 0 [⟨1, true⟩, ⟨2, false⟩], .extend lamp {} 1 next,
    .extendInitial lamp {} starts]

theorem reordered_triangle : (triangle [⟨0, false⟩, ⟨2, false⟩] [⟨1, true⟩, ⟨2, false⟩]).Reordered
    (triangle [⟨2, false⟩, ⟨0, false⟩] [⟨2, false⟩, ⟨1, true⟩]) := by
  generalize first : triangle [⟨0, false⟩, ⟨2, false⟩] [⟨1, true⟩, ⟨2, false⟩] = p
  generalize second : triangle [⟨2, false⟩, ⟨0, false⟩] [⟨2, false⟩, ⟨1, true⟩] = q
  have keys : q.nodes.map (·.key) = p.nodes.map (·.key) := by subst first second; decide +kernel
  have states : q.states = p.states := by subst first second; rfl
  have sizes : p.size = 3 ∧ q.size = 3 := by subst first second; decide +kernel
  have listed : ∀ u < 3, (q.successors u).Perm (p.successors u) := by
    subst first second
    decide +kernel
  have initial : q.initial.toList.Perm p.initial.toList := by subst first second; decide +kernel
  refine ⟨by subst first second; rfl, fun id => ?_, fun fp => ?_, fun u v => ?_, fun v => ?_⟩
  · rw [← Array.getElem?_map, ← Array.getElem?_map, keys]
  · rw [state?, state?, states]
  · by_cases bound : u < 3
    · exact (listed u bound).mem_iff
    · refine iff_of_false (fun edge => ?_) fun edge => ?_
      · exact bound (sizes.2 ▸ lt_size_of_mem_successors edge)
      · exact bound (sizes.1 ▸ lt_size_of_mem_successors edge)
  · rw [← Array.mem_toList_iff, ← Array.mem_toList_iff, initial.mem_iff]

/-- The initial nodes are listed in different orders, and the lasso is the same. -/
theorem results_eq_of_reordered_triangle :
    let p := triangle [⟨0, false⟩, ⟨2, false⟩] [⟨1, true⟩, ⟨2, false⟩]
    let q := triangle [⟨2, false⟩, ⟨0, false⟩] [⟨2, false⟩, ⟨1, true⟩]
    p.Reordered q ∧ p.initial = #[0, 1, 2] ∧ q.initial = #[0, 2, 1] ∧
      p.successors 1 = [0, 2] ∧ q.successors 1 = [2, 0] ∧
      (p.lasso (.ofList [0, 1])).toOption = some ⟨[false], [false, true, false]⟩ ∧
      q.lasso (.ofList [0, 1]) = p.lasso (.ofList [0, 1]) := by
  intro p q
  obtain ⟨_, lassos, _⟩ := results_eq_of_reordered p q reordered_triangle
  exact ⟨reordered_triangle, by decide +kernel, by decide +kernel, by decide +kernel,
    by decide +kernel, by decide +kernel, lassos _⟩

end Order

end Product
end TemporalCheck
