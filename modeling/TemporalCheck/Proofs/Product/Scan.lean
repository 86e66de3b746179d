import TemporalCheck.Product.Scan
import TemporalCheck.Proofs.Digraph.Component
import TemporalCheck.Proofs.Product.Invariant

/-! What a scan finds. A violating component is strongly connected by paths of at least one edge and
fulfils every promise; and when no component is violating, no infinite path fulfils every promise
again and again, since such a path returns to one of its nodes for ever. The lists of the product
need not agree with each other for this. -/
namespace TemporalCheck

variable {State : Type}

namespace Product

variable {p : Product State} {c : Component} {u v w : NodeId}

@[simp] theorem size_digraph (p : Product State) : p.digraph.size = p.size := by
  simp [digraph, Digraph.size, size]

/-- The edges of the digraph are the recorded ones, as far as they lead to nodes. -/
theorem edge_iff_of_lt : p.digraph.Edge u v ↔ v ∈ p.successors u ∧ v < p.size := by
  have listed : p.digraph.next u = (p.successors u).filter (· < p.size) := by
    unfold Digraph.next
    rw [size_digraph]
    simp only [digraph, successors, Array.getD_eq_getD_getElem?, Array.getElem?_map]
    cases p.nodes[u]? <;> rfl
  rw [Digraph.Edge, listed, List.mem_filter, decide_eq_true_eq]

theorem edge_iff (valid : p.Valid) : p.digraph.Edge u v ↔ v ∈ p.successors u := by
  rw [edge_iff_of_lt, and_iff_left_iff_imp]
  intro member
  unfold successors at member
  split at member
  · next node at_u =>
    exact valid.successors node (Array.mem_of_getElem? at_u) v (Array.mem_toList_iff.mp member)
  · simp at member

/-- Every two nodes of the set, also a node and itself, are joined by a path inside the set that has
an edge. -/
def Joined (p : Product State) (c : Component) : Prop :=
  ∀ u ∈ c.nodes, ∀ v ∈ c.nodes, ∃ w ∈ c.nodes, p.digraph.Edge u w ∧
    Relation.ReflTransGen (fun a b => p.digraph.Edge a b ∧ c.contains b = true) w v

theorem Joined.lt_size (joined : p.Joined c) (here : v ∈ c.nodes) : v < p.size := by
  obtain ⟨_, _, edge, _⟩ := joined v here v here
  simpa using edge.source_lt_size

def Fulfilling (p : Product State) (c : Component) : Prop :=
  ∀ promise < p.tableau.promises.length, ∃ v ∈ c.nodes, p.fulfils v promise = true

theorem bounded_of_mem (member : c ∈ p.reachableComponents) (here : v ∈ c.nodes) : v < p.size := by
  have decomposed := p.digraph.components_decomposed p.initial.toList
  simpa using ((decomposed.covers v).mp ⟨c, member, here⟩).lt_size

section Class

variable (component : p.digraph.IsComponent c)
include component

theorem mem_of_between (hereU : u ∈ c.nodes) (hereW : w ∈ c.nodes) (forth : p.digraph.Reaches u v)
    (onward : p.digraph.Reaches v w) : v ∈ c.nodes := by
  have back := ((component.classes w hereW u).mp hereU).1
  exact (component.classes w hereW v).mpr ⟨back.trans forth, onward⟩

theorem path_inside (hereU : u ∈ c.nodes) (hereV : v ∈ c.nodes) (path : p.digraph.Reaches u v) :
    Relation.ReflTransGen (fun a b => p.digraph.Edge a b ∧ c.contains b = true) u v := by
  induction path using Relation.ReflTransGen.head_induction_on with
  | refl => exact .refl
  | @head a b edge path ih =>
    have hereB : b ∈ c.nodes := mem_of_between component hereU hereV edge.reaches path
    exact .head ⟨edge, by simpa [Component.contains] using hereB⟩ (ih hereB)

/-- From every node there is a way to an edge inside, along it, and on to any node. -/
theorem joined_of_edge (hereU : u ∈ c.nodes) (hereV : v ∈ c.nodes) (edge : p.digraph.Edge u v) :
    p.Joined c := by
  intro x hereX y hereY
  have forth := ((component.classes x hereX u).mp hereU).1
  have onward := ((component.classes v hereV y).mp hereY).1
  have around : Relation.TransGen p.digraph.Edge x y := .trans_right forth (.head' edge onward)
  obtain ⟨w, first, rest⟩ := Relation.TransGen.head'_iff.mp around
  have hereW : w ∈ c.nodes := mem_of_between component hereX hereY first.reaches rest
  exact ⟨w, hereW, first, path_inside component hereW hereY rest⟩

/-- A component is nontrivial when an edge lies inside. -/
theorem isNontrivial_iff (bounded : ∀ v ∈ c.nodes, v < p.size) :
    p.isNontrivial c = true ↔ ∃ u ∈ c.nodes, ∃ v ∈ c.nodes, p.digraph.Edge u v := by
  unfold isNontrivial
  split
  · next empty => simp [empty]
  · next x single => simp [single, edge_iff_of_lt, bounded x (by simp [single])]
  · next none_empty none_single =>
    refine iff_of_true rfl ?_
    obtain ⟨x, hereX⟩ := List.exists_mem_of_ne_nil _ component.nonempty
    obtain ⟨y, hereY, other⟩ : ∃ y ∈ c.nodes, y ≠ x := by
      by_contra! only
      have single : c.nodes = [x] := by
        apply c.ascending.eq_of_mem_iff (List.pairwise_singleton _ _)
        intro y
        rw [List.mem_singleton]
        exact ⟨only y, fun same => same ▸ hereX⟩
      exact none_single x single
    obtain ⟨forth, _⟩ := (component.classes x hereX y).mp hereY
    rcases Relation.ReflTransGen.cases_head forth with same | ⟨z, edge, path⟩
    · exact absurd same.symm other
    · exact ⟨x, hereX, z, mem_of_between component hereX hereY (.single edge) path, edge⟩

end Class

theorem isViolating_iff : p.isViolating c = true ↔ p.isNontrivial c = true ∧ p.Fulfilling c := by
  simp only [isViolating, Bool.and_eq_true, List.all_eq_true, List.any_eq_true, List.mem_range,
    Fulfilling]

/-- The components that a behaviour can stay in for ever and fulfil every promise. -/
theorem mem_reachableComponents_violating_iff :
    c ∈ p.reachableComponents ∧ p.isViolating c = true ↔
      p.digraph.IsComponent c ∧ (∃ v ∈ c.nodes, p.digraph.Reached p.initial.toList v) ∧
        (∃ u ∈ c.nodes, ∃ v ∈ c.nodes, p.digraph.Edge u v) ∧ p.Fulfilling c := by
  rw [isViolating_iff, ← and_assoc (a := p.digraph.IsComponent c), ← Digraph.mem_components_iff]
  apply and_congr_right
  intro member
  rw [isNontrivial_iff (Digraph.isComponent_of_mem member) fun v => bounded_of_mem member]

structure Accepting (p : Product State) (ρ : Nat → NodeId) : Prop where
  initial : ρ 0 ∈ p.initial
  edges : ∀ i, p.digraph.Edge (ρ i) (ρ (i + 1))
  fulfilled : ∀ promise < p.tableau.promises.length, ∀ i, ∃ j, i ≤ j ∧
    p.fulfils (ρ j) promise = true

variable {ρ : Nat → NodeId}

theorem Accepting.reaches (accepting : p.Accepting ρ) {i j : Nat} (later : i ≤ j) :
    p.digraph.Reaches (ρ i) (ρ j) := by
  induction j, later using Nat.le_induction with
  | base => exact .refl _
  | succ j _ ih => exact ih.trans (accepting.edges j).reaches

theorem Accepting.lt_size (accepting : p.Accepting ρ) (i : Nat) : ρ i < p.size := by
  simpa using (accepting.edges i).source_lt_size

theorem Accepting.reached (accepting : p.Accepting ρ) (i : Nat) :
    p.digraph.Reached p.initial.toList (ρ i) :=
  ⟨ρ 0, Array.mem_toList_iff.mpr accepting.initial, (accepting.edges 0).source_lt_size,
    accepting.reaches (Nat.zero_le i)⟩

/-- Some node is visited again and again, since there are only finitely many. -/
theorem Accepting.recurs (accepting : p.Accepting ρ) : ∃ v, ∀ i, ∃ j, i ≤ j ∧ ρ j = v := by
  obtain ⟨v, infinite⟩ := Finite.exists_infinite_fiber fun i : Nat =>
    (⟨ρ i, accepting.lt_size i⟩ : Fin p.size)
  refine ⟨v, fun i => ?_⟩
  obtain ⟨j, same, later⟩ := (Set.infinite_coe_iff.mp infinite).exists_gt i
  exact ⟨j, later.le, congrArg Fin.val same⟩

/-- Such a path stays, from some moment on, in a violating component. -/
theorem Accepting.exists_violating (accepting : p.Accepting ρ) :
    ∃ c ∈ p.reachableComponents, p.isViolating c = true := by
  obtain ⟨v, recurs⟩ := accepting.recurs
  obtain ⟨start, _, rfl⟩ := recurs 0
  obtain ⟨c, member, here⟩ :=
    ((p.digraph.components_decomposed p.initial.toList).covers _).mpr (accepting.reached start)
  have component := Digraph.isComponent_of_mem member
  have stays {i : Nat} (later : start ≤ i) : ρ i ∈ c.nodes := by
    obtain ⟨j, latest, same⟩ := recurs i
    exact mem_of_between component here here (accepting.reaches later)
      (same ▸ accepting.reaches latest)
  have fulfilling : p.Fulfilling c := by
    intro promise bound
    obtain ⟨j, later, fulfilled⟩ := accepting.fulfilled promise bound start
    exact ⟨ρ j, stays later, fulfilled⟩
  refine ⟨c, mem_reachableComponents_violating_iff.mpr ⟨component, ?_, ?_, fulfilling⟩⟩
  · exact ⟨ρ start, here, accepting.reached start⟩
  · exact ⟨ρ start, here, ρ (start + 1), stays (Nat.le_succ start), accepting.edges start⟩

end Product

namespace Component

variable {c d : Component} {sorted : List Component} {v w : Nat}

theorem least?_eq_some (c : Component) (nonempty : c.nodes ≠ []) :
    ∃ v, c.least? = some v ∧ v ∈ c.nodes ∧ ∀ w ∈ c.nodes, v ≤ w := by
  obtain ⟨nodes, ascending⟩ := c
  cases nodes with
  | nil => contradiction
  | cons v rest =>
    refine ⟨v, rfl, List.mem_cons_self, ?_⟩
    intro w member
    rw [List.pairwise_cons] at ascending
    rcases List.mem_cons.mp member with rfl | later
    · exact le_rfl
    · exact (ascending.1 w later).le

theorem perm_insertByLeast (c : Component) (sorted : List Component) :
    (c.insertByLeast sorted).Perm (c :: sorted) := by
  induction sorted with
  | nil => exact .refl _
  | cons d rest ih =>
    unfold insertByLeast
    split
    · exact (ih.cons d).trans (.swap c d rest)
    · exact .refl _

theorem pairwise_insertByLeast
    (order : sorted.Pairwise fun c d => c.least?.getD 0 ≤ d.least?.getD 0) :
    (c.insertByLeast sorted).Pairwise fun c d => c.least?.getD 0 ≤ d.least?.getD 0 := by
  induction sorted with
  | nil => simp [insertByLeast]
  | cons d rest ih =>
    rw [List.pairwise_cons] at order
    unfold insertByLeast
    split
    · next before =>
      refine List.pairwise_cons.mpr ⟨?_, ih order.2⟩
      intro e member
      rcases List.mem_cons.mp ((perm_insertByLeast c rest).mem_iff.mp member) with rfl | later
      · exact before
      · exact order.1 e later
    · next after =>
      refine List.pairwise_cons.mpr ⟨?_, List.pairwise_cons.mpr order⟩
      intro e member
      rcases List.mem_cons.mp member with rfl | later
      · omega
      · have := order.1 e later
        omega

end Component

namespace Detector

variable {p : Product State} {d : Detector} {report : ScanReport}

/-- A scan that is made reports the same as a first scan. -/
theorem scan_due (due : d.lastScanned ≠ some p.generation) :
    d.scan p = ((({} : Detector).scan p).1, ⟨some p.generation, d.scans + 1⟩) := by
  simp [scan, due]

theorem scan_skipped (last : d.lastScanned = some p.generation) : d.scan p = (none, d) :=
  if_pos last

theorem exists_first_scan (p : Product State) :
    ∃ report, (({} : Detector).scan p).1 = some report := by
  simp [scan]

/-- A scan that is made was due. -/
theorem due_of_scan {d' : Detector} (made : d.scan p = (some report, d')) :
    d.lastScanned ≠ some p.generation := by
  intro last
  simp [scan_skipped last] at made

theorem lastScanned_of_scan {d' : Detector} (made : d.scan p = (some report, d')) :
    d'.lastScanned = some p.generation := by
  rw [scan_due (due_of_scan made)] at made
  exact (Prod.mk.inj made).2 ▸ rfl

theorem first_scan_of_scan {d' : Detector} (made : d.scan p = (some report, d')) :
    (({} : Detector).scan p).1 = some report := by
  rw [scan_due (due_of_scan made)] at made
  exact (Prod.mk.inj made).1

theorem lastScanned_of_skipped (skipped : (d.scan p).1 = none) :
    d.lastScanned = some p.generation := by
  by_contra due
  obtain ⟨report, first⟩ := exists_first_scan p
  simp [scan_due due, first] at skipped

/-- A scan that is made reports the violating components, by ascending least node. -/
theorem violating_spec {d' : Detector} (scanned : d.scan p = (some report, d')) :
    report.violating.Perm (p.reachableComponents.filter p.isViolating) ∧
      report.violating.Pairwise fun c d => c.least?.getD 0 ≤ d.least?.getD 0 := by
  have sorted (cs acc : List Component)
      (order : acc.Pairwise fun c d => c.least?.getD 0 ≤ d.least?.getD 0) :
      (cs.foldl (fun sorted c => c.insertByLeast sorted) acc).Perm (cs ++ acc) ∧
        (cs.foldl (fun sorted c => c.insertByLeast sorted) acc).Pairwise
          fun c d => c.least?.getD 0 ≤ d.least?.getD 0 := by
    induction cs generalizing acc with
    | nil => exact ⟨.refl _, order⟩
    | cons c rest ih =>
      obtain ⟨perm, order⟩ := ih (c.insertByLeast acc) (Component.pairwise_insertByLeast order)
      refine ⟨perm.trans ?_, order⟩
      exact ((Component.perm_insertByLeast c acc).append_left rest).trans List.perm_middle
  unfold scan at scanned
  split at scanned
  · simp at scanned
  · obtain ⟨same, _⟩ := Prod.mk.inj scanned
    obtain rfl := Option.some.inj same
    simpa using sorted (p.reachableComponents.filter p.isViolating) [] .nil

theorem mem_violating {d' : Detector} (scanned : d.scan p = (some report, d')) (c : Component) :
    c ∈ report.violating ↔ c ∈ p.reachableComponents ∧ p.isViolating c = true := by
  rw [(violating_spec scanned).1.mem_iff, List.mem_filter]

end Detector
end TemporalCheck
