import TemporalCheck.Proofs.Monitor.Exact
import TemporalCheck.Proofs.Product.Calls
import TemporalCheck.Proofs.Product.Scan

/-! What becomes of a violation when the product grows. Paths, initial nodes and fulfilled promises
stay, so that a violating component lies inside one of the grown product, which may have taken in
others and nodes between them. -/
namespace TemporalCheck

variable {State : Type}

namespace Product

variable {p q : Product State} {u v : NodeId} {c : Component}

section Grown

variable (within : p.Within q)
include within

theorem Within.edge (edge : p.digraph.Edge u v) : q.digraph.Edge u v := by
  rw [edge_iff_of_lt] at edge ⊢
  exact ⟨within.mem_successors edge.1, edge.2.trans_le within.size_le⟩

theorem Within.reaches (path : p.digraph.Reaches u v) : q.digraph.Reaches u v :=
  Relation.ReflTransGen.mono (fun _ _ => within.edge) _ _ path

theorem Within.connected (connected : p.digraph.Connected u v) : q.digraph.Connected u v :=
  ⟨within.reaches connected.1, within.reaches connected.2⟩

theorem Within.reached (reached : p.digraph.Reached p.initial.toList v) :
    q.digraph.Reached q.initial.toList v := by
  obtain ⟨r, initial, bound, path⟩ := reached
  rw [size_digraph] at bound
  refine ⟨r, within.initial.subset initial, ?_, within.reaches path⟩
  rw [size_digraph]
  exact bound.trans_le within.size_le

theorem Within.fulfils {promise : Nat} (fulfilled : p.fulfils v promise = true) :
    q.fulfils v promise = true := by
  unfold Product.fulfils tableauOf? at fulfilled ⊢
  cases at_v : p.nodes[v]? with
  | none => simp [at_v] at fulfilled
  | some a =>
    obtain ⟨b, at_v', later⟩ := within.nodes v a at_v
    simpa [at_v, at_v', later.key, within.tableau] using fulfilled

/-- The component of the grown product around any node of a violating one is violating and holds all
of its nodes. -/
theorem Within.exists_violating (member : c ∈ p.reachableComponents)
    (violating : p.isViolating c = true) :
    ∃ larger ∈ q.reachableComponents, q.isViolating larger = true ∧
      ∀ v ∈ c.nodes, v ∈ larger.nodes := by
  obtain ⟨component, ⟨x, here, reached⟩, ⟨u, hereU, v, hereV, edge⟩, fulfilling⟩ :=
    mem_reachableComponents_violating_iff.mp ⟨member, violating⟩
  have reached' := within.reached reached
  obtain ⟨larger, member', here'⟩ :=
    ((q.digraph.components_decomposed q.initial.toList).covers x).mpr reached'
  have component' := Digraph.isComponent_of_mem member'
  have inside {y : NodeId} (hereY : y ∈ c.nodes) : y ∈ larger.nodes :=
    (component'.classes x here' y).mpr
      (within.connected ((component.classes x here y).mp hereY))
  refine ⟨larger, member', (mem_reachableComponents_violating_iff.mpr ⟨component',
    ⟨x, here', reached'⟩, ⟨u, inside hereU, v, inside hereV, within.edge edge⟩, ?_⟩).2,
    fun y => inside⟩
  intro promise bound
  rw [within.tableau] at bound
  obtain ⟨y, hereY, fulfilled⟩ := fulfilling promise bound
  exact ⟨y, inside hereY, within.fulfils fulfilled⟩

end Grown

end Product

namespace Detector

open Product (Call)

/-- Whatever calls a product is grown by after a scan, each violating component that the scan has
reported lies inside one that a scan of the grown product reports, by the same detector or by
another. The same detector leaves that scan out only where the calls have changed nothing. -/
theorem scan_grow (t : Tableau) (calls later : List (Call State)) (d : Detector)
    (report : ScanReport) :
    let p := ({ tableau := t } : Product State).grow calls
    let q := p.grow later
    (d.scan p).1 = some report →
      (∀ d' : Detector, d'.lastScanned ≠ some q.generation →
        ∃ report', (d'.scan q).1 = some report' ∧
          ∀ c ∈ report.violating, ∃ c' ∈ report'.violating, ∀ v ∈ c.nodes, v ∈ c'.nodes) ∧
      (((d.scan p).2.scan q).1 = none → q = p) := by
  intro p q scanned
  have valid : p.Valid := Product.valid_grow t calls
  have becomes : p.Becomes q := ⟨later, rfl⟩
  refine ⟨fun d' due => ?_, fun skipped => ?_⟩
  · obtain ⟨report', d'', scanned'⟩ : ∃ report' d'', d'.scan q = (some report', d'') := by
      simp [scan, due]
    refine ⟨report', congrArg Prod.fst scanned', fun c member => ?_⟩
    obtain ⟨member, violating⟩ := (mem_violating (Prod.ext scanned rfl) c).mp member
    obtain ⟨c', member', violating', inside⟩ :=
      (becomes.within valid).2.exists_violating member violating
    exact ⟨c', (mem_violating scanned' c').mpr ⟨member', violating'⟩, inside⟩
  · have before := lastScanned_of_scan (Prod.ext scanned rfl : d.scan p = (some report, _))
    have same : p.generation = q.generation :=
      Option.some.inj (before.symm.trans (lastScanned_of_skipped skipped))
    exact becomes.eq_of_generation valid same

section Merging

open Monitor (anything lamp)

/-- Two states that lead to themselves only, until a step from each to the other becomes known: then
the components of both become one. -/
theorem scan_grow_merged :
    let p := ({ tableau := anything } : Product Bool).grow [
      .extendInitial lamp {} [⟨0, false⟩, ⟨1, true⟩], .extend lamp {} 0 [⟨0, false⟩],
      .extend lamp {} 1 [⟨1, true⟩]]
    let q := p.grow [.extend lamp {} 0 [⟨1, true⟩], .extend lamp {} 1 [⟨0, false⟩]]
    ∃ report report', (({} : Detector).scan p).1 = some report ∧
      ({} : Detector).lastScanned ≠ some q.generation ∧
      report.violating.map (·.nodes) = [[0], [1]] ∧ (({} : Detector).scan q).1 = some report' ∧
      ∀ c ∈ report.violating, ∃ c' ∈ report'.violating, ∀ v ∈ c.nodes, v ∈ c'.nodes := by
  intro p q
  have apart : (({} : Detector).scan p).1.map (fun report => report.violating.map (·.nodes)) =
      some [[0], [1]] := by decide +kernel
  obtain ⟨report, scanned, nodes⟩ := Option.map_eq_some_iff.mp apart
  have due : ({} : Detector).lastScanned ≠ some q.generation := by simp
  obtain ⟨report', scanned', inside⟩ := (scan_grow anything _ _ {} report scanned).1 {} due
  exact ⟨report, report', scanned, due, nodes, scanned', inside⟩

end Merging

end Detector
end TemporalCheck
