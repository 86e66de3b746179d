import TemporalCheck.Proofs.Lasso
import TemporalCheck.Proofs.Product.Lasso

/-! A scan decides whether there is an infinite path from an initial node that fulfils every promise
again and again: such a path ends up in a violating component, and around a violating component
there is a lasso of nodes, which goes on for ever. -/
namespace TemporalCheck

variable {State : Type}

namespace Product

variable {p : Product State} {c : Component}

/-- The nodes on a lasso of nodes, in the order in which a behaviour passes them. -/
theorem Loops.accepting {component : Component} {stem cycle : List NodeId}
    (loops : p.Loops component stem cycle) :
    ∃ ρ, p.Accepting ρ ∧ ∀ i, unrolled stem cycle i = some (ρ i) := by
  have joint : Joint stem cycle := ⟨loops.joint, loops.long⟩
  have steps := unrolled_step joint loops.stemEdges loops.cycleEdges
  choose ρ ρ' at_i at_next edge using steps
  refine ⟨ρ, ⟨?_, fun i => ?_, fun promise bound i => ?_⟩, at_i⟩
  · obtain ⟨v, initial, head⟩ := loops.starts
    have first := at_i 0
    rw [unrolled_zero joint, head] at first
    exact Option.some.inj first ▸ initial
  · have same : ρ' i = ρ (i + 1) := Option.some.inj ((at_next i).symm.trans (at_i (i + 1)))
    exact same ▸ edge i
  · obtain ⟨v, member, fulfilled⟩ := loops.fulfilled promise bound
    obtain ⟨j, later, here⟩ := unrolled_again joint member i
    exact ⟨j, later, Option.some.inj (here.symm.trans (at_i j)) ▸ fulfilled⟩

theorem exists_accepting_of_violating (member : c ∈ p.reachableComponents)
    (violating : p.isViolating c = true) : ∃ ρ, p.Accepting ρ := by
  obtain ⟨_, ⟨v, here, reached⟩, _, fulfilling⟩ :=
    mem_reachableComponents_violating_iff.mp ⟨member, violating⟩
  obtain ⟨stem, r, cycle, way, last, around⟩ :=
    exists_loops (joined_of_violating member violating) fulfilling here reached
  obtain ⟨ρ, accepting, _⟩ := (loops_of_found way last around).accepting
  exact ⟨ρ, accepting⟩

theorem exists_violating_iff :
    (∃ c ∈ p.reachableComponents, p.isViolating c = true) ↔ ∃ ρ, p.Accepting ρ := by
  constructor
  · intro ⟨c, member, violating⟩
    exact exists_accepting_of_violating member violating
  · intro ⟨ρ, accepting⟩
    exact accepting.exists_violating

end Product

namespace Detector

/-- A scan that is due reports exactly the violating components, by ascending least node, and it
reports none just when no path fulfils every promise again and again. -/
theorem scan_decides (d : Detector) (p : Product State)
    (due : d.lastScanned ≠ some p.generation) :
    ∃ report, (d.scan p).1 = some report ∧
      (report.violating ≠ [] ↔ ∃ ρ, p.Accepting ρ) ∧
      (∀ c, c ∈ report.violating ↔ p.digraph.IsComponent c ∧
        (∃ v ∈ c.nodes, p.digraph.Reached p.initial.toList v) ∧
        (∃ u ∈ c.nodes, ∃ v ∈ c.nodes, p.digraph.Edge u v) ∧ p.Fulfilling c) ∧
      report.violating.Pairwise fun c c' =>
        ∃ v ∈ c.nodes, (∀ u ∈ c.nodes, v ≤ u) ∧ ∀ w ∈ c'.nodes, v < w := by
  obtain ⟨report, d', scanned⟩ : ∃ report d', d.scan p = (some report, d') := by
    simp [scan, due]
  have members := mem_violating scanned
  obtain ⟨perm, order⟩ := violating_spec scanned
  refine ⟨report, by rw [scanned], ?_, ?_, ?_⟩
  · rw [← Product.exists_violating_iff, ← List.length_pos_iff, List.length_pos_iff_exists_mem]
    exact exists_congr members
  · intro c
    rw [members, Product.mem_reachableComponents_violating_iff]
  · have distinct : report.violating.Nodup :=
      perm.nodup_iff.mpr ((p.digraph.nodup_components p.initial.toList).filter _)
    refine (order.and distinct).imp_of_mem ?_
    rintro c c' member member' ⟨ordered, other⟩
    have component := Digraph.isComponent_of_mem ((members c).mp member).1
    have component' := Digraph.isComponent_of_mem ((members c').mp member').1
    obtain ⟨v, least, here, below⟩ := c.least?_eq_some component.nonempty
    obtain ⟨w, least', here', below'⟩ := c'.least?_eq_some component'.nonempty
    rw [least, least', Option.getD_some, Option.getD_some] at ordered
    have apart : v ≠ w := by
      intro same
      exact other (component.eq_of_mem component' here (same ▸ here'))
    refine ⟨v, here, below, ?_⟩
    intro u inside
    have := below' u inside
    omega

section Swing

def oneOfTwo : Tableau :=
  .ofNodes (.const false) (.const true) {}
    #[⟨[], [], [], [0], [0, 1], 0, 0⟩, ⟨[], [], [], [], [0, 1], 0, 0⟩] [1] [0]

/-- The initial node can stay where it is, which fulfils nothing, or go on to two others that lead
to each other. -/
def swing : Product Bool where
  tableau := oneOfTwo
  nodes := #[⟨⟨0, 1⟩, #[0, 1], true⟩, ⟨⟨1, 0⟩, #[2], false⟩, ⟨⟨0, 0⟩, #[1], false⟩]
  initial := #[0]

theorem scan_decides_swing :
    ({} : Detector).lastScanned ≠ some swing.generation ∧
      ((({} : Detector).scan swing).1.map fun report => report.violating.map (·.nodes)) =
        some [[1, 2]] ∧
      ∃ ρ, swing.Accepting ρ := by
  have found : ((({} : Detector).scan swing).1.map fun report =>
      report.violating.map (·.nodes)) = some [[1, 2]] := by decide +kernel
  have due : ({} : Detector).lastScanned ≠ some swing.generation := by simp
  refine ⟨due, found, ?_⟩
  obtain ⟨report, scanned, decides, _⟩ := scan_decides {} swing due
  apply decides.mp
  intro none
  simp [scanned, none] at found

end Swing

end Detector
end TemporalCheck
