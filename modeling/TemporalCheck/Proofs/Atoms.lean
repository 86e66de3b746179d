import TemporalCheck.Proofs.Tableau.Acceptance

/-! The predicates that a formula asks. Its normal form asks no others, and neither does a
tableau. -/
namespace TemporalCheck

def Formula.Asks (f : Formula) (a : Atom) : Prop := .atom a ∈ f.subformulas

namespace Formula

variable {a b : Atom} {f g : Formula} {fs : List Formula}

theorem mem_allSubformulas {g : Formula} :
    g ∈ allSubformulas fs ↔ ∃ f ∈ fs, g ∈ f.subformulas := by
  induction fs with
  | nil => simp [allSubformulas]
  | cons f fs ih => simp [allSubformulas, ih]

/-- Another formula than the atom asks what its parts ask. -/
theorem asks_iff_mem {parts : List Formula} (listed : f.subformulas = f :: parts)
    (differs : .atom a ≠ f) : f.Asks a ↔ .atom a ∈ parts := by
  rw [Asks, listed, List.mem_cons, or_iff_right differs]

@[simp] theorem asks_const {value : Bool} : ¬(Formula.const value).Asks a :=
  (asks_iff_mem (f := .const value) rfl nofun).not.mpr List.not_mem_nil

@[simp] theorem asks_atom : (Formula.atom b).Asks a ↔ a = b :=
  List.mem_singleton.trans (atom.injEq a b).to_iff

@[simp] theorem asks_not : (Formula.not f).Asks a ↔ f.Asks a := asks_iff_mem rfl nofun

@[simp] theorem asks_and : (Formula.and fs).Asks a ↔ ∃ f ∈ fs, f.Asks a :=
  (asks_iff_mem (f := .and fs) rfl nofun).trans mem_allSubformulas

@[simp] theorem asks_or : (Formula.or fs).Asks a ↔ ∃ f ∈ fs, f.Asks a :=
  (asks_iff_mem (f := .or fs) rfl nofun).trans mem_allSubformulas

@[simp] theorem asks_always : (Formula.always f).Asks a ↔ f.Asks a := asks_iff_mem rfl nofun

@[simp] theorem asks_eventually : (Formula.eventually f).Asks a ↔ f.Asks a := asks_iff_mem rfl nofun

@[simp] theorem asks_next : (Formula.next f).Asks a ↔ f.Asks a := asks_iff_mem rfl nofun

@[simp] theorem asks_negate : f.negate.Asks a ↔ f.Asks a := by
  cases f <;> simp [negate]

@[simp] theorem asks_conj : (conj fs).Asks a ↔ ∃ f ∈ fs, f.Asks a := by
  match fs with
  | [] => simp [conj]
  | [f] => simp [conj]
  | f :: g :: fs => simp [conj]

end Formula

def NormalForm.Asks (f : NormalForm) (a : Atom) : Prop := f.toFormula.Asks a

namespace NormalForm

variable {a : Atom} {f : NormalForm} {fs : List NormalForm} {l : Literal}

@[simp] theorem asks_const {value : Bool} : ¬(NormalForm.const value).Asks a := by
  simp [Asks, toFormula]

@[simp] theorem asks_state : (NormalForm.state l).Asks a ↔ a = .state l.predicate := by
  cases h : l.positive <;> simp [Asks, toFormula, h]

@[simp] theorem asks_action : (NormalForm.action l).Asks a ↔ a = .action l.predicate := by
  cases h : l.positive <;> simp [Asks, toFormula, h]

@[simp] theorem asks_and : (NormalForm.and fs).Asks a ↔ ∃ f ∈ fs, f.Asks a := by
  simp [Asks, toFormula, toFormulas_eq_map]

@[simp] theorem asks_or : (NormalForm.or fs).Asks a ↔ ∃ f ∈ fs, f.Asks a := by
  simp [Asks, toFormula, toFormulas_eq_map]

@[simp] theorem asks_always : (NormalForm.always f).Asks a ↔ f.Asks a := by
  simp [Asks, toFormula]

@[simp] theorem asks_eventually : (NormalForm.eventually f).Asks a ↔ f.Asks a := by
  simp [Asks, toFormula]

@[simp] theorem asks_next : (NormalForm.next f).Asks a ↔ f.Asks a := by
  simp [Asks, toFormula]

end NormalForm

namespace Formula

variable {a : Atom}

mutual
theorem asks_of_asks_normal (sign : Bool) : ∀ f : Formula, (f.normal sign).Asks a → f.Asks a
  | .const b => by simp [normal]
  | .atom (.state p) => by simp [normal]
  | .atom (.action p) => by simp [normal]
  | .not f => by simpa [normal] using asks_of_asks_normal _ f
  | .and fs => by cases sign <;> simpa [normal, normals_eq_map] using asks_of_asks_normals _ fs
  | .or fs => by cases sign <;> simpa [normal, normals_eq_map] using asks_of_asks_normals _ fs
  | .always f => by cases sign <;> simpa [normal] using asks_of_asks_normal _ f
  | .eventually f => by cases sign <;> simpa [normal] using asks_of_asks_normal _ f
  | .next f => by simpa [normal] using asks_of_asks_normal _ f

theorem asks_of_asks_normals (sign : Bool) : ∀ fs : List Formula,
    ∀ f ∈ fs, (f.normal sign).Asks a → ∃ g ∈ fs, g.Asks a
  | [] => by simp
  | f :: fs => by
    rintro g (_ | ⟨_, member⟩) asks
    · exact ⟨f, List.mem_cons_self, asks_of_asks_normal sign f asks⟩
    · obtain ⟨h, member, asks⟩ := asks_of_asks_normals sign fs g member asks
      exact ⟨h, List.mem_cons_of_mem _ member, asks⟩
end

end Formula

/-- The normal forms that ask only these atoms are closed. -/
theorem closed_asks (A : Set Atom) : Closed {f : NormalForm | ∀ a, f.Asks a → a ∈ A} where
  demand := by
    intro f within g offered a asks
    refine within a ?_
    cases f with
    | const b => cases b <;> simp [NormalForm.demand, Demand.formulas] at offered
    | state | action | next => simp [NormalForm.demand, Demand.formulas] at offered
    | and fs =>
      rw [NormalForm.asks_and]
      exact ⟨g, by simpa [NormalForm.demand, Demand.formulas] using offered, asks⟩
    | or fs =>
      rw [NormalForm.asks_or]
      exact ⟨g, by simpa [NormalForm.demand, Demand.formulas] using offered, asks⟩
    | always f | eventually f =>
      rcases (by simpa [NormalForm.demand, Demand.formulas] using offered) with rfl | rfl
      · simpa using asks
      · simpa using asks
  next := fun f within a asks => within a (by simpa using asks)

namespace Tableau

theorem asks_counterexample {fairness : Option Formula} {property : Formula} {a : Atom}
    (asks : (counterexample fairness property).Asks a) :
    (∃ f ∈ fairness, f.Asks a) ∨ property.Asks a := by
  cases fairness with
  | none => exact .inr (by simpa using Formula.asks_of_asks_normal true _ asks)
  | some f => simpa using Formula.asks_of_asks_normal true _ asks

/-- The literals of a tableau ask only what the property and the assumption ask. -/
theorem asks_of_build {fairness : Option Formula} {property : Formula} {t : Tableau}
    (built : build fairness property = .ok t) {node : Node} (member : node ∈ t.nodes) :
    (∀ l ∈ node.state, (∃ f ∈ fairness, f.Asks (.state l.predicate)) ∨
      property.Asks (.state l.predicate)) ∧
    ∀ l ∈ node.action, (∃ f ∈ fairness, f.Asks (.action l.predicate)) ∨
      property.Asks (.action l.predicate) := by
  obtain ⟨faithful, negated⟩ := build_faithful built
  have inside := faithful.inside _
    (closed_asks {a | (∃ f ∈ fairness, f.Asks a) ∨ property.Asks a})
    (fun a asks => asks_counterexample (negated ▸ asks)) node member
  constructor
  · intro l listed
    exact inside ((faithful.state node member l).mp listed) _ (by simp)
  · intro l listed
    exact inside ((faithful.action node member l).mp listed) _ (by simp)

end Tableau
end TemporalCheck
