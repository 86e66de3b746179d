import TemporalCheck.Proofs.Formula.Occurrence
import TemporalCheck.Proofs.Tableau.Loop

/-! Numbers as stand-ins for formulas. A table hands out numbers as formulas are interned, and more
as sets of numbers are expanded; a number keeps its formula for ever, and no formula has two. -/
namespace TemporalCheck

namespace Formula

/-- Negations stand on atoms only. -/
def Legible (f : Formula) : Prop := f.isPositive = true ∧ ∀ b, .not (.const b) ∉ f.subformulas

variable {f g : Formula}

theorem Legible.child (legible : f.Legible) (child : g ∈ f.children) : g.Legible := by
  have inside (h : Formula) (part : h ∈ g.subformulas) : h ∈ f.subformulas :=
    mem_subformulas_children.mpr (.inr ⟨g, child, part⟩)
  refine ⟨List.all_eq_true.mpr fun h part => ?_, fun b part => legible.2 b (inside _ part)⟩
  exact List.all_eq_true.mp legible.1 h (inside h part)

/-- There is nothing left to push down. -/
theorem Legible.pushNegation (legible : f.Legible) : f.pushNegation = f := by
  induction f using induction_children with
  | step f ih =>
    have below : (f.children.map (normal true)).map NormalForm.toFormula = f.children := by
      rw [List.map_map]
      exact (List.map_congr_left fun g child => ih g child (legible.child child)).trans
        (List.map_id _)
    cases f with
    | const b => simp [Formula.pushNegation, normal, NormalForm.toFormula]
    | atom a => cases a <;> rfl
    | not g =>
      have shape := List.all_eq_true.mp legible.1 (.not g) (by simp [subformulas])
      cases g with
      | const b => exact absurd (by simp [subformulas]) (legible.2 b)
      | atom a => cases a <;> rfl
      | _ => contradiction
    | and fs | or fs =>
      simpa [Formula.pushNegation, normal, normals_eq_map, NormalForm.toFormula,
        NormalForm.toFormulas_eq_map, children] using below
    | always g | eventually g | next g =>
      simpa [Formula.pushNegation, normal, NormalForm.toFormula, children] using below

end Formula

namespace FormulaTable

def Call.interned : List Call → List Formula
  | [] => []
  | .intern f :: calls => f :: interned calls
  | .expand _ :: calls => interned calls

def Proper (t : FormulaTable) : List Call → Prop
  | [] => True
  | .intern f :: calls =>
    f.Legible ∧ ∀ id t', t.intern f = .ok (id, t') → Proper t' calls
  | .expand seed :: calls =>
    (∀ id ∈ seed, id < t.size) ∧ ∀ found t', t.particles seed = some (found, t') → Proper t' calls

structure Faithful (t : FormulaTable) (issued : List (Formula × FormulaId)) : Prop where
  spelled : ∀ f id, (f, id) ∈ issued → t.formula? id = some f
  same : ∀ f id g id', (f, id) ∈ issued → (g, id') ∈ issued → (id = id' ↔ f = g)
  parts : ∀ id layer, t.layer? id = some layer → ∀ part ∈ layer.parts, part < id
  whole : ∀ id < t.size, ∃ f, t.formula? id = some f
  kept : ∀ calls, t.Proper calls → ∃ issued' t', t.perform calls = some (issued', t') ∧
    ∀ id < t.size, t'.formula? id = t.formula? id
  closure : ∃ c : Closure, c.Grown ∧ t = c.table

end FormulaTable

namespace Closure

variable {c : Closure}

structure Performs (c : Closure) (calls : List FormulaTable.Call)
    (issued : List (Formula × FormulaId)) (d : Closure) : Prop where
  outcome : c.table.perform calls = some (issued, d.table)
  grown : d.Grown
  within : c.Within d
  order : issued.map Prod.fst = FormulaTable.Call.interned calls
  numbers : ∀ f id, (f, id) ∈ issued → (d.formula? id).map NormalForm.toFormula = some f

/-- Proper calls succeed, and find the table of a closure behind them. -/
theorem exists_performs (grown : c.Grown) {calls : List FormulaTable.Call}
    (proper : c.table.Proper calls) : ∃ issued d, c.Performs calls issued d := by
  induction calls generalizing c with
  | nil => exact ⟨[], c, rfl, grown, .refl c, rfl, by simp⟩
  | cons call calls ih =>
    have layered := grown.layered
    cases call with
    | intern f =>
      obtain ⟨legible, proper⟩ := proper
      have interned := intern_interned (f.normal true) layered
      have table := interned.table
      rw [show (f.normal true).toFormula = f from legible.pushNegation] at table
      obtain ⟨issued, d, performs⟩ := ih (grown.intern _) (proper _ _ table)
      refine ⟨(f, (c.intern (f.normal true)).1) :: issued, d, ?_, performs.grown,
        interned.within.trans performs.within, ?_, ?_⟩
      · simp [FormulaTable.perform, table, performs.outcome, Except.toOption]
      · rw [List.map_cons, performs.order, FormulaTable.Call.interned]
      · intro g id member
        rcases List.mem_cons.mp member with same | later
        · obtain ⟨rfl, rfl⟩ := Prod.mk.inj same
          rw [performs.within _ _ interned.number, Option.map_some]
          exact congrArg some legible.pushNegation
        · exact performs.numbers g id later
    | expand seed =>
      obtain ⟨numbers, proper⟩ := proper
      rw [size_table] at numbers
      obtain ⟨fs, names⟩ := exists_names numbers
      have table := particles_table layered names
      obtain ⟨issued, d, performs⟩ := ih (grown.expand fs names.listed) (proper _ _ table)
      refine ⟨issued, d, ?_, performs.grown, ?_, performs.order, performs.numbers⟩
      · simp [FormulaTable.perform, table, performs.outcome]
      · exact (particles_spec layered.distinct fs).within.trans performs.within

end Closure

namespace FormulaTable

/-- The table of a closure is faithful to the numbers that stand for formulas of the closure. -/
theorem faithful_table {c : Closure} (grown : c.Grown) {issued : List (Formula × FormulaId)}
    (numbers : ∀ f id, (f, id) ∈ issued → (c.formula? id).map NormalForm.toFormula = some f) :
    c.table.Faithful issued := by
  have layered := grown.layered
  constructor
  case spelled =>
    intro f id member
    rw [Closure.formula?_table layered, numbers f id member]
  case same =>
    intro f id g id' here there
    have at_id := numbers f id here
    have at_id' := numbers g id' there
    constructor
    · rintro rfl
      exact Option.some.inj (at_id.symm.trans at_id')
    · rintro rfl
      obtain ⟨n, found, spelled⟩ := Option.map_eq_some_iff.mp at_id
      obtain ⟨m, found', spelled'⟩ := Option.map_eq_some_iff.mp at_id'
      obtain rfl := NormalForm.toFormula_injective (spelled.trans spelled'.symm)
      exact layered.distinct id id' n found found'
  case parts =>
    intro id layer at_id part member
    rw [Closure.layer?_table] at at_id
    obtain ⟨f, found, rfl⟩ := Option.map_eq_some_iff.mp at_id
    rw [Closure.parts_layer] at member
    obtain ⟨g, child, rfl⟩ := List.mem_map.mp member
    obtain ⟨j, before, at_j⟩ := layered.parts id f found g child
    rwa [Closure.numberOf_eq layered.distinct at_j]
  case whole =>
    intro id bound
    rw [Closure.size_table] at bound
    obtain ⟨f, found⟩ := Closure.lt_size_iff.mp bound
    exact ⟨f.toFormula, by rw [Closure.formula?_table layered, found, Option.map_some]⟩
  case kept =>
    intro calls proper
    obtain ⟨issued', d, performs⟩ := Closure.exists_performs grown proper
    refine ⟨issued', d.table, performs.outcome, fun id bound => ?_⟩
    rw [Closure.size_table] at bound
    obtain ⟨f, found⟩ := Closure.lt_size_iff.mp bound
    rw [Closure.formula?_table layered, Closure.formula?_table performs.grown.layered, found,
      performs.within id f found]
  case closure => exact ⟨c, grown, rfl⟩

/-- Whatever is interned and expanded on the way, the numbers that are given out for formulas stand
for these formulas and no others, and go on doing so. -/
theorem perform_faithful {calls : List Call} (proper : Proper {} calls) :
    ∃ issued t, perform {} calls = some (issued, t) ∧
      issued.map Prod.fst = Call.interned calls ∧ t.Faithful issued := by
  obtain ⟨issued, d, performs⟩ := Closure.exists_performs .empty (Closure.table_empty ▸ proper)
  rw [← Closure.table_empty]
  exact ⟨issued, d.table, performs.outcome, performs.order,
    faithful_table performs.grown performs.numbers⟩

/-- The expansion puts off the lamp being on; that formula is interned afterwards as it stands. -/
theorem perform_faithful_lamp :
    let lit : Formula := .eventually (.atom (.state 0))
    let calls : List Call :=
      [.intern (.always lit), .expand [2], .intern lit, .intern (.next lit)]
    ∃ issued t, perform {} calls = some (issued, t) ∧
      issued.map Prod.fst = [.always lit, lit, .next lit] ∧ t.Faithful issued := by
  intro lit calls
  have first : intern {} (.always lit) =
      .ok (2, ⟨#[.state ⟨0, true⟩, .eventually 0, .always 1]⟩) := by decide +kernel
  have proper : Proper {} calls := by
    refine ⟨⟨by decide, by decide⟩, fun id t interned => ?_⟩
    obtain ⟨rfl, rfl⟩ := Prod.mk.inj (Except.ok.inj (first.symm.trans interned))
    refine ⟨by decide, fun found t expanded => ⟨⟨by decide, by decide⟩, fun id t interned => ?_⟩⟩
    exact ⟨⟨by decide, by decide⟩, fun id t interned => trivial⟩
  exact perform_faithful proper

end FormulaTable
end TemporalCheck
