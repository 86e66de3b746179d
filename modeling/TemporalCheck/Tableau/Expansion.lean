import TemporalCheck.Ascending
import TemporalCheck.Tableau.Closure

/-! Particles: the ways to make a set of formulas hold now. A formula asks either for all of some
formulas or for any one of them, now or at the next position; a particle is a set without
contradiction in which every member has what it asks for. -/
namespace TemporalCheck

/-- A set of formulas of a closure, by ascending number. -/
abbrev Particle := List FormulaId

/-- What a formula asks for in order to hold. -/
inductive Demand where
  | all (fs : List NormalForm)
  | any (fs : List NormalForm)
deriving DecidableEq

namespace Demand

def formulas : Demand → List NormalForm
  | .all fs | .any fs => fs

end Demand

namespace NormalForm

def demand : NormalForm → Demand
  | .const true => .all []
  | .const false => .any []
  | .state _ | .action _ | .next _ => .all []
  | .and fs => .all fs
  | .or fs => .any fs
  | .always f => .all [f, .next (.always f)]
  | .eventually f => .any [f, .next (.eventually f)]

/-- The literal that cannot hold together with this one. -/
def opposite? : NormalForm → Option NormalForm
  | .state l => some (.state l.opposite)
  | .action l => some (.action l.opposite)
  | _ => none

mutual
/-- How much there is to do about a formula; meeting a demand always leaves less. -/
def weight : NormalForm → Nat
  | .const _ | .state _ | .action _ | .next _ => 1
  | .and fs | .or fs => weights fs + 1
  | .always f | .eventually f => weight f + 2

def weights : List NormalForm → Nat
  | [] => 0
  | f :: fs => weight f + weights fs
end

theorem weight_pos (f : NormalForm) : 0 < f.weight := by
  cases f <;> simp [weight]

theorem weights_append (fs gs : List NormalForm) :
    weights (fs ++ gs) = weights fs + weights gs := by
  induction fs with
  | nil => simp [weights]
  | cons f fs ih => simp [weights, ih, Nat.add_assoc]

theorem weights_demand_lt (f : NormalForm) : weights f.demand.formulas < f.weight := by
  cases f with
  | const b => cases b <;> simp [demand, Demand.formulas, weights, weight]
  | _ => simp [demand, Demand.formulas, weights, weight]

end NormalForm

namespace Closure

open NormalForm (weights)

/-- Whether the literal opposite to `f` is among the members. -/
def contradicts (c : Closure) (members : Particle) (f : NormalForm) : Bool :=
  match f.opposite? with
  | none => false
  | some g =>
    match c.idOf? g with
    | none => false
    | some id => members.contains id

mutual
/-- Completes the members by the formulas still to do, in all ways. The first of alternative
formulas is followed to the end before the next. -/
def expand (c : Closure) (members : Particle) (todo : List NormalForm) : List Particle × Closure :=
  match todo with
  | [] => ([members], c)
  | f :: rest =>
    let (id, c) := c.number f
    if members.contains id then expand c members rest
    else if c.contradicts members f then ([], c)
    else
      let c := c.numberAll f.demand.formulas
      match _asked : f.demand with
      | .all fs => expand c (Ascending.insert id members) (fs ++ rest)
      | .any fs => expandAny c (Ascending.insert id members) fs rest
termination_by 2 * weights todo
decreasing_by
  · have := f.weight_pos
    simp only [weights]; omega
  · have := f.weights_demand_lt
    simp only [_asked, Demand.formulas] at this
    simp only [weights, NormalForm.weights_append]; omega
  · have := f.weights_demand_lt
    simp only [_asked, Demand.formulas] at this
    simp only [weights]; omega

/-- The completions that add one of the alternatives. -/
def expandAny (c : Closure) (members : Particle) (alternatives todo : List NormalForm) :
    List Particle × Closure :=
  match alternatives with
  | [] => ([], c)
  | f :: fs =>
    let (here, c) := expand c members (f :: todo)
    let (there, c) := expandAny c members fs todo
    (here ++ there, c)
termination_by 2 * (weights alternatives + weights todo) + 1
decreasing_by
  · simp only [weights]; omega
  · have := f.weight_pos
    simp only [weights]; omega
end

/-- The particles that contain the given formulas. -/
def particles (c : Closure) (seed : List NormalForm) : List Particle × Closure :=
  let (found, c) := c.expand [] seed
  (found.eraseDups, c)

/-- The formulas that a particle wants at the next position. -/
def carried (c : Closure) (p : Particle) : List NormalForm :=
  p.filterMap fun id =>
    match c.formula? id with
    | some (.next f) => some f
    | _ => none

end Closure
end TemporalCheck
