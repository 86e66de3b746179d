import TemporalCheck.Formula

/-! Formulas whose negations stand on atoms only. Every formula has such a form with the same
meaning; here it is a type of its own, so that what is built on it has no negation to deal with. -/
namespace TemporalCheck

/-- A predicate together with the answer it must give. -/
structure Literal where
  predicate : PredicateId
  positive : Bool
deriving DecidableEq, Repr

namespace Literal

def opposite (l : Literal) : Literal := { l with positive := !l.positive }

def text (l : Literal) : String := (if l.positive then "P" else "~P") ++ toString l.predicate

end Literal

inductive NormalForm where
  | const (value : Bool)
  | state (l : Literal)
  | action (l : Literal)
  | and (fs : List NormalForm)
  | or (fs : List NormalForm)
  | always (f : NormalForm)
  | eventually (f : NormalForm)
  | next (f : NormalForm)
deriving Repr

namespace NormalForm

mutual
def beq : NormalForm → NormalForm → Bool
  | .const a, .const b => a == b
  | .state a, .state b => a == b
  | .action a, .action b => a == b
  | .and fs, .and gs => beqs fs gs
  | .or fs, .or gs => beqs fs gs
  | .always f, .always g => beq f g
  | .eventually f, .eventually g => beq f g
  | .next f, .next g => beq f g
  | _, _ => false

def beqs : List NormalForm → List NormalForm → Bool
  | [], [] => true
  | f :: fs, g :: gs => beq f g && beqs fs gs
  | _, _ => false
end

mutual
theorem beq_iff : ∀ f g : NormalForm, beq f g = true ↔ f = g
  | .const _, g => by cases g <;> simp [beq]
  | .state _, g => by cases g <;> simp [beq]
  | .action _, g => by cases g <;> simp [beq]
  | .and fs, g => by cases g <;> simp [beq, beqs_iff fs]
  | .or fs, g => by cases g <;> simp [beq, beqs_iff fs]
  | .always f, g => by cases g <;> simp [beq, beq_iff f]
  | .eventually f, g => by cases g <;> simp [beq, beq_iff f]
  | .next f, g => by cases g <;> simp [beq, beq_iff f]

theorem beqs_iff : ∀ fs gs : List NormalForm, beqs fs gs = true ↔ fs = gs
  | [], gs => by cases gs <;> simp [beqs]
  | f :: fs, gs => by cases gs <;> simp [beqs, beq_iff f, beqs_iff fs]
end

instance : DecidableEq NormalForm := fun f g => decidable_of_iff _ (beq_iff f g)

/-- The parts of a formula that the closure lists before it. -/
def children : NormalForm → List NormalForm
  | .const _ | .state _ | .action _ => []
  | .and fs | .or fs => fs
  | .always f | .eventually f | .next f => [f]

mutual
def toFormula : NormalForm → Formula
  | .const b => .const b
  | .state l => if l.positive then .atom (.state l.predicate) else .not (.atom (.state l.predicate))
  | .action l =>
    if l.positive then .atom (.action l.predicate) else .not (.atom (.action l.predicate))
  | .and fs => .and (toFormulas fs)
  | .or fs => .or (toFormulas fs)
  | .always f => .always (toFormula f)
  | .eventually f => .eventually (toFormula f)
  | .next f => .next (toFormula f)

def toFormulas : List NormalForm → List Formula
  | [] => []
  | f :: fs => toFormula f :: toFormulas fs
end

def text (f : NormalForm) : String := f.toFormula.text

end NormalForm

namespace Formula

mutual
/-- The normal form of the formula when `sign` holds, and of its negation otherwise. -/
def normal (sign : Bool) : Formula → NormalForm
  | .const b => .const (b == sign)
  | .atom (.state p) => .state ⟨p, sign⟩
  | .atom (.action p) => .action ⟨p, sign⟩
  | .not f => normal (!sign) f
  | .and fs => if sign then .and (normals sign fs) else .or (normals sign fs)
  | .or fs => if sign then .or (normals sign fs) else .and (normals sign fs)
  | .always f => if sign then .always (normal sign f) else .eventually (normal sign f)
  | .eventually f => if sign then .eventually (normal sign f) else .always (normal sign f)
  | .next f => .next (normal sign f)

def normals (sign : Bool) : List Formula → List NormalForm
  | [] => []
  | f :: fs => normal sign f :: normals sign fs
end

/-- The formula with its negations pushed down to the atoms. -/
def pushNegation (f : Formula) : Formula := (f.normal true).toFormula

end Formula
end TemporalCheck
