import TemporalCheck.Formula.NormalForm

/-! The closure of a formula: a numbered list of distinct normal forms in which the parts of a
formula come before the formula. Numbers are handed out in the order of first mention and never
change. -/
namespace TemporalCheck

abbrev FormulaId := Nat

structure Closure where
  formulas : Array NormalForm := #[]
deriving DecidableEq

namespace Closure

def size (c : Closure) : Nat := c.formulas.size

def formula? (c : Closure) (id : FormulaId) : Option NormalForm := c.formulas[id]?

def idOf? (c : Closure) (f : NormalForm) : Option FormulaId := c.formulas.idxOf? f

/-- The number of `f`, which is the next free one if `f` is new. -/
def number (c : Closure) (f : NormalForm) : FormulaId × Closure :=
  match c.idOf? f with
  | some id => (id, c)
  | none => (c.size, ⟨c.formulas.push f⟩)

def numberAll (c : Closure) (fs : List NormalForm) : Closure :=
  fs.foldl (fun c f => (c.number f).2) c

mutual
/-- Numbers everything inside `f`, then `f` itself. -/
def intern (c : Closure) : NormalForm → FormulaId × Closure
  | .const b => c.number (.const b)
  | .state l => c.number (.state l)
  | .action l => c.number (.action l)
  | .and fs => (internAll c fs).number (.and fs)
  | .or fs => (internAll c fs).number (.or fs)
  | .always f => (intern c f).2.number (.always f)
  | .eventually f => (intern c f).2.number (.eventually f)
  | .next f => (intern c f).2.number (.next f)

def internAll (c : Closure) : List NormalForm → Closure
  | [] => c
  | f :: fs => internAll (intern c f).2 fs
end

def children (c : Closure) (id : FormulaId) : List FormulaId :=
  match c.formula? id with
  | some f => f.children.filterMap c.idOf?
  | none => []

def text (c : Closure) (id : FormulaId) : String :=
  match c.formula? id with
  | some f => f.text
  | none => ""

/-- The eventualities of the closure in the order of their numbers. -/
def promises (c : Closure) : List FormulaId :=
  (List.range c.size).filter fun id =>
    match c.formula? id with
    | some (.eventually _) => true
    | _ => false

end Closure
end TemporalCheck
