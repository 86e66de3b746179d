/-! Linear temporal formulas over predicates of states and predicates of steps, the constructors
that simplify a little as they build, and the text of a formula. -/
namespace TemporalCheck

abbrev PredicateId := Nat

/-- A predicate of one state, or of a state and the next. -/
inductive Atom where
  | state (p : PredicateId)
  | action (p : PredicateId)
deriving DecidableEq, Repr

def Atom.text : Atom → String
  | .state p => "S" ++ toString p
  | .action p => "A" ++ toString p

inductive Formula where
  | const (value : Bool)
  | atom (a : Atom)
  | not (f : Formula)
  | and (fs : List Formula)
  | or (fs : List Formula)
  | always (f : Formula)
  | eventually (f : Formula)
  | next (f : Formula)
deriving Repr

namespace Formula

mutual
def beq : Formula → Formula → Bool
  | .const a, .const b => a == b
  | .atom a, .atom b => a == b
  | .not f, .not g => beq f g
  | .and fs, .and gs => beqs fs gs
  | .or fs, .or gs => beqs fs gs
  | .always f, .always g => beq f g
  | .eventually f, .eventually g => beq f g
  | .next f, .next g => beq f g
  | _, _ => false

def beqs : List Formula → List Formula → Bool
  | [], [] => true
  | f :: fs, g :: gs => beq f g && beqs fs gs
  | _, _ => false
end

mutual
theorem beq_iff : ∀ f g : Formula, beq f g = true ↔ f = g
  | .const _, g => by cases g <;> simp [beq]
  | .atom _, g => by cases g <;> simp [beq]
  | .not f, g => by cases g <;> simp [beq, beq_iff f]
  | .and fs, g => by cases g <;> simp [beq, beqs_iff fs]
  | .or fs, g => by cases g <;> simp [beq, beqs_iff fs]
  | .always f, g => by cases g <;> simp [beq, beq_iff f]
  | .eventually f, g => by cases g <;> simp [beq, beq_iff f]
  | .next f, g => by cases g <;> simp [beq, beq_iff f]

theorem beqs_iff : ∀ fs gs : List Formula, beqs fs gs = true ↔ fs = gs
  | [], gs => by cases gs <;> simp [beqs]
  | f :: fs, gs => by cases gs <;> simp [beqs, beq_iff f, beqs_iff fs]
end

instance : DecidableEq Formula := fun f g => decidable_of_iff _ (beq_iff f g)

/-- The negation of `f`, which absorbs a constant or one outer negation. -/
def negate : Formula → Formula
  | .const b => .const (!b)
  | .not f => f
  | f => .not f

/-- The conjunction of `fs`, which is the formula itself when there is one. -/
def conj : List Formula → Formula
  | [] => .const true
  | [f] => f
  | fs => .and fs

/-- The disjunction of `fs`, which is the formula itself when there is one. -/
def disj : List Formula → Formula
  | [] => .const false
  | [f] => f
  | fs => .or fs

def implies (f g : Formula) : Formula := disj [negate f, g]

def leadsTo (f g : Formula) : Formula := .always (implies f (.eventually g))

def infinitelyOften (f : Formula) : Formula := .always (.eventually f)

def eventuallyAlways (f : Formula) : Formula := .eventually (.always f)

/-- An action that stays enabled is taken again and again. -/
def weakFairness (enabled taken : PredicateId) : Formula :=
  implies (eventuallyAlways (.atom (.state enabled))) (infinitelyOften (.atom (.action taken)))

/-- An action that is enabled again and again is taken again and again. -/
def strongFairness (enabled taken : PredicateId) : Formula :=
  implies (infinitelyOften (.atom (.state enabled))) (infinitelyOften (.atom (.action taken)))

mutual
/-- The formula and everything inside it, each before its own parts. -/
def subformulas : Formula → List Formula
  | .const b => [.const b]
  | .atom a => [.atom a]
  | .not f => .not f :: subformulas f
  | .and fs => .and fs :: allSubformulas fs
  | .or fs => .or fs :: allSubformulas fs
  | .always f => .always f :: subformulas f
  | .eventually f => .eventually f :: subformulas f
  | .next f => .next f :: subformulas f

def allSubformulas : List Formula → List Formula
  | [] => []
  | f :: fs => subformulas f ++ allSubformulas fs
end

def mentionsAction (f : Formula) : Bool :=
  f.subformulas.any fun | .atom (.action _) => true | _ => false

def mentionsNext (f : Formula) : Bool :=
  f.subformulas.any fun | .next _ => true | _ => false

/-- Negations stand on atoms and constants only. -/
def isPositive (f : Formula) : Bool :=
  f.subformulas.all fun
    | .not (.const _) | .not (.atom _) => true
    | .not _ => false
    | _ => true

def isEventuality : Formula → Bool
  | .eventually _ => true
  | _ => false

/-- The eventualities inside a formula, each once, where they first stand. -/
def promises (f : Formula) : List Formula := (f.subformulas.filter isEventuality).eraseDups

mutual
def text : Formula → String
  | .const true => "TRUE"
  | .const false => "FALSE"
  | .atom a => a.text
  | .not f => "~" ++ text f
  | .and fs => "(" ++ " /\\ ".intercalate (texts fs) ++ ")"
  | .or fs => "(" ++ " \\/ ".intercalate (texts fs) ++ ")"
  | .always f => "[]" ++ text f
  | .eventually f => "<>" ++ text f
  | .next f => "()" ++ text f

def texts : List Formula → List String
  | [] => []
  | f :: fs => text f :: texts fs
end

end Formula
end TemporalCheck
