import TemporalCheck.Tableau.Expansion

/-! A closure laid out as a table of layers. Each layer is one operator over the numbers of its
operands, which have layers of their own, and equal layers share a number. Particles are worked out
on the numbers alone, by a loop over the branches that are left to follow. -/
namespace TemporalCheck

/-- One operator, with the numbers of its operands. -/
inductive Layer where
  | const (value : Bool)
  | state (l : Literal)
  | action (l : Literal)
  | and (parts : List FormulaId)
  | or (parts : List FormulaId)
  | always (part : FormulaId)
  | eventually (part : FormulaId)
  | next (part : FormulaId)
deriving DecidableEq, Repr

def Layer.parts : Layer → List FormulaId
  | .const _ | .state _ | .action _ => []
  | .and parts | .or parts => parts
  | .always part | .eventually part | .next part => [part]

structure FormulaTable where
  layers : Array Layer := #[]
deriving DecidableEq

namespace FormulaTable

def size (t : FormulaTable) : Nat := t.layers.size

def layer? (t : FormulaTable) (id : FormulaId) : Option Layer := t.layers[id]?

def idOf? (t : FormulaTable) (layer : Layer) : Option FormulaId := t.layers.idxOf? layer

/-- The number of a layer, which is the next free one if the layer is new. -/
def number (t : FormulaTable) (layer : Layer) : FormulaId × FormulaTable :=
  match t.idOf? layer with
  | some id => (id, t)
  | none => (t.size, ⟨t.layers.push layer⟩)

mutual
/-- Numbers a formula from the inside out. It stops at a negation of anything but an atom. -/
def intern (t : FormulaTable) : Formula → Except Formula (FormulaId × FormulaTable)
  | .const b => .ok (t.number (.const b))
  | .atom (.state p) => .ok (t.number (.state ⟨p, true⟩))
  | .atom (.action p) => .ok (t.number (.action ⟨p, true⟩))
  | .not (.atom (.state p)) => .ok (t.number (.state ⟨p, false⟩))
  | .not (.atom (.action p)) => .ok (t.number (.action ⟨p, false⟩))
  | .not f => .error f
  | .and fs => do
    let (parts, t) ← internAll t fs
    return t.number (.and parts)
  | .or fs => do
    let (parts, t) ← internAll t fs
    return t.number (.or parts)
  | .always f => do
    let (part, t) ← intern t f
    return t.number (.always part)
  | .eventually f => do
    let (part, t) ← intern t f
    return t.number (.eventually part)
  | .next f => do
    let (part, t) ← intern t f
    return t.number (.next part)

def internAll (t : FormulaTable) : List Formula → Except Formula (List FormulaId × FormulaTable)
  | [] => .ok ([], t)
  | f :: fs => do
    let (part, t) ← intern t f
    let (parts, t) ← internAll t fs
    return (part :: parts, t)
end

/-- The formula of a number, put together from the formulas of its parts. A number that leads back
to itself, or to one without a layer, has none. -/
def formula? (t : FormulaTable) (id : FormulaId) : Option Formula := do
  match ← t.layer? id with
  | .const b => return .const b
  | .state l => return (NormalForm.state l).toFormula
  | .action l => return (NormalForm.action l).toFormula
  | .and parts => return .and (← parts.mapM (t |>.formula?))
  | .or parts => return .or (← parts.mapM (t |>.formula?))
  | .always part => return .always (← t |>.formula? part)
  | .eventually part => return .eventually (← t |>.formula? part)
  | .next part => return .next (← t |>.formula? part)
partial_fixpoint

end FormulaTable

/-- A particle in the making: its members so far, and what is still to do, the next first. -/
structure Branch where
  members : Particle
  todo : List FormulaId
deriving DecidableEq

/-- An expansion under way: the branches left to follow, the next first, and the particles found. -/
structure Expansion where
  table : FormulaTable
  branches : List Branch
  found : List Particle := []
deriving DecidableEq

namespace Expansion

/-- Adds a particle that has not been found before. -/
def record (found : List Particle) (p : Particle) : List Particle :=
  if found.contains p then found else found ++ [p]

def has (e : Expansion) (members : Particle) (layer : Layer) : Bool :=
  match e.table.idOf? layer with
  | some id => members.contains id
  | none => false

/-- Follows the branch that has taken in a formula with this number and layer. -/
def follow (e : Expansion) (id : FormulaId) (b : Branch) (rest : List Branch) : Layer → Expansion
  | .const true | .next _ => { e with branches := b :: rest }
  | .const false => { e with branches := rest }
  | .state l =>
    { e with branches := if e.has b.members (.state l.opposite) then rest else b :: rest }
  | .action l =>
    { e with branches := if e.has b.members (.action l.opposite) then rest else b :: rest }
  | .and parts => { e with branches := { b with todo := parts ++ b.todo } :: rest }
  | .always part =>
    let (again, table) := e.table.number (.next id)
    { e with
      table := table
      branches := { b with todo := part :: again :: b.todo } :: rest }
  | .or parts =>
    { e with branches := parts.map (fun part => { b with todo := part :: b.todo }) ++ rest }
  | .eventually part =>
    let (later, table) := e.table.number (.next id)
    { e with
      table := table
      branches := { b with todo := part :: b.todo } :: { b with todo := later :: b.todo } :: rest }

/-- Deals with one formula of the first branch, or ends that branch. -/
def turn (e : Expansion) : Option Expansion :=
  match e.branches with
  | [] => some e
  | ⟨members, []⟩ :: rest =>
    some { e with branches := rest, found := record e.found members }
  | ⟨members, id :: todo⟩ :: rest =>
    if members.contains id then some { e with branches := ⟨members, todo⟩ :: rest }
    else (e.table.layer? id).map (e.follow id ⟨Ascending.insert id members, todo⟩ rest)

/-- Takes turns for as long as there are branches. There is no result where that never ends, or
where a number has no layer. -/
def run (e : Expansion) : Option Expansion :=
  if e.branches.isEmpty then some e
  else do (← e.turn) |>.run
partial_fixpoint

end Expansion

namespace FormulaTable

def particles (t : FormulaTable) (seed : List FormulaId) :
    Option (List Particle × FormulaTable) := do
  let e ← Expansion.run { table := t, branches := [⟨[], seed⟩] }
  return (e.found, e.table)

/-- What is asked of a table: the number of a formula, or the particles of some numbers. -/
inductive Call where
  | intern (f : Formula)
  | expand (seed : List FormulaId)
deriving DecidableEq

/-- Calls made one after the other, with the numbers that are given out for the formulas. There is
no outcome where a formula cannot be interned or an expansion does not end. -/
def perform (t : FormulaTable) :
    List Call → Option (List (Formula × FormulaId) × FormulaTable)
  | [] => some ([], t)
  | .intern f :: calls => do
    let (id, t) ← (t.intern f).toOption
    let (issued, t) ← perform t calls
    return ((f, id) :: issued, t)
  | .expand seed :: calls => do
    let (_, t) ← t.particles seed
    perform t calls

def carried (t : FormulaTable) (p : Particle) : List FormulaId :=
  p.filterMap fun id =>
    match t.layer? id with
    | some (.next part) => some part
    | _ => none

end FormulaTable
end TemporalCheck
