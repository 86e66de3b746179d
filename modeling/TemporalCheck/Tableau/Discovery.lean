import TemporalCheck.Tableau.Construct
import TemporalCheck.Tableau.Table

/-! The particles that come up for a formula, worked out on a table of layers with no limit on their
number. Node after node is asked for its successors until no node is left. -/
namespace TemporalCheck

/-- Nodes that are known, with the successors of the first few. -/
structure Discovery where
  table : FormulaTable
  particles : Array Particle := #[]
  successors : Array (List TableauId) := #[]

namespace Discovery

/-- The node of a particle, a new one if there is none. -/
def place (d : Discovery) (p : Particle) : TableauId × Discovery :=
  match d.particles.idxOf? p with
  | some id => (id, d)
  | none => (d.particles.size, { d with particles := d.particles.push p })

def placeAll (d : Discovery) : List Particle → List TableauId × Discovery
  | [] => ([], d)
  | p :: rest =>
    let (id, d) := d.place p
    let (ids, d) := placeAll d rest
    (id :: ids, d)

def placeSeed (d : Discovery) (seed : List FormulaId) : Option (List TableauId × Discovery) := do
  let (found, table) ← d.table.particles seed
  return placeAll { d with table := table } found

/-- Works out the successors of the remaining nodes. There is no result where that never ends. -/
def complete (d : Discovery) : Option Discovery :=
  match d.particles[d.successors.size]? with
  | none => some d
  | some p => do
    let (ids, d) ← d.placeSeed (d.table.carried p)
    { d with successors := d.successors.push ids } |>.complete
partial_fixpoint

end Discovery

/-- Everything that comes up for a formula. -/
def discover (f : Formula) : Option Discovery := do
  let (root, table) ← (({} : FormulaTable).intern f).toOption
  let (_, d) ← Discovery.placeSeed { table := table } [root]
  d.complete

end TemporalCheck
