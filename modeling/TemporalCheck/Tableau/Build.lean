import TemporalCheck.Tableau

/-! Building a tableau. The particles of the negated property are the initial nodes; the successors
of a node are the particles of what it carries to the next position. Nodes are numbered as they are
found and their successors are worked out in the order of their numbers. -/
namespace TemporalCheck.Tableau

/-- A tableau whose nodes are known, but the successors only of the first few. -/
structure Draft where
  closure : Closure
  particles : Array Particle := #[]
  successors : Array (List TableauId) := #[]

namespace Draft

/-- The node of a particle, a new one if there is none and the limit allows it. -/
def place (limit : Nat) (d : Draft) (p : Particle) : Except Rejection (TableauId × Draft) :=
  match d.particles.idxOf? p with
  | some id => .ok (id, d)
  | none =>
    if d.particles.size < limit then
      .ok (d.particles.size, { d with particles := d.particles.push p })
    else .error (.tooLarge limit)

def placeAll (limit : Nat) (d : Draft) : List Particle → Except Rejection (List TableauId × Draft)
  | [] => .ok ([], d)
  | p :: rest => do
    let (id, d) ← place limit d p
    let (ids, d) ← placeAll limit d rest
    return (id :: ids, d)

def placeSeed (limit : Nat) (d : Draft) (seed : List NormalForm) :
    Except Rejection (List TableauId × Draft) :=
  let (found, closure) := d.closure.particles seed
  placeAll limit { d with closure := closure } found

/-- Works out the successors of up to `fuel` further nodes. -/
def complete (limit : Nat) : (fuel : Nat) → Draft → Except Rejection Draft
  | 0, d => .ok d
  | fuel + 1, d =>
    match d.particles[d.successors.size]? with
    | none => .ok d
    | some p => do
      let (ids, d) ← placeSeed limit d (d.closure.carried p)
      complete limit fuel { d with successors := d.successors.push ids }

end Draft

/-- The promises, by position, that a particle contains the body of or does not make. -/
def fulfilment (c : Closure) (promises : List FormulaId) (p : Particle) : List Nat :=
  (List.range promises.length).filter fun i =>
    match promises[i]? with
    | none => false
    | some promise => !p.contains promise || (c.children promise).any p.contains

def nodeOf (c : Closure) (promises : List FormulaId) (p : Particle) (successors : List TableauId) :
    Node where
  particle := p
  state := p.filterMap fun id => match c.formula? id with | some (.state l) => some l | _ => none
  action := p.filterMap fun id => match c.formula? id with | some (.action l) => some l | _ => none
  fulfils := fulfilment c promises p
  successors := successors

def Draft.nodes (d : Draft) : Array Node :=
  d.particles.zipWith (nodeOf d.closure d.closure.promises) d.successors

/-- A tableau of more nodes is turned down. -/
def sizeLimit : Nat := 65536

/-- What a counterexample satisfies: the assumption, if any, and the negation of the property. -/
def counterexample (assumption : Option Formula) (property : Formula) : NormalForm :=
  match assumption with
  | none => property.negate.normal true
  | some f => (Formula.conj [f, property.negate]).normal true

/-- The tableau of a formula. No step is left out: there are never more nodes than the limit. -/
def ofNormalForm (limit : Nat) (property : Formula) (negated : NormalForm) :
    Except Rejection Tableau := do
  let (_, closure) := (⟨#[]⟩ : Closure).intern negated
  let (initial, d) ← Draft.placeSeed limit { closure := closure } [negated]
  let d ← d.complete limit limit
  return ofNodes property negated d.closure d.nodes initial d.closure.promises

/-- The tableau for checking that behaviours which meet the assumption satisfy the property. -/
def build (assumption : Option Formula) (property : Formula) : Except Rejection Tableau :=
  if property.mentionsNext || assumption.any (·.mentionsNext) then .error .usesNext
  else if property.pushNegation.promises.isEmpty then .error (.noEventuality property)
  else ofNormalForm sizeLimit property (counterexample assumption property)

end TemporalCheck.Tableau
