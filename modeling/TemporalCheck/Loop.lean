import TemporalCheck.Monitor

/-! The loops by which a product grows, with nothing to limit their turns. Each also tells which
nodes it has dealt with, in order. There is no result where a loop never ends. -/
namespace TemporalCheck

variable {State : Type}

/-- Expands the nodes on a fingerprint from position `i` on, those included that are added
meanwhile. -/
def Product.extendLoop (model : Model State) (source : Fingerprint) (next : List (Keyed State))
    (i : Nat) (p : Product State) (s : Session) : Option (List NodeId × Growth State) :=
  match (p.nodesOn source)[i]? with
  | none => some ([], { product := p, session := s })
  | some id =>
    let grown := p.expandNode model s id next
    match grown.failure with
    | some _ => some ([id], grown)
    | none => do
      let (visited, result) ← grown.product |>.extendLoop model source next (i + 1) grown.session
      return (id :: visited, result.after grown.created)
partial_fixpoint

/-- Expands the nodes to do of which it is known what follows them, and then the nodes added by
that, the latest first. -/
def Monitor.settleLoop (model : Model State) (feed : Feed State) (todo : List NodeId)
    (m : Monitor State) : Option (List NodeId × Option EvalError × Monitor State) :=
  match todo with
  | [] => some ([], none, m)
  | id :: todo =>
    match (m.product.node? id).bind fun node => m.known[node.key.fingerprint]? with
    | none => m |>.settleLoop model feed todo
    | some next =>
      let grown := m.product.expandNode model m.session id (m.resolve feed next)
      let m := { m with product := grown.product, session := grown.session }
      match grown.failure with
      | some e => some ([id], some e, m)
      | none => do
        let (expanded, result) ← m |>.settleLoop model feed (grown.created.reverse ++ todo)
        return (id :: expanded, result)
partial_fixpoint

end TemporalCheck
