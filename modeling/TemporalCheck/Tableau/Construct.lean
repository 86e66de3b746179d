import TemporalCheck.Tableau.Build

/-! Building a tableau from formulas as they are written, whatever the limit. A formula is read into
a normal form after its negations have been pushed down. Reading is where a negation that is left
on anything but an atom would come to light. -/
namespace TemporalCheck

namespace Formula

mutual
/-- The normal form that the formula is written as, or else the first formula that has a negation in
front of it and is no atom. -/
def read : Formula → Except Formula NormalForm
  | .const b => .ok (.const b)
  | .atom (.state p) => .ok (.state ⟨p, true⟩)
  | .atom (.action p) => .ok (.action ⟨p, true⟩)
  | .not (.atom (.state p)) => .ok (.state ⟨p, false⟩)
  | .not (.atom (.action p)) => .ok (.action ⟨p, false⟩)
  | .not f => .error f
  | .and fs => return .and (← readAll fs)
  | .or fs => return .or (← readAll fs)
  | .always f => return .always (← read f)
  | .eventually f => return .eventually (← read f)
  | .next f => return .next (← read f)

def readAll : List Formula → Except Formula (List NormalForm)
  | [] => .ok []
  | f :: fs => return (← read f) :: (← readAll fs)
end

end Formula

namespace Tableau

/-- What a counterexample satisfies, as a formula. -/
def refutation (assumption : Option Formula) (property : Formula) : Formula :=
  match assumption with
  | none => property.negate
  | some f => .conj [f, property.negate]

/-- The tableau for checking a property under an assumption, with its negation read as it is
written. -/
def construct (limit : Nat) (assumption : Option Formula) (property : Formula) :
    Except CheckError Tableau :=
  if property.mentionsNext || assumption.any (·.mentionsNext) then .error (.ofRejection .usesNext)
  else if property.pushNegation.promises.isEmpty then
    .error (.ofRejection (.noEventuality property))
  else
    match (refutation assumption property).pushNegation.read with
    | .error f => .error (.malformed ("negation of " ++ f.text ++ " survived normalization"))
    | .ok negated => (ofNormalForm limit property negated).mapError .ofRejection

end Tableau
end TemporalCheck
