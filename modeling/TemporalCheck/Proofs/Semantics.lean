import Mathlib
import TemporalCheck.Formula.NormalForm

/-! What formulas say about infinite behaviours. A formula is read at a position of a behaviour;
predicates of steps look at the position and the next. The normal form of a formula says the same as
the formula, or the opposite when it is taken with the negative sign. -/
namespace TemporalCheck

abbrev Behaviour (State : Type) := Nat → State

structure Valuation (State : Type) where
  state : PredicateId → State → Bool
  action : PredicateId → State → State → Bool

variable {State : Type} {v : Valuation State} {σ : Behaviour State} {i : Nat}

namespace Formula

mutual
def Holds (v : Valuation State) (σ : Behaviour State) : Formula → Nat → Prop
  | .const b, _ => b = true
  | .atom (.state p), i => v.state p (σ i) = true
  | .atom (.action p), i => v.action p (σ i) (σ (i + 1)) = true
  | .not f, i => ¬Holds v σ f i
  | .and fs, i => AllHold v σ fs i
  | .or fs, i => AnyHolds v σ fs i
  | .always f, i => ∀ j, i ≤ j → Holds v σ f j
  | .eventually f, i => ∃ j, i ≤ j ∧ Holds v σ f j
  | .next f, i => Holds v σ f (i + 1)

def AllHold (v : Valuation State) (σ : Behaviour State) : List Formula → Nat → Prop
  | [], _ => True
  | f :: fs, i => Holds v σ f i ∧ AllHold v σ fs i

def AnyHolds (v : Valuation State) (σ : Behaviour State) : List Formula → Nat → Prop
  | [], _ => False
  | f :: fs, i => Holds v σ f i ∨ AnyHolds v σ fs i
end

@[simp] theorem holds_const {b : Bool} : (Formula.const b).Holds v σ i ↔ b = true := Iff.rfl

@[simp] theorem holds_state {p : PredicateId} :
    (Formula.atom (.state p)).Holds v σ i ↔ v.state p (σ i) = true := Iff.rfl

@[simp] theorem holds_action {p : PredicateId} :
    (Formula.atom (.action p)).Holds v σ i ↔ v.action p (σ i) (σ (i + 1)) = true := Iff.rfl

@[simp] theorem holds_not {f : Formula} : (Formula.not f).Holds v σ i ↔ ¬f.Holds v σ i := Iff.rfl

@[simp] theorem holds_always {f : Formula} :
    (Formula.always f).Holds v σ i ↔ ∀ j, i ≤ j → f.Holds v σ j := Iff.rfl

@[simp] theorem holds_eventually {f : Formula} :
    (Formula.eventually f).Holds v σ i ↔ ∃ j, i ≤ j ∧ f.Holds v σ j := Iff.rfl

@[simp] theorem holds_next {f : Formula} :
    (Formula.next f).Holds v σ i ↔ f.Holds v σ (i + 1) := Iff.rfl

theorem allHold_iff (fs : List Formula) : AllHold v σ fs i ↔ ∀ f ∈ fs, f.Holds v σ i := by
  induction fs with
  | nil => exact iff_of_true trivial (List.forall_mem_nil _)
  | cons f fs ih =>
    rw [List.forall_mem_cons, ← ih]
    exact Iff.rfl

theorem anyHolds_iff (fs : List Formula) : AnyHolds v σ fs i ↔ ∃ f ∈ fs, f.Holds v σ i := by
  induction fs with
  | nil => exact iff_of_false id (by simp)
  | cons f fs ih =>
    simp only [List.mem_cons, exists_eq_or_imp, ← ih]
    exact Iff.rfl

@[simp] theorem holds_and {fs : List Formula} :
    (Formula.and fs).Holds v σ i ↔ ∀ f ∈ fs, f.Holds v σ i :=
  allHold_iff fs

@[simp] theorem holds_or {fs : List Formula} :
    (Formula.or fs).Holds v σ i ↔ ∃ f ∈ fs, f.Holds v σ i :=
  anyHolds_iff fs

@[simp] theorem holds_negate (f : Formula) : f.negate.Holds v σ i ↔ ¬f.Holds v σ i := by
  cases f <;> simp [negate]

@[simp] theorem holds_conj (fs : List Formula) :
    (conj fs).Holds v σ i ↔ ∀ f ∈ fs, f.Holds v σ i := by
  match fs with
  | [] => simp [conj]
  | [f] => simp [conj]
  | f :: g :: fs => simp [conj]

@[simp] theorem holds_disj (fs : List Formula) :
    (disj fs).Holds v σ i ↔ ∃ f ∈ fs, f.Holds v σ i := by
  match fs with
  | [] => simp [disj]
  | [f] => simp [disj]
  | f :: g :: fs => simp [disj]

theorem holds_implies (f g : Formula) :
    (implies f g).Holds v σ i ↔ (f.Holds v σ i → g.Holds v σ i) := by
  simp [implies, imp_iff_not_or]

end Formula

def Literal.HoldsOn (v : Valuation State) (s : State) (l : Literal) : Prop :=
  v.state l.predicate s = l.positive

def Literal.HoldsAlong (v : Valuation State) (s s' : State) (l : Literal) : Prop :=
  v.action l.predicate s s' = l.positive

namespace NormalForm

/-- A normal form says what the formula says that it stands for. -/
def Holds (v : Valuation State) (σ : Behaviour State) (f : NormalForm) (i : Nat) : Prop :=
  f.toFormula.Holds v σ i

theorem toFormulas_eq_map (fs : List NormalForm) : toFormulas fs = fs.map toFormula := by
  induction fs with
  | nil => rfl
  | cons f fs ih => simp [toFormulas, ih]

@[simp] theorem holds_const {b : Bool} : (NormalForm.const b).Holds v σ i ↔ b = true := Iff.rfl

@[simp] theorem holds_state {l : Literal} :
    (NormalForm.state l).Holds v σ i ↔ l.HoldsOn v (σ i) := by
  cases h : l.positive <;> simp [Holds, toFormula, Literal.HoldsOn, h]

@[simp] theorem holds_action {l : Literal} :
    (NormalForm.action l).Holds v σ i ↔ l.HoldsAlong v (σ i) (σ (i + 1)) := by
  cases h : l.positive <;> simp [Holds, toFormula, Literal.HoldsAlong, h]

@[simp] theorem holds_and {fs : List NormalForm} :
    (NormalForm.and fs).Holds v σ i ↔ ∀ f ∈ fs, f.Holds v σ i := by
  simp [Holds, toFormula, toFormulas_eq_map]

@[simp] theorem holds_or {fs : List NormalForm} :
    (NormalForm.or fs).Holds v σ i ↔ ∃ f ∈ fs, f.Holds v σ i := by
  simp [Holds, toFormula, toFormulas_eq_map]

@[simp] theorem holds_always {f : NormalForm} :
    (NormalForm.always f).Holds v σ i ↔ ∀ j, i ≤ j → f.Holds v σ j := Iff.rfl

@[simp] theorem holds_eventually {f : NormalForm} :
    (NormalForm.eventually f).Holds v σ i ↔ ∃ j, i ≤ j ∧ f.Holds v σ j := Iff.rfl

@[simp] theorem holds_next {f : NormalForm} :
    (NormalForm.next f).Holds v σ i ↔ f.Holds v σ (i + 1) := Iff.rfl

end NormalForm

namespace Formula

theorem normals_eq_map (sign : Bool) (fs : List Formula) :
    normals sign fs = fs.map (normal sign) := by
  induction fs with
  | nil => rfl
  | cons f fs ih => simp [normals, ih]

mutual
theorem holds_normal_iff (sign : Bool) : ∀ (f : Formula) (i : Nat),
    (f.normal sign).Holds v σ i ↔ (f.Holds v σ i ↔ sign = true)
  | .const b, i => by cases b <;> cases sign <;> simp [normal]
  | .atom (.state p), i => by
    cases sign <;> simp [normal, Literal.HoldsOn]
  | .atom (.action p), i => by
    cases sign <;> simp [normal, Literal.HoldsAlong]
  | .not f, i => by cases sign <;> simp [normal, holds_normal_iff _ f]
  | .and fs, i => by
    cases sign <;> simp only [normal, normals_eq_map, Bool.false_eq_true, if_true, if_false]
    · simpa using any_normal_iff false fs i
    · simpa using all_normal_iff true fs i
  | .or fs, i => by
    cases sign <;> simp only [normal, normals_eq_map, Bool.false_eq_true, if_true, if_false]
    · simpa using all_normal_iff false fs i
    · simpa using any_normal_iff true fs i
  | .always f, i => by cases sign <;> simp [normal, holds_normal_iff _ f]
  | .eventually f, i => by cases sign <;> simp [normal, holds_normal_iff _ f]
  | .next f, i => by cases sign <;> simp [normal, holds_normal_iff _ f]

theorem all_normal_iff (sign : Bool) : ∀ (fs : List Formula) (i : Nat),
    (∀ f ∈ fs, (f.normal sign).Holds v σ i) ↔ ∀ f ∈ fs, (f.Holds v σ i ↔ sign = true)
  | [], _ => by simp
  | f :: fs, i => by simp [holds_normal_iff sign f, all_normal_iff sign fs]

theorem any_normal_iff (sign : Bool) : ∀ (fs : List Formula) (i : Nat),
    (∃ f ∈ fs, (f.normal sign).Holds v σ i) ↔ ∃ f ∈ fs, (f.Holds v σ i ↔ sign = true)
  | [], _ => by simp
  | f :: fs, i => by simp [holds_normal_iff sign f, any_normal_iff sign fs]
end

end Formula
end TemporalCheck
