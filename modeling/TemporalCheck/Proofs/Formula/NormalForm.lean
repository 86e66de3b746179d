import TemporalCheck.Proofs.Formula.Occurrence

/-! Negation normal form. It says what the formula says, and so do the constructors that simplify as
they build. It is a normal form: negations are left on atoms only, and pushing them down a second
time, from inside a negation or from outside of it, changes nothing more. -/
namespace TemporalCheck.Formula

section Meaning

variable {State : Type} {v : Valuation State} {σ : Behaviour State} {i : Nat}

theorem holds_pushNegation (f : Formula) : f.pushNegation.Holds v σ i ↔ f.Holds v σ i := by
  have positive := holds_normal_iff (v := v) (σ := σ) true f i
  rw [NormalForm.Holds] at positive
  exact positive.trans (iff_true_right rfl)

theorem holds_leadsTo (f g : Formula) : (leadsTo f g).Holds v σ i ↔
    ∀ j, i ≤ j → f.Holds v σ j → ∃ k, j ≤ k ∧ g.Holds v σ k := by
  simp only [leadsTo, holds_always, holds_implies, holds_eventually]

/-- Pushing negations down keeps the meaning of a formula, and a constructor that simplifies means
the connective that it is named for. -/
theorem meaning_kept (v : Valuation State) (σ : Behaviour State) (i : Nat) :
    (∀ f : Formula, f.pushNegation.Holds v σ i ↔ f.Holds v σ i) ∧
    (∀ f : Formula, f.negate.Holds v σ i ↔ ¬f.Holds v σ i) ∧
    (∀ fs, (conj fs).Holds v σ i ↔ ∀ f ∈ fs, f.Holds v σ i) ∧
    (∀ fs, (disj fs).Holds v σ i ↔ ∃ f ∈ fs, f.Holds v σ i) ∧
    (∀ f g, (implies f g).Holds v σ i ↔ (f.Holds v σ i → g.Holds v σ i)) ∧
    ∀ f g, (leadsTo f g).Holds v σ i ↔
      ∀ j, i ≤ j → f.Holds v σ j → ∃ k, j ≤ k ∧ g.Holds v σ k :=
  ⟨holds_pushNegation, holds_negate, holds_conj, holds_disj, holds_implies, holds_leadsTo⟩

end Meaning

section Shape

variable {f : Formula} {sign : Bool}

/-- The normal form of a normal form, with two signs that work together. -/
theorem normal_normal (f : Formula) (sign again : Bool) :
    (f.normal sign).toFormula.normal again = f.normal (sign == again) := by
  induction f using induction_children generalizing sign again with
  | step f ih =>
    cases f with
    | const b => cases b <;> cases sign <;> cases again <;> rfl
    | atom a => cases a <;> cases sign <;> cases again <;> rfl
    | not f =>
      rw [normal, normal, ih f (List.mem_singleton_self f)]
      cases sign <;> cases again <;> rfl
    | and fs | or fs =>
      have inner : ∀ f ∈ fs, (f.normal sign).toFormula.normal again = f.normal (sign == again) :=
        fun f member => ih f member sign again
      cases sign <;> cases again <;> simpa [normal, normals_eq_map, NormalForm.toFormula,
        NormalForm.toFormulas_eq_map] using inner
    | always f | eventually f | next f =>
      have inner := ih f (List.mem_singleton_self f) sign again
      cases sign <;> cases again <;> simpa [normal, NormalForm.toFormula] using inner

theorem normal_negate (f : Formula) (sign : Bool) : f.negate.normal sign = f.normal (!sign) := by
  cases f with
  | const b => cases b <;> cases sign <;> rfl
  | not f => simp [negate, normal]
  | _ => rfl

theorem exists_atom_of_not_mem {g : Formula} (inside : .not g ∈ f.pushNegation.subformulas) :
    ∃ a, g = .atom a := by
  obtain ⟨p, -, same | ⟨a, -, absurdity⟩⟩ := NormalForm.mem_subformulas_toFormula.mp inside
  · cases p with
    | state l | action l =>
      obtain ⟨p, positive⟩ := l
      cases positive with
      | true => contradiction
      | false => exact ⟨_, Formula.not.inj same⟩
    | _ => contradiction
  · contradiction

theorem isPositive_pushNegation (f : Formula) : f.pushNegation.isPositive = true := by
  rw [isPositive, List.all_eq_true]
  intro g inside
  cases g with
  | not g =>
    obtain ⟨a, rfl⟩ := exists_atom_of_not_mem inside
    rfl
  | _ => rfl

/-- Pushing negations down ends in a normal form. What is left of them stands on atoms, never on a
constant; a second time changes nothing, nor does it matter whether a negation is put in front
before or after, by the constructor that simplifies or not; and nothing that a formula talks about
is lost or added. -/
theorem pushNegation_normal (f : Formula) :
    f.pushNegation.isPositive = true ∧
    (∀ g, .not g ∈ f.pushNegation.subformulas → ∃ a, g = .atom a) ∧
    f.pushNegation.pushNegation = f.pushNegation ∧
    (Formula.not (Formula.not f).pushNegation).pushNegation = f.pushNegation ∧
    f.negate.pushNegation = (Formula.not f).pushNegation ∧
    f.pushNegation.mentionsAction = f.mentionsAction ∧
    f.pushNegation.mentionsNext = f.mentionsNext := by
  refine ⟨isPositive_pushNegation f, fun g => exists_atom_of_not_mem, ?again, ?twice, ?negated,
    ?action, ?next⟩
  case again =>
    rw [pushNegation, pushNegation, NormalForm.normal_toFormula]
  case twice =>
    -- the two negative signs cancel
    rw [pushNegation, normal, pushNegation, normal, normal_normal]
    rfl
  case negated =>
    rw [pushNegation, normal_negate, pushNegation, normal]
  case action =>
    rw [Bool.eq_iff_iff, mentionsAction_iff, mentionsAction_iff]
    exact exists_congr fun p => asks_normal
  case next =>
    rw [Bool.eq_iff_iff, mentionsNext_iff, mentionsNext_iff]
    exact usesNext_normal

end Shape

end TemporalCheck.Formula
