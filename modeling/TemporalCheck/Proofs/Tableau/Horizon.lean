import TemporalCheck.Proofs.Tableau.Finite

/-! How far an expansion can look ahead. What it adds to the parts of a formula is the ones that
recur, put off to the next position. -/
namespace TemporalCheck

theorem closed_biUnion {Γ : NormalForm → Set NormalForm} (closed : ∀ f, Closed (Γ f))
    (seed : List NormalForm) : Closed {g | ∃ f ∈ seed, g ∈ Γ f} where
  demand := by
    rintro g ⟨f, member, inside⟩ h asked
    exact ⟨f, member, (closed f).demand g inside h asked⟩
  next := by
    rintro g ⟨f, member, inside⟩
    exact ⟨f, member, (closed f).next g inside⟩

namespace NormalForm

variable {f g : NormalForm}

/-- What stands inside a formula and recurs, put off to the next position. -/
def deferred (f : NormalForm) : Set NormalForm :=
  {g | ∃ h : NormalForm, h.PartOf f ∧ h.Recurs ∧ g = .next h}

def horizon (f : NormalForm) : Set NormalForm := {g | g.PartOf f} ∪ f.deferred

theorem self_mem_horizon (f : NormalForm) : f ∈ f.horizon := .inl .refl

theorem horizon_subset_around (f : NormalForm) : f.horizon ⊆ f.around := by
  rintro g (part | ⟨h, part, -, rfl⟩)
  · exact .inl part
  · exact .inr ⟨h, part, rfl⟩

theorem finite_horizon (f : NormalForm) : f.horizon.Finite :=
  f.finite_around.subset f.horizon_subset_around

theorem closed_horizon (f : NormalForm) : Closed f.horizon where
  demand := by
    rintro g (part | ⟨h, part, -, rfl⟩) g' asked
    · rcases of_mem_demand asked with child | ⟨recurs, rfl⟩
      · exact .inl (part.child child)
      · exact .inr ⟨g, part, recurs, rfl⟩
    · simp [demand, Demand.formulas] at asked
  next := by
    rintro g (part | ⟨h, part, -, same⟩)
    · exact .inl (part.child (by simp [children]))
    · obtain rfl := NormalForm.next.inj same
      exact .inl part

end NormalForm
end TemporalCheck
