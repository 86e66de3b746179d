import TemporalCheck.Proofs.Formula.NormalForm
import TemporalCheck.Proofs.Tableau.Finite
import TemporalCheck.Tableau.Construct

/-! Which properties have a tableau. The next operator is turned down wherever it stands, and so is
a property in which nothing is left to wait for once its negations are pushed down. Reading a
formula after that never fails, and then only the limit can get in the way. -/
namespace TemporalCheck

namespace Formula

/-- A normal form is read as itself. -/
theorem read_toFormula (f : NormalForm) : f.toFormula.read = .ok f := by
  have all {fs : List NormalForm} (ih : ∀ f ∈ fs, f.toFormula.read = .ok f) :
      readAll (fs.map NormalForm.toFormula) = .ok fs := by
    induction fs with
    | nil => rfl
    | cons f fs rest =>
      obtain ⟨here, there⟩ := List.forall_mem_cons.mp ih
      exact bind_eq_ok here (bind_eq_ok (rest there) rfl)
  induction f using NormalForm.induction with
  | const b => rfl
  | state l | action l =>
    obtain ⟨p, positive⟩ := l
    cases positive <;> rfl
  | and fs ih | or fs ih =>
    rw [NormalForm.toFormula, NormalForm.toFormulas_eq_map]
    exact bind_eq_ok (all ih) rfl
  | always f ih | eventually f ih | next f ih => exact bind_eq_ok ih rfl

/-- Once its negations are pushed down, a formula can be read. -/
theorem read_pushNegation (f : Formula) : f.pushNegation.read = .ok (f.normal true) :=
  read_toFormula _

end Formula

namespace Tableau

variable {assumption : Option Formula} {property : Formula} {limit : Nat}

/-- There is no tableau to be had: the next operator is used, or the property has no eventuality. -/
def Improper (assumption : Option Formula) (property : Formula) : Prop :=
  property.UsesNext ∨ (∃ f ∈ assumption, f.UsesNext) ∨ ¬property.Eventual

theorem read_refutation : (refutation assumption property).pushNegation.read =
    .ok (counterexample assumption property) := by
  rw [Formula.read_pushNegation]
  cases assumption <;> rfl

theorem mentionsNext_or_iff :
    (property.mentionsNext || assumption.any (·.mentionsNext)) = true ↔
      property.UsesNext ∨ ∃ f ∈ assumption, f.UsesNext := by
  simp [Formula.mentionsNext_iff, Option.any_eq_true]

theorem promises_isEmpty_iff : property.pushNegation.promises.isEmpty = true ↔
    ¬property.Eventual := by
  rw [← Formula.promises_pushNegation, Bool.not_eq_false]

/-- An improper property is turned down before a tableau is begun. -/
theorem construct_improper (improper : Improper assumption property) :
    (∀ limit, construct limit assumption property = .error (.ofRejection .usesNext)) ∨
      ∀ limit, construct limit assumption property =
        .error (.ofRejection (.noEventuality property)) := by
  by_cases next : property.UsesNext ∨ ∃ f ∈ assumption, f.UsesNext
  · exact .inl fun limit => if_pos (mentionsNext_or_iff.mpr next)
  · have safety : ¬property.Eventual := by
      rcases improper with here | there | safety
      · exact absurd (.inl here) next
      · exact absurd (.inr there) next
      · exact safety
    refine .inr fun limit => ?_
    rw [construct, if_neg (mentionsNext_or_iff.not.mpr next),
      if_pos (promises_isEmpty_iff.mpr safety)]

/-- A proper one is turned down only by the limit. -/
theorem construct_proper (proper : ¬Improper assumption property) :
    construct limit assumption property =
      (ofNormalForm limit property (counterexample assumption property)).mapError .ofRejection := by
  rw [Improper, ← or_assoc, not_or, not_not] at proper
  obtain ⟨plain, eventual⟩ := proper
  rw [construct, if_neg (mentionsNext_or_iff.not.mpr plain),
    if_neg (promises_isEmpty_iff.not.mpr (not_not.mpr eventual)), read_refutation]

theorem construct_sizeLimit : construct sizeLimit assumption property =
    (build assumption property).mapError .ofRejection := by
  rw [construct, build, read_refutation]
  split_ifs <;> rfl

theorem mapError_error {x : Except ε α} {f : ε → δ} {e : δ} :
    x.mapError f = .error e ↔ ∃ r, x = .error r ∧ f r = e := by
  cases x <;> simp [Except.mapError]

/-- A property is turned down exactly when it is improper, apart from a limit that is too small for
its tableau. Whatever goes wrong, the property is said to be malformed; and what is read into the
closure can always be read, so the internal failure of reading does not happen. -/
theorem construct_fails_iff (assumption : Option Formula) (property : Formula) :
    (∃ least, ∀ limit, least ≤ limit →
      ((∃ e, construct limit assumption property = .error e) ↔ Improper assumption property)) ∧
    (∀ limit, Improper assumption property →
      ∃ e, construct limit assumption property = .error e) ∧
    (∀ limit e, construct limit assumption property = .error e →
      (∃ reason, e = .malformed reason) ∧
        (Improper assumption property ∨ e = .ofRejection (.tooLarge limit))) ∧
    (refutation assumption property).pushNegation.read =
      .ok (counterexample assumption property) ∧
    construct sizeLimit assumption property =
      (build assumption property).mapError .ofRejection := by
  have improper_fails (limit : Nat) (improper : Improper assumption property) :
      ∃ e, construct limit assumption property = .error e :=
    (construct_improper improper).elim (⟨_, · limit⟩) (⟨_, · limit⟩)
  refine ⟨?_, improper_fails, ?_, read_refutation, construct_sizeLimit⟩
  · refine ⟨2 ^ (counterexample assumption property).around.ncard, fun limit room => ?_⟩
    refine ⟨?_, improper_fails limit⟩
    rintro ⟨e, failed⟩
    by_contra proper
    obtain ⟨t, built⟩ := exists_ofNormalForm room property
    rw [construct_proper proper, built] at failed
    contradiction
  · intro limit e failed
    by_cases improper : Improper assumption property
    · rcases construct_improper improper with rejected | rejected
      all_goals
        obtain rfl := Except.error.inj ((rejected limit).symm.trans failed)
        exact ⟨⟨_, rfl⟩, .inl improper⟩
    · rw [construct_proper improper] at failed
      obtain ⟨r, stopped, rfl⟩ := mapError_error.mp failed
      obtain rfl := ofNormalForm_error stopped
      exact ⟨⟨_, rfl⟩, .inr rfl⟩

/-- A constant has nothing to wait for, negated or not. What is not always false is an eventuality,
and it has a tableau even under an assumption that cannot be met. -/
theorem construct_fails_iff_constant :
    (∀ limit, ∃ e, construct limit none (.not (.const true)) = .error e) ∧
      ∃ least, ∀ limit, least ≤ limit → ∃ t, construct limit (some (.or []))
        (.not (.always (.not (.const true)))) = .ok t := by
  constructor
  · have improper : Improper none (.not (.const true)) := by
      refine .inr (.inr (promises_isEmpty_iff.mp ?_))
      decide +kernel
    obtain ⟨-, fails, -⟩ := construct_fails_iff none (.not (.const true))
    exact fun limit => fails limit improper
  · have proper : ¬Improper (some (.or [])) (.not (.always (.not (.const true)))) := by
      rw [Improper, ← or_assoc, not_or, not_not, ← mentionsNext_or_iff]
      exact ⟨by decide +kernel, 1, _, .inr ⟨odd_one, .not .here⟩⟩
    obtain ⟨⟨least, fails⟩, -⟩ := construct_fails_iff (some (.or []))
      (.not (.always (.not (.const true))))
    refine ⟨least, fun limit room => ?_⟩
    cases result : construct limit (some (.or [])) (.not (.always (.not (.const true)))) with
    | ok t => exact ⟨t, rfl⟩
    | error e => exact absurd ((fails limit room).mp ⟨e, result⟩) proper

end Tableau
end TemporalCheck
