import TemporalCheck.Proofs.Repetition
import TemporalCheck.Proofs.Tableau.Expansion

/-! Expansions that are done again. A later closure has all the numbers that an expansion hands out,
so that it finds the same particles there, in the same order, and adds nothing. -/
namespace TemporalCheck

namespace Closure

variable {c d : Closure} {f : NormalForm} {id : FormulaId} {members p : Particle}
  {fs rest seed : List NormalForm}

section Equations

variable {c₁ : Closure} (numbered : c.number f = (id, c₁))
include numbered

theorem expand_of_present (present : members.contains id = true) :
    c.expand members (f :: rest) = c₁.expand members rest := by
  rw [expand, numbered]
  exact if_pos present

theorem expand_of_clash (absent : members.contains id = false)
    (clash : c₁.contradicts members f = true) : c.expand members (f :: rest) = ([], c₁) := by
  rw [expand, numbered]
  simp only [absent, clash, Bool.false_eq_true, if_false, if_true]

theorem expand_of_all (absent : members.contains id = false)
    (clear : c₁.contradicts members f = false) (asked : f.demand = .all fs) :
    c.expand members (f :: rest) =
      (c₁.numberAll fs).expand (Ascending.insert id members) (fs ++ rest) := by
  rw [expand, numbered]
  simp only [absent, clear, Bool.false_eq_true, if_false]
  split
  · next fs' asked' =>
    obtain rfl : fs' = fs := Demand.all.inj (asked'.symm.trans asked)
    rw [asked, Demand.formulas]
  · next fs' asked' => simp [asked] at asked'

theorem expand_of_any (absent : members.contains id = false)
    (clear : c₁.contradicts members f = false) (asked : f.demand = .any fs) :
    c.expand members (f :: rest) =
      (c₁.numberAll fs).expandAny (Ascending.insert id members) fs rest := by
  rw [expand, numbered]
  simp only [absent, clear, Bool.false_eq_true, if_false]
  split
  · next fs' asked' => simp [asked] at asked'
  · next fs' asked' =>
    obtain rfl : fs' = fs := Demand.any.inj (asked'.symm.trans asked)
    rw [asked, Demand.formulas]

end Equations

section Again

variable (later : d.Distinct)
include later

theorem number_again (within : (c.number f).2.Within d) : d.number f = ((c.number f).1, d) := by
  have numbered := within _ _ (number_formula? c f)
  rw [number, (idOf?_eq_some_iff later).mpr numbered]

theorem numberAll_again (within : (c.numberAll fs).Within d) : d.numberAll fs = d := by
  induction fs generalizing c with
  | nil => rfl
  | cons f fs ih =>
    have here := number_again later ((within_numberAll fs _).trans within)
    rw [numberAll, List.foldl_cons, here]
    exact ih within

theorem contradicts_again (distinct : c.Distinct) (admitted : c.Admits p) (within : c.Within d)
    (f : NormalForm) : d.contradicts p f = c.contradicts p f := by
  rw [Bool.eq_iff_iff, contradicts_iff later, contradicts_iff distinct,
    members_within admitted within]

end Again

mutual
/-- An expansion finds the same again. -/
theorem expand_again (c : Closure) (members : Particle) (todo : List NormalForm)
    (distinct : c.Distinct) (admitted : c.Admits members) {d : Closure} (later : d.Distinct)
    (within : (c.expand members todo).2.Within d) :
    d.expand members todo = ((c.expand members todo).1, d) := by
  match todo with
  | [] => rw [expand, expand]
  | f :: rest =>
    have found := number_formula? c f
    have admitted := admitted.within (within_number c f)
    have distinct := distinct_number distinct f
    have again := number_again (c := c) (f := f) later
    -- every closure on the way is within the last one, so that `d` goes on in the same way
    cases numbered : c.number f with
    | mk id c₁ =>
      rw [numbered] at found admitted distinct again
      dsimp only at found admitted distinct again
      cases present : members.contains id with
      | true =>
        rw [expand_of_present numbered present] at within ⊢
        have onward := (expand_expanded c₁ members rest distinct admitted).within.trans within
        rw [expand_of_present (again onward) present]
        exact expand_again c₁ members rest distinct admitted later within
      | false =>
        have clashes (onward : c₁.Within d) := contradicts_again later distinct admitted onward f
        cases clash : c₁.contradicts members f with
        | true =>
          rw [expand_of_clash numbered present clash] at within ⊢
          rw [expand_of_clash (again within) present ((clashes within).trans clash)]
        | false =>
          have taken := admits_insert admitted found
          cases asked : f.demand with
          | all fs =>
            have lighter := NormalForm.weights_all_lt asked
            rw [expand_of_all numbered present clash asked] at within ⊢
            have distinct₂ := distinct_numberAll distinct fs
            have admitted₂ := taken.within (within_numberAll fs c₁)
            have onward₂ :=
              (expand_expanded _ _ (fs ++ rest) distinct₂ admitted₂).within.trans within
            have onward := (within_numberAll fs c₁).trans onward₂
            rw [expand_of_all (again onward) present ((clashes onward).trans clash) asked,
              numberAll_again later onward₂]
            exact expand_again _ _ (fs ++ rest) distinct₂ admitted₂ later within
          | any fs =>
            have lighter := NormalForm.weights_any_lt asked
            rw [expand_of_any numbered present clash asked] at within ⊢
            have distinct₂ := distinct_numberAll distinct fs
            have admitted₂ := taken.within (within_numberAll fs c₁)
            have onward₂ := (expandAny_expanded _ _ fs rest distinct₂ admitted₂).1.trans within
            have onward := (within_numberAll fs c₁).trans onward₂
            rw [expand_of_any (again onward) present ((clashes onward).trans clash) asked,
              numberAll_again later onward₂]
            exact expandAny_again _ _ fs rest distinct₂ admitted₂ later within
termination_by 2 * NormalForm.weights todo
decreasing_by
  all_goals
    have := f.weight_pos
    simp only [NormalForm.weights, NormalForm.weights_append]
    omega

theorem expandAny_again (c : Closure) (members : Particle) (alternatives todo : List NormalForm)
    (distinct : c.Distinct) (admitted : c.Admits members) {d : Closure} (later : d.Distinct)
    (within : (c.expandAny members alternatives todo).2.Within d) :
    d.expandAny members alternatives todo = ((c.expandAny members alternatives todo).1, d) := by
  match alternatives with
  | [] => rw [expandAny, expandAny]
  | f :: fs =>
    have here := expand_expanded c members (f :: todo) distinct admitted
    have admitted' := admitted.within here.within
    have there := (expandAny_expanded _ members fs todo here.distinct admitted').1
    rw [expandAny] at within ⊢
    dsimp only at within
    rw [expand_again c members (f :: todo) distinct admitted later (there.trans within)]
    dsimp only
    rw [expandAny_again _ members fs todo here.distinct admitted' later within, expandAny]
termination_by 2 * (NormalForm.weights alternatives + NormalForm.weights todo) + 1
decreasing_by
  · simp only [NormalForm.weights]; omega
  · have := f.weight_pos
    simp only [NormalForm.weights]; omega
end

theorem particles_again (distinct : c.Distinct) (later : d.Distinct)
    (within : (c.particles seed).2.Within d) : d.particles seed = ((c.particles seed).1, d) := by
  unfold particles at within ⊢
  rw [expand_again c [] seed distinct (admits_nil c) later within]

theorem nodup_particles (c : Closure) (seed : List NormalForm) : (c.particles seed).1.Nodup :=
  nodup_eraseDups _

/-- What a particle carries on is the same in a later closure. -/
theorem carried_within (admitted : c.Admits p) (within : c.Within d) :
    d.carried p = c.carried p := by
  refine List.filterMap_congr fun id member => ?_
  obtain ⟨f, at_id⟩ := admitted.numbered id member
  rw [at_id, within id f at_id]

end Closure
end TemporalCheck
