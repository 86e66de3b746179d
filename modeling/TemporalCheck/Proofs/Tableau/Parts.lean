import TemporalCheck.Proofs.Atoms
import TemporalCheck.Proofs.Tableau.Again

/-! Which formulas a closure lists. Interning lists a formula with all its parts, and all that
expansions add is parts put off to the next position. So the eventualities in the closure are those
inside the formula. -/
namespace TemporalCheck

namespace NormalForm

def PartOf : NormalForm → NormalForm → Prop :=
  Relation.ReflTransGen fun g f => g ∈ f.children

variable {f g h : NormalForm}

theorem PartOf.child (part : g.PartOf f) (child : h ∈ g.children) : h.PartOf f :=
  Relation.ReflTransGen.head child part

theorem partOf_iff : g.PartOf f ↔ g = f ∨ ∃ h ∈ f.children, g.PartOf h := by
  rw [PartOf, Relation.ReflTransGen.cases_tail_iff, eq_comm]
  exact or_congr_right (exists_congr fun h => and_comm)

theorem induction_children {P : NormalForm → Prop} (step : ∀ f, (∀ g ∈ f.children, P g) → P f)
    (f : NormalForm) : P f := by
  induction f using NormalForm.induction with
  | const | state | action => exact step _ (by simp [children])
  | and fs ih | or fs ih => exact step _ ih
  | always f ih | eventually f ih | next f ih => exact step _ (by simpa [children] using ih)

/-- A normal form is its own normal form. -/
theorem normal_toFormula (f : NormalForm) : f.toFormula.normal true = f := by
  have all {fs : List NormalForm} (ih : ∀ f ∈ fs, f.toFormula.normal true = f) :
      (fs.map toFormula).map (Formula.normal true) = fs := by
    rw [List.map_map]
    exact (List.map_congr_left ih).trans (List.map_id fs)
  induction f using NormalForm.induction with
  | const b => simp [toFormula, Formula.normal]
  | state l | action l =>
    obtain ⟨p, positive⟩ := l
    cases positive <;> simp [toFormula, Formula.normal]
  | and fs ih | or fs ih =>
    simp [toFormula, Formula.normal, toFormulas_eq_map, Formula.normals_eq_map, all ih]
  | always f ih | eventually f ih | next f ih => simp [toFormula, Formula.normal, ih]

theorem toFormula_injective : Function.Injective toFormula :=
  Function.LeftInverse.injective normal_toFormula

theorem mem_toFormula_iff {a : Formula} : a ∈ f.toFormula.subformulas ↔
    (a = f.toFormula ∨ ∃ p, f.toFormula = .not (.atom p) ∧ a = .atom p) ∨
      ∃ h ∈ f.children, a ∈ h.toFormula.subformulas := by
  cases f with
  | state l | action l =>
    obtain ⟨p, positive⟩ := l
    cases positive <;> simp [toFormula, Formula.subformulas, children]
  | _ =>
    simp [toFormula, Formula.subformulas, children, Formula.mem_allSubformulas, toFormulas_eq_map]

/-- What stands in a normal form is a part of it or the atom of a negative literal. -/
theorem mem_subformulas_toFormula {a : Formula} : a ∈ f.toFormula.subformulas ↔
    ∃ h : NormalForm, h.PartOf f ∧
      (a = h.toFormula ∨ ∃ p, h.toFormula = .not (.atom p) ∧ a = .atom p) := by
  induction f using induction_children with
  | step f ih =>
    rw [mem_toFormula_iff]
    constructor
    · rintro (here | ⟨h, child, inside⟩)
      · exact ⟨f, .refl, here⟩
      · obtain ⟨g, part, same⟩ := (ih h child).mp inside
        exact ⟨g, part.tail child, same⟩
    · rintro ⟨g, part, same⟩
      rcases partOf_iff.mp part with rfl | ⟨h, child, part⟩
      · exact .inl same
      · exact .inr ⟨h, child, (ih h child).mpr ⟨g, part, same⟩⟩

/-- The eventualities inside a formula are parts of it. -/
theorem eventually_mem_subformulas {a : Formula} : .eventually a ∈ f.toFormula.subformulas ↔
    ∃ g, (NormalForm.eventually g).PartOf f ∧ g.toFormula = a := by
  rw [mem_subformulas_toFormula]
  constructor
  · rintro ⟨h, part, same | ⟨p, -, absurdity⟩⟩
    · have shape : h = .eventually (a.normal true) := by
        rw [← normal_toFormula h, ← same]
        simp [Formula.normal]
      subst shape
      exact ⟨_, part, (Formula.eventually.inj same).symm⟩
    · contradiction
  · rintro ⟨g, part, rfl⟩
    exact ⟨_, part, .inl rfl⟩

/-- The parts of a formula, and the same put off to the next position. -/
def around (f : NormalForm) : Set NormalForm :=
  {g | g.PartOf f ∨ ∃ h : NormalForm, h.PartOf f ∧ g = .next h}

def Recurs : NormalForm → Prop
  | .always _ | .eventually _ => True
  | _ => False

theorem of_mem_demand (asked : g ∈ f.demand.formulas) :
    g ∈ f.children ∨ (f.Recurs ∧ g = .next f) := by
  cases f with
  | const b => cases b <;> simp [demand, Demand.formulas] at asked
  | state | action | next => simp [demand, Demand.formulas] at asked
  | and | or => exact .inl asked
  | always | eventually => simpa [demand, Demand.formulas, children, Recurs] using asked

theorem closed_around (f : NormalForm) : Closed f.around where
  demand := by
    rintro g (part | ⟨h, part, rfl⟩) g' asked
    · rcases of_mem_demand asked with child | ⟨-, rfl⟩
      · exact .inl (part.child child)
      · exact .inr ⟨g, part, rfl⟩
    · simp [demand, Demand.formulas] at asked
  next := by
    rintro g (part | ⟨h, part, same⟩)
    · exact .inl (part.child (by simp [children]))
    · obtain rfl := NormalForm.next.inj same
      exact .inl part

end NormalForm

namespace Closure

variable {c d : Closure} {f : NormalForm} {Γ : Set NormalForm}

def listed (c : Closure) : Set NormalForm := {f | ∃ id, c.formula? id = some f}

theorem Within.listed (within : c.Within d) : c.listed ⊆ d.listed := by
  rintro f ⟨id, at_id⟩
  exact ⟨id, within id f at_id⟩

theorem listed_number (c : Closure) (f : NormalForm) :
    (c.number f).2.listed = insert f c.listed := by
  refine Set.Subset.antisymm ?_ (Set.insert_subset ⟨_, number_formula? c f⟩
    (within_number c f).listed)
  rintro g ⟨id, at_id⟩
  unfold number at at_id
  cases found : c.idOf? f with
  | some j =>
    rw [found] at at_id
    exact .inr ⟨id, at_id⟩
  | none =>
    rw [found] at at_id
    rcases Array.mem_push.mp (Array.mem_of_getElem? at_id) with old | rfl
    · exact .inr (Array.getElem?_of_mem old)
    · exact .inl rfl

theorem listed_numberAll (fs : List NormalForm) (c : Closure) :
    (c.numberAll fs).listed = c.listed ∪ {f | f ∈ fs} := by
  induction fs generalizing c with
  | nil => simp [numberAll]
  | cons f fs ih =>
    have onward : c.numberAll (f :: fs) = (c.number f).2.numberAll fs := rfl
    rw [onward, ih, listed_number]
    ext g
    simp [or_left_comm, or_assoc]

section Intern

/-- A formula is listed after its parts. -/
theorem listed_part (listed : d.listed = c.listed ∪ {g | ∃ h ∈ f.children, g.PartOf h}) :
    (d.number f).2.listed = c.listed ∪ {g | g.PartOf f} := by
  rw [listed_number, listed]
  ext g
  simp only [Set.mem_insert_iff, Set.mem_union, Set.mem_ofPred_eq, NormalForm.partOf_iff (f := f),
    or_left_comm]

mutual
/-- Interning lists the parts of a formula and nothing else. -/
theorem listed_intern : ∀ (f : NormalForm) (c : Closure),
    (c.intern f).2.listed = c.listed ∪ {g | g.PartOf f}
  | .const _, _ | .state _, _ | .action _, _ => listed_part (by simp [NormalForm.children])
  | .and fs, c | .or fs, c => listed_part (listed_internAll fs c)
  | .always f, c | .eventually f, c | .next f, c =>
    listed_part (by simpa [NormalForm.children] using listed_intern f c)

theorem listed_internAll : ∀ (fs : List NormalForm) (c : Closure),
    (c.internAll fs).listed = c.listed ∪ {g | ∃ f ∈ fs, g.PartOf f}
  | [], c => by simp [internAll]
  | f :: fs, c => by
    ext g
    simp [internAll, listed_internAll fs, listed_intern f c, or_assoc]
end

theorem listed_intern_empty (f : NormalForm) :
    ((⟨#[]⟩ : Closure).intern f).2.listed = {g | g.PartOf f} := by
  have empty : (⟨#[]⟩ : Closure).listed = ∅ := by
    ext g
    simp [listed, formula?]
  rw [listed_intern, empty, Set.empty_union]

end Intern

section Expand

variable {Δ : Set NormalForm}

mutual
/-- All that an expansion lists is in a closed set around what it is about. -/
theorem listed_expand (closed : Closed Γ) (wider : Γ ⊆ Δ) (c : Closure) (members : Particle)
    (todo : List NormalForm) (inside : c.listed ⊆ Δ) (wanted : ∀ f ∈ todo, f ∈ Γ) :
    (c.expand members todo).2.listed ⊆ Δ := by
  match todo with
  | [] =>
    rw [expand]
    exact inside
  | f :: rest =>
    obtain ⟨here, wanted⟩ := List.forall_mem_cons.mp wanted
    have inside := listed_number c f ▸ Set.insert_subset (wider here) inside
    cases numbered : c.number f with
    | mk id c₁ =>
      rw [numbered] at inside
      cases present : members.contains id with
      | true =>
        rw [expand_of_present numbered present]
        exact listed_expand closed wider c₁ members rest inside wanted
      | false =>
        cases clash : c₁.contradicts members f with
        | true =>
          rw [expand_of_clash numbered present clash]
          exact inside
        | false =>
          have demanded := closed.demand f here
          have numbered₂ : (c₁.numberAll f.demand.formulas).listed ⊆ Δ := by
            rw [listed_numberAll]
            exact Set.union_subset inside fun g asked => wider (demanded g asked)
          cases asked : f.demand with
          | all fs =>
            have lighter := NormalForm.weights_all_lt asked
            rw [asked] at demanded numbered₂
            rw [expand_of_all numbered present clash asked]
            exact listed_expand closed wider _ _ (fs ++ rest) numbered₂
              (List.forall_mem_append.mpr ⟨demanded, wanted⟩)
          | any fs =>
            have lighter := NormalForm.weights_any_lt asked
            rw [asked] at demanded numbered₂
            rw [expand_of_any numbered present clash asked]
            exact listed_expandAny closed wider _ _ fs rest numbered₂ demanded wanted
termination_by 2 * NormalForm.weights todo
decreasing_by
  all_goals
    have := f.weight_pos
    simp only [NormalForm.weights, NormalForm.weights_append]
    omega

theorem listed_expandAny (closed : Closed Γ) (wider : Γ ⊆ Δ) (c : Closure) (members : Particle)
    (alternatives todo : List NormalForm) (inside : c.listed ⊆ Δ)
    (offered : ∀ f ∈ alternatives, f ∈ Γ) (wanted : ∀ f ∈ todo, f ∈ Γ) :
    (c.expandAny members alternatives todo).2.listed ⊆ Δ := by
  match alternatives with
  | [] =>
    rw [expandAny]
    exact inside
  | f :: fs =>
    obtain ⟨here, offered⟩ := List.forall_mem_cons.mp offered
    rw [expandAny]
    refine listed_expandAny closed wider _ members fs todo ?_ offered wanted
    exact listed_expand closed wider c members (f :: todo) inside
      (List.forall_mem_cons.mpr ⟨here, wanted⟩)
termination_by 2 * (NormalForm.weights alternatives + NormalForm.weights todo) + 1
decreasing_by
  all_goals
    have := f.weight_pos
    simp only [NormalForm.weights]
    omega
end

/-- Working out particles adds formulas from a closed set around the seed. -/
theorem listed_particles_union (closed : Closed Γ) {seed : List NormalForm}
    (wanted : ∀ f ∈ seed, f ∈ Γ) : (c.particles seed).2.listed ⊆ c.listed ∪ Γ :=
  listed_expand closed Set.subset_union_right c [] seed Set.subset_union_left wanted

theorem listed_particles (closed : Closed Γ) {seed : List NormalForm} (inside : c.listed ⊆ Γ)
    (wanted : ∀ f ∈ seed, f ∈ Γ) : (c.particles seed).2.listed ⊆ Γ :=
  listed_expand closed subset_rfl c [] seed inside wanted

end Expand

/-- Where a closure lists the eventualities of a formula, its promises are those, each once. -/
theorem promises_perm (distinct : c.Distinct)
    (eventual : ∀ g, .eventually g ∈ c.listed ↔ (NormalForm.eventually g).PartOf f) :
    (c.promises.map fun id => (c.formula? id).map (·.toFormula)).Perm
      (f.toFormula.promises.map some) := by
  have promised {id : FormulaId} (member : id ∈ c.promises) :=
    Tableau.formula?_of_mem_promises.mp member
  refine (List.perm_ext_iff_of_nodup ?_ ?_).mpr fun x => ?_
  · refine List.Nodup.map_on (fun i first j second same => ?_) (List.nodup_range.filter _)
    obtain ⟨g, at_i⟩ := promised first
    obtain ⟨h, at_j⟩ := promised second
    simp only [at_i, at_j, Option.map_some, Option.some.injEq] at same
    exact distinct i j _ at_i (NormalForm.toFormula_injective same ▸ at_j)
  · exact (nodup_eraseDups _).map (Option.some_injective _)
  · simp only [List.mem_map, Formula.promises, List.mem_eraseDups, List.mem_filter]
    constructor
    · rintro ⟨id, member, rfl⟩
      obtain ⟨g, at_id⟩ := promised member
      have inside := NormalForm.eventually_mem_subformulas.mpr
        ⟨g, (eventual g).mp ⟨id, at_id⟩, rfl⟩
      exact ⟨_, ⟨inside, rfl⟩, by simp [at_id, NormalForm.toFormula]⟩
    · rintro ⟨y, ⟨inside, kind⟩, rfl⟩
      cases y with
      | eventually a =>
        obtain ⟨g, part, rfl⟩ := NormalForm.eventually_mem_subformulas.mp inside
        obtain ⟨id, at_id⟩ := (eventual g).mpr part
        exact ⟨id, Tableau.formula?_of_mem_promises.mpr ⟨g, at_id⟩,
          by simp [at_id, NormalForm.toFormula]⟩
      | _ => simp [Formula.isEventuality] at kind

end Closure
end TemporalCheck
