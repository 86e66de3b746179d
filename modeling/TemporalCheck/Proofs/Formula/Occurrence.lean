import TemporalCheck.Proofs.Tableau.Parts

/-! What stands inside a formula, and inside how many negations. The parts of a normal form are the
normal forms of what stands in the formula, each taken with the sign that the negations around it
leave over. So no connective is lost or made up on the way to a normal form. -/
namespace TemporalCheck

namespace Formula

/-- The formula is the other one, or stands in it inside so many negations. -/
inductive StandsIn (g : Formula) : Nat → Formula → Prop where
  | here : StandsIn g 0 g
  | not {n f} (inside : StandsIn g n f) : StandsIn g (n + 1) (.not f)
  | and {n f fs} (member : f ∈ fs) (inside : StandsIn g n f) : StandsIn g n (.and fs)
  | or {n f fs} (member : f ∈ fs) (inside : StandsIn g n f) : StandsIn g n (.or fs)
  | always {n f} (inside : StandsIn g n f) : StandsIn g n (.always f)
  | eventually {n f} (inside : StandsIn g n f) : StandsIn g n (.eventually f)
  | next {n f} (inside : StandsIn g n f) : StandsIn g n (.next f)

def children : Formula → List Formula
  | .const _ | .atom _ => []
  | .and fs | .or fs => fs
  | .not f | .always f | .eventually f | .next f => [f]

def isNegation : Formula → Bool
  | .not _ => true
  | _ => false

variable {f g h : Formula} {n : Nat} {sign : Bool}

theorem induction_children {P : Formula → Prop} (step : ∀ f, (∀ g ∈ f.children, P g) → P f)
    (f : Formula) : P f := by
  refine @Formula.rec P (fun fs => ∀ f ∈ fs, P f) ?const ?atom ?not ?and ?or ?always ?eventually
    ?next ?nil ?cons f
  case const | atom => exact fun _ => step _ (by simp [children])
  case and | or => exact fun fs ih => step _ ih
  case not | always | eventually | next =>
    exact fun f ih => step _ (by simpa [children] using ih)
  case nil => simp
  case cons =>
    intro f fs here there
    exact List.forall_mem_cons.mpr ⟨here, there⟩

theorem exists_of_isNegation (negation : f.isNegation = true) : ∃ g, f = .not g := by
  cases f with
  | not g => exact ⟨g, rfl⟩
  | _ => contradiction

theorem standsIn_not_iff :
    g.StandsIn n (.not f) ↔ (n = 0 ∧ g = .not f) ∨ ∃ m, n = m + 1 ∧ g.StandsIn m f := by
  constructor
  · rintro (_ | inside)
    · exact .inl ⟨rfl, rfl⟩
    · exact .inr ⟨_, rfl, inside⟩
  · rintro (⟨rfl, rfl⟩ | ⟨m, rfl, inside⟩)
    · exact .here
    · exact .not inside

/-- Other formulas add no negation to what stands in them. -/
theorem standsIn_iff (plain : f.isNegation = false) :
    g.StandsIn n f ↔ (n = 0 ∧ g = f) ∨ ∃ h ∈ f.children, g.StandsIn n h := by
  constructor
  · rintro (_ | _ | ⟨member, inside⟩ | ⟨member, inside⟩ | inside | inside | inside)
    · exact .inl ⟨rfl, rfl⟩
    · contradiction
    · exact .inr ⟨_, member, inside⟩
    · exact .inr ⟨_, member, inside⟩
    all_goals exact .inr ⟨_, List.mem_singleton_self _, inside⟩
  · rintro (⟨rfl, rfl⟩ | ⟨h, child, inside⟩)
    · exact .here
    · cases f with
      | const | atom => simp [children] at child
      | not => contradiction
      | and => exact .and child inside
      | or => exact .or child inside
      | always => exact .always (List.mem_singleton.mp child ▸ inside)
      | eventually => exact .eventually (List.mem_singleton.mp child ▸ inside)
      | next => exact .next (List.mem_singleton.mp child ▸ inside)

theorem mem_subformulas_children :
    g ∈ f.subformulas ↔ g = f ∨ ∃ h ∈ f.children, g ∈ h.subformulas := by
  cases f <;> simp [subformulas, children, mem_allSubformulas]

theorem exists_standsIn_iff :
    (∃ n, g.StandsIn n f) ↔ g = f ∨ ∃ h ∈ f.children, ∃ n, g.StandsIn n h := by
  cases negation : f.isNegation with
  | true =>
    obtain ⟨f, rfl⟩ := exists_of_isNegation negation
    simp only [standsIn_not_iff, children, List.mem_singleton, exists_eq_left]
    constructor
    · rintro ⟨n, ⟨-, rfl⟩ | ⟨m, -, inside⟩⟩
      · exact .inl rfl
      · exact .inr ⟨m, inside⟩
    · rintro (rfl | ⟨n, inside⟩)
      · exact ⟨0, .inl ⟨rfl, rfl⟩⟩
      · exact ⟨n + 1, .inr ⟨n, rfl, inside⟩⟩
  | false =>
    simp only [standsIn_iff negation]
    constructor
    · rintro ⟨n, ⟨-, rfl⟩ | ⟨h, child, inside⟩⟩
      · exact .inl rfl
      · exact .inr ⟨h, child, n, inside⟩
    · rintro (rfl | ⟨h, child, n, inside⟩)
      · exact ⟨0, .inl ⟨rfl, rfl⟩⟩
      · exact ⟨n, .inr ⟨h, child, inside⟩⟩

/-- The formulas listed for a formula are those that stand in it. -/
theorem mem_subformulas_iff : g ∈ f.subformulas ↔ ∃ n, g.StandsIn n f := by
  induction f using induction_children with
  | step f ih =>
    rw [mem_subformulas_children, exists_standsIn_iff]
    exact or_congr_right (exists_congr fun h => and_congr_right fun child => ih h child)

theorem children_normal (plain : f.isNegation = false) (sign : Bool) :
    (f.normal sign).children = f.children.map (normal sign) := by
  cases f with
  | atom a => cases a <;> rfl
  | not => contradiction
  | and | or => cases sign <;> simp [normal, NormalForm.children, normals_eq_map, children]
  | always | eventually => cases sign <;> rfl
  | const | next => rfl

/-- What stands in a formula gives a part of the normal form, with the sign that is left of the
negations around it; and there are no other parts. -/
theorem partOf_normal_iff {p : NormalForm} : p.PartOf (f.normal sign) ↔
    ∃ (n : Nat) (g : Formula), g.StandsIn n f ∧ g.isNegation = false ∧
      p = g.normal (Bool.not^[n] sign) := by
  induction f using induction_children generalizing sign with
  | step f ih =>
    cases negation : f.isNegation with
    | true =>
      -- a negation is no part of the normal form, it only turns the sign over
      obtain ⟨k, rfl⟩ := exists_of_isNegation negation
      rw [normal, ih k (List.mem_singleton_self k)]
      constructor
      · rintro ⟨n, g, inside, plain, same⟩
        exact ⟨n + 1, g, .not inside, plain, same⟩
      · rintro ⟨n, g, inside, plain, same⟩
        rcases standsIn_not_iff.mp inside with ⟨-, rfl⟩ | ⟨m, rfl, within⟩
        · contradiction
        · exact ⟨m, g, within, plain, same⟩
    | false =>
      rw [NormalForm.partOf_iff, children_normal negation]
      constructor
      · rintro (rfl | ⟨_, mapped, part⟩)
        · exact ⟨0, f, .here, negation, rfl⟩
        · obtain ⟨h, child, rfl⟩ := List.mem_map.mp mapped
          obtain ⟨n, g, inside, plain, same⟩ := (ih h child).mp part
          exact ⟨n, g, (standsIn_iff negation).mpr (.inr ⟨h, child, inside⟩), plain, same⟩
      · rintro ⟨n, g, inside, plain, rfl⟩
        rcases (standsIn_iff negation).mp inside with ⟨rfl, rfl⟩ | ⟨h, child, inside⟩
        · exact .inl rfl
        · exact .inr ⟨_, List.mem_map_of_mem child, (ih h child).mpr ⟨n, g, inside, plain, rfl⟩⟩

def UsesNext (f : Formula) : Prop := ∃ n g, (Formula.next g).StandsIn n f

/-- An eventuality stands in the formula inside an even number of negations, or an always inside an
odd number of them. -/
def Eventual (f : Formula) : Prop :=
  ∃ n g, (Even n ∧ (Formula.eventually g).StandsIn n f) ∨ (Odd n ∧ (Formula.always g).StandsIn n f)

theorem mentionsNext_iff : f.mentionsNext = true ↔ f.UsesNext := by
  have shape : f.mentionsNext = true ↔ ∃ g, Formula.next g ∈ f.subformulas := by
    rw [mentionsNext, List.any_eq_true]
    constructor
    · rintro ⟨g, member, isNext⟩
      cases g with
      | next g => exact ⟨g, member⟩
      | _ => contradiction
    · rintro ⟨g, member⟩
      exact ⟨_, member, rfl⟩
  rw [shape, UsesNext, exists_comm]
  exact exists_congr fun g => mem_subformulas_iff

theorem mentionsAction_iff : f.mentionsAction = true ↔ ∃ p, f.Asks (.action p) := by
  rw [mentionsAction, List.any_eq_true]
  constructor
  · rintro ⟨g, member, isAction⟩
    split at isAction
    · next p => exact ⟨p, member⟩
    · contradiction
  · rintro ⟨p, member⟩
    exact ⟨_, member, rfl⟩

theorem promises_isEmpty : f.promises.isEmpty = false ↔ ∃ g, .eventually g ∈ f.subformulas := by
  rw [List.isEmpty_eq_false_iff_exists_mem]
  simp only [promises, List.mem_eraseDups, List.mem_filter]
  constructor
  · rintro ⟨g, member, eventual⟩
    cases g with
    | eventually g => exact ⟨g, member⟩
    | _ => contradiction
  · rintro ⟨g, member⟩
    exact ⟨_, member, rfl⟩

section Normal

variable {p : NormalForm} {s : Bool}

theorem exists_next_of_normal (plain : g.isNegation = false) (same : .next p = g.normal s) :
    ∃ h, g = .next h := by
  cases g with
  | next h => exact ⟨h, rfl⟩
  | not => contradiction
  | atom a => cases a <;> simp [normal] at same
  | _ => cases s <;> simp [normal] at same

/-- The normal form of an always under a negation is an eventuality. -/
theorem cases_of_normal_eventually (plain : g.isNegation = false)
    (same : .eventually p = g.normal s) :
    (s = true ∧ ∃ h, g = .eventually h) ∨ (s = false ∧ ∃ h, g = .always h) := by
  cases g with
  | eventually h => cases s <;> simp [normal] at same ⊢
  | always h => cases s <;> simp [normal] at same ⊢
  | not => contradiction
  | atom a => cases a <;> simp [normal] at same
  | _ => cases s <;> simp [normal] at same

theorem iterate_not_true : (Bool.not^[n] true = true ↔ Even n) ∧
    (Bool.not^[n] true = false ↔ Odd n) := by
  rcases Nat.even_or_odd n with even | odd
  · simp [Bool.involutive_not.iterate_even even, even]
  · simp [Bool.involutive_not.iterate_odd odd, odd]

/-- The normal form keeps every next operator. -/
theorem usesNext_normal : (f.normal sign).toFormula.UsesNext ↔ f.UsesNext := by
  rw [UsesNext, exists_comm]
  simp only [← mem_subformulas_iff, NormalForm.mem_subformulas_toFormula]
  constructor
  · rintro ⟨g, p, part, same | ⟨a, -, absurdity⟩⟩
    · obtain ⟨n, h, inside, plain, rfl⟩ := partOf_normal_iff.mp part
      have shape : .next (g.normal true) = h.normal (Bool.not^[n] sign) := by
        rw [← NormalForm.normal_toFormula (h.normal _), ← same]
        simp [normal]
      obtain ⟨k, rfl⟩ := exists_next_of_normal plain shape
      exact ⟨n, k, inside⟩
    · contradiction
  · rintro ⟨n, g, inside⟩
    exact ⟨_, _, partOf_normal_iff.mpr ⟨n, _, inside, rfl, rfl⟩, .inl rfl⟩

/-- The normal form asks every atom that the formula asks. -/
theorem asks_normal {a : Atom} : (f.normal sign).Asks a ↔ f.Asks a := by
  refine ⟨asks_of_asks_normal sign f, fun asks => ?_⟩
  obtain ⟨n, inside⟩ := mem_subformulas_iff.mp asks
  refine NormalForm.mem_subformulas_toFormula.mpr
    ⟨_, partOf_normal_iff.mpr ⟨n, _, inside, rfl, rfl⟩, ?_⟩
  cases a <;> cases Bool.not^[n] sign <;> simp [normal, NormalForm.toFormula]

/-- Promises are left exactly when an eventuality stands in the formula, or an always that the
negations around it turn into one. -/
theorem promises_pushNegation : f.pushNegation.promises.isEmpty = false ↔ f.Eventual := by
  simp only [promises_isEmpty, pushNegation, NormalForm.eventually_mem_subformulas]
  constructor
  · rintro ⟨_, p, part, -⟩
    obtain ⟨n, g, inside, plain, same⟩ := partOf_normal_iff.mp part
    rcases cases_of_normal_eventually plain same with ⟨sign, h, rfl⟩ | ⟨sign, h, rfl⟩
    · exact ⟨n, h, .inl ⟨iterate_not_true.1.mp sign, inside⟩⟩
    · exact ⟨n, h, .inr ⟨iterate_not_true.2.mp sign, inside⟩⟩
  · rintro ⟨n, g, ⟨even, inside⟩ | ⟨odd, inside⟩⟩
    · refine ⟨_, g.normal true, partOf_normal_iff.mpr ⟨n, _, inside, rfl, ?_⟩, rfl⟩
      simp [iterate_not_true.1.mpr even, normal]
    · refine ⟨_, g.normal false, partOf_normal_iff.mpr ⟨n, _, inside, rfl, ?_⟩, rfl⟩
      simp [iterate_not_true.2.mpr odd, normal]

end Normal

end Formula
end TemporalCheck
