import TemporalCheck.Proofs.Tableau.Closure

/-! Particles as sets of formulas. Every particle that an expansion finds has what its members ask
for and no contradiction, and every set with these two properties includes one that was found: the
expansion follows the alternatives that the set chooses. -/
namespace TemporalCheck

def Demand.MetIn (T : Set NormalForm) : Demand → Prop
  | .all fs => ∀ f ∈ fs, f ∈ T
  | .any fs => ∃ f ∈ fs, f ∈ T

def Demand.TakesFirst (T P : Set NormalForm) : Demand → Prop
  | .any (f :: _) => f ∈ T → f ∈ P
  | _ => True

def Saturated (T : Set NormalForm) : Prop := ∀ f ∈ T, f.demand.MetIn T

def Consistent (T : Set NormalForm) : Prop := ∀ f ∈ T, ∀ g, f.opposite? = some g → g ∉ T

structure Closed (Γ : Set NormalForm) : Prop where
  demand : ∀ f ∈ Γ, ∀ g ∈ f.demand.formulas, g ∈ Γ
  next : ∀ f, .next f ∈ Γ → f ∈ Γ

namespace NormalForm

theorem opposite?_opposite? {f g : NormalForm} (opposite : f.opposite? = some g) :
    g.opposite? = some f := by
  cases f <;> simp only [opposite?, Option.some.injEq, reduceCtorEq] at opposite
  all_goals
    subst opposite
    simp [opposite?, Literal.opposite]

theorem opposite?_ne {f g : NormalForm} (opposite : f.opposite? = some g) : f ≠ g := by
  rintro rfl
  cases f <;> simp only [opposite?, Option.some.injEq, reduceCtorEq] at opposite
  all_goals
    simp only [state.injEq, action.injEq] at opposite
    simpa [Literal.opposite] using congrArg Literal.positive opposite

theorem weights_all_lt {f : NormalForm} {fs : List NormalForm} (asked : f.demand = .all fs) :
    weights fs < f.weight := by
  simpa [asked, Demand.formulas] using f.weights_demand_lt

theorem weights_any_lt {f : NormalForm} {fs : List NormalForm} (asked : f.demand = .any fs) :
    weights fs < f.weight := by
  simpa [asked, Demand.formulas] using f.weights_demand_lt

end NormalForm

theorem consistent_empty : Consistent ∅ := by simp [Consistent]

theorem Consistent.insert {M : Set NormalForm} {f : NormalForm} (consistent : Consistent M)
    (free : ∀ g, f.opposite? = some g → g ∉ M) : Consistent (insert f M) := by
  rintro h (rfl | member) g opposite (rfl | present)
  · exact NormalForm.opposite?_ne opposite rfl
  · exact free g opposite present
  · exact free h (NormalForm.opposite?_opposite? opposite) member
  · exact consistent h member g opposite present

/-- `P` adds to `M` what is to do and what the added formulas ask for. -/
structure Completes (M : Set NormalForm) (todo : List NormalForm) (P : Set NormalForm) : Prop where
  grown : M ⊆ P
  done : ∀ f ∈ todo, f ∈ P
  met : ∀ f ∈ P, f ∈ M ∨ f.demand.MetIn P
  consistent : Consistent M → Consistent P
  inside : ∀ Γ, Closed Γ → M ⊆ Γ → (∀ f ∈ todo, f ∈ Γ) → P ⊆ Γ

/-- `P` adds to `M` formulas of `T` only, and takes the first alternative wherever `T` allows it. -/
structure Follows (M T P : Set NormalForm) : Prop where
  inside : P ⊆ T
  takesFirst : ∀ f ∈ P, f ∈ M ∨ f.demand.TakesFirst T P

section Steps

variable {M T P : Set NormalForm} {f g : NormalForm} {fs rest : List NormalForm}

theorem Completes.skip (member : f ∈ M) (completes : Completes M rest P) :
    Completes M (f :: rest) P := by
  refine { completes with done := ?_, inside := ?_ }
  · rintro h (_ | ⟨_, later⟩)
    · exact completes.grown member
    · exact completes.done h later
  · intro Γ closed started wanted
    exact completes.inside Γ closed started fun g later => wanted g (List.mem_cons_of_mem f later)

/-- The step of the expansion that takes in `f`, once what it asks for has been done. -/
theorem Completes.take (free : ∀ g, f.opposite? = some g → g ∉ M) (met : f.demand.MetIn P)
    (restDone : ∀ g ∈ rest, g ∈ P) (asked : ∀ g ∈ fs, g ∈ f.demand.formulas ∨ g ∈ rest)
    (completes : Completes (insert f M) fs P) : Completes M (f :: rest) P where
  grown := (Set.subset_insert f M).trans completes.grown
  done := by
    rintro h (_ | ⟨_, later⟩)
    · exact completes.grown (.inl rfl)
    · exact restDone h later
  met := by
    intro h member
    rcases completes.met h member with (rfl | earlier) | met
    · exact .inr met
    · exact .inl earlier
    · exact .inr met
  consistent := fun consistent => completes.consistent (consistent.insert free)
  inside := by
    intro Γ closed started wanted
    have inΓ : f ∈ Γ := wanted f List.mem_cons_self
    refine completes.inside Γ closed (Set.insert_subset inΓ started) fun g member => ?_
    rcases asked g member with demanded | later
    · exact closed.demand f inΓ g demanded
    · exact wanted g (List.mem_cons_of_mem f later)

theorem Completes.takeAll (free : ∀ g, f.opposite? = some g → g ∉ M)
    (asked : f.demand = .all fs) (completes : Completes (insert f M) (fs ++ rest) P) :
    Completes M (f :: rest) P := by
  refine completes.take free ?_ (fun g member => completes.done g (by simp [member])) ?_
  · rw [asked]
    exact fun g member => completes.done g (by simp [member])
  · simp [asked, Demand.formulas]

theorem Completes.takeAny (free : ∀ g, f.opposite? = some g → g ∉ M)
    (asked : f.demand = .any fs) (chosen : g ∈ fs)
    (completes : Completes (insert f M) (g :: rest) P) : Completes M (f :: rest) P := by
  refine completes.take free ?_ (fun h member => completes.done h (by simp [member])) ?_
  · rw [asked]
    exact ⟨g, chosen, completes.done g (by simp)⟩
  · simp only [asked, Demand.formulas, List.forall_mem_cons]
    exact ⟨.inl chosen, fun h later => .inr later⟩

theorem Follows.take (first : f.demand.TakesFirst T P) (follows : Follows (insert f M) T P) :
    Follows M T P where
  inside := follows.inside
  takesFirst := by
    intro h member
    rcases follows.takesFirst h member with (rfl | earlier) | taken
    · exact .inr first
    · exact .inl earlier
    · exact .inr taken

end Steps

namespace Closure

structure Expanded (c : Closure) (M : Set NormalForm) (todo : List NormalForm)
    (result : List Particle × Closure) : Prop where
  within : c.Within result.2
  distinct : result.2.Distinct
  found : ∀ p ∈ result.1, result.2.Admits p ∧ Completes M todo (result.2.members p)

theorem Expanded.earlier {b c : Closure} {M : Set NormalForm} {todo : List NormalForm}
    {result : List Particle × Closure} (within : b.Within c) (expanded : c.Expanded M todo result) :
    b.Expanded M todo result :=
  { expanded with within := within.trans expanded.within }

mutual
/-- Every particle found is a completion of the members by what is to do. -/
theorem expand_expanded (c : Closure) (members : Particle) (todo : List NormalForm)
    (distinct : c.Distinct) (admitted : c.Admits members) :
    c.Expanded (c.members members) todo (c.expand members todo) := by
  match todo with
  | [] =>
    rw [expand]
    refine ⟨.refl c, distinct, ?_⟩
    simp only [List.mem_singleton, forall_eq]
    exact ⟨admitted, .rfl, by simp, fun _ member => .inl member, fun consistent => consistent,
      fun _ _ started _ => started⟩
  | f :: rest =>
    have numbered := number_formula? c f
    have within := within_number c f
    have distinct := distinct_number distinct f
    rw [← members_within admitted within]
    replace admitted := admitted.within within
    rw [expand]
    generalize c.number f = numbering at *
    obtain ⟨id, c₁⟩ := numbering
    dsimp only at *
    refine Expanded.earlier within ?_
    split
    · next present =>
      have expanded := expand_expanded c₁ members rest distinct admitted
      have member := (contains_iff_mem_members distinct numbered members).mp present
      exact { expanded with found := fun p found =>
        ⟨(expanded.found p found).1, (expanded.found p found).2.skip member⟩ }
    · split
      · exact ⟨.refl c₁, distinct, by simp⟩
      · next clear =>
        have free : ∀ g, f.opposite? = some g → g ∉ c₁.members members := by
          intro g opposite member
          exact clear ((contradicts_iff distinct members f).mpr ⟨g, opposite, member⟩)
        have within₂ := within_numberAll f.demand.formulas c₁
        have distinct₂ := distinct_numberAll distinct f.demand.formulas
        have admitted₂ := (admits_insert admitted numbered).within within₂
        have taken : (c₁.numberAll f.demand.formulas).members (Ascending.insert id members) =
            insert f (c₁.members members) := by
          rw [members_within (admits_insert admitted numbered) within₂, members_insert numbered]
        refine Expanded.earlier within₂ ?_
        split
        · next fs asked =>
          have lighter := NormalForm.weights_all_lt asked
          have expanded := expand_expanded _ _ (fs ++ rest) distinct₂ admitted₂
          rw [taken] at expanded
          exact { expanded with found := fun p found =>
            ⟨(expanded.found p found).1, (expanded.found p found).2.takeAll free asked⟩ }
        · next fs asked =>
          have lighter := NormalForm.weights_any_lt asked
          obtain ⟨within, distinct, found⟩ := expandAny_expanded _ _ fs rest distinct₂ admitted₂
          rw [taken] at found
          refine ⟨within, distinct, ?_⟩
          intro p member
          obtain ⟨admitted, g, chosen, completes⟩ := found p member
          exact ⟨admitted, completes.takeAny free asked chosen⟩
termination_by 2 * NormalForm.weights todo
decreasing_by
  all_goals
    have := f.weight_pos
    simp only [NormalForm.weights, NormalForm.weights_append]
    omega

/-- Every particle found is a completion by one of the alternatives and by what is to do. -/
theorem expandAny_expanded (c : Closure) (members : Particle) (alternatives todo : List NormalForm)
    (distinct : c.Distinct) (admitted : c.Admits members) :
    let result := c.expandAny members alternatives todo
    c.Within result.2 ∧ result.2.Distinct ∧ ∀ p ∈ result.1, result.2.Admits p ∧
      ∃ g ∈ alternatives, Completes (c.members members) (g :: todo) (result.2.members p) := by
  match alternatives with
  | [] =>
    rw [expandAny]
    exact ⟨.refl c, distinct, by simp⟩
  | f :: fs =>
    have here := expand_expanded c members (f :: todo) distinct admitted
    have there := expandAny_expanded (c.expand members (f :: todo)).2 members fs todo
      here.distinct (admitted.within here.within)
    rw [members_within admitted here.within] at there
    rw [expandAny]
    obtain ⟨within, distinct, found⟩ := there
    refine ⟨here.within.trans within, distinct, ?_⟩
    intro p member
    rcases List.mem_append.mp member with first | later
    · obtain ⟨admitted, completes⟩ := here.found p first
      refine ⟨admitted.within within, f, by simp, ?_⟩
      rwa [members_within admitted within]
    · obtain ⟨admitted, g, chosen, completes⟩ := found p later
      exact ⟨admitted, g, by simp [chosen], completes⟩
termination_by 2 * (NormalForm.weights alternatives + NormalForm.weights todo) + 1
decreasing_by
  · simp only [NormalForm.weights]; omega
  · have := f.weight_pos
    simp only [NormalForm.weights]; omega
end

mutual
/-- A saturated and consistent set that includes what an expansion starts from includes one of the
particles found; it is the one that takes the first alternative in the set each time. -/
theorem expand_covers (c : Closure) (members : Particle) (todo : List NormalForm)
    (distinct : c.Distinct) (admitted : c.Admits members) {T : Set NormalForm}
    (saturated : Saturated T) (consistent : Consistent T) (started : c.members members ⊆ T)
    (wanted : ∀ f ∈ todo, f ∈ T) :
    ∃ p ∈ (c.expand members todo).1,
      Follows (c.members members) T ((c.expand members todo).2.members p) := by
  match todo with
  | [] =>
    rw [expand]
    exact ⟨members, by simp, started, fun _ member => .inl member⟩
  | f :: rest =>
    have numbered := number_formula? c f
    have within := within_number c f
    have distinct := distinct_number distinct f
    rw [← members_within admitted within] at started ⊢
    replace admitted := admitted.within within
    rw [expand]
    generalize c.number f = numbering at *
    obtain ⟨id, c₁⟩ := numbering
    dsimp only at *
    have wantedRest : ∀ g ∈ rest, g ∈ T := fun g member => wanted g (by simp [member])
    have inT : f ∈ T := wanted f (by simp)
    split
    · exact expand_covers c₁ members rest distinct admitted saturated consistent started wantedRest
    · split
      · next clash =>
        obtain ⟨g, opposite, member⟩ := (contradicts_iff distinct members f).mp clash
        exact absurd (started member) (consistent f inT g opposite)
      · have within₂ := within_numberAll f.demand.formulas c₁
        have distinct₂ := distinct_numberAll distinct f.demand.formulas
        have admitted₂ := (admits_insert admitted numbered).within within₂
        have taken : (c₁.numberAll f.demand.formulas).members (Ascending.insert id members) =
            insert f (c₁.members members) := by
          rw [members_within (admits_insert admitted numbered) within₂, members_insert numbered]
        have started₂ := taken ▸ Set.insert_subset inT started
        have met := saturated f inT
        split
        · next fs asked =>
          have lighter := NormalForm.weights_all_lt asked
          rw [asked] at met
          have wanted₂ : ∀ g ∈ fs ++ rest, g ∈ T := by
            intro g member
            rcases List.mem_append.mp member with first | later
            · exact met g first
            · exact wantedRest g later
          obtain ⟨p, found, follows⟩ := expand_covers _ _ (fs ++ rest) distinct₂ admitted₂
            saturated consistent started₂ wanted₂
          rw [taken] at follows
          exact ⟨p, found, follows.take (by simp [asked, Demand.TakesFirst])⟩
        · next fs asked =>
          have lighter := NormalForm.weights_any_lt asked
          rw [asked] at met
          obtain ⟨p, found, first, follows⟩ := expandAny_covers _ _ fs rest distinct₂ admitted₂
            saturated consistent started₂ wantedRest met
          rw [taken] at follows
          rw [← asked] at first
          exact ⟨p, found, follows.take first⟩
termination_by 2 * NormalForm.weights todo
decreasing_by
  all_goals
    have := f.weight_pos
    simp only [NormalForm.weights, NormalForm.weights_append]
    omega

theorem expandAny_covers (c : Closure) (members : Particle) (alternatives todo : List NormalForm)
    (distinct : c.Distinct) (admitted : c.Admits members) {T : Set NormalForm}
    (saturated : Saturated T) (consistent : Consistent T) (started : c.members members ⊆ T)
    (wanted : ∀ f ∈ todo, f ∈ T) (offered : ∃ f ∈ alternatives, f ∈ T) :
    let result := c.expandAny members alternatives todo
    ∃ p ∈ result.1, (Demand.any alternatives).TakesFirst T (result.2.members p) ∧
      Follows (c.members members) T (result.2.members p) := by
  match alternatives with
  | [] => simp at offered
  | f :: fs =>
    have here := expand_expanded c members (f :: todo) distinct admitted
    have there := expandAny_expanded (c.expand members (f :: todo)).2 members fs todo
      here.distinct (admitted.within here.within)
    rw [expandAny]
    by_cases inT : f ∈ T
    · have wanted₂ : ∀ g ∈ f :: todo, g ∈ T := by
        rintro g (_ | ⟨_, later⟩)
        · exact inT
        · exact wanted g later
      obtain ⟨p, found, follows⟩ := expand_covers c members (f :: todo) distinct admitted
        saturated consistent started wanted₂
      obtain ⟨admitted, completes⟩ := here.found p found
      refine ⟨p, List.mem_append_left _ found, ?_⟩
      simp only [members_within admitted there.1]
      exact ⟨fun _ => completes.done f (by simp), follows⟩
    · have offered₂ : ∃ g ∈ fs, g ∈ T := by
        obtain ⟨g, _ | ⟨_, later⟩, member⟩ := offered
        · exact absurd member inT
        · exact ⟨g, later, member⟩
      have startedLater := (members_within admitted here.within).symm ▸ started
      obtain ⟨p, found, _, follows⟩ := expandAny_covers (c.expand members (f :: todo)).2 members fs
        todo here.distinct (admitted.within here.within) saturated consistent startedLater wanted
        offered₂
      rw [members_within admitted here.within] at follows
      exact ⟨p, List.mem_append_right _ found, fun chosen => absurd chosen inT, follows⟩
termination_by 2 * (NormalForm.weights alternatives + NormalForm.weights todo) + 1
decreasing_by
  · simp only [NormalForm.weights]; omega
  · have := f.weight_pos
    simp only [NormalForm.weights]; omega
end

structure Particles (c : Closure) (seed : List NormalForm) (result : List Particle × Closure) :
    Prop where
  within : c.Within result.2
  distinct : result.2.Distinct
  admitted : ∀ p ∈ result.1, result.2.Admits p
  seeded : ∀ p ∈ result.1, ∀ f ∈ seed, f ∈ result.2.members p
  saturated : ∀ p ∈ result.1, Saturated (result.2.members p)
  consistent : ∀ p ∈ result.1, Consistent (result.2.members p)
  inside : ∀ Γ, Closed Γ → (∀ f ∈ seed, f ∈ Γ) → ∀ p ∈ result.1, result.2.members p ⊆ Γ
  covering : ∀ T, Saturated T → Consistent T → (∀ f ∈ seed, f ∈ T) →
    ∃ p ∈ result.1, Follows ∅ T (result.2.members p)

theorem particles_spec {c : Closure} (distinct : c.Distinct) (seed : List NormalForm) :
    c.Particles seed (c.particles seed) := by
  have expanded := expand_expanded c [] seed distinct (admits_nil c)
  rw [members_nil] at expanded
  unfold particles
  constructor
  · exact expanded.within
  · exact expanded.distinct
  all_goals simp only [List.mem_eraseDups]
  · exact fun p found => (expanded.found p found).1
  · exact fun p found => (expanded.found p found).2.done
  · intro p found f member
    rcases (expanded.found p found).2.met f member with absent | met
    · exact absurd absent (Set.notMem_empty f)
    · exact met
  · exact fun p found => (expanded.found p found).2.consistent consistent_empty
  · exact fun Γ closed wanted p found =>
      (expanded.found p found).2.inside Γ closed (Set.empty_subset Γ) wanted
  · intro T saturated consistent wanted
    simpa using expand_covers c [] seed distinct (admits_nil c) saturated consistent
      (by simp) wanted

end Closure
end TemporalCheck
