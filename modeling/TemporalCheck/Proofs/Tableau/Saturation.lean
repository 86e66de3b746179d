import TemporalCheck.Proofs.Tableau.Loop

/-! What the particles of a set of formulas are, as sets of formulas. Each is a way to take its
members apart to the end, and there is no other way that does not include one of them. -/
namespace TemporalCheck

structure Tenable (T : Set NormalForm) : Prop where
  and : ∀ fs, .and fs ∈ T → ∀ f ∈ fs, f ∈ T
  or : ∀ fs, .or fs ∈ T → ∃ f ∈ fs, f ∈ T
  always : ∀ f, .always f ∈ T → f ∈ T ∧ .next (.always f) ∈ T
  eventually : ∀ f, .eventually f ∈ T → f ∈ T ∨ .next (.eventually f) ∈ T
  possible : .const false ∉ T
  state : ∀ l, .state l ∈ T → .state l.opposite ∉ T
  action : ∀ l, .action l ∈ T → .action l.opposite ∉ T

theorem tenable_iff {T : Set NormalForm} : Tenable T ↔ Saturated T ∧ Consistent T := by
  constructor
  · intro tenable
    refine ⟨fun f member => ?_, fun f member g opposite => ?_⟩
    · cases f with
      | const b =>
        cases b with
        | true => simp [NormalForm.demand, Demand.MetIn]
        | false => exact absurd member tenable.possible
      | state | action | next => simp [NormalForm.demand, Demand.MetIn]
      | and fs => exact tenable.and fs member
      | or fs => exact tenable.or fs member
      | always f => simpa [NormalForm.demand, Demand.MetIn] using tenable.always f member
      | eventually f => simpa [NormalForm.demand, Demand.MetIn] using tenable.eventually f member
    · cases f with
      | state l =>
        obtain rfl := Option.some.inj opposite
        exact tenable.state l member
      | action l =>
        obtain rfl := Option.some.inj opposite
        exact tenable.action l member
      | _ => contradiction
  · rintro ⟨saturated, consistent⟩
    constructor
    case and => exact fun fs member => saturated _ member
    case or => exact fun fs member => saturated _ member
    case always =>
      intro f member
      simpa [NormalForm.demand, Demand.MetIn] using saturated _ member
    case eventually =>
      intro f member
      simpa [NormalForm.demand, Demand.MetIn] using saturated _ member
    case possible =>
      intro member
      simpa [NormalForm.demand, Demand.MetIn] using saturated _ member
    case state => exact fun l member => consistent _ member _ rfl
    case action => exact fun l member => consistent _ member _ rfl

namespace Closure

variable {c d : Closure} {p q : Particle} {seed : List NormalForm}

/-- A particle is determined by what it contains. -/
theorem Admits.eq_of_members_eq (distinct : c.Distinct) (admitted : c.Admits p)
    (admitted' : c.Admits q) (same : c.members p = c.members q) : p = q := by
  have into {p q : Particle} (admitted : c.Admits p) (inside : c.members p ⊆ c.members q)
      (id : FormulaId) (member : id ∈ p) : id ∈ q := by
    obtain ⟨f, at_id⟩ := admitted.numbered id member
    obtain ⟨j, there, at_j⟩ := inside ⟨id, member, at_id⟩
    rwa [distinct id j f at_id at_j]
  exact admitted.ascending.eq_of_mem_iff admitted'.ascending fun id =>
    ⟨into admitted same.subset id, into admitted' same.superset id⟩

/-- What the particles of a set of formulas are, in the closure `d` that has grown by the formulas
put off to the next position. -/
structure Decomposes (c : Closure) (seed : List NormalForm) (found : List Particle) (d : Closure) :
    Prop where
  loop : c.table.particles (seed.map c.numberOf) = some (found, d.table)
  kept : c.Within d
  distinct : found.Nodup
  apart : ∀ p ∈ found, ∀ q ∈ found, d.members p = d.members q → p = q
  sorted : ∀ p ∈ found, p.Pairwise (· < ·)
  numbers : ∀ p ∈ found, ∀ id ∈ p, id < d.size
  seeded : ∀ p ∈ found, ∀ f ∈ seed, c.numberOf f ∈ p ∧ f ∈ d.members p
  tenable : ∀ p ∈ found, Tenable (d.members p)
  covering : ∀ T, Tenable T → (∀ f ∈ seed, f ∈ T) → ∃ p ∈ found, d.members p ⊆ T

/-- The particles of listed formulas contain these formulas and are tenable, and every tenable set
that contains the formulas includes a particle. -/
theorem particles_decompose (grown : c.Grown) (listed : ∀ f ∈ seed, f ∈ c.listed) :
    c.Decomposes seed (c.particles seed).1 (c.particles seed).2 := by
  have layered := grown.layered
  have spec := particles_spec layered.distinct seed
  constructor
  case loop => exact particles_table layered (names_numberOf layered.distinct listed)
  case kept => exact spec.within
  case distinct => exact nodup_particles c seed
  case apart =>
    intro p found q found'
    exact (spec.admitted p found).eq_of_members_eq spec.distinct (spec.admitted q found')
  case sorted => exact fun p found => (spec.admitted p found).ascending
  case numbers =>
    intro p found id member
    obtain ⟨f, at_id⟩ := (spec.admitted p found).numbered id member
    exact (Array.getElem?_eq_some_iff.mp at_id).1
  case seeded =>
    intro p found f wanted
    obtain ⟨id, member, at_id⟩ := spec.seeded p found f wanted
    have at_number := spec.within _ f (formula?_numberOf layered.distinct (listed f wanted))
    exact ⟨spec.distinct id _ f at_id at_number ▸ member, id, member, at_id⟩
  case tenable =>
    exact fun p found => tenable_iff.mpr ⟨spec.saturated p found, spec.consistent p found⟩
  case covering =>
    intro T tenable wanted
    obtain ⟨saturated, consistent⟩ := tenable_iff.mp tenable
    obtain ⟨p, found, follows⟩ := spec.covering T saturated consistent wanted
    exact ⟨p, found, follows.inside⟩

/-- An eventuality that contradicts itself can only be put off, for as long as it takes. -/
theorem particles_decompose_vain :
    let vain : NormalForm := .eventually (.and [.state ⟨0, true⟩, .state ⟨0, false⟩])
    let c : Closure := ((⟨#[]⟩ : Closure).intern vain).2
    c.Decomposes [vain] [[3, 4]] (c.number (.next vain)).2 := by
  intro vain c
  have listed : ∀ f ∈ [vain], f ∈ c.listed := by
    simpa using ⟨_, (intern_interned vain layered_empty).number⟩
  have found : c.particles [vain] = ([[3, 4]], (c.number (.next vain)).2) := by decide +kernel
  have decomposed := particles_decompose (.intern .empty vain) listed
  rwa [found] at decomposed

end Closure
end TemporalCheck
