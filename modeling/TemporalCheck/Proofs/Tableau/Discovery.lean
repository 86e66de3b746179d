import TemporalCheck.Proofs.Tableau.Criterion
import TemporalCheck.Proofs.Tableau.Horizon
import TemporalCheck.Proofs.Tableau.Loop
import TemporalCheck.Tableau.Discovery

/-! The search for particles comes to an end without a limit on their number. A draft that was
worked out under some limit shows how the search goes, because the limit was not met; and under any
other limit that leaves room for what it found the draft is the same. -/
namespace TemporalCheck

namespace Closure

variable {c : Closure}

theorem names_carried (layered : c.Layered) (p : Particle) :
    c.Names (c.table.carried p) (c.carried p) := by
  induction p with
  | nil => exact .nil
  | cons id p ih =>
    rw [FormulaTable.carried, carried, List.filterMap_cons, List.filterMap_cons, layer?_table]
    cases at_id : c.formula? id with
    | none => exact ih
    | some f =>
      cases f with
      | next f =>
        have listed := layered.child ⟨id, at_id⟩ f (by simp [NormalForm.children])
        exact .cons (formula?_numberOf layered.distinct listed) ih
      | _ => exact ih

end Closure

namespace Tableau.Draft

variable {limit limit' fuel fuel' : Nat} {d e : Draft} {p : Particle} {ps : List Particle}
  {id : TableauId} {ids initial : List TableauId} {seed : List NormalForm}
  {numbers : List FormulaId} {negated : NormalForm} {Γ : Set NormalForm}

def discovery (d : Draft) : Discovery := ⟨d.closure.table, d.particles, d.successors⟩

section Simulation

theorem place_discovery (done : d.place limit p = .ok (id, e)) :
    d.discovery.place p = (id, e.discovery) := by
  unfold place at done
  unfold Discovery.place
  split at done
  · next found =>
    cases done
    simp only [discovery, found]
  · next missing =>
    split at done
    · cases done
      simp only [discovery, missing]
    · contradiction

theorem placeAll_discovery (done : d.placeAll limit ps = .ok (ids, e)) :
    d.discovery.placeAll ps = (ids, e.discovery) := by
  induction ps generalizing d ids e with
  | nil =>
    cases done
    rfl
  | cons p ps ih =>
    obtain ⟨⟨id, d₁⟩, first, done⟩ := ok_of_bind_eq_ok done
    obtain ⟨⟨rest, d₂⟩, later, done⟩ := ok_of_bind_eq_ok done
    cases done
    simp only [Discovery.placeAll, place_discovery first, ih later]

theorem placeSeed_discovery (layered : d.closure.Layered) (names : d.closure.Names numbers seed)
    (done : d.placeSeed limit seed = .ok (ids, e)) :
    d.discovery.placeSeed numbers = some (ids, e.discovery) ∧ e.closure.Layered := by
  have closure : e.closure = (d.closure.particles seed).2 := (placeSeed_placed done).closure
  have table := Closure.particles_table layered names
  have placed := placeAll_discovery done
  constructor
  · simp only [Discovery.placeSeed, discovery, table, Option.bind_eq_bind, Option.bind_some]
    exact congrArg some placed
  · exact closure ▸ Closure.layered_particles layered names.listed

/-- Once a draft has the successors of all nodes, the search has ended as well. -/
theorem complete_discovery (layered : d.closure.Layered) (done : complete limit fuel d = .ok e)
    (full : e.particles.size = e.successors.size) :
    d.discovery.complete = some e.discovery ∧ e.closure.Layered := by
  have ended {d : Draft} (missing : d.particles[d.successors.size]? = none) :
      d.discovery.complete = some d.discovery := by
    rw [Discovery.complete]
    simp only [discovery, missing]
  induction fuel generalizing d with
  | zero =>
    cases done
    exact ⟨ended (Array.getElem?_eq_none full.le), layered⟩
  | succ fuel ih =>
    obtain ⟨missing, rfl⟩ | ⟨p, ids, d', at_id, placed, done⟩ := complete_cases done
    · exact ⟨ended missing, layered⟩
    · have names := Closure.names_carried layered p
      obtain ⟨found, layered'⟩ := placeSeed_discovery layered names placed
      let pushed : Draft := { d' with successors := d'.successors.push ids }
      obtain ⟨rest, layered''⟩ := ih (d := pushed) layered' done
      refine ⟨?_, layered''⟩
      rw [Discovery.complete]
      simp only [discovery, at_id] at found ⊢
      rw [found]
      exact rest

end Simulation

section Limit

theorem place_limit (done : d.place limit p = .ok (id, e)) (room : e.particles.size ≤ limit') :
    d.place limit' p = .ok (id, e) := by
  unfold place at done ⊢
  split at done
  · exact done
  · split at done
    · cases done
      rw [Array.size_push] at room
      exact if_pos room
    · contradiction

theorem placeAll_limit (done : d.placeAll limit ps = .ok (ids, e))
    (room : e.particles.size ≤ limit') : d.placeAll limit' ps = .ok (ids, e) := by
  induction ps generalizing d ids e with
  | nil => exact done
  | cons p ps ih =>
    obtain ⟨⟨id, d₁⟩, first, done⟩ := ok_of_bind_eq_ok done
    obtain ⟨⟨rest, d₂⟩, later, done⟩ := ok_of_bind_eq_ok done
    cases done
    have here := place_limit first ((placeAll_placed later).grown.trans room)
    exact bind_eq_ok here (bind_eq_ok (ih later room) rfl)

theorem grown_complete (done : complete limit fuel d = .ok e) :
    d.particles.size ≤ e.particles.size := by
  induction fuel generalizing d with
  | zero =>
    cases done
    exact le_rfl
  | succ fuel ih =>
    obtain ⟨-, rfl⟩ | ⟨p, ids, d', -, placed, done⟩ := complete_cases done
    · exact le_rfl
    · let pushed : Draft := { d' with successors := d'.successors.push ids }
      exact (placeSeed_placed placed).grown.trans (ih (d := pushed) done)

/-- Another limit makes no difference as long as it leaves room for the nodes there are. -/
theorem complete_limit (done : complete limit fuel d = .ok e)
    (full : e.particles.size = e.successors.size) (room : e.particles.size ≤ limit')
    (enough : e.particles.size ≤ d.successors.size + fuel') : complete limit' fuel' d = .ok e := by
  induction fuel generalizing d fuel' with
  | zero =>
    cases done
    exact complete_of_none (Array.getElem?_eq_none full.le)
  | succ fuel ih =>
    obtain ⟨missing, rfl⟩ | ⟨p, ids, d', at_id, placed, done⟩ := complete_cases done
    · exact complete_of_none missing
    · have same : d'.successors = d.successors := (placeSeed_placed placed).successors
      have bound : d.successors.size < d.particles.size :=
        (Array.getElem?_eq_some_iff.mp at_id).1
      have grown : d.particles.size ≤ d'.particles.size := (placeSeed_placed placed).grown
      let pushed : Draft := { d' with successors := d'.successors.push ids }
      have grown' : d'.particles.size ≤ e.particles.size := grown_complete (d := pushed) done
      obtain ⟨fuel', rfl⟩ : ∃ n, fuel' = n + 1 := ⟨fuel' - 1, by omega⟩
      have here : d.placeSeed limit' (d.closure.carried p) = .ok (ids, d') :=
        placeAll_limit placed (grown'.trans room)
      have enough' : e.particles.size ≤ pushed.successors.size + fuel' := by
        simp only [pushed, same, Array.size_push]
        omega
      have there := ih done enough'
      simp only [complete, at_id]
      exact bind_eq_ok here there

end Limit

namespace Drafted

variable (drafted : Drafted limit negated initial d e)
include drafted

theorem charted (closed : Closed Γ) (parts : ∀ f : NormalForm, f.PartOf negated → f ∈ Γ) :
    e.Charted limit Γ initial ∧ e.particles.size = e.successors.size := by
  have start := sound_start limit Γ negated
  have listed : ((⟨#[]⟩ : Closure).intern negated).2.listed ⊆ Γ :=
    (Closure.listed_intern_empty negated).trans_subset parts
  have here : ∀ f ∈ [negated], f ∈ Γ := by simpa using parts negated .refl
  have charted := charted_start closed start listed rfl rfl here drafted.begun
  obtain ⟨-, -, full⟩ := complete_sound closed charted.sound drafted.completed (by omega)
  exact ⟨complete_charted closed charted drafted.completed, full⟩

theorem full : e.particles.size = e.successors.size :=
  (drafted.charted negated.closed_around fun _ part => .inl part).2

/-- The search finds what has been drafted. -/
theorem discover : discover negated.toFormula = some e.discovery ∧ e.closure.Layered := by
  have interned := Closure.intern_interned negated Closure.layered_empty
  have table := interned.table
  rw [Closure.table_empty] at table
  have names : Closure.Names _ [(Closure.intern ⟨#[]⟩ negated).1] [negated] :=
    .cons interned.number .nil
  obtain ⟨begun, layered⟩ := placeSeed_discovery (d := ⟨_, #[], #[]⟩) interned.layered names
    drafted.begun
  obtain ⟨completed, layered'⟩ := complete_discovery layered drafted.completed drafted.full
  refine ⟨?_, layered'⟩
  rw [TemporalCheck.discover, table]
  simp only [discovery] at begun
  simp only [Except.toOption, Option.bind_eq_bind, Option.bind_some, begun]
  exact completed

theorem under (room : e.particles.size ≤ limit') : Drafted limit' negated initial d e where
  begun := placeAll_limit drafted.begun ((grown_complete drafted.completed).trans room)
  completed := complete_limit drafted.completed drafted.full room (by omega)

/-- The nodes of the tableau are those of the draft. -/
theorem tableau (property : Formula) : ∃ t, ofNormalForm limit property negated = .ok t ∧
    t.nodes.toList.map (·.particle) = e.particles.toList := by
  refine ⟨_, bind_eq_ok drafted.begun (bind_eq_ok drafted.completed rfl), ?_⟩
  refine (map_layOut e.nodes fun _ _ => rfl).trans ?_
  apply List.ext_getElem
  · simp [nodes, drafted.full]
  · intro i bound bound'
    simp [nodes, nodeOf]

end Drafted

theorem drafted_of_ofNormalForm {property : Formula} {t : Tableau}
    (built : ofNormalForm limit property negated = .ok t) :
    ∃ initial d e, Drafted limit negated initial d e := by
  unfold ofNormalForm at built
  obtain ⟨⟨initial, d⟩, begun, built⟩ := ok_of_bind_eq_ok built
  obtain ⟨e, completed, -⟩ := ok_of_bind_eq_ok built
  exact ⟨initial, d, e, begun, completed⟩

end Tableau.Draft

namespace Closure

variable {c : Closure} {f g : NormalForm} {seed : List NormalForm}

theorem Layered.part (layered : c.Layered) (listed : f ∈ c.listed) (part : g.PartOf f) :
    g ∈ c.listed := by
  induction part using Relation.ReflTransGen.head_induction_on with
  | refl => exact listed
  | head child _ ih => exact layered.child ih _ child

/-- Working out particles lists nothing but what recurs inside the seed, put off. -/
theorem Layered.listed_particles (layered : c.Layered) (listed : ∀ f ∈ seed, f ∈ c.listed) :
    (c.particles seed).2.listed ⊆ c.listed ∪ {g | ∃ f ∈ seed, g ∈ f.deferred} := by
  have closed := closed_biUnion NormalForm.closed_horizon seed
  intro g found
  rcases listed_particles_union closed (fun f wanted => ⟨f, wanted, f.self_mem_horizon⟩) found
    with old | ⟨f, wanted, part | deferred⟩
  · exact .inl old
  · exact .inl (layered.part (listed f wanted) part)
  · exact .inr ⟨f, wanted, deferred⟩

end Closure

structure Discovery.EndsIn (d : Discovery) (Γ : Set NormalForm) : Prop where
  finished : d.particles.size = d.successors.size
  table : ∀ id f, d.table.formula? id = some f → ∃ g ∈ Γ, g.toFormula = f
  particles : ∀ p ∈ d.particles, ∀ id ∈ p, ∃ g ∈ Γ, d.table.formula? id = some g.toFormula
  sorted : ∀ p ∈ d.particles, p.Pairwise (· < ·)
  distinct : d.particles.toList.Nodup
  bound : d.particles.size ≤ 2 ^ Γ.ncard

open Tableau

theorem Tableau.Draft.Charted.endsIn {limit : Nat} {initial : List TableauId} {d : Draft}
    {Γ : Set NormalForm} (charted : d.Charted limit Γ initial) (finite : Γ.Finite)
    (full : d.particles.size = d.successors.size) (layered : d.closure.Layered) :
    d.discovery.EndsIn Γ where
  finished := full
  table := by
    intro id f found
    rw [discovery, Closure.formula?_table layered] at found
    obtain ⟨g, at_id, spelled⟩ := Option.map_eq_some_iff.mp found
    exact ⟨g, charted.listed ⟨id, at_id⟩, spelled⟩
  particles := by
    intro p member id inside
    obtain ⟨g, at_id⟩ := (charted.sound.admitted p member).numbered id inside
    refine ⟨g, charted.sound.inside p member ⟨id, inside, at_id⟩, ?_⟩
    rw [discovery, Closure.formula?_table layered, at_id, Option.map_some]
  sorted := fun p member => (charted.sound.admitted p member).ascending
  distinct := charted.distinct
  bound := (charted.fits finite).size_le

/-- Particles are always worked out to the end, and what is listed on the way is no more than what
recurs, put off to the next position. So for every property the search for particles ends as well,
however many it may find, and a limit does nothing but turn down what it leaves no room for. -/
theorem discover_ends :
    (∀ (c : Closure) (seed : List NormalForm), c.Grown → (∀ f ∈ seed, f ∈ c.listed) →
      c.table.particles (seed.map c.numberOf) =
          some ((c.particles seed).1, (c.particles seed).2.table) ∧
        (c.particles seed).2.listed ⊆ c.listed ∪ {g | ∃ f ∈ seed, g ∈ f.deferred} ∧
        ∀ p ∈ (c.particles seed).1,
          (c.particles seed).2.members p ⊆ {g | ∃ f ∈ seed, g ∈ f.horizon}) ∧
    ∀ (assumption : Option Formula) (property : Formula),
      (refutation assumption property).pushNegation =
          (counterexample assumption property).toFormula ∧
      (counterexample assumption property).horizon.Finite ∧
      ∃ d, discover (refutation assumption property).pushNegation = some d ∧
        d.EndsIn (counterexample assumption property).horizon ∧
        ∀ limit,
          (d.particles.size ≤ limit →
            ∃ t, ofNormalForm limit property (counterexample assumption property) = .ok t ∧
              t.nodes.toList.map (·.particle) = d.particles.toList) ∧
          (limit < d.particles.size →
            ofNormalForm limit property (counterexample assumption property) =
              .error (.tooLarge limit)) := by
  constructor
  · intro c seed grown listed
    have layered := grown.layered
    refine ⟨Closure.particles_table layered (Closure.names_numberOf layered.distinct listed),
      layered.listed_particles listed, ?_⟩
    have closed := closed_biUnion NormalForm.closed_horizon seed
    exact (Closure.particles_spec layered.distinct seed).inside _ closed fun f wanted =>
      ⟨f, wanted, f.self_mem_horizon⟩
  · intro assumption property
    generalize same : counterexample assumption property = negated
    have read : (refutation assumption property).pushNegation = negated.toFormula := by
      rw [← same]
      cases assumption <;> rfl
    have closed := negated.closed_horizon
    have finite := negated.finite_horizon
    have parts (f : NormalForm) (part : f.PartOf negated) : f ∈ negated.horizon := .inl part
    obtain ⟨initial, d, e, drafted⟩ := Draft.exists_drafted closed finite parts le_rfl
    obtain ⟨charted, full⟩ := drafted.charted closed parts
    obtain ⟨found, layered⟩ := drafted.discover
    have ends := charted.endsIn finite full layered
    refine ⟨read, finite, e.discovery, read ▸ found, ends, fun limit => ?_⟩
    refine ⟨fun room => (drafted.under room).tableau property, fun short => ?_⟩
    cases result : ofNormalForm limit property negated with
    | error r => rw [ofNormalForm_error result]
    | ok t =>
      -- a draft under the limit would have found the same, and there is no room for that
      obtain ⟨initial', d', e', drafted'⟩ := Draft.drafted_of_ofNormalForm result
      have again : some e'.discovery = some e.discovery := drafted'.discover.1.symm.trans found
      have sizes := congrArg (·.particles.size) (Option.some.inj again)
      have bounded := (drafted'.charted closed parts).1.sound.bounded
      exact absurd (sizes ▸ bounded) (Nat.not_le.mpr short)

/-- The search ends for a lamp that is to be on again and again, and finds three particles. -/
theorem discover_ends_lamp :
    let lit : NormalForm := .eventually (.state ⟨0, true⟩)
    let c : Closure := ((⟨#[]⟩ : Closure).intern lit).2
    c.table.particles [1] = some ([[0, 1], [1, 2]], (c.number (.next lit)).2.table) ∧
      ∃ d, discover (refutation none (.always (.eventually (.atom (.state 0))))).pushNegation =
        some d ∧ d.particles.size = 3 := by
  intro lit c
  obtain ⟨expands, searches⟩ := discover_ends
  constructor
  · have listed : ∀ f ∈ [lit], f ∈ c.listed := by
      simpa using ⟨_, (Closure.intern_interned lit Closure.layered_empty).number⟩
    have numbers : [lit].map c.numberOf = [1] := by decide +kernel
    have found : c.particles [lit] = ([[0, 1], [1, 2]], (c.number (.next lit)).2) := by
      decide +kernel
    obtain ⟨ends, -, -⟩ := expands c [lit] (.intern .empty lit) listed
    rwa [numbers, found] at ends
  · obtain ⟨-, -, d, found, -, limits⟩ := searches none (.always (.eventually (.atom (.state 0))))
    refine ⟨d, found, le_antisymm (Nat.not_lt.mp fun more => ?_) (Nat.not_lt.mp fun fewer => ?_)⟩
    · have fits : (ofNormalForm 3 (.always (.eventually (.atom (.state 0))))
          (counterexample none (.always (.eventually (.atom (.state 0)))))).toOption.isSome := by
        decide +kernel
      rw [(limits 3).2 more] at fits
      contradiction
    · have short : (ofNormalForm 2 (.always (.eventually (.atom (.state 0))))
          (counterexample none (.always (.eventually (.atom (.state 0)))))).toOption.isNone := by
        decide +kernel
      obtain ⟨t, built, -⟩ := (limits 2).1 (Nat.le_of_lt_succ fewer)
      rw [built] at short
      contradiction

end TemporalCheck
