import TemporalCheck.Proofs.Tableau.Shape

/-! The construction of a tableau comes to an end of its own accord. The formulas that come up are
the parts of the formula and the same put off to the next position, which are finitely many, and a
node is a set of them. A limit that leaves room for all such sets is never met. A construction with
a smaller limit fails for no other reason than that. -/
namespace TemporalCheck

namespace NormalForm

theorem finite_parts (f : NormalForm) : {g : NormalForm | g.PartOf f}.Finite := by
  induction f using induction_children with
  | step f ih =>
    have parts : {g : NormalForm | g.PartOf f} =
        insert f (⋃ h ∈ {h | h ∈ f.children}, {g : NormalForm | g.PartOf h}) := by
      ext g
      simp [partOf_iff (f := f)]
    rw [parts]
    exact ((List.finite_toSet f.children).biUnion ih).insert f

theorem finite_around (f : NormalForm) : f.around.Finite := by
  have around : f.around = {g | g.PartOf f} ∪ NormalForm.next '' {g | g.PartOf f} := by
    ext g
    simp [NormalForm.around, eq_comm]
  rw [around]
  exact f.finite_parts.union (f.finite_parts.image _)

end NormalForm

namespace Closure

variable {c : Closure} {p : Particle} {Γ : Set NormalForm}

theorem size_le_ncard (distinct : c.Distinct) (inside : c.listed ⊆ Γ) (finite : Γ.Finite) :
    c.size ≤ Γ.ncard := by
  have nodup : c.formulas.toList.Nodup := by
    rw [List.nodup_iff_getElem?_ne_getElem?]
    intro i j before bound same
    have here : c.formula? j = some (c.formulas.toList[j]) := by
      simp [formula?, Array.length_toList ▸ bound]
    have there : c.formula? i = some (c.formulas.toList[j]) := by
      rw [← here, formula?, formula?, ← Array.getElem?_toList, same, Array.getElem?_toList]
    exact before.ne (distinct i j _ there here)
  have within : (c.formulas.toList.toFinset : Set NormalForm) ⊆ Γ := by
    intro f member
    refine inside (Array.getElem?_of_mem ?_)
    simpa using member
  have bound := Set.ncard_le_ncard within finite
  rwa [Set.ncard_coe_finset, List.toFinset_card_of_nodup nodup, Array.length_toList] at bound

/-- An admitted particle is a set of numbers of the closure. -/
theorem Admits.sublist (admitted : c.Admits p) : p.Sublist (List.range c.size) := by
  have numbered : p ⊆ List.range c.size := by
    intro id member
    obtain ⟨f, at_id⟩ := admitted.numbered id member
    exact List.mem_range.mpr (Array.getElem?_eq_some_iff.mp at_id).1
  have distinct : p.Nodup := admitted.ascending.imp Nat.ne_of_lt
  exact List.sublist_of_subperm_of_pairwise (distinct.subperm numbered) admitted.ascending
    List.pairwise_lt_range

end Closure

theorem bind_eq_ok {x : Except ε α} {f : α → Except ε β} {a : α} {b : β} (done : x = .ok a)
    (later : f a = .ok b) : (x >>= f) = .ok b := by
  rw [done]
  exact later

theorem error_of_bind_eq_error {x : Except ε α} {f : α → Except ε β} {e : ε}
    (failed : (x >>= f) = .error e) : x = .error e ∨ ∃ a, x = .ok a ∧ f a = .error e := by
  cases x with
  | error e' => exact .inl (congrArg _ (Except.error.inj failed))
  | ok a => exact .inr ⟨a, rfl, failed⟩

namespace Tableau

namespace Draft

variable {limit n : Nat} {d e : Draft} {p : Particle} {ps : List Particle} {id : TableauId}
  {ids initial : List TableauId} {seed : List NormalForm} {negated : NormalForm}
  {Γ : Set NormalForm} {r : Rejection}

structure Fits (n : Nat) (d : Draft) : Prop where
  distinct : d.particles.toList.Nodup
  numbered : ∀ p ∈ d.particles, p.Sublist (List.range n)

/-- There are no more particles than sets of numbers. -/
theorem Fits.size_le (fits : d.Fits n) : d.particles.size ≤ 2 ^ n := by
  have inside : d.particles.toList ⊆ (List.range n).sublists := fun p member =>
    List.mem_sublists.mpr (fits.numbered p (Array.mem_toList_iff.mp member))
  have bound := (fits.distinct.subperm inside).length_le
  rwa [List.length_sublists, List.length_range, Array.length_toList] at bound

theorem Fits.push (fits : d.Fits n) (fit : p.Sublist (List.range n)) (new : p ∉ d.particles) :
    Fits n { d with particles := d.particles.push p } where
  distinct := nodup_push fits.distinct new
  numbered := by
    intro q member
    rcases Array.mem_push.mp member with old | rfl
    · exact fits.numbered q old
    · exact fit

/-- Where the limit leaves room for all sets, a particle can be placed. -/
theorem exists_place (fits : d.Fits n) (fit : p.Sublist (List.range n)) (room : 2 ^ n ≤ limit) :
    ∃ id e, d.place limit p = .ok (id, e) ∧ e.Fits n := by
  unfold place
  split
  · next id _ => exact ⟨id, d, rfl, fits⟩
  · next missing =>
    have pushed := fits.push fit (by simpa using missing)
    have grown : d.particles.size < limit := by
      have bound := pushed.size_le
      rw [Array.size_push] at bound
      omega
    exact ⟨d.particles.size, _, if_pos grown, pushed⟩

theorem exists_placeAll (fits : d.Fits n) (fit : ∀ p ∈ ps, p.Sublist (List.range n))
    (room : 2 ^ n ≤ limit) : ∃ ids e, d.placeAll limit ps = .ok (ids, e) := by
  induction ps generalizing d with
  | nil => exact ⟨[], d, rfl⟩
  | cons p ps ih =>
    obtain ⟨here, fit⟩ := List.forall_mem_cons.mp fit
    obtain ⟨id, d₁, placed, fits₁⟩ := exists_place fits here room
    obtain ⟨ids, e, rest⟩ := ih fits₁ fit
    exact ⟨id :: ids, e, bind_eq_ok placed (bind_eq_ok rest rfl)⟩

/-- What is worked out in a finite closed set of formulas fits into sets of that many numbers. -/
theorem Charted.fits (charted : d.Charted limit Γ initial) (finite : Γ.Finite) :
    d.Fits Γ.ncard where
  distinct := charted.distinct
  numbered p member := by
    have bound := Closure.size_le_ncard charted.sound.distinct charted.listed finite
    have sets := (charted.sound.admitted p member).sublist
    exact sets.trans (List.range_sublist.mpr bound)

theorem exists_placeSeed (closed : Closed Γ) (finite : Γ.Finite) (distinct : d.closure.Distinct)
    (listed : d.closure.listed ⊆ Γ) (fits : d.Fits Γ.ncard) (wanted : ∀ f ∈ seed, f ∈ Γ)
    (room : 2 ^ Γ.ncard ≤ limit) : ∃ ids e, d.placeSeed limit seed = .ok (ids, e) := by
  have spec := Closure.particles_spec distinct seed
  have inside := Closure.listed_particles closed listed wanted
  have bound := Closure.size_le_ncard spec.distinct inside finite
  refine exists_placeAll (n := Γ.ncard) ⟨fits.distinct, fits.numbered⟩ (fun p found => ?_) room
  exact (spec.admitted p found).sublist.trans (List.range_sublist.mpr bound)

theorem exists_complete (closed : Closed Γ) (finite : Γ.Finite) (room : 2 ^ Γ.ncard ≤ limit)
    (fuel : Nat) (charted : d.Charted limit Γ initial) :
    ∃ e, complete limit fuel d = .ok e := by
  induction fuel generalizing d with
  | zero => exact ⟨d, rfl⟩
  | succ fuel ih =>
    unfold complete
    split
    · exact ⟨d, rfl⟩
    · next p at_id =>
      obtain ⟨ids, e, placed⟩ := exists_placeSeed closed finite charted.sound.distinct
        charted.listed (charted.fits finite) (charted.sound.carried closed at_id) room
      obtain ⟨e', completed⟩ := ih (charted.push closed at_id placed)
      exact ⟨e', bind_eq_ok placed completed⟩

/-- The draft `e` has been worked out under a limit, from the nodes of `d` on. -/
structure Drafted (limit : Nat) (negated : NormalForm) (initial : List TableauId) (d e : Draft) :
    Prop where
  begun : placeSeed limit { closure := ((⟨#[]⟩ : Closure).intern negated).2 } [negated] =
    .ok (initial, d)
  completed : complete limit limit d = .ok e

theorem exists_drafted (closed : Closed Γ) (finite : Γ.Finite)
    (parts : ∀ f : NormalForm, f.PartOf negated → f ∈ Γ) (room : 2 ^ Γ.ncard ≤ limit) :
    ∃ initial d e, Drafted limit negated initial d e := by
  have start := sound_start limit Γ negated
  have listed : ((⟨#[]⟩ : Closure).intern negated).2.listed ⊆ Γ :=
    (Closure.listed_intern_empty negated).trans_subset parts
  have here : ∀ f ∈ [negated], f ∈ Γ := by simpa using parts negated .refl
  obtain ⟨initial, d, placed⟩ := exists_placeSeed closed finite start.distinct listed
    ⟨by simp, by simp⟩ here room
  have charted := charted_start closed start listed rfl rfl here placed
  obtain ⟨e, completed⟩ := exists_complete closed finite room limit charted
  exact ⟨initial, d, e, placed, completed⟩

end Draft

section Failure

variable {limit : Nat} {r : Rejection}

theorem Draft.place_error {d : Draft} {p : Particle} (failed : d.place limit p = .error r) :
    r = .tooLarge limit := by
  unfold place at failed
  split at failed
  · contradiction
  · split at failed
    · contradiction
    · exact (Except.error.inj failed).symm

theorem Draft.placeAll_error {d : Draft} {ps : List Particle}
    (failed : d.placeAll limit ps = .error r) : r = .tooLarge limit := by
  induction ps generalizing d with
  | nil => contradiction
  | cons p ps ih =>
    rcases error_of_bind_eq_error failed with here | ⟨⟨id, d₁⟩, -, failed⟩
    · exact place_error here
    · rcases error_of_bind_eq_error failed with later | ⟨_, -, absurdity⟩
      · exact ih later
      · contradiction

theorem Draft.complete_error {d : Draft} {fuel : Nat} (failed : complete limit fuel d = .error r) :
    r = .tooLarge limit := by
  induction fuel generalizing d with
  | zero => contradiction
  | succ fuel ih =>
    unfold complete at failed
    split at failed
    · contradiction
    · rcases error_of_bind_eq_error failed with here | ⟨⟨ids, d₁⟩, -, later⟩
      · exact placeAll_error here
      · exact ih later

/-- The limit is the only obstacle. -/
theorem ofNormalForm_error {property : Formula} {negated : NormalForm}
    (failed : ofNormalForm limit property negated = .error r) : r = .tooLarge limit := by
  unfold ofNormalForm at failed
  rcases error_of_bind_eq_error failed with here | ⟨⟨initial, d⟩, -, failed⟩
  · exact Draft.placeAll_error here
  · rcases error_of_bind_eq_error failed with later | ⟨_, -, absurdity⟩
    · exact Draft.complete_error later
    · contradiction

end Failure

/-- Every formula has a tableau where the limit leaves room for all sets of what is around it. -/
theorem exists_ofNormalForm {limit : Nat} {negated : NormalForm}
    (room : 2 ^ negated.around.ncard ≤ limit) (property : Formula) :
    ∃ t, ofNormalForm limit property negated = .ok t := by
  obtain ⟨initial, d, e, begun, completed⟩ := Draft.exists_drafted negated.closed_around
    negated.finite_around (fun f part => .inl part) room
  exact ⟨_, bind_eq_ok begun (bind_eq_ok completed rfl)⟩

end Tableau
end TemporalCheck
