import Mathlib
import TemporalCheck.Tableau.Expansion

/-! Numbers in a growing closure. A formula never gets a second number and a number never changes
its formula, so that what a particle contains is the same in every later closure. -/
namespace TemporalCheck

theorem getElem?_of_idxOf? [BEq α] [LawfulBEq α] {xs : Array α} {a : α} {i : Nat}
    (found : xs.idxOf? a = some i) : xs[i]? = some a := by
  rw [Array.idxOf?_eq_map_finIdxOf?_val] at found
  obtain ⟨j, atJ, rfl⟩ := Option.map_eq_some_iff.mp found
  have hit := (Array.finIdxOf?_eq_some_iff.mp atJ).1
  simpa using hit

namespace Closure

variable {c d e : Closure} {f g : NormalForm} {id : FormulaId} {p : Particle}

def Distinct (c : Closure) : Prop :=
  ∀ i j f, c.formula? i = some f → c.formula? j = some f → i = j

def Within (c d : Closure) : Prop := ∀ id f, c.formula? id = some f → d.formula? id = some f

theorem Within.refl (c : Closure) : c.Within c := fun _ _ h => h

theorem Within.trans (first : c.Within d) (second : d.Within e) : c.Within e :=
  fun id f h => second id f (first id f h)

theorem distinct_empty : (⟨#[]⟩ : Closure).Distinct := by
  intro i j f atI
  simp [formula?] at atI

theorem formula?_of_idOf? (found : c.idOf? f = some id) : c.formula? id = some f :=
  getElem?_of_idxOf? found

theorem idOf?_eq_some_iff (distinct : c.Distinct) :
    c.idOf? f = some id ↔ c.formula? id = some f := by
  constructor
  · exact formula?_of_idOf?
  · intro at_id
    cases found : c.idOf? f with
    | none =>
      have absent : f ∉ c.formulas := by simpa [idOf?] using found
      exact absurd (Array.mem_of_getElem? at_id) absent
    | some j => rw [distinct j id f (formula?_of_idOf? found) at_id]

theorem number_formula? (c : Closure) (f : NormalForm) :
    (c.number f).2.formula? (c.number f).1 = some f := by
  unfold number
  cases found : c.idOf? f with
  | some id => exact formula?_of_idOf? found
  | none => simp [formula?, size]

theorem within_number (c : Closure) (f : NormalForm) : c.Within (c.number f).2 := by
  intro id g at_id
  unfold number
  cases found : c.idOf? f with
  | some j => exact at_id
  | none =>
    obtain ⟨bound, value⟩ := Array.getElem?_eq_some_iff.mp at_id
    simp [formula?, Array.getElem?_push_lt bound, value]

theorem distinct_number (distinct : c.Distinct) (f : NormalForm) : (c.number f).2.Distinct := by
  unfold number
  cases found : c.idOf? f with
  | some id => exact distinct
  | none =>
    have absent : f ∉ c.formulas := by simpa [idOf?] using found
    intro i j g atI atJ
    simp only [formula?, Array.getElem?_push] at atI atJ
    by_cases lastI : i = c.formulas.size <;> by_cases lastJ : j = c.formulas.size
    · exact lastI.trans lastJ.symm
    · rw [if_pos lastI, if_neg lastJ] at *
      obtain rfl := Option.some.inj atI
      exact absurd (Array.mem_of_getElem? atJ) absent
    · rw [if_pos lastJ, if_neg lastI] at *
      obtain rfl := Option.some.inj atJ
      exact absurd (Array.mem_of_getElem? atI) absent
    · rw [if_neg lastI, if_neg lastJ] at *
      exact distinct i j g atI atJ

theorem within_numberAll (fs : List NormalForm) (c : Closure) : c.Within (c.numberAll fs) := by
  induction fs generalizing c with
  | nil => exact .refl c
  | cons f fs ih => exact (within_number c f).trans (ih _)

theorem distinct_numberAll (distinct : c.Distinct) (fs : List NormalForm) :
    (c.numberAll fs).Distinct := by
  induction fs generalizing c with
  | nil => exact distinct
  | cons f fs ih => exact ih (distinct_number distinct f)

mutual
theorem distinct_intern : ∀ (f : NormalForm) {c : Closure}, c.Distinct → (c.intern f).2.Distinct
  | .const _, _, distinct | .state _, _, distinct | .action _, _, distinct =>
    distinct_number distinct _
  | .and fs, _, distinct | .or fs, _, distinct => distinct_number (distinct_internAll fs distinct) _
  | .always f, _, distinct | .eventually f, _, distinct | .next f, _, distinct =>
    distinct_number (distinct_intern f distinct) _

theorem distinct_internAll :
    ∀ (fs : List NormalForm) {c : Closure}, c.Distinct → (c.internAll fs).Distinct
  | [], _, distinct => distinct
  | f :: fs, _, distinct => distinct_internAll fs (distinct_intern f distinct)
end

def members (c : Closure) (p : Particle) : Set NormalForm := {f | ∃ id ∈ p, c.formula? id = some f}

/-- The particle lists numbers of the closure, each once and in ascending order. -/
structure Admits (c : Closure) (p : Particle) : Prop where
  numbered : ∀ id ∈ p, ∃ f, c.formula? id = some f
  ascending : p.Pairwise (· < ·)

@[simp] theorem members_nil (c : Closure) : c.members [] = ∅ := by
  simp [members]

theorem admits_nil (c : Closure) : c.Admits [] := ⟨by simp, .nil⟩

theorem Admits.within (admitted : c.Admits p) (within : c.Within d) : d.Admits p := by
  refine ⟨?_, admitted.ascending⟩
  intro id member
  obtain ⟨f, at_id⟩ := admitted.numbered id member
  exact ⟨f, within id f at_id⟩

theorem members_within (admitted : c.Admits p) (within : c.Within d) :
    d.members p = c.members p := by
  ext f
  constructor
  · rintro ⟨id, member, at_id⟩
    obtain ⟨g, earlier⟩ := admitted.numbered id member
    obtain rfl := Option.some.inj ((within id g earlier).symm.trans at_id)
    exact ⟨id, member, earlier⟩
  · rintro ⟨id, member, at_id⟩
    exact ⟨id, member, within id f at_id⟩

theorem admits_insert (admitted : c.Admits p) (at_id : c.formula? id = some f) :
    c.Admits (Ascending.insert id p) := by
  refine ⟨?_, Ascending.pairwise_insert admitted.ascending⟩
  intro j member
  rcases Ascending.mem_insert.mp member with rfl | member
  · exact ⟨f, at_id⟩
  · exact admitted.numbered j member

theorem members_insert (at_id : c.formula? id = some f) (p : Particle) :
    c.members (Ascending.insert id p) = insert f (c.members p) := by
  ext g
  constructor
  · rintro ⟨j, member, atJ⟩
    rcases Ascending.mem_insert.mp member with rfl | member
    · exact .inl (Option.some.inj (atJ.symm.trans at_id))
    · exact .inr ⟨j, member, atJ⟩
  · rintro (rfl | ⟨j, member, atJ⟩)
    · exact ⟨id, Ascending.mem_insert.mpr (.inl rfl), at_id⟩
    · exact ⟨j, Ascending.mem_insert.mpr (.inr member), atJ⟩

theorem contains_iff_mem_members (distinct : c.Distinct) (at_id : c.formula? id = some f)
    (p : Particle) : p.contains id = true ↔ f ∈ c.members p := by
  rw [List.contains_iff_mem]
  constructor
  · exact fun member => ⟨id, member, at_id⟩
  · rintro ⟨j, member, atJ⟩
    rwa [distinct id j f at_id atJ]

theorem contradicts_iff (distinct : c.Distinct) (p : Particle) (f : NormalForm) :
    c.contradicts p f = true ↔ ∃ g, f.opposite? = some g ∧ g ∈ c.members p := by
  unfold contradicts
  cases opposite : f.opposite? with
  | none => simp
  | some g =>
    cases found : c.idOf? g with
    | none =>
      have absent : g ∉ c.members p := by
        rintro ⟨id, _, at_id⟩
        rw [(idOf?_eq_some_iff distinct).mpr at_id] at found
        contradiction
      simp [found, absent]
    | some id =>
      simp only [found, Option.some.injEq, exists_eq_left']
      exact contains_iff_mem_members distinct (formula?_of_idOf? found) p

theorem mem_carried {p : Particle} :
    f ∈ c.carried p ↔ NormalForm.next f ∈ c.members p := by
  simp only [carried, List.mem_filterMap]
  constructor
  · rintro ⟨id, member, at_id⟩
    split at at_id
    · next g found =>
      obtain rfl := Option.some.inj at_id
      exact ⟨id, member, found⟩
    · contradiction
  · rintro ⟨id, member, found⟩
    exact ⟨id, member, by simp [found]⟩

end Closure
end TemporalCheck
