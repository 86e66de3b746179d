import TemporalCheck.Proofs.Tableau.Parts
import TemporalCheck.Tableau.Table

/-! A closure and its table of layers. Both number the same formulas in the same way, because a
layer over numbers that stand for formulas stands for a formula itself, and no two layers stand for
the same. -/
namespace TemporalCheck

theorem mapM_eq_some {xs : List α} {look : α → Option β} {value : α → β}
    (found : ∀ x ∈ xs, look x = some (value x)) : xs.mapM look = some (xs.map value) := by
  induction xs with
  | nil => rfl
  | cons x xs ih =>
    obtain ⟨here, found⟩ := List.forall_mem_cons.mp found
    rw [List.mapM_cons, here, ih found]
    rfl

namespace Closure

variable {c d : Closure} {f g : NormalForm} {fs : List NormalForm} {id : FormulaId}

def numberOf (c : Closure) (f : NormalForm) : FormulaId := (c.idOf? f).getD 0

/-- The operator of a formula over the numbers of its parts. -/
def layer (c : Closure) : NormalForm → Layer
  | .const b => .const b
  | .state l => .state l
  | .action l => .action l
  | .and fs => .and (fs.map c.numberOf)
  | .or fs => .or (fs.map c.numberOf)
  | .always f => .always (c.numberOf f)
  | .eventually f => .eventually (c.numberOf f)
  | .next f => .next (c.numberOf f)

def table (c : Closure) : FormulaTable := ⟨c.formulas.map c.layer⟩

structure Layered (c : Closure) : Prop where
  distinct : c.Distinct
  parts : ∀ id f, c.formula? id = some f → ∀ g ∈ f.children, ∃ j < id, c.formula? j = some g

theorem layered_empty : (⟨#[]⟩ : Closure).Layered := ⟨distinct_empty, by simp [formula?]⟩

theorem Layered.child (layered : c.Layered) (listed : f ∈ c.listed) :
    ∀ g ∈ f.children, g ∈ c.listed := by
  obtain ⟨id, at_id⟩ := listed
  intro g child
  obtain ⟨j, _, at_j⟩ := layered.parts id f at_id g child
  exact ⟨j, at_j⟩

section Numbers

theorem numberOf_eq (distinct : c.Distinct) (at_id : c.formula? id = some f) :
    c.numberOf f = id := by
  rw [numberOf, (idOf?_eq_some_iff distinct).mpr at_id, Option.getD_some]

theorem formula?_numberOf (distinct : c.Distinct) (listed : f ∈ c.listed) :
    c.formula? (c.numberOf f) = some f := by
  obtain ⟨id, at_id⟩ := listed
  rw [numberOf_eq distinct at_id, at_id]

theorem numberOf_within (distinct : c.Distinct) (later : d.Distinct) (within : c.Within d)
    (listed : f ∈ c.listed) : d.numberOf f = c.numberOf f :=
  numberOf_eq later (within _ f (formula?_numberOf distinct listed))

theorem number_of_listed (distinct : c.Distinct) (at_id : c.formula? id = some f) :
    c.number f = (id, c) := by
  rw [number, (idOf?_eq_some_iff distinct).mpr at_id]

theorem numberAll_of_listed (distinct : c.Distinct) (listed : ∀ f ∈ fs, f ∈ c.listed) :
    c.numberAll fs = c := by
  induction fs with
  | nil => rfl
  | cons f fs ih =>
    obtain ⟨⟨id, at_id⟩, listed⟩ := List.forall_mem_cons.mp listed
    rw [numberAll, List.foldl_cons, number_of_listed distinct at_id]
    exact ih listed

end Numbers

section Layers

theorem parts_layer (c : Closure) (f : NormalForm) :
    (c.layer f).parts = f.children.map c.numberOf := by
  cases f <;> rfl

/-- A later closure keeps the numbers of the parts. -/
theorem layer_within (distinct : c.Distinct) (later : d.Distinct) (within : c.Within d)
    (parts : ∀ g ∈ f.children, g ∈ c.listed) : d.layer f = c.layer f := by
  have same : f.children.map d.numberOf = f.children.map c.numberOf :=
    List.map_congr_left fun g child => numberOf_within distinct later within (parts g child)
  cases f with
  | const b | state l | action l => rfl
  | and fs | or fs | always f | eventually f | next f =>
    simpa [layer, NormalForm.children] using same

/-- Numbers in a row tell which formulas they are of. -/
theorem eq_of_map_numberOf {gs : List NormalForm} (distinct : c.Distinct)
    (listed : ∀ f ∈ fs, f ∈ c.listed) (listed' : ∀ g ∈ gs, g ∈ c.listed)
    (same : fs.map c.numberOf = gs.map c.numberOf) : fs = gs := by
  have read {hs : List NormalForm} (listed : ∀ h ∈ hs, h ∈ c.listed) :
      (hs.map c.numberOf).map c.formula? = hs.map some := by
    rw [List.map_map]
    exact List.map_congr_left fun h member => formula?_numberOf distinct (listed h member)
  have both : fs.map some = gs.map some := by rw [← read listed, ← read listed', same]
  exact (List.map_injective_iff.mpr (Option.some_injective _)) both

theorem layer_injective (distinct : c.Distinct) (parts : ∀ h ∈ f.children, h ∈ c.listed)
    (parts' : ∀ h ∈ g.children, h ∈ c.listed) (same : c.layer f = c.layer g) : f = g := by
  have children : f.children = g.children := by
    refine eq_of_map_numberOf distinct parts parts' ?_
    rw [← parts_layer, ← parts_layer, same]
  cases f <;> cases g <;> simp_all [layer, NormalForm.children]

end Layers

section Table

theorem layer?_table (c : Closure) (id : FormulaId) :
    c.table.layer? id = (c.formula? id).map c.layer :=
  Array.getElem?_map

theorem table_empty : (⟨#[]⟩ : Closure).table = {} := congrArg FormulaTable.mk Array.map_empty

theorem size_table (c : Closure) : c.table.size = c.size := Array.size_map

theorem idOf?_table (layered : c.Layered) (parts : ∀ g ∈ f.children, g ∈ c.listed) :
    c.table.idOf? (c.layer f) = c.idOf? f := by
  -- a number with the layer of `f` is a number of `f`
  have back {j : FormulaId} (at_j : c.table.idOf? (c.layer f) = some j) : c.idOf? f = some j := by
    have here : c.table.layer? j = some (c.layer f) := getElem?_of_idxOf? at_j
    obtain ⟨g, found, same⟩ := Option.map_eq_some_iff.mp (layer?_table c j ▸ here)
    have listed := layered.child ⟨j, found⟩
    obtain rfl := layer_injective layered.distinct listed parts same
    exact (idOf?_eq_some_iff layered.distinct).mpr found
  cases found : c.idOf? f with
  | some id =>
    have there : c.table.layer? id = some (c.layer f) := by
      rw [layer?_table, formula?_of_idOf? found, Option.map_some]
    cases laid : c.table.idOf? (c.layer f) with
    | none =>
      have absent : c.layer f ∉ c.table.layers := by simpa [FormulaTable.idOf?] using laid
      exact absurd (Array.mem_of_getElem? there) absent
    | some j => exact (back laid).symm.trans found
  | none =>
    cases laid : c.table.idOf? (c.layer f) with
    | none => rfl
    | some j => exact absurd (back laid) (by simp [found])

theorem Layered.number (layered : c.Layered) (parts : ∀ g ∈ f.children, g ∈ c.listed) :
    (c.number f).2.Layered := by
  refine ⟨distinct_number layered.distinct f, ?_⟩
  have within := within_number c f
  intro id g at_id h child
  unfold Closure.number at at_id within ⊢
  cases found : c.idOf? f with
  | some j =>
    rw [found] at at_id
    exact layered.parts id g at_id h child
  | none =>
    rw [found] at at_id within
    simp only [formula?, Array.getElem?_push] at at_id
    split at at_id
    · next last =>
      obtain rfl := Option.some.inj at_id
      obtain ⟨j, at_j⟩ := parts h child
      exact ⟨j, last ▸ (Array.getElem?_eq_some_iff.mp at_j).1, within j h at_j⟩
    · obtain ⟨j, before, at_j⟩ := layered.parts id g at_id h child
      exact ⟨j, before, within j h at_j⟩

/-- Numbering a formula whose parts are listed numbers its layer. -/
theorem table_number (layered : c.Layered) (parts : ∀ g ∈ f.children, g ∈ c.listed) :
    c.table.number (c.layer f) = ((c.number f).1, (c.number f).2.table) := by
  have later := distinct_number layered.distinct f
  have within := within_number c f
  rw [FormulaTable.number, idOf?_table layered parts]
  unfold Closure.number at later within ⊢
  cases found : c.idOf? f with
  | some id => rfl
  | none =>
    rw [found] at later within
    dsimp only at later within ⊢
    have kept (g : NormalForm) (listed : g ∈ c.listed) :
        layer ⟨c.formulas.push f⟩ g = c.layer g :=
      layer_within layered.distinct later within (layered.child listed)
    have laid : (c.formulas.push f).map (layer ⟨c.formulas.push f⟩) =
        (c.formulas.map c.layer).push (c.layer f) := by
      rw [Array.map_push, layer_within layered.distinct later within parts]
      congr 1
      exact Array.map_congr_left fun g member => kept g (Array.getElem?_of_mem member)
    rw [size_table, table, table, laid]

/-- The table gives the formulas back. -/
theorem formula?_table (layered : c.Layered) (id : FormulaId) :
    c.table.formula? id = (c.formula? id).map NormalForm.toFormula := by
  induction id using Nat.strong_induction_on with
  | _ id ih =>
    rw [FormulaTable.formula?, layer?_table]
    cases at_id : c.formula? id with
    | none => rfl
    | some f =>
      have part (g : NormalForm) (child : g ∈ f.children) :
          c.table.formula? (c.numberOf g) = some g.toFormula := by
        obtain ⟨j, before, at_j⟩ := layered.parts id f at_id g child
        rw [numberOf_eq layered.distinct at_j, ih j before, at_j, Option.map_some]
      have parts : (f.children.map c.numberOf).mapM c.table.formula? =
          some (f.children.map NormalForm.toFormula) := by
        rw [List.mapM_map]
        exact mapM_eq_some part
      cases f with
      | const b => rfl
      | state l => rfl
      | action l => rfl
      | and fs | or fs =>
        simp only [NormalForm.children] at parts
        simp [layer, NormalForm.toFormula, NormalForm.toFormulas_eq_map, parts]
      | always f | eventually f | next f =>
        simp [layer, NormalForm.toFormula, part f (by simp [NormalForm.children])]

end Table

section Intern

structure Interned (c : Closure) (f : NormalForm) (result : FormulaId × Closure) : Prop where
  layered : result.2.Layered
  within : c.Within result.2
  number : result.2.formula? result.1 = some f
  table : c.table.intern f.toFormula = .ok (result.1, result.2.table)

structure InternedAll (c : Closure) (fs : List NormalForm) (result : Closure) : Prop where
  layered : result.Layered
  within : c.Within result
  listed : ∀ f ∈ fs, f ∈ result.listed
  table : c.table.internAll (fs.map NormalForm.toFormula) =
    .ok (fs.map result.numberOf, result.table)

/-- Once the parts of a formula have been interned, its own layer is numbered. -/
theorem Interned.of_parts (layered : d.Layered) (within : c.Within d)
    (parts : ∀ g ∈ f.children, g ∈ d.listed)
    (table : c.table.intern f.toFormula = .ok (d.table.number (d.layer f))) :
    Interned c f (d.number f) where
  layered := layered.number parts
  within := within.trans (within_number d f)
  number := number_formula? d f
  table := by rw [table, table_number layered parts]

mutual
theorem intern_interned : ∀ (f : NormalForm) {c : Closure}, c.Layered → Interned c f (c.intern f)
  | .const b, c, layered => .of_parts layered (.refl c) (by simp [NormalForm.children]) rfl
  | .state ⟨p, positive⟩, c, layered => by
    refine .of_parts layered (.refl c) (by simp [NormalForm.children]) ?_
    cases positive <;> rfl
  | .action ⟨p, positive⟩, c, layered => by
    refine .of_parts layered (.refl c) (by simp [NormalForm.children]) ?_
    cases positive <;> rfl
  | .and fs, c, layered | .or fs, c, layered => by
    have all := internAll_internedAll fs layered
    refine .of_parts all.layered all.within all.listed ?_
    rw [NormalForm.toFormula, NormalForm.toFormulas_eq_map, FormulaTable.intern, all.table]
    rfl
  | .always f, c, layered | .eventually f, c, layered | .next f, c, layered => by
    have body := intern_interned f layered
    refine .of_parts body.layered body.within ?_ ?_
    · simpa [NormalForm.children] using ⟨_, body.number⟩
    · rw [NormalForm.toFormula, FormulaTable.intern, body.table, layer,
        numberOf_eq body.layered.distinct body.number]
      rfl

theorem internAll_internedAll : ∀ (fs : List NormalForm) {c : Closure}, c.Layered →
    InternedAll c fs (c.internAll fs)
  | [], c, layered => ⟨layered, .refl c, by simp, rfl⟩
  | f :: fs, c, layered => by
    have here := intern_interned f layered
    have there := internAll_internedAll fs here.layered
    have number := there.within _ f here.number
    refine ⟨there.layered, here.within.trans there.within, ?_, ?_⟩
    · exact List.forall_mem_cons.mpr ⟨⟨_, number⟩, there.listed⟩
    · rw [List.map_cons, FormulaTable.internAll, here.table]
      simp only [bind, Except.bind, there.table]
      rw [List.map_cons, internAll, numberOf_eq there.layered.distinct number]
      rfl
end

end Intern

end Closure
end TemporalCheck
