import TemporalCheck.Proofs.Tableau.Again
import TemporalCheck.Proofs.Tableau.Table

/-! The loop over the branches of an expansion ends, and finds what the expansion of a closure
finds. A branch is followed to its end before those behind it are looked at, so that one branch
comes to one expansion, whatever is behind it. -/
namespace TemporalCheck

namespace Expansion

variable {t : FormulaTable} {members : Particle} {id : FormulaId} {todo : List FormulaId}
  {rest : List Branch} {found : List Particle} {layer : Layer}

theorem run_nil : run ⟨t, [], found⟩ = some ⟨t, [], found⟩ := by
  rw [run]
  rfl

theorem run_of_turn {e e' : Expansion} (busy : e.branches.isEmpty = false)
    (turned : e.turn = some e') : e.run = e'.run := by
  rw [run, turned, busy]
  rfl

theorem run_done : run ⟨t, ⟨members, []⟩ :: rest, found⟩ = run ⟨t, rest, record found members⟩ :=
  run_of_turn rfl rfl

theorem run_present (present : members.contains id = true) :
    run ⟨t, ⟨members, id :: todo⟩ :: rest, found⟩ = run ⟨t, ⟨members, todo⟩ :: rest, found⟩ :=
  run_of_turn rfl (if_pos present)

theorem run_absent (absent : members.contains id = false) (laid : t.layer? id = some layer) :
    run ⟨t, ⟨members, id :: todo⟩ :: rest, found⟩ =
      run (follow ⟨t, ⟨members, id :: todo⟩ :: rest, found⟩ id ⟨Ascending.insert id members, todo⟩
        rest layer) := by
  refine run_of_turn rfl ?_
  simp only [turn, absent, laid]
  rfl

theorem foldl_record (ps qs : List Particle) :
    qs.foldl record ps.eraseDups = (ps ++ qs).eraseDups := by
  induction qs generalizing ps with
  | nil => rw [List.foldl_nil, List.append_nil]
  | cons q qs ih =>
    have here : record ps.eraseDups q = (ps ++ [q]).eraseDups := by
      rw [eraseDups_concat]
      simp only [record, List.contains_iff_mem, List.mem_eraseDups]
    rw [List.foldl_cons, here, ih, List.append_assoc, List.singleton_append]

end Expansion

namespace Closure

variable {c d : Closure} {f g : NormalForm} {fs todo : List NormalForm} {id : FormulaId}
  {ids : List FormulaId}

def Names (c : Closure) (ids : List FormulaId) (fs : List NormalForm) : Prop :=
  List.Forall₂ (fun id f => c.formula? id = some f) ids fs

theorem Names.within (names : c.Names ids fs) (within : c.Within d) : d.Names ids fs :=
  names.imp fun id f at_id => within id f at_id

theorem names_numberOf (distinct : c.Distinct) (listed : ∀ f ∈ fs, f ∈ c.listed) :
    c.Names (fs.map c.numberOf) fs := by
  rw [Names, List.forall₂_map_left_iff, List.forall₂_same]
  exact fun f member => formula?_numberOf distinct (listed f member)

theorem lt_size_iff {id : FormulaId} : id < c.size ↔ ∃ f, c.formula? id = some f :=
  ⟨fun bound => ⟨_, Array.getElem?_eq_getElem bound⟩,
    fun ⟨_, at_id⟩ => (Array.getElem?_eq_some_iff.mp at_id).1⟩

theorem exists_names (numbers : ∀ id ∈ ids, id < c.size) : ∃ fs, c.Names ids fs := by
  induction ids with
  | nil => exact ⟨[], .nil⟩
  | cons id ids ih =>
    obtain ⟨here, numbers⟩ := List.forall_mem_cons.mp numbers
    obtain ⟨f, at_id⟩ := lt_size_iff.mp here
    obtain ⟨fs, names⟩ := ih numbers
    exact ⟨f :: fs, .cons at_id names⟩

theorem Names.listed (names : c.Names ids fs) : ∀ f ∈ fs, f ∈ c.listed := by
  induction names with
  | nil => simp
  | cons at_id _ ih => exact List.forall_mem_cons.mpr ⟨⟨_, at_id⟩, ih⟩

theorem Names.append {ids' : List FormulaId} {gs : List NormalForm} (names : c.Names ids fs)
    (names' : c.Names ids' gs) : c.Names (ids ++ ids') (fs ++ gs) :=
  List.rel_append names names'

section Demanded

theorem listed_demand (c : Closure) (f : NormalForm) :
    ∀ g ∈ f.demand.formulas, g ∈ (c.numberAll f.demand.formulas).listed := by
  intro g asked
  rw [listed_numberAll]
  exact .inr asked

variable (layered : c.Layered) (at_id : c.formula? id = some f)
include layered at_id

theorem listed_body (child : g ∈ f.children) : g ∈ c.listed := layered.child ⟨id, at_id⟩ g child

/-- Numbering an operand, which has a number, and then the formula itself put off. -/
theorem number_putOff (child : g ∈ f.children) (numbered : c.numberAll [g, .next f] = d) :
    d.Layered ∧ c.table.number (.next id) = (d.numberOf (.next f), d.table) ∧
      d.numberOf g = c.numberOf g := by
  obtain ⟨j, at_j⟩ := listed_body layered at_id child
  have parts : ∀ h ∈ (NormalForm.next f).children, h ∈ c.listed := by
    simpa [NormalForm.children] using ⟨id, at_id⟩
  have next : c.layer (.next f) = .next id := by rw [layer, numberOf_eq layered.distinct at_id]
  have same : (c.number (.next f)).2 = d := by
    rw [← numbered]
    simp [numberAll, number_of_listed layered.distinct at_j]
  have later := layered.number parts
  rw [← same, numberOf_eq later.distinct (number_formula? c (.next f)), ← next]
  exact ⟨later, table_number layered parts,
    numberOf_within layered.distinct later.distinct (within_number c _) ⟨j, at_j⟩⟩

/-- Numbering what a formula asks for. -/
theorem layered_demand : (c.numberAll f.demand.formulas).Layered := by
  have putOff {g : NormalForm} (child : g ∈ f.children) :=
    (number_putOff layered at_id child rfl).1
  cases f with
  | const b => cases b <;> exact layered
  | state | action | next => exact layered
  | and fs | or fs =>
    have same := numberAll_of_listed layered.distinct (layered.child ⟨id, at_id⟩)
    rw [NormalForm.children] at same
    rwa [NormalForm.demand, Demand.formulas, same]
  | always f | eventually f => exact putOff (List.mem_singleton.mpr rfl)

end Demanded

section Follow

variable (layered : c.Layered) (at_id : c.formula? id = some f) (members : Particle)
  (later : List FormulaId) (branches rest : List Branch) (found : List Particle)
include layered at_id

/-- Looking for the opposite literal among the numbers. The formula itself, which has been taken in
already, is not the one. -/
theorem has_opposite (opposite : f.opposite? = some g) (literal : g.children = []) :
    Expansion.has ⟨c.table, branches, found⟩ (Ascending.insert id members) (c.layer g) =
      c.contradicts members f := by
  rw [Expansion.has, contradicts, opposite, idOf?_table layered (by simp [literal])]
  cases numbered : c.idOf? g with
  | none => simp only [numbered]
  | some j =>
    have other : j ≠ id := by
      rintro rfl
      have same := (formula?_of_idOf? numbered).symm.trans at_id
      exact NormalForm.opposite?_ne opposite (Option.some.inj same.symm)
    rw [Bool.eq_iff_iff]
    simp [numbered, other]

theorem follow_clash (clash : c.contradicts members f = true) :
    Expansion.follow ⟨c.table, branches, found⟩ id ⟨Ascending.insert id members, later⟩ rest
      (c.layer f) = ⟨c.table, rest, found⟩ := by
  cases f with
  | state l | action l =>
    have has := has_opposite layered at_id members branches found rfl rfl
    rw [clash] at has
    simp only [layer] at has ⊢
    simp only [Expansion.follow, has, if_true]
  | _ => simp [contradicts, NormalForm.opposite?] at clash

/-- A formula that asks for all of some formulas puts them in front of what is still to do. -/
theorem follow_all (clear : c.contradicts members f = false) (asked : f.demand = .all fs) :
    Expansion.follow ⟨c.table, branches, found⟩ id ⟨Ascending.insert id members, later⟩ rest
      (c.layer f) = ⟨(c.numberAll fs).table,
        ⟨Ascending.insert id members, fs.map (c.numberAll fs).numberOf ++ later⟩ :: rest,
        found⟩ := by
  have putOff {g : NormalForm} (child : g ∈ f.children) := (number_putOff layered at_id child rfl).2
  cases f with
  | state l | action l =>
    obtain rfl : [] = fs := Demand.all.inj asked
    have has := has_opposite layered at_id members branches found rfl rfl
    rw [clear] at has
    simp only [layer] at has ⊢
    simp [Expansion.follow, has, numberAll]
  | const b =>
    cases b with
    | true =>
      obtain rfl : [] = fs := Demand.all.inj asked
      rfl
    | false => contradiction
  | next f =>
    obtain rfl : [] = fs := Demand.all.inj asked
    rfl
  | and gs =>
    obtain rfl : gs = fs := Demand.all.inj asked
    have same := numberAll_of_listed layered.distinct (layered.child ⟨id, at_id⟩)
    rw [NormalForm.children] at same
    rw [same]
    rfl
  | always f =>
    obtain rfl : [f, .next (.always f)] = fs := Demand.all.inj asked
    obtain ⟨next, body⟩ := putOff (List.mem_singleton.mpr rfl)
    rw [layer, Expansion.follow, next, List.map_cons, List.map_singleton, body]
    rfl
  | or | eventually => contradiction

/-- A formula that asks for any of some formulas leaves a branch for each of them. -/
theorem follow_any (asked : f.demand = .any fs) :
    Expansion.follow ⟨c.table, branches, found⟩ id ⟨Ascending.insert id members, later⟩ rest
      (c.layer f) = ⟨(c.numberAll fs).table, (fs.map (c.numberAll fs).numberOf).map
        (fun part => ⟨Ascending.insert id members, part :: later⟩) ++ rest, found⟩ := by
  have putOff {g : NormalForm} (child : g ∈ f.children) := (number_putOff layered at_id child rfl).2
  cases f with
  | const b =>
    cases b with
    | false =>
      obtain rfl : [] = fs := Demand.any.inj asked
      rfl
    | true => contradiction
  | or gs =>
    obtain rfl : gs = fs := Demand.any.inj asked
    have same := numberAll_of_listed layered.distinct (layered.child ⟨id, at_id⟩)
    rw [NormalForm.children] at same
    rw [same]
    rfl
  | eventually f =>
    obtain rfl : [f, .next (.eventually f)] = fs := Demand.any.inj asked
    obtain ⟨next, body⟩ := putOff (List.mem_singleton.mpr rfl)
    rw [layer, Expansion.follow, next, List.map_cons, List.map_singleton, body]
    rfl
  | state | action | and | always | next => contradiction

end Follow

section Run

structure Runs (c : Closure) (branches rest : List Branch) (found : List Particle)
    (result : List Particle × Closure) : Prop where
  layered : result.2.Layered
  within : c.Within result.2
  run : Expansion.run ⟨c.table, branches ++ rest, found⟩ =
    Expansion.run ⟨result.2.table, rest, result.1.foldl Expansion.record found⟩

/-- A turn that leaves other branches in front, and what these come to. -/
theorem Runs.turn {branches branches' rest : List Branch} {found : List Particle}
    {result : List Particle × Closure} (runs : d.Runs branches' rest found result)
    (within : c.Within d)
    (turned : Expansion.run ⟨c.table, branches ++ rest, found⟩ =
      Expansion.run ⟨d.table, branches' ++ rest, found⟩) : c.Runs branches rest found result :=
  ⟨runs.layered, within.trans runs.within, turned.trans runs.run⟩

mutual
/-- Following a branch to its end comes to expanding it. -/
theorem runs_expand (c : Closure) (members : Particle) (todo : List NormalForm)
    {ids : List FormulaId} (layered : c.Layered) (names : c.Names ids todo)
    (rest : List Branch) (found : List Particle) :
    c.Runs [⟨members, ids⟩] rest found (c.expand members todo) := by
  match todo, names with
  | [], .nil =>
    rw [expand]
    exact ⟨layered, .refl c, Expansion.run_done⟩
  | f :: todo, @List.Forall₂.cons _ _ _ id _ ids _ at_id names =>
    have numbered := number_of_listed layered.distinct at_id
    have laid : c.table.layer? id = some (c.layer f) := by
      rw [layer?_table, at_id, Option.map_some]
    cases present : members.contains id with
    | true =>
      rw [expand_of_present numbered present]
      have runs := runs_expand c members todo layered names rest found
      exact runs.turn (.refl c) (Expansion.run_present present)
    | false =>
      have taken := @Expansion.run_absent c.table members id ids rest found _ present laid
      cases clash : c.contradicts members f with
      | true =>
        rw [expand_of_clash numbered present clash]
        rw [follow_clash layered at_id members ids _ rest found clash] at taken
        exact ⟨layered, .refl c, taken⟩
      | false =>
        have layered' := layered_demand layered at_id
        have listed' := listed_demand c f
        cases asked : f.demand with
        | all fs =>
          have lighter := NormalForm.weights_all_lt asked
          rw [asked, Demand.formulas] at layered' listed'
          rw [expand_of_all numbered present clash asked]
          rw [follow_all layered at_id members ids _ rest found clash asked] at taken
          have numberedAll := within_numberAll fs c
          have names' := (names_numberOf layered'.distinct listed').append
            (Names.within names numberedAll)
          have runs := runs_expand _ (Ascending.insert id members) (fs ++ todo) layered' names'
            rest found
          exact runs.turn numberedAll taken
        | any fs =>
          have lighter := NormalForm.weights_any_lt asked
          rw [asked, Demand.formulas] at layered' listed'
          rw [expand_of_any numbered present clash asked]
          rw [follow_any layered at_id members ids _ rest found asked] at taken
          have numberedAll := within_numberAll fs c
          have offered := names_numberOf layered'.distinct listed'
          have runs := runs_expandAny _ (Ascending.insert id members) fs todo layered' offered
            (Names.within names numberedAll) rest found
          exact runs.turn numberedAll taken
termination_by 2 * NormalForm.weights todo
decreasing_by
  all_goals
    have := f.weight_pos
    simp only [NormalForm.weights, NormalForm.weights_append]
    omega

/-- Following the branches for alternatives comes to expanding them one after the other. -/
theorem runs_expandAny (c : Closure) (members : Particle) (alternatives todo : List NormalForm)
    {parts ids : List FormulaId} (layered : c.Layered) (offered : c.Names parts alternatives)
    (names : c.Names ids todo) (rest : List Branch) (found : List Particle) :
    c.Runs (parts.map fun part => ⟨members, part :: ids⟩) rest found
      (c.expandAny members alternatives todo) := by
  match alternatives, offered with
  | [], .nil =>
    rw [expandAny]
    exact ⟨layered, .refl c, rfl⟩
  | f :: fs, @List.Forall₂.cons _ _ _ part _ parts _ at_part offered =>
    rw [expandAny]
    obtain ⟨layered', within, run⟩ := runs_expand c members (f :: todo) layered
      (.cons at_part names) (parts.map (fun part => ⟨members, part :: ids⟩) ++ rest) found
    obtain ⟨layered'', within', run'⟩ := runs_expandAny _ members fs todo layered'
      (Names.within offered within) (Names.within names within) rest
      ((c.expand members (f :: todo)).1.foldl Expansion.record found)
    refine ⟨layered'', within.trans within', ?_⟩
    rw [List.foldl_append]
    exact run.trans run'
termination_by 2 * (NormalForm.weights alternatives + NormalForm.weights todo) + 1
decreasing_by
  all_goals
    have := f.weight_pos
    simp only [NormalForm.weights]
    omega
end

/-- The loop over the branches finds the particles of the closure. -/
theorem particles_table {seed : List NormalForm} (layered : c.Layered) (names : c.Names ids seed) :
    c.table.particles ids = some ((c.particles seed).1, (c.particles seed).2.table) := by
  obtain ⟨-, -, run⟩ := runs_expand c [] seed layered names [] []
  have every := Expansion.foldl_record [] (c.expand [] seed).1
  rw [List.eraseDups_nil, List.nil_append] at every
  rw [List.append_nil, Expansion.run_nil, every] at run
  rw [FormulaTable.particles, run]
  rfl

theorem layered_particles {seed : List NormalForm} (layered : c.Layered)
    (listed : ∀ f ∈ seed, f ∈ c.listed) : (c.particles seed).2.Layered :=
  (runs_expand c [] seed layered (names_numberOf layered.distinct listed) [] []).layered

end Run

section Grown

/-- The closures that come up: formulas are interned, and sets of listed formulas expanded. -/
inductive Grown : Closure → Prop
  | empty : Grown ⟨#[]⟩
  | intern {c : Closure} (grown : Grown c) (f : NormalForm) : Grown (c.intern f).2
  | expand {c : Closure} (grown : Grown c) (seed : List NormalForm)
    (listed : ∀ f ∈ seed, f ∈ c.listed) : Grown (c.particles seed).2

theorem Grown.layered (grown : c.Grown) : c.Layered := by
  induction grown with
  | empty => exact layered_empty
  | intern _ f ih => exact (intern_interned f ih).layered
  | expand _ seed listed ih => exact layered_particles ih listed

end Grown

end Closure
end TemporalCheck
