import TemporalCheck.Proofs.Repetition
import TemporalCheck.Proofs.StateTable

/-! What builder calls say, and tables that hold it. An account of calls is kept by values and knows
nothing of rows; a table is kept by rows. A table holds an account if its rows are the registered
tuples, each once, and if each row lists what was said of its tuple. Every call keeps it so. -/
namespace TemporalCheck.StateTable

section Account

/-- A call of the builder. A number stands for the handle that the registration of that number gave
out, counted from zero. -/
inductive Call where
  | register (values : List Int64)
  | initial (k : Nat)
  | transition (source target : Nat)
  | path (ks : List Nat)
  | failing (k : Nat)
  | predicate (id : PredicateId) (p : TablePredicate)

structure Account where
  registered : List (List Int64) := []
  starts : List (List Int64) := []
  steps : List (List Int64 × List Int64) := []
  failures : List (List Int64) := []

namespace Account

def named (told : Account) (ks : List Nat) : List (List Int64) := ks.filterMap (told.registered[·]?)

def note (told : Account) : Call → Account
  | .register values => { told with registered := told.registered ++ [values] }
  | .initial k => { told with starts := told.starts ++ told.named [k] }
  | .transition source target =>
    { told with steps := told.steps ++ (told.named [source]).zip (told.named [target]) }
  | .path ks => { told with steps := told.steps ++ (told.named ks).zip (told.named ks).tail }
  | .failing k => { told with failures := told.failures ++ told.named [k] }
  | .predicate _ _ => told

def targets (told : Account) (values : List Int64) : List (List Int64) :=
  (told.steps.filter (·.1 = values)).map Prod.snd

def Permits (names : List String) (told : Account) : Call → Prop
  | .register values => values.length = names.length
  | .initial k | .failing k => k < told.registered.length
  | .transition source target =>
    source < told.registered.length ∧ target < told.registered.length
  | .path ks => ∀ k ∈ ks, k < told.registered.length
  | .predicate _ _ => True

def PermitsAll (names : List String) (told : Account) : List Call → Prop
  | [] => True
  | call :: rest => told.Permits names call ∧ (told.note call).PermitsAll names rest

end Account

end Account

section Rows

variable {t : StateTable} {row other : Nat} {v w : List Int64} {rows : List Nat}
  {vs : List (List Int64)}

def tuples (t : StateTable) : List (List Int64) := t.rows.toList.map Row.values

def At (t : StateTable) (row : Nat) (v : List Int64) : Prop := t.tuples[row]? = some v

theorem at_iff : t.At row v ↔ ∃ r, t.rows[row]? = some r ∧ r.values = v := by
  rw [At, tuples, List.getElem?_map, Array.getElem?_toList, Option.map_eq_some_iff]

theorem At.state? (here : t.At row v) : t.state? row = some ⟨t.names, v⟩ := by
  obtain ⟨r, found, rfl⟩ := at_iff.mp here
  rw [StateTable.state?, found, Option.map_some]

theorem statesAt_eq (here : List.Forall₂ t.At rows vs) :
    t.statesAt rows = vs.map (TableState.mk t.names) := by
  induction here with
  | nil => rfl
  | cons first _ ih =>
    rw [statesAt, List.filterMap_cons, first.state?, List.map_cons, ← ih]
    rfl

/-- A change that leaves the tuple of a row alone leaves all tuples where they stand. -/
theorem tuples_modify (t : StateTable) (row : Nat) {change : Row → Row}
    (keeps : ∀ r, (change r).values = r.values) :
    tuples { t with rows := t.rows.modify row change } = t.tuples := by
  apply List.ext_getElem?
  intro i
  rw [tuples, tuples, List.getElem?_map, List.getElem?_map, Array.getElem?_toList,
    Array.getElem?_toList, Array.getElem?_modify]
  split
  · rw [Option.map_map]
    exact congrArg (Option.map · t.rows[i]?) (funext keeps)
  · rfl

theorem tuples_addTransition (t : StateTable) (source target : Nat) :
    (t.addTransition source target).tuples = t.tuples := by
  apply tuples_modify
  exact fun _ => rfl

theorem tuples_addPath (t : StateTable) (rows : List Nat) : (t.addPath rows).tuples = t.tuples := by
  fun_induction addPath t rows with
  | case1 t source target rest ih => rw [ih, tuples_addTransition]
  | case2 t rows => rfl

theorem names_addPath (t : StateTable) (rows : List Nat) : (t.addPath rows).names = t.names := by
  fun_induction addPath t rows with
  | case1 t source target rest ih => exact ih
  | case2 t rows => rfl

theorem tuples_failSuccessors (t : StateTable) (row : Nat) :
    (t.failSuccessors row).tuples = t.tuples := by
  apply tuples_modify
  exact fun _ => rfl

theorem tuples_push (t : StateTable) (r : Row) :
    tuples { t with rows := t.rows.push r } = t.tuples ++ [r.values] := by
  simp [tuples]

theorem At.push (here : t.At row v) (r : Row) :
    At { t with rows := t.rows.push r } row v := by
  rw [At, tuples_push, List.getElem?_append_left (List.getElem?_eq_some_iff.mp here).1]
  exact here

theorem at_of_tuples {t' : StateTable} (same : t'.tuples = t.tuples) : t'.At = t.At := by
  funext row v
  rw [At, same, At]

end Rows

section Keeps

variable {t : StateTable} {told : Account} {row source target : Nat} {v w : List Int64}
  {rows : List Nat} {vs : List (List Int64)}

structure Keeps (t : StateTable) (told : Account) : Prop where
  rows : t.tuples = told.registered.eraseDups
  initial : List.Forall₂ t.At t.initial told.starts.eraseDups
  successors : ∀ (row : Nat) (r : Row), t.rows[row]? = some r →
    List.Forall₂ t.At r.successors (told.targets r.values).eraseDups
  failing : ∀ (row : Nat) (r : Row), t.rows[row]? = some r →
    (r.failing = true ↔ r.values ∈ told.failures)
  /-- Only registered tuples have been spoken of. -/
  sources : ∀ step ∈ told.steps, step.1 ∈ told.registered
  failures : ∀ v ∈ told.failures, v ∈ told.registered

theorem Keeps.biUnique (keeps : t.Keeps told) : Relator.BiUnique t.At := by
  have nodup : t.tuples.Nodup := keeps.rows ▸ nodup_eraseDups _
  constructor
  · intro row v other here there
    have bound := (List.getElem?_eq_some_iff.mp here).1
    exact (List.getElem?_inj bound nodup).mp (here.trans there.symm)
  · intro row v w here there
    exact Option.some.inj (here.symm.trans there)

theorem Keeps.mem_registered (keeps : t.Keeps told) (here : t.At row v) : v ∈ told.registered := by
  rw [← List.mem_eraseDups, ← keeps.rows]
  exact List.mem_of_getElem? here

theorem Keeps.size (keeps : t.Keeps told) : t.size = told.registered.eraseDups.length := by
  rw [← keeps.rows, tuples, List.length_map, Array.length_toList, StateTable.size]

theorem Keeps.listed (keeps : t.Keeps told) :
    List.Forall₂ t.At (List.range t.size) told.registered.eraseDups := by
  rw [List.forall₂_iff_get]
  refine ⟨List.length_range.trans keeps.size, fun i _ bound => ?_⟩
  rw [List.get_eq_getElem, List.getElem_range, At, keeps.rows]
  exact List.getElem?_eq_getElem bound

/-- A row is mentioned once, as its tuple is. -/
theorem Keeps.mention (keeps : t.Keeps told) (mentioned : List.Forall₂ t.At rows vs.eraseDups)
    (here : t.At row v) : List.Forall₂ t.At (mention rows row) (vs ++ [v]).eraseDups := by
  have known : row ∈ rows ↔ v ∈ vs :=
    (List.rel_mem keeps.biUnique here mentioned).trans List.mem_eraseDups
  rw [eraseDups_concat, StateTable.mention]
  by_cases old : v ∈ vs
  · rw [if_pos old, if_pos (by simpa using known.mpr old)]
    exact mentioned
  · rw [if_neg old, if_neg (by simpa using mt known.mp old)]
    exact List.rel_append mentioned (.cons here .nil)

theorem keeps_empty (names : List String) : Keeps { names := names } {} where
  rows := rfl
  initial := .nil
  successors := by simp
  failing := by simp
  sources := by simp
  failures := by simp

theorem keeps_initial (keeps : t.Keeps told) (here : t.At row v) :
    (t.addInitial row).Keeps { told with starts := told.starts ++ [v] } where
  rows := keeps.rows
  initial := keeps.mention keeps.initial here
  successors := keeps.successors
  failing := keeps.failing
  sources := keeps.sources
  failures := keeps.failures

theorem keeps_predicate (keeps : t.Keeps told) (id : PredicateId) (p : TablePredicate) :
    (t.setPredicate id p).Keeps told where
  rows := keeps.rows
  initial := keeps.initial
  successors := keeps.successors
  failing := keeps.failing
  sources := keeps.sources
  failures := keeps.failures

theorem targets_concat (told : Account) (source target w : List Int64) :
    Account.targets { told with steps := told.steps ++ [(source, target)] } w =
      if source = w then told.targets w ++ [target] else told.targets w := by
  by_cases same : source = w <;> simp [Account.targets, same]

/-- When the row of one tuple changes, nothing is told anew of the others. -/
theorem Keeps.modify (keeps : t.Keeps told) (here : t.At row v) {change : Row → Row}
    (same : ∀ r, (change r).values = r.values) {steps failures}
    (sources : ∀ step ∈ steps, step.1 ∈ told.registered)
    (failed : ∀ w ∈ failures, w ∈ told.registered)
    (changed : ∀ r, t.rows[row]? = some r → v = r.values →
      List.Forall₂ t.At (change r).successors
        (Account.targets { told with steps := steps } v).eraseDups ∧
      ((change r).failing = true ↔ v ∈ failures))
    (others : ∀ w, v ≠ w → Account.targets { told with steps := steps } w = told.targets w ∧
      (w ∈ failures ↔ w ∈ told.failures)) :
    Keeps { t with rows := t.rows.modify row change }
      { told with steps := steps, failures := failures } := by
  have tuples := tuples_modify t row same
  have stands := at_of_tuples tuples
  have told_anew (other : Nat) (r : Row) (found : (t.rows.modify row change)[other]? = some r) :
      List.Forall₂ t.At r.successors
        (Account.targets { told with steps := steps } r.values).eraseDups ∧
      (r.failing = true ↔ r.values ∈ failures) := by
    rw [Array.getElem?_modify] at found
    split at found
    · next at_row =>
      subst at_row
      obtain ⟨r, old, rfl⟩ := Option.map_eq_some_iff.mp found
      have tuple : v = r.values := keeps.biUnique.2 here (at_iff.mpr ⟨r, old, rfl⟩)
      rw [same, ← tuple]
      exact changed r old tuple
    · next elsewhere =>
      have apart : v ≠ r.values := by
        rintro rfl
        exact elsewhere (keeps.biUnique.1 here (at_iff.mpr ⟨r, found, rfl⟩))
      rw [(others r.values apart).1, (others r.values apart).2]
      exact ⟨keeps.successors other r found, keeps.failing other r found⟩
  exact ⟨tuples.trans keeps.rows, stands ▸ keeps.initial,
    fun other r found => stands ▸ (told_anew other r found).1,
    fun other r found => (told_anew other r found).2, sources, failed⟩

theorem keeps_transition (keeps : t.Keeps told) (from_source : t.At source v)
    (to_target : t.At target w) :
    (t.addTransition source target).Keeps { told with steps := told.steps ++ [(v, w)] } := by
  refine keeps.modify from_source ?same ?sources ?failed ?changed ?others
  case same => exact fun _ => rfl
  case sources =>
    intro step mentioned
    rcases List.mem_append.mp mentioned with old | new
    · exact keeps.sources step old
    · rw [List.mem_singleton.mp new]
      exact keeps.mem_registered from_source
  case failed => exact keeps.failures
  case changed =>
    rintro r found rfl
    rw [targets_concat, if_pos rfl]
    exact ⟨keeps.mention (keeps.successors source r found) to_target, keeps.failing source r found⟩
  case others =>
    intro other apart
    rw [targets_concat, if_neg apart]
    exact ⟨rfl, Iff.rfl⟩

theorem keeps_path (keeps : t.Keeps told) (here : List.Forall₂ t.At rows vs) :
    (t.addPath rows).Keeps { told with steps := told.steps ++ vs.zip vs.tail } := by
  induction rows generalizing t told vs with
  | nil =>
    cases here
    simpa [addPath] using keeps
  | cons source rows ih =>
    cases rows with
    | nil =>
      rcases here with _ | ⟨_, _ | _⟩
      simpa [addPath] using keeps
    | cons target rest =>
      rcases here with _ | ⟨from_source, _ | ⟨to_target, later⟩⟩
      have stands := at_of_tuples (tuples_addTransition t source target)
      have first := keeps_transition keeps from_source to_target
      have path := ih first (stands.symm ▸ List.Forall₂.cons to_target later)
      simpa [addPath] using path

theorem keeps_failing (keeps : t.Keeps told) (here : t.At row v) :
    (t.failSuccessors row).Keeps { told with failures := told.failures ++ [v] } := by
  refine keeps.modify here ?same ?sources ?failed ?changed ?others
  case same => exact fun _ => rfl
  case sources => exact keeps.sources
  case failed =>
    intro w mentioned
    rcases List.mem_append.mp mentioned with old | new
    · exact keeps.failures w old
    · rw [List.mem_singleton.mp new]
      exact keeps.mem_registered here
  case changed =>
    rintro r found rfl
    exact ⟨keeps.successors row r found, by simp⟩
  case others =>
    intro other apart
    exact ⟨rfl, by simp [Ne.symm apart]⟩

theorem keeps_known (keeps : t.Keeps told) (here : t.At row v) :
    t.Keeps { told with registered := told.registered ++ [v] } where
  rows := by rw [eraseDups_concat, if_pos (keeps.mem_registered here), keeps.rows]
  initial := keeps.initial
  successors := keeps.successors
  failing := keeps.failing
  sources step mentioned := List.mem_append_left _ (keeps.sources step mentioned)
  failures w mentioned := List.mem_append_left _ (keeps.failures w mentioned)

/-- Nothing has been said of a tuple before it is registered. -/
theorem keeps_new (keeps : t.Keeps told) (new : v ∉ told.registered) :
    Keeps { t with rows := t.rows.push { values := v } }
      { told with registered := told.registered ++ [v] } where
  rows := by rw [eraseDups_concat, if_neg new, ← keeps.rows, tuples_push]
  initial := keeps.initial.imp fun _ _ here => here.push _
  successors row r found := by
    rw [Array.getElem?_push] at found
    split at found
    · obtain rfl := Option.some.inj found
      have silent : told.targets v = [] := by
        rw [Account.targets, List.map_eq_nil_iff, List.filter_eq_nil_iff]
        intro step mentioned same
        exact new (of_decide_eq_true same ▸ keeps.sources step mentioned)
      change List.Forall₂ _ [] (told.targets v).eraseDups
      rw [silent]
      exact .nil
    · exact (keeps.successors row r found).imp fun _ _ here => here.push _
  failing row r found := by
    rw [Array.getElem?_push] at found
    split at found
    · obtain rfl := Option.some.inj found
      exact iff_of_false Bool.false_ne_true fun mentioned => new (keeps.failures v mentioned)
    · exact keeps.failing row r found
  sources step mentioned := List.mem_append_left _ (keeps.sources step mentioned)
  failures w mentioned := List.mem_append_left _ (keeps.failures w mentioned)

/-- A tuple that fits the names has a row afterwards, and the others keep theirs. -/
theorem register_keeps (keeps : t.Keeps told) (fits : v.length = t.names.length) :
    ∃ row t', t.register? v = some (row, t') ∧ t'.names = t.names ∧ t'.At row v ∧
      (∀ ⦃other w⦄, t.At other w → t'.At other w) ∧
      t'.Keeps { told with registered := told.registered ++ [v] } := by
  rw [register?, if_pos fits]
  cases found : t.rows.findIdx? (·.values == v) with
  | some row =>
    obtain ⟨bound, same, -⟩ := Array.findIdx?_eq_some_iff_getElem.mp found
    have here : t.At row v := at_iff.mpr ⟨_, Array.getElem?_eq_getElem bound, by simpa using same⟩
    exact ⟨row, t, rfl, rfl, here, fun _ _ there => there, keeps_known keeps here⟩
  | none =>
    have new : v ∉ told.registered := by
      rw [← List.mem_eraseDups, ← keeps.rows, tuples, List.mem_map]
      rintro ⟨r, member, same⟩
      have other := Array.findIdx?_eq_none_iff.mp found r (by simpa using member)
      simp [same] at other
    exact ⟨t.size, _, rfl, rfl, at_iff.mpr ⟨_, Array.getElem?_push_size, rfl⟩,
      fun _ _ there => there.push _, keeps_new keeps new⟩

end Keeps

end TemporalCheck.StateTable
