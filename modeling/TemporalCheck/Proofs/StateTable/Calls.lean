import TemporalCheck.Proofs.StateTable.Account

/-! The model that a sequence of builder calls describes. The builder hands out rows, the account of
the calls has values, and the model finds a row by its fingerprint; so what the model answers of a
tuple is what was said of it, unless another tuple has its fingerprint. -/
namespace TemporalCheck.StateTable

section Index

variable {t : StateTable} {told : Account} {row : Nat} {v : List Int64}

/-- A fingerprint that only one row has is filed with that row, once the row has been met. -/
theorem foldl_index (here : t.At row v)
    (unshared : ∀ ⦃other w⦄, t.At other w → Fingerprint.ofInts w = .ofInts v → other = row)
    (rows : List Nat) (index : Std.TreeMap Fingerprint Nat)
    (met : row ∈ rows ∨ index[Fingerprint.ofInts v]? = some row) :
    (rows.foldl (fun index row =>
      match t.rows[row]? with
      | some r => index.insert (.ofInts r.values) row
      | none => index) index)[Fingerprint.ofInts v]? = some row := by
  induction rows generalizing index with
  | nil => simpa using met
  | cons first rows ih =>
    rw [List.foldl_cons]
    apply ih
    by_cases same : first = row
    · subst same
      obtain ⟨r, found, rfl⟩ := at_iff.mp here
      simp [found]
    · have later : row ∈ rows ∨ index[Fingerprint.ofInts v]? = some row := by
        simpa [Ne.symm same] using met
      refine later.imp_right fun filed => ?_
      cases found : t.rows[first]? with
      | none => exact filed
      | some r =>
        have other : Fingerprint.ofInts r.values ≠ Fingerprint.ofInts v :=
          fun shared => same (unshared (at_iff.mpr ⟨r, found, rfl⟩) shared)
        simp [Std.TreeMap.getElem?_insert, other, filed]

theorem Keeps.index (keeps : t.Keeps told) (here : t.At row v)
    (unshared : ∀ w ∈ told.registered, Fingerprint.ofInts w = Fingerprint.ofInts v → w = v) :
    t.index[Fingerprint.ofInts v]? = some row := by
  obtain ⟨r, found, -⟩ := at_iff.mp here
  refine foldl_index here ?_ _ ∅ (.inl (List.mem_range.mpr (Array.getElem?_eq_some_iff.mp found).1))
  intro other w there shared
  obtain rfl := unshared w (keeps.mem_registered there) shared
  exact keeps.biUnique.1 there here

/-- The model finds a tuple by its fingerprint, and answers what was said of it. -/
theorem Keeps.answers (keeps : t.Keeps told) (here : t.At row v)
    (unshared : ∀ w ∈ told.registered, Fingerprint.ofInts w = Fingerprint.ofInts v → w = v) :
    t.stateByValues? t.index v = some ⟨t.names, v⟩ ∧
    t.model.successors ⟨t.names, v⟩ =
      if v ∈ told.failures then .error (.successors (.ofInts v)
        ("injected failure at " ++ (TableState.mk t.names v).text))
      else .ok ((told.targets v).eraseDups.map (TableState.mk t.names)) := by
  have filed := keeps.index here unshared
  obtain ⟨r, found, rfl⟩ := at_iff.mp here
  constructor
  · rw [stateByValues?, filed, Option.bind_some, here.state?]
  · change t.successors t.index _ = _
    rw [StateTable.successors, TableState.fingerprint, filed, Option.bind_some, found]
    dsimp only
    by_cases failing : r.values ∈ told.failures
    · rw [if_pos failing, if_pos ((keeps.failing row r found).mpr failing)]
    · rw [if_neg failing, if_neg (mt (keeps.failing row r found).mp failing),
        statesAt_eq (keeps.successors row r found)]

end Index

section Run

structure Builder where
  table : StateTable
  handles : List Nat := []

/-- There is no outcome for a tuple that does not fit the names, nor for a handle not given out. -/
def Builder.perform? (b : Builder) : Call → Option Builder
  | .register values => do
    let (row, table) ← b.table.register? values
    return ⟨table, b.handles ++ [row]⟩
  | .initial k => do
    let row ← b.handles[k]?
    return { b with table := b.table.addInitial row }
  | .transition source target => do
    let source ← b.handles[source]?
    let target ← b.handles[target]?
    return { b with table := b.table.addTransition source target }
  | .path ks => do
    let rows ← ks.mapM (b.handles[·]?)
    return { b with table := b.table.addPath rows }
  | .failing k => do
    let row ← b.handles[k]?
    return { b with table := b.table.failSuccessors row }
  | .predicate id p => some { b with table := b.table.setPredicate id p }

variable {names : List String} {b : Builder} {told : Account} {k : Nat} {ks : List Nat}
  {call : Call}

structure Builder.Follows (b : Builder) (names : List String) (told : Account) : Prop where
  names : b.table.names = names
  keeps : b.table.Keeps told
  handles : List.Forall₂ b.table.At b.handles told.registered

theorem Builder.Follows.found (follows : b.Follows names told) {v : List Int64}
    (given : told.registered[k]? = some v) :
    ∃ handle, b.handles[k]? = some handle ∧ b.table.At handle v := by
  obtain ⟨bound, rfl⟩ := List.getElem?_eq_some_iff.mp given
  have bound' : k < b.handles.length := follows.handles.length_eq ▸ bound
  exact ⟨_, List.getElem?_eq_getElem bound', follows.handles.get bound' bound⟩

theorem Builder.Follows.handle (follows : b.Follows names told)
    (given : k < told.registered.length) :
    ∃ row v, b.handles[k]? = some row ∧ told.named [k] = [v] ∧ b.table.At row v := by
  obtain ⟨row, found, here⟩ := follows.found (List.getElem?_eq_getElem given)
  exact ⟨row, _, found, by simp [Account.named, given], here⟩

theorem Builder.Follows.path (follows : b.Follows names told)
    (given : ∀ k ∈ ks, k < told.registered.length) :
    ∃ rows, ks.mapM (b.handles[·]?) = some rows ∧ List.Forall₂ b.table.At rows (told.named ks) := by
  induction ks with
  | nil => exact ⟨[], rfl, .nil⟩
  | cons k ks ih =>
    rw [List.forall_mem_cons] at given
    obtain ⟨row, v, found, named, here⟩ := follows.handle given.1
    obtain ⟨rows, later, there⟩ := ih given.2
    refine ⟨row :: rows, ?_, ?_⟩
    · simp [List.mapM_cons, found, later]
    · have split : told.named (k :: ks) = told.named [k] ++ told.named ks :=
        List.filterMap_append (l := [k])
      rw [split, named]
      exact .cons here there

theorem perform_follows (follows : b.Follows names told) (permitted : told.Permits names call) :
    ∃ b', b.perform? call = some b' ∧ b'.Follows names (told.note call) := by
  cases call with
  | register values =>
    obtain ⟨row, t', registered, same, here, kept, keeps⟩ :=
      register_keeps follows.keeps (follows.names ▸ permitted)
    refine ⟨⟨t', b.handles ++ [row]⟩, by simp [Builder.perform?, registered],
      same.trans follows.names, keeps, ?_⟩
    exact List.rel_append (follows.handles.imp kept) (.cons here .nil)
  | initial k =>
    obtain ⟨row, v, found, named, here⟩ := follows.handle permitted
    refine ⟨{ b with table := b.table.addInitial row }, by simp [Builder.perform?, found],
      follows.names, ?_, follows.handles⟩
    rw [Account.note, named]
    exact keeps_initial follows.keeps here
  | transition source target =>
    obtain ⟨row, v, found, named, here⟩ := follows.handle permitted.1
    obtain ⟨row', w, found', named', here'⟩ := follows.handle permitted.2
    have stands := at_of_tuples (tuples_addTransition b.table row row')
    refine ⟨{ b with table := b.table.addTransition row row' },
      by simp [Builder.perform?, found, found'], follows.names, ?_, stands.symm ▸ follows.handles⟩
    rw [Account.note, named, named']
    exact keeps_transition follows.keeps here here'
  | path ks =>
    obtain ⟨rows, found, here⟩ := follows.path permitted
    have stands := at_of_tuples (tuples_addPath b.table rows)
    refine ⟨{ b with table := b.table.addPath rows }, by simp [Builder.perform?, found],
      (names_addPath b.table rows).trans follows.names, keeps_path follows.keeps here,
      stands.symm ▸ follows.handles⟩
  | failing k =>
    obtain ⟨row, v, found, named, here⟩ := follows.handle permitted
    have stands := at_of_tuples (tuples_failSuccessors b.table row)
    refine ⟨{ b with table := b.table.failSuccessors row }, by simp [Builder.perform?, found],
      follows.names, ?_, stands.symm ▸ follows.handles⟩
    rw [Account.note, named]
    exact keeps_failing follows.keeps here
  | predicate id p =>
    exact ⟨_, rfl, follows.names, keeps_predicate follows.keeps id p, follows.handles⟩

theorem performAll_follows (follows : b.Follows names told) {calls : List Call}
    (permitted : told.PermitsAll names calls) :
    ∃ b', calls.foldlM Builder.perform? b = some b' ∧
      b'.Follows names (calls.foldl Account.note told) := by
  induction calls generalizing b told with
  | nil => exact ⟨b, rfl, follows⟩
  | cons call rest ih =>
    obtain ⟨b₁, performed, follows₁⟩ := perform_follows follows permitted.1
    obtain ⟨b₂, run, follows₂⟩ := ih follows₁ permitted.2
    exact ⟨b₂, by rw [List.foldlM_cons, performed, Option.bind_eq_bind, Option.bind_some, run],
      follows₂⟩

end Run

/-- The model that was built is the graph that the calls describe. Its states are the distinct
tuples in the order of their registration, and a handle stands for the tuple that it was given out
for. A tuple whose fingerprint no other has is found again, and its successors are refused if they
were marked to fail; otherwise they are the targets of the steps that leave it, each once, in the
order of mention. So are the initial states. -/
theorem calls_describe (names : List String) (calls : List Call)
    (permitted : Account.PermitsAll names {} calls) :
    let told := calls.foldl Account.note {}
    ∃ table handles,
      calls.foldlM Builder.perform? ⟨{ names := names }, []⟩ = some ⟨table, handles⟩ ∧
      table.size = told.registered.eraseDups.length ∧
      table.statesAt (List.range table.size) =
        told.registered.eraseDups.map (TableState.mk names) ∧
      (∀ (k : Nat) (v : List Int64), told.registered[k]? = some v →
        ∃ handle, handles[k]? = some handle ∧ table.state? handle = some ⟨names, v⟩) ∧
      (∀ (j k : Nat) (v w : List Int64), told.registered[j]? = some v →
        told.registered[k]? = some w → (handles[j]? = handles[k]? ↔ v = w)) ∧
      (∀ v ∈ told.registered,
        (∀ w ∈ told.registered, Fingerprint.ofInts w = Fingerprint.ofInts v → w = v) →
        table.stateByValues? table.index v = some ⟨names, v⟩ ∧
        table.model.successors ⟨names, v⟩ =
          if v ∈ told.failures then .error (.successors (.ofInts v)
            ("injected failure at " ++ (TableState.mk names v).text))
          else .ok ((told.targets v).eraseDups.map (TableState.mk names))) ∧
      table.model.initial = .ok (told.starts.eraseDups.map (TableState.mk names)) := by
  intro told
  have start : Builder.Follows ⟨{ names := names }, []⟩ names {} := ⟨rfl, keeps_empty names, .nil⟩
  obtain ⟨⟨table, handles⟩, run, follows⟩ := performAll_follows start permitted
  have keeps : table.Keeps told := follows.keeps
  obtain rfl : table.names = names := follows.names
  refine ⟨table, handles, run, keeps.size, statesAt_eq keeps.listed, ?stands, ?apart, ?answers, ?_⟩
  case stands =>
    intro k v given
    obtain ⟨handle, found, here⟩ := follows.found given
    exact ⟨handle, found, here.state?⟩
  case apart =>
    intro j k v w given given'
    obtain ⟨handle, found, here⟩ := follows.found given
    obtain ⟨handle', found', here'⟩ := follows.found given'
    rw [found, found', Option.some.injEq]
    constructor
    · rintro rfl
      exact keeps.biUnique.2 here here'
    · rintro rfl
      exact keeps.biUnique.1 here here'
  case answers =>
    intro v registered unshared
    obtain ⟨k, given⟩ := List.getElem?_of_mem registered
    obtain ⟨row, -, here⟩ := follows.found given
    exact keeps.answers here unshared
  · exact congrArg Except.ok (statesAt_eq keeps.initial)

/-- A counter of one bit. It is registered twice, it starts where it was last said to start, and it
is marked to fail after its steps are given. -/
def bitCalls : List Call :=
  [.register [0], .register [1], .initial 1, .path [0, 1, 0], .register [0], .transition 2 1,
    .failing 1, .transition 2 0, .initial 0, .initial 1]

theorem calls_describe_bit : Account.PermitsAll ["bit"] {} bitCalls ∧
    ∃ table, bitCalls.foldlM Builder.perform? ⟨{ names := ["bit"] }, []⟩ =
        some ⟨table, [0, 1, 0]⟩ ∧
      table.size = 2 ∧
      table.model.successors ⟨["bit"], [0]⟩ = .ok [⟨["bit"], [1]⟩, ⟨["bit"], [0]⟩] ∧
      table.model.successors ⟨["bit"], [1]⟩ =
        .error (.successors (.ofInts [1]) "injected failure at bit = 1") ∧
      table.model.initial = .ok [⟨["bit"], [1]⟩, ⟨["bit"], [0]⟩] := by
  have permitted : Account.PermitsAll ["bit"] {} bitCalls := by
    simp [bitCalls, Account.PermitsAll, Account.Permits, Account.note]
  have unshared : ∀ v ∈ [[0], [1], [0]], ∀ w ∈ [[0], [1], [0]],
      Fingerprint.ofInts w = Fingerprint.ofInts v → w = v := by
    decide +kernel
  obtain ⟨table, handles, run, size, -, -, -, answers, initial⟩ :=
    calls_describe ["bit"] bitCalls permitted
  have given : (bitCalls.foldlM Builder.perform? ⟨{ names := ["bit"] }, []⟩).map Builder.handles =
      some [0, 1, 0] := by
    decide +kernel
  rw [run] at given
  obtain rfl := Option.some.inj given
  have first := (answers [0] (by decide) (unshared [0] (by decide))).2
  have second := (answers [1] (by decide) (unshared [1] (by decide))).2
  exact ⟨permitted, table, run, size, first, second, initial⟩

end TemporalCheck.StateTable
