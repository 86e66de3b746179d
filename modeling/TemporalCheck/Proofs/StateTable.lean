import TemporalCheck.Proofs.Model
import TemporalCheck.StateTable

/-! Tables filled call by call. Every row keeps a value for every name, and the model of a table
has no states but those of its rows. -/
namespace TemporalCheck.StateTable

inductive Built : StateTable → Prop where
  | empty (names : List String) : Built { names := names }
  | register {t t' values row} : Built t → t.register? values = some (row, t') → Built t'
  | initial {t} : Built t → ∀ row, Built (t.addInitial row)
  | transition {t} : Built t → ∀ source target, Built (t.addTransition source target)
  | path {t} : Built t → ∀ rows, Built (t.addPath rows)
  | failing {t} : Built t → ∀ row, Built (t.failSuccessors row)
  | predicate {t} : Built t → ∀ id p, Built (t.setPredicate id p)

def Rectangular (t : StateTable) : Prop := ∀ row ∈ t.rows, row.values.length = t.names.length

def Lists (t : StateTable) (s : TableState) : Prop := ∃ row, t.state? row = some s

variable {t t' : StateTable} {s : TableState} {values : List Int64} {row : Nat}

theorem rectangular_register (rectangular : t.Rectangular)
    (registered : t.register? values = some (row, t')) : t'.Rectangular := by
  unfold register? at registered
  split at registered
  · next fits =>
    split at registered
    · cases registered
      exact rectangular
    · cases registered
      intro r member
      rcases Array.mem_push.mp member with old | rfl
      · exact rectangular r old
      · exact fits
  · contradiction

/-- What leaves the values of a row alone keeps the table rectangular. -/
theorem rectangular_modify (rectangular : t.Rectangular) {change : Row → Row}
    (keeps : ∀ r, (change r).values = r.values) :
    Rectangular { t with rows := t.rows.modify row change } := by
  intro r member
  obtain ⟨i, bound, rfl⟩ := Array.mem_iff_getElem.mp member
  have inside : i < t.rows.size := by simpa using bound
  have fits := rectangular t.rows[i] (Array.getElem_mem inside)
  rw [Array.getElem_modify]
  split
  · exact (congrArg List.length (keeps _)).trans fits
  · exact fits

theorem rectangular_addTransition (rectangular : t.Rectangular) (source target : Nat) :
    (t.addTransition source target).Rectangular :=
  rectangular_modify rectangular fun _ => rfl

theorem rectangular_addPath (rectangular : t.Rectangular) (rows : List Nat) :
    (t.addPath rows).Rectangular := by
  fun_induction addPath t rows with
  | case1 t source target rest ih => exact ih (rectangular_addTransition rectangular source target)
  | case2 t rows => exact rectangular

theorem Built.rectangular (built : t.Built) : t.Rectangular := by
  induction built with
  | empty names => simp [Rectangular]
  | register _ registered ih => exact rectangular_register ih registered
  | initial _ row ih => exact ih
  | transition _ source target ih => exact rectangular_addTransition ih source target
  | path _ rows ih => exact rectangular_addPath ih rows
  | failing _ row ih => exact rectangular_modify ih fun _ => rfl
  | predicate _ id p ih => exact ih

theorem lists_of_mem {rows : List Nat} (member : s ∈ t.statesAt rows) : t.Lists s := by
  obtain ⟨row, _, found⟩ := List.mem_filterMap.mp member
  exact ⟨row, found⟩

theorem lists_of_reachable (reachable : t.model.Reachable s) : t.Lists s := by
  cases reachable with
  | start starts =>
    obtain ⟨states, answered, member⟩ := starts
    cases answered
    exact lists_of_mem member
  | step _ follows =>
    obtain ⟨states, answered, member⟩ := follows
    change t.successors t.index _ = .ok states at answered
    unfold successors at answered
    split at answered
    · contradiction
    · split at answered
      · contradiction
      · cases answered
        exact lists_of_mem member

end TemporalCheck.StateTable
