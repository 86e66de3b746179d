import TemporalCheck.Proofs.Check
import TemporalCheck.Proofs.Exploration.Cutoff
import TemporalCheck.Proofs.Monitor.Frame

/-! Properties that are checked together do not influence each other. They share the exploration,
which only asks whether it is read at all, and each is monitored for itself. -/
namespace TemporalCheck

variable {State : Type} {model : Model State} {settings : Settings} {fairness : List Formula}
  {properties : List (String × Formula)} {f g : Feed State}

namespace Feed

theorem withReaders_eq (n : Nat) : (Feed.withReaders n : Feed State) = { readers := n } := by
  induction n with
  | zero => rfl
  | succ n ih => rw [withReaders, ih, addReader]

theorem matches_of_states (states : ∀ fp, g.state? fp = f.state? fp) (events : g.events = f.events)
    (status : g.status = f.status) : f.Matches g where
  states := states
  count := by
    have back : g.Before f :=
      ⟨fun fp s found => (states fp).symm.trans found, events ▸ List.prefix_rfl⟩
    have forth : f.Before g :=
      ⟨fun fp s found => (states fp).trans found, events ▸ List.prefix_rfl⟩
    exact Nat.le_antisymm (stateCount_le_of_before back) (stateCount_le_of_before forth)
  events := events
  status := status

/-- Explorations that somebody reads leave the same to be told, whoever it is. -/
theorem exploreModel_matches (model : Model State) (options : ExplorationOptions)
    (readers readers' : Nat) (session : Session) :
    (({ readers := readers + 1 } : Feed State).exploreModel model options session).2.1.Matches
      (({ readers := readers' + 1 } : Feed State).exploreModel model options session).2.1 := by
  obtain ⟨status, _⟩ :=
    @exploreModel_spec State { readers := readers + 1 } model options rfl rfl rfl session
  obtain ⟨status', _⟩ :=
    @exploreModel_spec State { readers := readers' + 1 } model options rfl rfl rfl session
  obtain ⟨stored, ends, filed, _⟩ := exploreModel_exploresTo model options readers session
  obtain ⟨stored', ends', filed', _⟩ := exploreModel_exploresTo model options readers' session
  obtain ⟨same, log, rfl⟩ := ends.unique ends'
  refine matches_of_states (fun fp => Option.ext fun s => ?_) (Array.toList_inj.mp log.symm) ?_
  · exact (filed' fp s).trans (filed fp s).symm
  · exact status'.trans (same.symm.trans status.symm)

end Feed

def reportOn (model : Model State) (settings : Settings) (fairness : List Formula)
    (feed : Feed State) (row : String × Formula) : PropertyReport State :=
  match Tableau.build (assumption fairness) row.2 with
  | .error r => rejectionReport row.1 r
  | .ok t => (Monitor.start row.1 t settings).run model feed

theorem name_reportOn (row : String × Formula) :
    (reportOn model settings fairness f row).name = row.1 := by
  unfold reportOn
  cases Tableau.build (assumption fairness) row.2 with
  | error r => rfl
  | ok t => exact Monitor.name_run rfl

theorem reportOn_eq (same : f.Matches g) (row : String × Formula) :
    reportOn model settings fairness g row = reportOn model settings fairness f row := by
  unfold reportOn
  cases Tableau.build (assumption fairness) row.2 with
  | error r => rfl
  | ok t =>
    exact @Monitor.run_batch _ model f g (Monitor.start row.1 t settings) same rfl settings.batch

/-- A check reports on every property what comes of it on the explored feed. -/
theorem check_properties (model : Model State) (settings : Settings) (fairness : List Formula)
    (properties : List (String × Formula)) : (check model settings fairness properties).properties =
      properties.map
        (reportOn model settings fairness (exploredFeed model settings fairness properties)) := by
  apply List.ext_getElem?
  intro i
  rw [List.getElem?_map]
  cases listed : properties[i]? with
  | none =>
    unfold check
    rw [List.getElem?_map, List.getElem?_map, listed]
    rfl
  | some row =>
    obtain ⟨name, property⟩ := row
    rw [Option.map_some, reportOn]
    cases built : Tableau.build (assumption fairness) property with
    | error r => exact check_rejected listed built
    | ok t => exact (check_monitored listed built).2.2.2

/-- Feeds that are explored for some property each tell the same. -/
theorem exploredFeed_matches {properties' : List (String × Formula)}
    (read : monitoredCount fairness properties ≠ 0)
    (read' : monitoredCount fairness properties' ≠ 0) :
    (exploredFeed model settings fairness properties).Matches
      (exploredFeed model settings fairness properties') := by
  obtain ⟨n, count⟩ := Nat.exists_eq_succ_of_ne_zero read
  obtain ⟨n', count'⟩ := Nat.exists_eq_succ_of_ne_zero read'
  unfold exploredFeed
  rw [Feed.withReaders_eq, Feed.withReaders_eq, count, count']
  exact Feed.exploreModel_matches model settings.exploration n n' {}

/-- There is one report for each property, in their order, and it is the report of the property when
it is checked alone. -/
theorem check_independent (model : Model State) (settings : Settings) (fairness : List Formula)
    (properties : List (String × Formula)) :
    List.Forall₂ (fun row report => report.name = row.1 ∧
        (check model settings fairness [row]).properties = [report])
      properties (check model settings fairness properties).properties := by
  rw [check_properties, List.forall₂_map_right_iff, List.forall₂_same]
  intro row member
  refine ⟨name_reportOn row, ?_⟩
  rw [check_properties, List.map_singleton]
  congr 1
  cases built : Tableau.build (assumption fairness) row.2 with
  | error r => rw [reportOn, reportOn, built]
  | ok t =>
    obtain ⟨i, listed⟩ := List.getElem?_of_mem member
    have alone : ([row] : List (String × Formula))[0]? = some row := rfl
    exact reportOn_eq (exploredFeed_matches (monitoredCount_ne_zero listed built)
      (monitoredCount_ne_zero alone built)) row

end TemporalCheck
