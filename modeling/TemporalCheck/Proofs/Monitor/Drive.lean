import TemporalCheck.Proofs.Monitor.Course
import TemporalCheck.Proofs.Monitor.Exact
import TemporalCheck.Proofs.Product.Lasso

/-! A monitor on its way through a feed. It follows the events in their order, whatever the batches,
and a scan that it leaves out would have found nothing. So it ends with a refused answer, with the
lasso of a violating component, or with an exact product of all events in which no component is
violating. -/
namespace TemporalCheck

variable {State : Type} {c d : Scene State} {feed : Feed State} {m : Monitor State}

def Scene.after (d : Scene State) (told : List Event) : Scene State := { d with events := told }

theorem Scene.extends_after {told later : List Event} (events : d.events = told ++ later) :
    (d.after told).Extends d :=
  ⟨rfl, rfl, rfl, fun _ member => events ▸ List.mem_append_left _ member⟩

namespace Product

/-- No component that can be reached is violating. -/
def Clear (p : Product State) : Prop :=
  ∀ c ∈ p.reachableComponents, p.isViolating c = false

end Product

theorem Detector.clear_of_scan {d d' : Detector} {p : Product State} {report : ScanReport}
    (made : d.scan p = (some report, d')) (nothing : report.violating = []) : p.Clear := by
  intro component member
  by_contra violating
  have listed := (mem_violating made component).mpr ⟨member, by simpa using violating⟩
  simp [nothing] at listed

namespace Monitor

open Product (Part Whole)

/-- The monitor has followed the events told so far to the end, and has not overlooked a
violation. -/
structure Watching (d : Scene State) (told : List Event) (m : Monitor State) : Prop where
  tracks : Tracks (d.after told) m
  whole : Whole (d.after told) m.product
  scanned : ∀ generation, m.detector.lastScanned = some generation →
    ∃ q : Product State, q.Within m.product ∧ q.generation = generation ∧ q.Clear

inductive Concludes (d : Scene State) (status : FeedStatus) : Outcome State → Prop where
  | refused (e : EvalError) (refused : d.Refused e) :
    Concludes d status (.ok (.indeterminate (.evaluation e)))
  | violated (p : Product State) (component : Component) (lasso : Lasso State) (part : Part d p)
    (member : component ∈ p.reachableComponents) (violating : p.isViolating component = true)
    (found : p.lasso component = .ok lasso) : Concludes d status (.ok (.violated lasso))
  | clear (p : Product State) (part : Part d p) (whole : Whole d p) (clear : p.Clear) :
    Concludes d status (.ok (verdictAfter status))

theorem watching_start (d : Scene State) (name : String) (settings : Settings) :
    Watching d [] (start name d.tableau settings) where
  tracks := tracks_start (d.after []) rfl name settings
  whole := Product.whole_empty rfl
  scanned := by simp [start]

section Scan

variable {told : List Event}

/-- A scan finds the lasso of a violating component, or there is no such component. -/
theorem scan_spec (watching : Watching d told m) :
    match m.scan with
    | (some outcome, _) => ∃ component ∈ m.product.reachableComponents,
        m.product.isViolating component = true ∧
          ∃ lasso, m.product.lasso component = .ok lasso ∧ outcome = .ok (.violated lasso)
    | (none, m') => m'.product.Clear ∧ Watching d told m' := by
  unfold scan
  cases scanned : m.detector.scan m.product with
  | mk report? detector =>
    cases report? with
    | none =>
      -- the product is the one of the last scan
      have same := Detector.lastScanned_of_skipped (congrArg Prod.fst scanned)
      obtain ⟨q, within, generation, clear⟩ := watching.scanned _ same
      have unchanged : q = m.product :=
        within.generation.resolve_right (by rw [generation]; exact Nat.lt_irrefl _)
      exact ⟨unchanged ▸ clear, watching⟩
    | some report =>
      have members := Detector.mem_violating scanned
      dsimp only
      cases found : report.violating with
      | nil =>
        have clear := Detector.clear_of_scan scanned found
        have generation := Detector.lastScanned_of_scan scanned
        refine ⟨clear, ⟨⟨watching.tracks.part, watching.tracks.coherent, watching.tracks.known⟩,
          watching.whole, fun g last => ?_⟩⟩
        exact ⟨m.product, .refl _, Option.some.inj (generation.symm.trans last), clear⟩
      | cons component rest =>
        obtain ⟨member, violating⟩ := (members component).mp (by simp [found])
        obtain ⟨lasso, extracted⟩ :=
          Product.exists_lasso_of_violating watching.tracks.part.valid member violating
        simp only [extracted]
        exact ⟨component, member, violating, lasso, extracted, rfl⟩

theorem concludes_of_scan {later : List Event} {status : FeedStatus} {outcome : Outcome State}
    (events : d.events = told ++ later) (watching : Watching d told m) {m' : Monitor State}
    (scanned : m.scan = (some outcome, m')) : Concludes d status outcome := by
  have spec := scan_spec watching
  rw [scanned] at spec
  obtain ⟨component, member, violating, lasso, found, rfl⟩ := spec
  exact .violated m.product component lasso
    (watching.tracks.part.extends (Scene.extends_after events)) member violating found

theorem conclude_spec (watching : Watching d d.events m) (status : FeedStatus) :
    Concludes d status (m.conclude status).1 := by
  have spec := scan_spec watching
  unfold conclude
  cases scanned : m.scan with
  | mk outcome? m' =>
    cases outcome? with
    | some outcome => exact concludes_of_scan (List.append_nil _).symm watching scanned
    | none =>
      rw [scanned] at spec
      obtain ⟨clear, watching'⟩ := spec
      exact .clear m'.product watching'.tracks.part watching'.whole clear

end Scan

section Consume

/-- Following one more event keeps the product exact, or the model refuses an answer. -/
theorem Watching.followed {told later : List Event} {e : Event} (stored : d.stored = feed.state?)
    (once : d.Once) (events : d.events = told ++ e :: later) (watching : Watching d told m) :
    Followed (d.after (told ++ [e])) { m with cursor := m.cursor + 1 }
      (apply d.model feed { m with cursor := m.cursor + 1 } e) := by
  have onward : (d.after (told ++ [e])).Extends d :=
    Scene.extends_after (events.trans (List.append_cons told e later))
  have tracks : Tracks (d.after told) { m with cursor := m.cursor + 1 } :=
    ⟨watching.tracks.part, watching.tracks.coherent, watching.tracks.known⟩
  exact @apply_followed _ (d.after told) feed { m with cursor := m.cursor + 1 }
    (d.after (told ++ [e])) e rfl stored (onward.once once) tracks watching.whole

theorem apply_watching {told later : List Event} {e : Event} (stored : d.stored = feed.state?)
    (once : d.Once) (events : d.events = told ++ e :: later) (watching : Watching d told m) :
    match apply d.model feed { m with cursor := m.cursor + 1 } e with
    | (some failure, _) => d.Refused failure
    | (none, m') => Watching d (told ++ [e]) m' := by
  have step := watching.followed stored once events
  have alike := @apply_alike _ d.model feed { m with cursor := m.cursor + 1 } e
  generalize apply d.model feed { m with cursor := m.cursor + 1 } e = result at step alike
  obtain ⟨_ | failure, m'⟩ := result
  · obtain ⟨advance, whole⟩ := step
    have detector : m'.detector = m.detector := alike.detector
    refine ⟨advance.tracks, whole, fun g last => ?_⟩
    obtain ⟨q, within, generation, clear⟩ := watching.scanned g (detector ▸ last)
    exact ⟨q, within.trans advance.within, generation, clear⟩
  · exact (Scene.extends_after (events.trans (List.append_cons told e later))).refused step.2

theorem consume_spec {told events later : List Event} (stored : d.stored = feed.state?)
    (once : d.Once) (split : d.events = told ++ events ++ later) (status : FeedStatus)
    (watching : Watching d told m) :
    match consume d.model feed events m with
    | (some outcome, _) => Concludes d status outcome
    | (none, m') => Watching d (told ++ events) m' := by
  induction events generalizing told m with
  | nil => exact (List.append_nil told).symm ▸ watching
  | cons e rest ih =>
    have here : d.events = told ++ e :: (rest ++ later) := by simp [split]
    have step := apply_watching stored once here watching
    have onward {m' : Monitor State} (watching : Watching d (told ++ [e]) m') :
        match consume d.model feed rest m' with
        | (some outcome, _) => Concludes d status outcome
        | (none, m') => Watching d (told ++ e :: rest) m' := by
      have there := ih (by simp [split]) watching
      rwa [List.append_assoc, List.singleton_append] at there
    unfold consume
    generalize apply d.model feed { m with cursor := m.cursor + 1 } e = result at step
    obtain ⟨_ | failure, m'⟩ := result
    · by_cases due : m'.isScanDue = true
      · have spec := scan_spec step
        simp only [due, if_true]
        cases scanned : m'.scan with
        | mk outcome? m'' =>
          rw [scanned] at spec
          cases outcome? with
          | some outcome => exact concludes_of_scan (by rw [here, List.append_cons]) step scanned
          | none => exact onward spec.2
      · simp only [due]
        exact onward step
    · exact .refused failure step

/-- Where a monitor ends that reads a whole feed from the start. -/
theorem drive_spec (stored : d.stored = feed.state?) (log : d.events = feed.events.toList)
    (once : d.Once) (name : String) (settings : Settings) :
    Concludes d feed.status (drive d.model feed (start name d.tableau settings)).1 := by
  have split : d.events = [] ++ d.events ++ [] := by simp
  have spec := consume_spec stored once split feed.status (watching_start d name settings)
  rw [drive_eq_consume rfl, ← log]
  generalize consume d.model feed d.events (start name d.tableau settings) = result at spec
  obtain ⟨_ | outcome, m'⟩ := result
  · exact conclude_spec spec feed.status
  · exact spec

end Consume

end Monitor
end TemporalCheck
