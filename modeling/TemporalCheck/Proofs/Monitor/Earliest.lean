import TemporalCheck.Proofs.Monitor.Frame
import TemporalCheck.Proofs.Monitor.Verdict
import TemporalCheck.Proofs.Product.Calls

/-! How early a monitor finds a violation. A scan that is left out because the generation has not
changed would have reported what the last one did, so that at every scheduled moment before the end
the product had no violating component. -/
namespace TemporalCheck

variable {State : Type} {model : Model State} {feed : Feed State}

namespace Product

variable {p : Product State}

def Violated (p : Product State) : Prop :=
  ∃ c, p.digraph.IsComponent c ∧ (∃ v ∈ c.nodes, p.digraph.Reached p.initial.toList v) ∧
    (∃ u ∈ c.nodes, ∃ v ∈ c.nodes, p.digraph.Edge u v) ∧ p.Fulfilling c

theorem violated_iff : p.Violated ↔ ¬p.Clear := by
  simp only [Violated, ← mem_reachableComponents_violating_iff, Clear]
  simp

end Product

namespace Monitor

open Product (Call Becomes becomes_run)

variable {m m' m'' : Monitor State} {told later : List Event}

section Becomes

theorem settleFrom_becomes (fuel : Nat) (todo : List NodeId) (m : Monitor State) :
    m.product.Becomes (settleFrom model feed fuel todo m).2.product := by
  induction fuel generalizing todo m with
  | zero => exact .refl _
  | succ fuel ih =>
    cases todo with
    | nil => exact .refl _
    | cons id todo =>
      unfold settleFrom
      split
      · exact ih todo m
      · next next _ =>
        have here := becomes_run m.product
          (.expandNode model m.session id (m.resolve feed next))
        dsimp only
        split
        · exact here
        · exact here.trans (ih _ _)

theorem absorb_becomes (m : Monitor State) (call : Call State) :
    m.product.Becomes (absorb model feed m (call.run m.product)).2.product := by
  have here := becomes_run m.product call
  unfold absorb
  dsimp only
  split
  · exact here
  · exact here.trans (settleFrom_becomes _ _ _)

/-- What an event makes of the product is made by calls. -/
theorem apply_becomes (m : Monitor State) (e : Event) :
    m.product.Becomes (apply model feed m e).2.product := by
  cases e with
  | initial fp => exact absorb_becomes m (.extendInitial model m.session (m.resolve feed [fp]))
  | expanded source next =>
    let m' := { m with known := m.known.insert source next }
    exact absorb_becomes m' (.extend model m.session source (m'.resolve feed next))

end Becomes

section Follow

/-- The last of the events consumed was applied, and if a scan was due then, it found nothing. -/
theorem consume_concat {event : Event}
    (undecided : consume model feed (told ++ [event]) m = (none, m'')) :
    ∃ m₁ m', consume model feed told m = (none, m₁) ∧
      apply model feed { m₁ with cursor := m₁.cursor + 1 } event = (none, m') ∧
      (m'.isScanDue = true ∧ m'.scan = (none, m'') ∨ m'.isScanDue = false ∧ m'' = m') := by
  rw [consume_append] at undecided
  cases before : consume model feed told m with
  | mk outcome? m₁ =>
    rw [before] at undecided
    cases outcome? with
    | some outcome => simp at undecided
    | none =>
      simp only [consume] at undecided
      cases applied : apply model feed { m₁ with cursor := m₁.cursor + 1 } event with
      | mk failure? m' =>
        rw [applied] at undecided
        cases failure? with
        | some e => simp at undecided
        | none =>
          refine ⟨m₁, m', rfl, applied, ?_⟩
          cases due : m'.isScanDue with
          | false => simpa [due, eq_comm] using undecided
          | true =>
            cases scanned : m'.scan with
            | mk outcome? m₂ => cases outcome? <;> simp_all

/-- The scans on the way make no difference to the growth. -/
theorem follow_of_consume {n : Monitor State} (growth : m.SameGrowth n)
    (undecided : consume model feed told m = (none, m')) :
    ∃ n', follow model feed told n = (none, n') ∧ m'.SameGrowth n' := by
  induction told generalizing m n with
  | nil =>
    obtain rfl : m = m' := (Prod.mk.inj undecided).2
    exact ⟨n, rfl, growth⟩
  | cons e rest ih =>
    have counted : SameGrowth { m with cursor := m.cursor + 1 } n :=
      ⟨growth.product, growth.session, growth.known⟩
    obtain ⟨failure, grown⟩ := apply_congr model (.refl feed) counted e
    unfold consume at undecided
    unfold follow
    generalize apply model feed { m with cursor := m.cursor + 1 } e = result
      at undecided failure grown
    generalize apply model feed n e = result' at failure grown
    obtain ⟨failure?, m₁⟩ := result
    obtain ⟨failure?', n₁⟩ := result'
    obtain rfl : failure?' = failure? := failure
    cases failure?' with
    | some e => simp at undecided
    | none =>
      dsimp only at undecided ⊢
      split at undecided
      · have scanned := scan_sameGrowth m₁
        generalize m₁.scan = result at undecided scanned
        obtain ⟨_ | outcome, m₂⟩ := result
        · exact ih (scanned.symm.trans grown) undecided
        · simp at undecided
      · exact ih grown undecided

end Follow

section Scan

variable {m₀ : Monitor State} {report : ScanReport}

inductive Scans (model : Model State) (feed : Feed State) (m : Monitor State) :
    Monitor State → Prop where
  | due {told : List Event} {event : Event} {m' : Monitor State} :
    m.Takes model feed told event (none, m') → m'.isScanDue = true → Scans model feed m m'
  | final {m' : Monitor State} :
    consume model feed feed.events.toList m = (none, m') → Scans model feed m m'

structure Unscanned (m : Monitor State) : Prop where
  valid : m.product.Valid
  detector : m.detector.lastScanned = none

/-- The product has grown by calls, and the last scan that was made reported no violation of what
was there of it. -/
structure Vigilant (model : Model State) (feed : Feed State) (m₀ m : Monitor State) : Prop where
  becomes : m₀.product.Becomes m.product
  last : ∀ generation, m.detector.lastScanned = some generation → ∃ m' report,
    m₀.Scans model feed m' ∧ m'.detector.scan m'.product = (some report, m.detector) ∧
      m₀.product.Becomes m'.product ∧ m'.product.Becomes m.product ∧ report.violating = []

theorem vigilant_start (unscanned : m₀.Unscanned) : Vigilant model feed m₀ m₀ where
  becomes := .refl _
  last := by simp [unscanned.detector]

theorem Vigilant.applied (vigilant : Vigilant model feed m₀ m) {event : Event}
    (applied : apply model feed { m with cursor := m.cursor + 1 } event = (none, m')) :
    Vigilant model feed m₀ m' := by
  have grown := @apply_becomes _ model feed { m with cursor := m.cursor + 1 } event
  have alike := @apply_alike _ model feed { m with cursor := m.cursor + 1 } event
  rw [applied] at grown alike
  have detector : m'.detector = m.detector := alike.detector
  refine ⟨vigilant.becomes.trans grown, fun generation scanned => ?_⟩
  rw [detector] at scanned ⊢
  obtain ⟨m₁, report, scans, made, earlier, onward, nothing⟩ := vigilant.last generation scanned
  exact ⟨m₁, report, scans, made, earlier, onward.trans grown, nothing⟩

/-- Where a scan is left out, the product is the one that the last scan was made of. -/
theorem Vigilant.skipped (unscanned : m₀.Unscanned) (vigilant : Vigilant model feed m₀ m)
    (skipped : (m.detector.scan m.product).1 = none) :
    ∃ m' report, m₀.Scans model feed m' ∧
      m'.detector.scan m'.product = (some report, m.detector) ∧ m.product = m'.product ∧
      report.violating = [] := by
  have last := Detector.lastScanned_of_skipped skipped
  obtain ⟨m', report, scans, made, earlier, onward, nothing⟩ := vigilant.last _ last
  have valid := (earlier.within unscanned.valid).1
  have same : m'.product.generation = m.product.generation :=
    Option.some.inj ((Detector.lastScanned_of_scan made).symm.trans last)
  exact ⟨m', report, scans, made, onward.eq_of_generation valid same, nothing⟩

/-- A scan that finds nothing leaves nothing to be found, whether it was made or not. -/
theorem Vigilant.scanned (unscanned : m₀.Unscanned) (vigilant : Vigilant model feed m₀ m)
    (scans : m₀.Scans model feed m) (undecided : m.scan = (none, m')) :
    m.product.Clear ∧ Vigilant model feed m₀ m' := by
  unfold scan at undecided
  cases made : m.detector.scan m.product with
  | mk report? detector =>
    rw [made] at undecided
    cases report? with
    | none =>
      obtain rfl : m = m' := (Prod.mk.inj undecided).2
      obtain ⟨m₁, report, _, earlier, same, nothing⟩ :=
        vigilant.skipped unscanned (congrArg Prod.fst made)
      exact ⟨same ▸ Detector.clear_of_scan earlier nothing, vigilant⟩
    | some report =>
      dsimp only at undecided
      cases nothing : report.violating with
      | nil =>
        rw [nothing] at undecided
        obtain rfl := (Prod.mk.inj undecided).2
        refine ⟨Detector.clear_of_scan made nothing, vigilant.becomes, fun generation _ => ?_⟩
        exact ⟨m, report, scans, made, vigilant.becomes, .refl _, nothing⟩
      | cons component rest =>
        rw [nothing] at undecided
        dsimp only at undecided
        split at undecided <;> simp at undecided

theorem vigilant_of_consumed (unscanned : m₀.Unscanned)
    (log : feed.events.toList = told ++ later)
    (undecided : consume model feed told m₀ = (none, m)) : Vigilant model feed m₀ m := by
  induction told using List.reverseRecOn generalizing later m with
  | nil =>
    obtain rfl : m₀ = m := (Prod.mk.inj undecided).2
    exact vigilant_start unscanned
  | append_singleton told event ih =>
    rw [List.append_assoc, List.singleton_append] at log
    obtain ⟨m₁, m', before, applied, last⟩ := consume_concat undecided
    have vigilant := (ih log before).applied applied
    rcases last with ⟨due, scanned⟩ | ⟨_, rfl⟩
    · have scans : m₀.Scans model feed m' := .due ⟨later, m₁, log, before, applied⟩ due
      exact (vigilant.scanned unscanned scans scanned).2
    · exact vigilant

theorem Takes.vigilant (unscanned : m₀.Unscanned) {event : Event}
    (takes : m₀.Takes model feed told event (none, m)) : Vigilant model feed m₀ m := by
  obtain ⟨later, m₁, log, before, applied⟩ := takes
  exact (vigilant_of_consumed unscanned log before).applied applied

theorem Scans.vigilant (unscanned : m₀.Unscanned) (scans : m₀.Scans model feed m) :
    Vigilant model feed m₀ m := by
  cases scans with
  | due takes => exact takes.vigilant unscanned
  | final undecided => exact vigilant_of_consumed unscanned (List.append_nil _).symm undecided

/-- Where a scan was due after the events consumed, the product they have built is clear. -/
theorem clear_of_consumed (unscanned : m₀.Unscanned)
    (log : feed.events.toList = told ++ later) (nonempty : told ≠ [])
    (undecided : consume model feed told m₀ = (none, m)) (due : m.isScanDue = true) :
    m.product.Clear := by
  obtain ⟨told, event, rfl⟩ := (List.eq_nil_or_concat told).resolve_left nonempty
  rw [List.concat_eq_append] at *
  rw [List.append_assoc, List.singleton_append] at log
  obtain ⟨m₁, m', before, applied, last⟩ := consume_concat undecided
  have takes : m₀.Takes model feed told event (none, m') := ⟨later, m₁, log, before, applied⟩
  rcases last with ⟨due', scanned⟩ | ⟨undue, rfl⟩
  · have growth := scan_sameGrowth m'
    rw [scanned] at growth
    rw [growth.product]
    exact ((takes.vigilant unscanned).scanned unscanned (.due takes due') scanned).1
  · simp [due] at undue

end Scan

section Found

variable {m₀ : Monitor State} {outcome : Outcome State}

theorem not_clear_of_scan (found : m.scan = (some outcome, m')) : ¬m.product.Clear := by
  intro clear
  unfold scan at found
  cases made : m.detector.scan m.product with
  | mk report? detector =>
    rw [made] at found
    cases report? with
    | none => simp at found
    | some report =>
      dsimp only at found
      cases listed : report.violating with
      | nil => simp [listed] at found
      | cons component rest =>
        obtain ⟨member, violating⟩ :=
          (Detector.mem_violating made component).mp (by simp [listed])
        simp [clear component member] at violating

theorem follow_append (events later : List Event) (m : Monitor State) :
    follow model feed (events ++ later) m =
      match follow model feed events m with
      | (some e, m') => (some e, m')
      | (none, m') => follow model feed later m' := by
  induction events generalizing m with
  | nil => rfl
  | cons e rest ih =>
    simp only [List.cons_append, follow]
    split
    · rfl
    · exact ih _

theorem Takes.follow {event : Event} (takes : m₀.Takes model feed told event (none, m)) :
    ∃ n, Monitor.follow model feed (told ++ [event]) m₀ = (none, n) ∧ m.SameGrowth n := by
  obtain ⟨later, m₁, log, before, applied⟩ := takes
  obtain ⟨n₁, followed, growth⟩ := follow_of_consume (.refl m₀) before
  have counted : SameGrowth { m₁ with cursor := m₁.cursor + 1 } n₁ :=
    ⟨growth.product, growth.session, growth.known⟩
  obtain ⟨failure, grown⟩ := apply_congr model (.refl feed) counted event
  rw [applied] at failure grown
  refine ⟨(apply model feed n₁ event).2, ?_, grown⟩
  rw [follow_append, followed]
  dsimp only [Monitor.follow]
  generalize apply model feed n₁ event = result at failure
  obtain ⟨failure?, n⟩ := result
  obtain rfl : failure? = none := failure
  rfl

structure Finds (model : Model State) (feed : Feed State) (m₀ : Monitor State)
    (told : List Event) (m : Monitor State) : Prop where
  log : told <+: feed.events.toList
  scheduled : m.isScanDue = true ∨ told = feed.events.toList
  cursor : m.cursor = m₀.cursor + told.length
  scanEvery : m.scanEvery = m₀.scanEvery
  before : ∀ k < told.length, ∃ m₁, consume model feed (told.take k) m₀ = (none, m₁)
  followed : ∃ n, follow model feed told m₀ = (none, n) ∧ m.SameGrowth n
  violating : ¬m.product.Clear

theorem consume_take (undecided : consume model feed told m = (none, m')) (k : Nat) :
    ∃ m₁, consume model feed (told.take k) m = (none, m₁) := by
  rw [← List.take_append_drop k told, consume_append] at undecided
  generalize consume model feed (told.take k) m = result at undecided
  obtain ⟨_ | outcome, m₁⟩ := result
  · exact ⟨m₁, rfl⟩
  · simp at undecided

theorem exists_finds {lasso : Lasso State} (fresh : m₀.cursor = 0)
    (violated : (drive model feed m₀).1 = .ok (.violated lasso)) :
    ∃ told m, Finds model feed m₀ told m ∧ (drive model feed m₀).2.cursor = told.length := by
  have ends := @ends_drive _ model feed m₀ fresh
  generalize drive model feed m₀ = result at ends violated
  cases ends with
  | refused takes => simp at violated
  | @found told event m m' outcome takes due scanned =>
    have kept := takes.keeps
    have cursor := m.scan_keeps.1
    obtain ⟨later, m₁, log, before, applied⟩ := id takes
    rw [scanned] at cursor
    refine ⟨told ++ [event], m, ⟨⟨later, ?_⟩, .inl due, ?_, kept.2, fun k bound => ?_,
      takes.follow, not_clear_of_scan scanned⟩, ?_⟩
    · rw [log, List.append_assoc, List.singleton_append]
    · simpa [Nat.add_assoc] using kept.1
    · have inside : k ≤ told.length := by simpa [Nat.lt_succ_iff] using bound
      rw [List.take_append_of_le_length inside]
      exact consume_take before k
    · rw [cursor, kept.1, fresh]
      simp
  | @finished m undecided =>
    have kept := @consume_keeps _ model feed feed.events.toList m₀
    rw [undecided] at kept
    have length := kept.2 rfl
    refine ⟨feed.events.toList, m, ⟨List.prefix_rfl, .inr rfl, length, kept.1,
      fun k _ => consume_take undecided k, follow_of_consume (.refl m₀) undecided, ?_⟩, ?_⟩
    · unfold conclude at violated
      cases scanned : m.scan with
      | mk outcome? m' =>
        rw [scanned] at violated
        cases outcome? with
        | some outcome => exact not_clear_of_scan scanned
        | none => exact absurd (Except.ok.inj violated) (verdictAfter_ne_violated _ lasso)
    · rw [conclude_cursor, length, fresh, Nat.zero_add]

/-- At every scheduled moment before that, the product was clear. -/
theorem clear_of_dvd {n : Nat} (unscanned : m₀.Unscanned) (fresh : m₀.cursor = 0)
    (every : m₀.scanEvery = some n) (empty : m₀.product.Clear)
    (log : told <+: feed.events.toList) (undecided : consume model feed told m₀ = (none, m))
    (scheduled : n ∣ told.length) : m.product.Clear := by
  by_cases nothing : told = []
  · subst nothing
    obtain rfl : m₀ = m := (Prod.mk.inj undecided).2
    exact empty
  · obtain ⟨later, log⟩ := log
    have kept := @consume_keeps _ model feed told m₀
    rw [undecided] at kept
    have cursor : m.cursor = told.length := by rw [kept.2 rfl, fresh, Nat.zero_add]
    have due : m.isScanDue = true := by
      unfold isScanDue
      rw [kept.1, every, cursor]
      simpa using Nat.mod_eq_zero_of_dvd scheduled
    exact clear_of_consumed unscanned log.symm nothing undecided due

section Finds

variable {n : Nat} (finds : Finds model feed m₀ told m) (fresh : m₀.cursor = 0)
  (every : m₀.scanEvery = some n)
include finds

theorem Finds.take : feed.events.toList.take told.length = told :=
  (List.prefix_iff_eq_take.mp finds.log).symm

theorem Finds.length_le : told.length ≤ feed.length := by
  simpa [Feed.length] using finds.log.length_le

include fresh every

theorem Finds.dvd_or_end : n ∣ told.length ∨ told.length = feed.length := by
  rcases finds.scheduled with due | all
  · left
    unfold isScanDue at due
    rw [finds.scanEvery, every, finds.cursor, fresh, Nat.zero_add] at due
    exact Nat.dvd_of_mod_eq_zero (by simpa using due)
  · right
    rw [all, Array.length_toList]
    rfl

/-- At the scheduled moments before, there was no violation yet. -/
theorem Finds.not_violated (unscanned : m₀.Unscanned) (empty : m₀.product.Clear) {k : Nat}
    (before : k < told.length) (scheduled : n ∣ k) :
    ¬(Monitor.follow model feed (feed.events.toList.take k) m₀).2.product.Violated := by
  obtain ⟨m₁, undecided⟩ := finds.before k before
  have length : (told.take k).length = k := by rw [List.length_take, Nat.min_eq_left before.le]
  have shorter : feed.events.toList.take k = told.take k := by
    rw [← finds.take, List.take_take, Nat.min_eq_left before.le]
  have clear := clear_of_dvd unscanned fresh every empty
    ((List.take_prefix k told).trans finds.log) undecided (length.symm ▸ scheduled)
  obtain ⟨n₁, followed, growth⟩ := follow_of_consume (.refl m₀) undecided
  rw [Product.violated_iff, not_not, shorter, followed, growth.product]
  exact clear

end Finds

end Found

theorem unscanned_start (name : String) (t : Tableau) (settings : Settings) :
    (start name t settings : Monitor State).Unscanned :=
  ⟨Product.valid_empty t, rfl⟩

theorem clear_start (name : String) (t : Tableau) (settings : Settings) :
    (start name t settings : Monitor State).product.Clear := by
  by_contra violating
  obtain ⟨_, _, ⟨_, _, r, initial, _⟩, _⟩ := Product.violated_iff.mpr violating
  simp [start] at initial

/-- A monitor that scans every so many events reports a violation at the earliest scheduled moment,
the end being one, where the product of the events so far has a violating component. And a scan that
is left out would have reported what the last one did that was made, which is the one that has left
the detector as it is. -/
theorem run_earliest (name : String) (t : Tableau) (settings : Settings) (model : Model State)
    (feed : Feed State) (periodic : settings.mode = .periodic)
    (positive : 1 ≤ settings.scanInterval) :
    let n := settings.scanInterval.toNat
    let m : Monitor State := start name t settings
    let report := m.run model feed
    let after (k : Nat) := follow model feed (feed.events.toList.take k) m
    (∀ lasso, report.outcome = .ok (.violated lasso) →
      (after report.stats.eventsConsumed).1 = none ∧
      IsLeast {k | k ≤ feed.length ∧ (n ∣ k ∨ k = feed.length) ∧ (after k).2.product.Violated}
        report.stats.eventsConsumed) ∧
    ∀ m', m.Scans model feed m' → (m'.detector.scan m'.product).1 = none →
      ∃ m'' last, m.Scans model feed m'' ∧
        m''.detector.scan m''.product = (some last, m'.detector) ∧
        (({} : Detector).scan m'.product).1 = some last := by
  intro n m report after
  have every : m.scanEvery = some n := by
    have interval : 1 ≤ settings.scanInterval.toNat := UInt64.le_iff_toNat_le.mp positive
    simp [m, start, Settings.scanEvery, periodic, n, Nat.max_eq_left interval]
  have unscanned : m.Unscanned := unscanned_start name t settings
  refine ⟨fun lasso violated => ?_, fun m' scans skipped => ?_⟩
  · obtain ⟨told, m', finds, consumed⟩ := exists_finds (show m.cursor = 0 from rfl) violated
    obtain ⟨n', followed, growth⟩ := finds.followed
    have there : after told.length = (none, n') := by simp only [after, finds.take, followed]
    have consumed : report.stats.eventsConsumed = told.length := consumed
    rw [consumed]
    refine ⟨congrArg Prod.fst there,
      ⟨finds.length_le, finds.dvd_or_end rfl every, ?_⟩, ?_⟩
    · rw [Product.violated_iff, there, growth.product]
      exact finds.violating
    · rintro k ⟨_, scheduled, violated⟩
      by_contra before
      have before : k < told.length := Nat.lt_of_not_le before
      have inside := finds.length_le
      exact finds.not_violated rfl every unscanned (clear_start name t settings) before
        (scheduled.resolve_right (by omega)) violated
  · obtain ⟨m'', last, scans', made, same, _⟩ :=
      (scans.vigilant unscanned).skipped unscanned skipped
    exact ⟨m'', last, scans', made, same ▸ Detector.first_scan_of_scan made⟩

/-- It is told twice that the lamp may be off at the start, and the second time no scan is made. -/
theorem run_earliest_lamp :
    let events : List Event := [.initial 0, .initial 0, .expanded 0 [1], .expanded 1 [0]]
    let feed := (lampFeed.publish events).finish .exhausted
    let settings : Settings := { scanInterval := 1 }
    let m : Monitor Bool := start "lamp" anything settings
    let report := m.run lamp feed
    let after (k : Nat) := follow lamp feed (feed.events.toList.take k) m
    settings.mode = .periodic ∧ 1 ≤ settings.scanInterval ∧
    (∃ lasso, report.outcome = .ok (.violated lasso)) ∧ report.stats.eventsConsumed = 4 ∧
    IsLeast {k | k ≤ feed.length ∧ (1 ∣ k ∨ k = feed.length) ∧ (after k).2.product.Violated} 4 ∧
    ∃ m', m.Scans lamp feed m' ∧ m'.cursor = 2 ∧ (m'.detector.scan m'.product).1 = none ∧
      ∃ m'' last, m.Scans lamp feed m'' ∧
        m''.detector.scan m''.product = (some last, m'.detector) ∧
        (({} : Detector).scan m'.product).1 = some last := by
  intro events feed settings m report after
  have consumed : report.stats.eventsConsumed = 4 := by decide +kernel
  have found : report.lasso?.isSome = true := by decide +kernel
  obtain ⟨lasso, found⟩ := Option.isSome_iff_exists.mp found
  have violated : report.outcome = .ok (.violated lasso) := outcome_of_lasso? found
  obtain ⟨least, skips⟩ :=
    run_earliest "lamp" anything settings lamp feed rfl (by decide)
  obtain ⟨m', scans, told, skipped⟩ : ∃ m', m.Scans lamp feed m' ∧ m'.cursor = 2 ∧
      (m'.detector.scan m'.product).1.isNone = true := by
    have split {α β : Type} {x : Option α × β} (nothing : x.1 = none) : x = (none, x.2) :=
      Prod.ext nothing rfl
    let before := (consume lamp feed [.initial 0] m).2
    have log : feed.events.toList =
        [.initial 0] ++ .initial 0 :: [.expanded 0 [1], .expanded 1 [0]] := by decide +kernel
    have undecided := split (x := consume lamp feed [.initial 0] m) (by decide +kernel)
    have applied := split (x := apply lamp feed { before with cursor := before.cursor + 1 }
      (.initial 0)) (by decide +kernel)
    exact ⟨_, .due ⟨_, before, log, undecided, applied⟩ (by decide +kernel), by decide +kernel,
      by decide +kernel⟩
  have skipped : (m'.detector.scan m'.product).1 = none := Option.isNone_iff_eq_none.mp skipped
  have first : IsLeast _ report.stats.eventsConsumed := (least lasso violated).2
  rw [consumed] at first
  exact ⟨rfl, by decide, ⟨lasso, violated⟩, consumed, first, m', scans, told, skipped,
    skips m' scans skipped⟩

end Monitor
end TemporalCheck
