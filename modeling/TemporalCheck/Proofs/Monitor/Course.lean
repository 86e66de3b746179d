import TemporalCheck.Monitor

/-! The course of a monitor through a feed. How the feed is cut into batches makes no difference:
the events are consumed one after the other until one of them decides the outcome, because the model
refuses an answer there or because a scan that is due there finds something. -/
namespace TemporalCheck.Monitor

variable {State : Type} {model : Model State} {feed : Feed State} {m m₁ m₂ : Monitor State}

section Frame

/-- Apart from what growth is about, the two monitors are the same. -/
def Alike (m m' : Monitor State) : Prop :=
  m' = { m with product := m'.product, session := m'.session, known := m'.known }

theorem Alike.trans (first : m.Alike m₁) (second : m₁.Alike m₂) : m.Alike m₂ := by
  unfold Alike at first second ⊢
  rw [second, first]

theorem Alike.cursor (alike : m.Alike m₁) : m₁.cursor = m.cursor := by
  unfold Alike at alike
  rw [alike]

theorem Alike.scanEvery (alike : m.Alike m₁) : m₁.scanEvery = m.scanEvery := by
  unfold Alike at alike
  rw [alike]

theorem Alike.detector (alike : m.Alike m₁) : m₁.detector = m.detector := by
  unfold Alike at alike
  rw [alike]

theorem settleFrom_alike (fuel : Nat) (todo : List NodeId) (m : Monitor State) :
    m.Alike (settleFrom model feed fuel todo m).2 := by
  induction fuel generalizing todo m with
  | zero => rfl
  | succ fuel ih =>
    cases todo with
    | nil => rfl
    | cons id todo =>
      unfold settleFrom
      split
      · exact ih todo m
      · next next _ =>
        generalize m.product.expandNode model m.session id (m.resolve feed next) = grown
        have here : m.Alike { m with product := grown.product, session := grown.session } := rfl
        dsimp only
        split
        · exact here
        · exact here.trans (ih _ _)

theorem absorb_alike (m : Monitor State) (grown : Growth State) :
    m.Alike (absorb model feed m grown).2 := by
  have here : m.Alike { m with product := grown.product, session := grown.session } := rfl
  unfold absorb
  dsimp only
  split
  · exact here
  · exact here.trans (settleFrom_alike _ _ _)

theorem apply_alike (m : Monitor State) (e : Event) : m.Alike (apply model feed m e).2 := by
  cases e with
  | initial fp => exact absorb_alike m _
  | expanded source next =>
    have here : m.Alike { m with known := m.known.insert source next } := rfl
    exact here.trans (absorb_alike _ _)

/-- A scan makes no progress in the feed. -/
theorem scan_keeps (m : Monitor State) :
    m.scan.2.cursor = m.cursor ∧ m.scan.2.scanEvery = m.scanEvery := by
  unfold scan
  split
  · exact ⟨rfl, rfl⟩
  · dsimp only
    split
    · exact ⟨rfl, rfl⟩
    · split <;> exact ⟨rfl, rfl⟩

theorem conclude_cursor (status : FeedStatus) (m : Monitor State) :
    (m.conclude status).2.cursor = m.cursor := by
  have kept := m.scan_keeps.1
  unfold conclude
  split
  · next scanned =>
    rw [scanned] at kept
    exact kept
  · next scanned =>
    rw [scanned] at kept
    exact kept

/-- What a scan finds is a lasso or the lack of one. -/
theorem scan_ne_indeterminate {outcome : Outcome State} (found : m.scan = (some outcome, m₁))
    (reason : Uncertainty) : outcome ≠ .ok (.indeterminate reason) := by
  rintro rfl
  unfold scan at found
  split at found
  · simp at found
  · dsimp only at found
    split at found
    · simp at found
    · split at found <;> simp at found

end Frame

section Consume

variable {events : List Event} {outcome : Outcome State}

theorem consume_append (events later : List Event) (m : Monitor State) :
    consume model feed (events ++ later) m =
      match consume model feed events m with
      | (some outcome, m') => (some outcome, m')
      | (none, m') => consume model feed later m' := by
  induction events generalizing m with
  | nil => rfl
  | cons e rest ih =>
    simp only [List.cons_append, consume]
    split
    · rfl
    · split
      · split
        · rfl
        · exact ih _
      · exact ih _

theorem consume_keeps (events : List Event) (m : Monitor State) :
    (consume model feed events m).2.scanEvery = m.scanEvery ∧
      ((consume model feed events m).1 = none →
        (consume model feed events m).2.cursor = m.cursor + events.length) := by
  induction events generalizing m with
  | nil => exact ⟨rfl, fun _ => rfl⟩
  | cons e rest ih =>
    have alike := @apply_alike _ model feed { m with cursor := m.cursor + 1 } e
    unfold consume
    generalize apply model feed { m with cursor := m.cursor + 1 } e = result at alike
    obtain ⟨_ | failure, m'⟩ := result
    · have onward {m'' : Monitor State} (cursor : m''.cursor = m.cursor + 1)
          (scanEvery : m''.scanEvery = m.scanEvery) :
          (consume model feed rest m'').2.scanEvery = m.scanEvery ∧
            ((consume model feed rest m'').1 = none →
              (consume model feed rest m'').2.cursor = m.cursor + (e :: rest).length) := by
        obtain ⟨scanEvery', cursor'⟩ := ih m''
        refine ⟨scanEvery'.trans scanEvery, fun undecided => ?_⟩
        rw [cursor' undecided, cursor, List.length_cons]
        omega
      dsimp only
      split
      · have scanned := scan_keeps m'
        cases found : m'.scan with
        | mk outcome? m'' =>
          rw [found] at scanned
          have scanEvery := scanned.2.trans alike.scanEvery
          cases outcome? with
          | some outcome => exact ⟨scanEvery, by simp⟩
          | none => exact onward (scanned.1.trans alike.cursor) scanEvery
      · exact onward alike.cursor alike.scanEvery
    · exact ⟨alike.scanEvery, by simp⟩

/-- The event decides how the monitor ends: an answer is refused, or a scan is due and finds
something. -/
def Decides (model : Model State) (feed : Feed State) (m : Monitor State) (event : Event)
    (outcome : Outcome State) (m₁ : Monitor State) : Prop :=
  match apply model feed { m with cursor := m.cursor + 1 } event with
  | (some e, m') => outcome = .ok (.indeterminate (.evaluation e)) ∧ m₁ = m'
  | (none, m') => m'.isScanDue = true ∧ m'.scan = (some outcome, m₁)

theorem decides_of_consume {event : Event}
    (decided : consume model feed [event] m = (some outcome, m₁)) :
    m.Decides model feed event outcome m₁ := by
  unfold consume at decided
  unfold Decides
  generalize apply model feed { m with cursor := m.cursor + 1 } event = applied at decided
  obtain ⟨_ | failure, m'⟩ := applied
  · dsimp only at decided ⊢
    split at decided
    · next due =>
      refine ⟨due, ?_⟩
      split at decided
      · next scanned => exact scanned.trans decided
      · simp [consume] at decided
    · simp [consume] at decided
  · obtain ⟨same, rfl⟩ := Prod.mk.inj decided
    exact ⟨(Option.some.inj same).symm, rfl⟩

theorem consume_eq_some (decided : consume model feed events m = (some outcome, m₁)) :
    ∃ told event later m', events = told ++ event :: later ∧
      consume model feed told m = (none, m') ∧ m'.Decides model feed event outcome m₁ := by
  induction events generalizing m with
  | nil => simp [consume] at decided
  | cons e rest ih =>
    rw [← List.singleton_append, consume_append] at decided
    cases first : consume model feed [e] m with
    | mk outcome? m' =>
      rw [first] at decided
      cases outcome? with
      | some found =>
        obtain ⟨rfl, rfl⟩ : found = outcome ∧ m' = m₁ := by simpa using decided
        exact ⟨[], e, rest, m, rfl, rfl, decides_of_consume first⟩
      | none =>
        obtain ⟨told, event, later, m'', rfl, before, here⟩ := ih decided
        refine ⟨e :: told, event, later, m'', rfl, ?_, here⟩
        rw [← List.singleton_append, consume_append, first]
        exact before

end Consume

section Drive

/-- Reading batch by batch comes to the same as consuming all events that are left. -/
theorem driveFrom_eq_consume {fuel : Nat} {told later : List Event}
    (log : feed.events.toList = told ++ later) (cursor : m.cursor = told.length)
    (enough : later.length < fuel) :
    driveFrom model feed fuel m =
      match consume model feed later m with
      | (some outcome, m') => (outcome, m')
      | (none, m') => m'.conclude feed.status := by
  induction fuel generalizing told later m with
  | zero => omega
  | succ fuel ih =>
    have batch : (feed.read m.cursor m.batch).events = later.take (max m.batch 1) := by
      simp only [Feed.read, Array.toList_extract, log, cursor, List.extract_eq_take_drop,
        List.drop_left, Nat.add_sub_cancel_left]
    unfold driveFrom
    dsimp only
    rw [batch]
    split
    · next empty =>
      have done : later = [] := by simpa using empty
      rw [done]
      rfl
    · next nonempty =>
      have more : 0 < later.length := by
        apply List.length_pos_iff.mpr
        simpa using nonempty
      have parts : consume model feed later m =
          consume model feed (later.take (max m.batch 1) ++ later.drop (max m.batch 1)) m := by
        rw [List.take_append_drop]
      have kept := (@consume_keeps _ model feed (later.take (max m.batch 1)) m).2
      rw [parts, consume_append]
      cases consumed : consume model feed (later.take (max m.batch 1)) m with
      | mk outcome? m' =>
        rw [consumed] at kept
        cases outcome? with
        | some outcome => rfl
        | none =>
          have log' : feed.events.toList =
              told ++ later.take (max m.batch 1) ++ later.drop (max m.batch 1) := by
            rw [log, List.append_assoc, List.take_append_drop]
          apply ih log'
          · rw [kept rfl, cursor, List.length_append]
          · rw [List.length_drop]
            omega

theorem drive_eq_consume (fresh : m.cursor = 0) :
    drive model feed m =
      match consume model feed feed.events.toList m with
      | (some outcome, m') => (outcome, m')
      | (none, m') => m'.conclude feed.status :=
  driveFrom_eq_consume (List.nil_append _).symm fresh (by simp [Feed.length])

/-- The monitor gets as far as the event that follows those told, and this is what comes of applying
the event. -/
def Takes (model : Model State) (feed : Feed State) (m : Monitor State) (told : List Event)
    (event : Event) (result : Option EvalError × Monitor State) : Prop :=
  ∃ later m', feed.events.toList = told ++ event :: later ∧
    consume model feed told m = (none, m') ∧
    apply model feed { m' with cursor := m'.cursor + 1 } event = result

/-- At some event of the feed the model refuses an answer that the monitor asks for. -/
def Stops (model : Model State) (feed : Feed State) (m : Monitor State) (e : EvalError) : Prop :=
  ∃ told event m', m.Takes model feed told event (some e, m')

inductive Builds (model : Model State) (feed : Feed State) (m : Monitor State) :
    Product State → Prop where
  | start : Builds model feed m m.product
  | grown {told : List Event} {event : Event} {result : Option EvalError × Monitor State} :
    m.Takes model feed told event result → Builds model feed m result.2.product

inductive Ends (model : Model State) (feed : Feed State) (m : Monitor State) :
    Outcome State × Monitor State → Prop where
  | refused {told : List Event} {event : Event} {e : EvalError} {m' : Monitor State} :
    m.Takes model feed told event (some e, m') →
      Ends model feed m (.ok (.indeterminate (.evaluation e)), m')
  | found {told : List Event} {event : Event} {m' m'' : Monitor State} {outcome : Outcome State} :
    m.Takes model feed told event (none, m') → m'.isScanDue = true →
      m'.scan = (some outcome, m'') → Ends model feed m (outcome, m'')
  | finished {m' : Monitor State} : consume model feed feed.events.toList m = (none, m') →
      Ends model feed m (m'.conclude feed.status)

theorem ends_drive (fresh : m.cursor = 0) : m.Ends model feed (drive model feed m) := by
  rw [drive_eq_consume fresh]
  cases consumed : consume model feed feed.events.toList m with
  | mk outcome? m₁ =>
    cases outcome? with
    | none => exact .finished consumed
    | some outcome =>
      obtain ⟨told, event, later, m', log, undecided, here⟩ := consume_eq_some consumed
      unfold Decides at here
      cases applied : apply model feed { m' with cursor := m'.cursor + 1 } event with
      | mk failure? m'' =>
        have takes : m.Takes model feed told event (failure?, m'') :=
          ⟨later, m', log, undecided, applied⟩
        rw [applied] at here
        cases failure? with
        | some e =>
          obtain ⟨rfl, rfl⟩ := here
          exact .refused takes
        | none => exact .found takes here.1 here.2

/-- A monitor that is refused an answer reports just that. -/
theorem drive_of_stops {e : EvalError} (fresh : m.cursor = 0) (stops : m.Stops model feed e) :
    (drive model feed m).1 = .ok (.indeterminate (.evaluation e)) := by
  obtain ⟨told, event, m', later, m'', log, undecided, refused⟩ := stops
  rw [drive_eq_consume fresh, log, consume_append, undecided]
  simp only [consume, refused]

section Takes

variable {told : List Event} {event : Event} {result : Option EvalError × Monitor State}

theorem Takes.keeps (takes : m.Takes model feed told event result) :
    result.2.cursor = m.cursor + told.length + 1 ∧ result.2.scanEvery = m.scanEvery := by
  obtain ⟨later, m', log, undecided, applied⟩ := takes
  have kept := @consume_keeps _ model feed told m
  have alike := @apply_alike _ model feed { m' with cursor := m'.cursor + 1 } event
  rw [undecided] at kept
  rw [applied] at alike
  exact ⟨alike.cursor.trans (congrArg (· + 1) (kept.2 rfl)), alike.scanEvery.trans kept.1⟩

/-- Without a schedule no scan is due before the end. -/
theorem Takes.not_due (takes : m.Takes model feed told event result)
    (unscheduled : m.scanEvery = none) : result.2.isScanDue = false := by
  unfold isScanDue
  rw [takes.keeps.2, unscheduled]

end Takes

end Drive

end TemporalCheck.Monitor
