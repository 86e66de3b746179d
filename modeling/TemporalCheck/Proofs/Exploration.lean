import TemporalCheck.Exploration
import TemporalCheck.Proofs.Model

/-! What exploration records in its feed. Every stored state is reachable, every event is true of
the model, and no source is told of twice; and when everything has been explored, nothing is
missing. -/
namespace TemporalCheck

variable {State : Type}

namespace Feed

variable {f : Feed State} {fp : Fingerprint} {k : Keyed State}

theorem contains_iff : f.contains fp = true ↔ ∃ s, f.state? fp = some s := by
  rw [contains, state?, Std.TreeMap.contains_eq_isSome_getElem?, Option.isSome_iff_exists]

theorem state?_insert (absent : f.contains k.fingerprint = false) :
    (f.insert k).state? fp = if fp = k.fingerprint then some k.state else f.state? fp := by
  simp only [insert, absent, Bool.false_eq_true, if_false, state?, Std.TreeMap.getElem?_insert,
    Std.LawfulEqCmp.compare_eq_iff_eq]
  simp only [eq_comm]

end Feed

def sources (log : List Event) : List Fingerprint :=
  log.filterMap fun
    | .initial _ => none
    | .expanded source _ => some source

theorem mem_sources {log : List Event} {source : Fingerprint} :
    source ∈ sources log ↔ ∃ next, .expanded source next ∈ log := by
  simp only [sources, List.mem_filterMap]
  constructor
  · rintro ⟨e, member, same⟩
    cases e with
    | initial fp => simp at same
    | expanded source' next =>
      obtain rfl : source' = source := by simpa using same
      exact ⟨next, member⟩
  · rintro ⟨next, member⟩
    exact ⟨_, member, rfl⟩

/-- A log with distinct sources tells one thing of each. -/
theorem eq_of_nodup_sources {log : List Event} (distinct : (sources log).Nodup)
    {source : Fingerprint} {next next' : List Fingerprint} (told : .expanded source next ∈ log)
    (told' : .expanded source next' ∈ log) : next = next' := by
  induction log with
  | nil => simp at told
  | cons e rest ih =>
    cases e with
    | initial fp => exact ih distinct (by simpa using told) (by simpa using told')
    | expanded first after =>
      obtain ⟨fresh, distinct⟩ := List.nodup_cons.mp distinct
      rcases List.mem_cons.mp told with here | later <;>
        rcases List.mem_cons.mp told' with here' | later'
      · exact (Event.expanded.inj here).2.trans (Event.expanded.inj here').2.symm
      · exact absurd (mem_sources.mpr ⟨next', (Event.expanded.inj here).1 ▸ later'⟩) fresh
      · exact absurd (mem_sources.mpr ⟨next, (Event.expanded.inj here').1 ▸ later⟩) fresh
      · exact ih distinct later later'

theorem mem_of_mem_firstEntries {met : List Fingerprint} {entries : List (Keyed State)}
    {k : Keyed State} (member : k ∈ firstEntries met entries) : k ∈ entries := by
  induction entries generalizing met with
  | nil => simp [firstEntries] at member
  | cons e rest ih =>
    unfold firstEntries at member
    split at member
    · exact List.mem_cons_of_mem _ (ih member)
    · rcases List.mem_cons.mp member with rfl | later
      · exact List.mem_cons_self
      · exact List.mem_cons_of_mem _ (ih later)

/-- Dropping repeated fingerprints loses none that had not been met before. -/
theorem mem_map_firstEntries {met : List Fingerprint} {entries : List (Keyed State)}
    {fp : Fingerprint} : fp ∈ (firstEntries met entries).map (·.fingerprint) ↔
      fp ∉ met ∧ fp ∈ entries.map (·.fingerprint) := by
  induction entries generalizing met with
  | nil => simp [firstEntries]
  | cons e rest ih =>
    unfold firstEntries
    split
    · next old =>
      rw [ih, List.map_cons, List.mem_cons]
      have : e.fingerprint ∈ met := by simpa using old
      refine and_congr_right fun fresh => (or_iff_right ?_).symm
      rintro rfl
      exact fresh this
    · next new =>
      have : e.fingerprint ∉ met := by simpa using new
      rw [List.map_cons, List.mem_cons, ih, List.map_cons, List.mem_cons, List.mem_cons, not_or]
      by_cases same : fp = e.fingerprint
      · simp [same, this]
      · simp [same]

/-- What follows the source, as the model says: its successors, and itself if stuttering is on. -/
def Feed.Tells (f : Feed State) (model : Model State) (stuttering : Bool) (source : Fingerprint)
    (next : List Fingerprint) : Prop :=
  ∃ s successors, f.state? source = some s ∧ model.successors s = .ok successors ∧
    (∀ fp, fp ∈ next ↔ (∃ s' ∈ successors, model.fingerprint s' = fp) ∨
      stuttering = true ∧ fp = source) ∧
    ∀ fp ∈ next, ∃ s', f.state? fp = some s'

structure Feed.Sound (f : Feed State) (model : Model State) (stuttering : Bool) (log : List Event) :
    Prop where
  stored : ∀ fp s, f.state? fp = some s → model.Reachable s ∧ model.fingerprint s = fp
  initial : ∀ fp, .initial fp ∈ log → ∃ s, model.Starts s ∧ model.fingerprint s = fp ∧
    ∃ s', f.state? fp = some s'
  expanded : ∀ source next, .expanded source next ∈ log → f.Tells model stuttering source next
  distinct : (sources log).Nodup

/-- Soundness is about the states and the log only, and more states do it no harm. -/
theorem Feed.Sound.mono {f f' : Feed State} {model : Model State} {stuttering : Bool}
    {log : List Event} (sound : f.Sound model stuttering log)
    (kept : ∀ fp s, f.state? fp = some s → f'.state? fp = some s)
    (stored : ∀ fp s, f'.state? fp = some s → model.Reachable s ∧ model.fingerprint s = fp) :
    f'.Sound model stuttering log where
  stored := stored
  initial := by
    intro fp told
    obtain ⟨s, starts, same, s', found⟩ := sound.initial fp told
    exact ⟨s, starts, same, s', kept fp s' found⟩
  expanded := by
    intro source next told
    obtain ⟨s, successors, found, answered, listed, every⟩ := sound.expanded source next told
    refine ⟨s, successors, kept source s found, answered, listed, fun fp member => ?_⟩
    obtain ⟨s', found'⟩ := every fp member
    exact ⟨s', kept fp s' found'⟩
  distinct := sound.distinct

structure Feed.Complete (f : Feed State) (model : Model State) (log : List Event) : Prop where
  initial : ∃ states, model.initial = .ok states ∧
    ∀ s ∈ states, .initial (model.fingerprint s) ∈ log
  expanded : ∀ fp s, f.state? fp = some s → fp ∈ sources log

namespace Exploration

variable {x x' : Exploration State} {entries : List (Keyed State)} {model : Model State}
  {options : ExplorationOptions}

def log (x : Exploration State) : List Event := x.feed.events.toList ++ x.pending

def tell (x : Exploration State) (e : Event) : Exploration State :=
  { x with pending := x.pending ++ [e] }

theorem log_tell (x : Exploration State) (e : Event) : (x.tell e).log = x.log ++ [e] := by
  simp [log, tell]

/-- What comes of discovering the entries: those with new fingerprints are stored and queued. -/
structure Discovered (entries : List (Keyed State)) (x x' : Exploration State) : Prop where
  rest : x' = { x with feed := { x.feed with states := x'.feed.states }, queue := x'.queue }
  kept : ∀ fp s, x.feed.state? fp = some s → x'.feed.state? fp = some s
  all : ∀ k ∈ entries, ∃ s, x'.feed.state? k.fingerprint = some s
  only : ∀ fp s, x'.feed.state? fp = some s → x.feed.state? fp = some s ∨ ⟨fp, s⟩ ∈ entries
  queue : ∃ added, x'.queue = x.queue ++ added ∧ (added.map (·.fingerprint)).Nodup ∧
    (∀ k ∈ added, x.feed.state? k.fingerprint = none ∧
      x'.feed.state? k.fingerprint = some k.state) ∧
    ∀ fp s, x'.feed.state? fp = some s → x.feed.state? fp = none → fp ∈ added.map (·.fingerprint)

/-- An entry whose fingerprint is known adds nothing. -/
theorem Discovered.skip {k : Keyed State} (known : x.feed.contains k.fingerprint = true)
    (discovered : Discovered entries x x') : Discovered (k :: entries) x x' where
  rest := discovered.rest
  kept := discovered.kept
  all := by
    obtain ⟨s, found⟩ := Feed.contains_iff.mp known
    rintro k' (_ | ⟨_, later⟩)
    · exact ⟨s, discovered.kept _ s found⟩
    · exact discovered.all k' later
  only := fun fp s found => (discovered.only fp s found).imp_right (List.mem_cons_of_mem _)
  queue := discovered.queue

/-- An entry whose fingerprint is new is stored and queued. -/
theorem Discovered.store {k : Keyed State} (absent : x.feed.contains k.fingerprint = false)
    (discovered :
      Discovered entries { x with feed := x.feed.insert k, queue := x.queue ++ [k] } x') :
    Discovered (k :: entries) x x' := by
  have missing : x.feed.state? k.fingerprint = none := by
    by_contra found
    obtain ⟨s, found⟩ := Option.ne_none_iff_exists'.mp found
    simp [Feed.contains_iff.mpr ⟨s, found⟩] at absent
  have stored (fp : Fingerprint) : (x.feed.insert k).state? fp =
      if fp = k.fingerprint then some k.state else x.feed.state? fp :=
    Feed.state?_insert absent
  obtain ⟨unchanged, kept, all, only, added, queue, distinct, new, every⟩ := discovered
  dsimp only at unchanged kept all only queue distinct new every
  have here : x'.feed.state? k.fingerprint = some k.state := kept _ _ (by simp [stored])
  refine ⟨?_, fun fp s found => kept fp s ?_, ?_, fun fp s found => ?_, k :: added, ?_, ?_, ?_, ?_⟩
  · rw [unchanged]
    simp [Feed.insert, absent]
  · rw [stored, if_neg (by rintro rfl; simp [missing] at found), found]
  · rintro k' (_ | ⟨_, later⟩)
    · exact ⟨k.state, here⟩
    · exact all k' later
  · rcases only fp s found with old | entry
    · rw [stored] at old
      split at old
      · next same =>
        obtain rfl := Option.some.inj old
        exact .inr (same ▸ List.mem_cons_self)
      · exact .inl old
    · exact .inr (List.mem_cons_of_mem _ entry)
  · rw [queue, List.append_assoc, List.singleton_append]
  · refine List.nodup_cons.mpr ⟨fun member => ?_, distinct⟩
    obtain ⟨k', member, same⟩ := List.mem_map.mp member
    have := (new k' member).1
    simp [stored, same] at this
  · rintro k' (_ | ⟨_, later⟩)
    · exact ⟨missing, here⟩
    · obtain ⟨fresh, now⟩ := new k' later
      rw [stored] at fresh
      split at fresh
      · contradiction
      · exact ⟨fresh, now⟩
  · intro fp s found fresh
    by_cases same : fp = k.fingerprint
    · simp [same]
    · exact List.mem_cons_of_mem _ (every fp s found (by rw [stored, if_neg same, fresh]))

theorem discover_spec (entries : List (Keyed State)) (x : Exploration State) :
    Discovered entries x (discover entries x) := by
  induction entries generalizing x with
  | nil =>
    refine ⟨rfl, fun _ _ found => found, by simp, fun _ _ found => .inl found, [], ?_⟩
    simp only [discover, List.append_nil, List.map_nil, List.nodup_nil, List.not_mem_nil,
      true_and, false_implies, implies_true]
    intro fp s found missing
    simp [missing] at found
  | cons k rest ih =>
    unfold discover
    split
    · next known => exact (ih _).skip known
    · next unknown => exact (ih _).store (by simpa using unknown)

/-- An exploration under way has told of every stored state, or still has it in its queue. -/
structure Explored (model : Model State) (options : ExplorationOptions) (x : Exploration State) :
    Prop where
  running : x.feed.status = .running
  sound : x.feed.Sound model options.stuttering x.log
  initial : ∃ states, model.initial = .ok states ∧
    ∀ s ∈ states, .initial (model.fingerprint s) ∈ x.log
  queued : ∀ k ∈ x.queue, x.feed.state? k.fingerprint = some k.state
  distinct : (sources x.log ++ x.queue.map (·.fingerprint)).Nodup
  covered : ∀ fp s, x.feed.state? fp = some s →
    fp ∈ sources x.log ∨ fp ∈ x.queue.map (·.fingerprint)

structure Ended (model : Model State) (options : ExplorationOptions) (status : FeedStatus)
    (x : Exploration State) : Prop where
  running : x.feed.status = .running
  sound : x.feed.Sound model options.stuttering x.feed.events.toList
  complete : status = .exhausted → x.feed.Complete model x.feed.events.toList

section Flush

variable (running : x.feed.status = .running)
include running

theorem events_flush : x.flush.feed.events.toList = x.log := by
  simp [flush, Feed.publish, running, FeedStatus.isFinished, log]

theorem log_flush : x.flush.log = x.log := by
  rw [log, events_flush running]
  exact List.append_nil _

theorem feed_flush : x.flush.feed.status = .running ∧ x.flush.feed.states = x.feed.states := by
  simp [flush, Feed.publish, running, FeedStatus.isFinished]

theorem state?_flush (fp : Fingerprint) : x.flush.feed.state? fp = x.feed.state? fp := by
  simp only [Feed.state?, (feed_flush running).2]

end Flush

theorem Explored.flush (explored : Explored model options x) : Explored model options x.flush where
  running := (feed_flush explored.running).1
  sound := by
    rw [log_flush explored.running]
    refine explored.sound.mono (fun fp s found => ?_) fun fp s found => ?_
    · rwa [state?_flush explored.running]
    · rw [state?_flush explored.running] at found
      exact explored.sound.stored fp s found
  initial := by
    rw [log_flush explored.running]
    exact explored.initial
  queued := by
    intro k member
    rw [state?_flush explored.running]
    exact explored.queued k member
  distinct := by
    rw [log_flush explored.running]
    exact explored.distinct
  covered := by
    intro fp s found
    rw [state?_flush explored.running] at found
    rw [log_flush explored.running]
    exact explored.covered fp s found

theorem Explored.flush_if (explored : Explored model options x) (full : Prop) [Decidable full] :
    Explored model options (if full then x.flush else x) ∧
      (if full then x.flush else x).log = x.log := by
  split
  · exact ⟨explored.flush, log_flush explored.running⟩
  · exact ⟨explored, rfl⟩

/-- Whatever has been recorded may be the end, but not for the status that claims everything. -/
theorem ended_flush {status : FeedStatus} (running : x.feed.status = .running)
    (sound : x.feed.Sound model options.stuttering x.log) (unfinished : status ≠ .exhausted) :
    Ended model options status x.flush where
  running := (feed_flush running).1
  sound := by
    rw [events_flush running]
    refine sound.mono (fun fp s found => ?_) fun fp s found => ?_
    · rwa [state?_flush running]
    · rw [state?_flush running] at found
      exact sound.stored fp s found
  complete := fun exhausted => absurd exhausted unfinished

theorem Explored.exhausted (explored : Explored model options x) (empty : x.queue = [])
    (status : FeedStatus) : Ended model options status x.flush where
  running := (feed_flush explored.running).1
  sound := by
    rw [events_flush explored.running, ← log_flush explored.running]
    exact explored.flush.sound
  complete := by
    intro _
    rw [events_flush explored.running]
    refine ⟨explored.initial, fun fp s found => ?_⟩
    rw [state?_flush explored.running] at found
    exact (explored.covered fp s found).resolve_right (by simp [empty])

section Advance

variable {source : Keyed State} {successors : List State} {fp : Fingerprint}

theorem mem_entriesFrom : fp ∈ (entriesFrom model options source successors).map (·.fingerprint) ↔
    (∃ s ∈ successors, model.fingerprint s = fp) ∨
      options.stuttering = true ∧ fp = source.fingerprint := by
  rw [entriesFrom, mem_map_firstEntries]
  cases options.stuttering <;> simp [Model.keyed, eq_comm]

theorem of_mem_entriesFrom {k : Keyed State}
    (member : k ∈ entriesFrom model options source successors) :
    (∃ s ∈ successors, model.keyed s = k) ∨ k = source := by
  rcases List.mem_append.mp (mem_of_mem_firstEntries member) with successor | itself
  · exact .inl (List.mem_map.mp successor)
  · split at itself
    · exact .inr (List.mem_singleton.mp itself)
    · simp at itself

/-- Whatever has been told of or is still to be told of is stored. -/
theorem Explored.known (explored : Explored model options x)
    (member : fp ∈ sources x.log ++ x.queue.map (·.fingerprint)) :
    ∃ s, x.feed.state? fp = some s := by
  rcases List.mem_append.mp member with told | waiting
  · obtain ⟨next, told⟩ := mem_sources.mp told
    obtain ⟨s, _, found, _⟩ := explored.sound.expanded fp next told
    exact ⟨s, found⟩
  · obtain ⟨k, queued, rfl⟩ := List.mem_map.mp waiting
    exact ⟨k.state, explored.queued k queued⟩

/-- What is discovered from a stored state can be reached. -/
theorem Explored.reachable (explored : Explored model options x)
    (atSource : x.feed.state? source.fingerprint = some source.state)
    (answered : model.successors source.state = .ok successors)
    (only : ∀ fp s, x'.feed.state? fp = some s → x.feed.state? fp = some s ∨
      ⟨fp, s⟩ ∈ entriesFrom model options source successors) {s : State}
    (found : x'.feed.state? fp = some s) : model.Reachable s ∧ model.fingerprint s = fp := by
  obtain ⟨reachable, same⟩ := explored.sound.stored _ _ atSource
  rcases only fp s found with old | entry
  · exact explored.sound.stored fp s old
  · rcases of_mem_entriesFrom entry with ⟨s', member, same'⟩ | same'
    · obtain ⟨rfl, rfl⟩ := Keyed.mk.inj same'
      exact ⟨reachable.step ⟨successors, answered, member⟩, rfl⟩
    · subst same'
      exact ⟨reachable, same⟩

/-- Telling what follows the first state of the queue keeps up the exploration. -/
theorem Explored.tell (explored : Explored model options x) {queue : List (Keyed State)}
    (first : x.queue = source :: queue) (answered : model.successors source.state = .ok successors)
    (discovered : Discovered (entriesFrom model options source successors)
      { x with queue := queue } x') :
    Explored model options (x'.tell (.expanded source.fingerprint
      ((entriesFrom model options source successors).map (·.fingerprint)))) := by
  have atSource := explored.queued source (by simp [first])
  have stored : ∀ fp s, x'.feed.state? fp = some s →
      model.Reachable s ∧ model.fingerprint s = fp :=
    fun fp s found => explored.reachable atSource answered discovered.only found
  have listed {fp : Fingerprint} := @mem_entriesFrom _ model options source successors fp
  generalize entriesFrom model options source successors = entries at discovered listed
  obtain ⟨rest, kept, all, only, added, queued, fresh, new, every⟩ := discovered
  dsimp only at kept only queued new every
  have log : x'.log = x.log := by
    rw [rest]
    rfl
  have told : sources (x.log ++ [.expanded source.fingerprint (entries.map (·.fingerprint))]) =
      sources x.log ++ [source.fingerprint] := by
    simp [sources]
  have outstanding : sources x.log ++ x.queue.map (·.fingerprint) =
      sources x.log ++ [source.fingerprint] ++ queue.map (·.fingerprint) := by
    simp [first]
  have distinct := explored.distinct
  rw [outstanding] at distinct
  have sound := explored.sound.mono kept stored
  constructor
  case running =>
    change x'.feed.status = _
    rw [rest]
    exact explored.running
  case sound =>
    rw [log_tell, log]
    refine ⟨stored, fun fp member => ?_, fun fp next member => ?_, ?_⟩
    · exact sound.initial fp (by simpa using member)
    · rcases List.mem_append.mp member with old | this
      · exact sound.expanded fp next old
      · obtain ⟨rfl, rfl⟩ := Event.expanded.inj (List.mem_singleton.mp this)
        refine ⟨source.state, successors, kept _ _ atSource, answered, fun fp => listed, ?_⟩
        intro fp member
        obtain ⟨k, entry, rfl⟩ := List.mem_map.mp member
        exact all k entry
    · rw [told]
      exact (List.nodup_append.mp distinct).1
  case initial =>
    rw [log_tell, log]
    obtain ⟨states, answered, every⟩ := explored.initial
    exact ⟨states, answered, fun s member => List.mem_append_left _ (every s member)⟩
  case queued =>
    intro k member
    change k ∈ x'.queue at member
    rw [queued] at member
    rcases List.mem_append.mp member with old | now
    · exact kept _ _ (explored.queued k (by simp [first, old]))
    · exact (new k now).2
  case distinct =>
    rw [log_tell, log, told]
    change (_ ++ x'.queue.map _).Nodup
    rw [queued, List.map_append, ← List.append_assoc, List.nodup_append]
    refine ⟨distinct, fresh, ?_⟩
    rintro fp old _ now rfl
    obtain ⟨k, member, rfl⟩ := List.mem_map.mp now
    obtain ⟨s, found⟩ := explored.known (outstanding ▸ old)
    simp [(new k member).1] at found
  case covered =>
    intro fp s found
    rw [log_tell, log, told]
    change _ ∨ fp ∈ x'.queue.map _
    rw [queued, List.map_append, List.mem_append, List.mem_append, List.mem_singleton]
    cases before : x.feed.state? fp with
    | none => exact .inr (.inr (every fp s found before))
    | some s' =>
      have := explored.covered fp s' before
      rw [first, List.map_cons, List.mem_cons] at this
      tauto

theorem length_sources_tell (log : List Event) (source : Fingerprint) (next : List Fingerprint) :
    (sources (log ++ [.expanded source next])).length = (sources log).length + 1 := by
  simp [sources]

theorem advance_spec (explored : Explored model options x) :
    match x.advance model options with
    | .ended status x' => Ended model options status x'
    | .ongoing x' => Explored model options x' ∧
        (sources x'.log).length = (sources x.log).length + 1 := by
  unfold advance
  cases first : x.queue with
  | nil => exact explored.exhausted first _
  | cons source queue =>
    by_cases unread : x.feed.readers = 0
    · simp only [unread, if_true]
      exact ended_flush explored.running explored.sound (by simp)
    · simp only [unread, if_false, Session.successors]
      cases answered : model.successors source.state with
      | error e => exact ended_flush explored.running explored.sound (by simp)
      | ok successors =>
        dsimp only
        generalize { x.session with calls.successors := x.session.calls.successors + 1 } = session
        cases exceeded? options x.feed (entriesFrom model options source successors) with
        | some limit => exact ended_flush explored.running explored.sound (by simp)
        | none =>
          have asked : Explored model options { x with session := session } :=
            ⟨explored.running, explored.sound, explored.initial, explored.queued,
              explored.distinct, explored.covered⟩
          have discovered := discover_spec (entriesFrom model options source successors)
            { x with session := session, queue := queue }
          have told := asked.tell first answered discovered
          dsimp only
          generalize discover _ _ = x' at discovered told
          have log : x'.log = x.log := by
            rw [discovered.rest]
            rfl
          obtain ⟨kept, same⟩ := told.flush_if (max options.batch 1 ≤ (x'.tell _).pending.length)
          refine ⟨kept, (congrArg (fun log => (sources log).length) same).trans ?_⟩
          rw [log_tell, length_sources_tell, log]

end Advance

/-- There are no more distinct fingerprints than this. -/
theorem length_le_stepBound {fps : List Fingerprint} (distinct : fps.Nodup) :
    fps.length ≤ stepBound := by
  have numbers : (fps.map (·.toNat)).Nodup :=
    distinct.map_on fun a _ b _ same => UInt64.toNat_inj.mp same
  have bounded : fps.map (·.toNat) ⊆ List.range stepBound := by
    intro n member
    obtain ⟨fp, _, rfl⟩ := List.mem_map.mp member
    exact List.mem_range.mpr fp.toNat_lt
  simpa using (List.subperm_of_subset numbers bounded).length_le

theorem exploreFrom_spec {fuel : Nat} (explored : Explored model options x)
    (enough : stepBound ≤ (sources x.log).length + fuel) :
    Ended model options (exploreFrom model options fuel x).1
      (exploreFrom model options fuel x).2 := by
  induction fuel generalizing x with
  | zero =>
    have bound := length_le_stepBound explored.distinct
    rw [List.length_append, List.length_map] at bound
    exact explored.exhausted (List.eq_nil_of_length_eq_zero (by omega)) _
  | succ fuel ih =>
    have step := advance_spec explored
    unfold exploreFrom
    generalize x.advance model options = progress at step
    cases progress with
    | ended status x' => exact step
    | ongoing x' => exact ih step.1 (by rw [step.2]; omega)

section Explore

variable {feed : Feed State} (stateless : feed.states = ∅) (eventless : feed.events = #[])
  (running : feed.status = .running)
include stateless eventless running

/-- The exploration is under way when the initial states have been discovered. -/
theorem explored_start {session : Session} {states : List State}
    (answered : model.initial = .ok states)
    (discovered : Discovered (states.map model.keyed) { feed := feed, session := session } x) :
    Explored model options
      { x with pending := x.queue.map fun k => .initial k.fingerprint } := by
  have missing (fp : Fingerprint) : feed.state? fp = none := by
    simp [Feed.state?, stateless]
  obtain ⟨rest, _, all, only, added, queued, fresh, new, every⟩ := discovered
  dsimp only at only queued new every
  rw [List.nil_append] at queued
  obtain ⟨y, told⟩ : ∃ y : Exploration State,
      { x with pending := x.queue.map fun k => .initial k.fingerprint } = y := ⟨_, rfl⟩
  rw [told]
  have queue_eq : y.queue = x.queue := by rw [← told]
  have state_eq (fp : Fingerprint) : y.feed.state? fp = x.feed.state? fp := by rw [← told]
  have log : y.log = x.queue.map fun k => .initial k.fingerprint := by
    rw [← told]
    change x.feed.events.toList ++ _ = _
    rw [rest]
    simp [eventless]
  have mem_log {e : Event} : e ∈ y.log ↔ ∃ k ∈ x.queue, .initial k.fingerprint = e := by
    rw [log, List.mem_map]
  have untold : sources y.log = [] := by
    rw [log]
    simp [sources]
  have stored : ∀ fp s, y.feed.state? fp = some s →
      model.Starts s ∧ model.fingerprint s = fp := by
    intro fp s found
    rw [state_eq] at found
    have entry := (only fp s found).resolve_left (by simp [missing])
    obtain ⟨s', member, same⟩ := List.mem_map.mp entry
    obtain ⟨rfl, rfl⟩ := Keyed.mk.inj same
    exact ⟨⟨states, answered, member⟩, rfl⟩
  have filed {k : Keyed State} (member : k ∈ x.queue) :
      y.feed.state? k.fingerprint = some k.state := by
    rw [state_eq]
    exact (new k (queued ▸ member)).2
  constructor
  case running =>
    rw [← told, rest]
    exact running
  case sound =>
    refine ⟨fun fp s found => ?_, fun fp told => ?_, fun source next told => ?_, ?_⟩
    · exact ⟨.start (stored fp s found).1, (stored fp s found).2⟩
    · obtain ⟨k, member, same⟩ := mem_log.mp told
      obtain rfl := Event.initial.inj same
      have found := filed member
      exact ⟨k.state, (stored _ _ found).1, (stored _ _ found).2, k.state, found⟩
    · obtain ⟨k, _, same⟩ := mem_log.mp told
      contradiction
    · simp [untold]
  case initial =>
    refine ⟨states, answered, fun s member => ?_⟩
    obtain ⟨s', found⟩ := all (model.keyed s) (List.mem_map_of_mem member)
    obtain ⟨k, member, same⟩ := List.mem_map.mp (every _ s' found (missing _))
    exact mem_log.mpr ⟨k, queued ▸ member, congrArg _ same⟩
  case queued => exact fun k member => filed (queue_eq ▸ member)
  case distinct =>
    rw [untold, queue_eq]
    exact queued ▸ fresh
  case covered =>
    intro fp s found
    rw [state_eq] at found
    rw [queue_eq]
    exact .inr (queued ▸ every fp s found (missing fp))

/-- Where exploration ends that begins with an empty feed. -/
theorem explore_spec (session : Session) :
    Ended model options (explore model options feed session).1
      (explore model options feed session).2 := by
  have nothing {status : FeedStatus} (unfinished : status ≠ .exhausted) (session : Session) :
      Ended model options status { feed := feed, session := session } := by
    refine ⟨running, ⟨?_, ?_, ?_, ?_⟩, fun exhausted => absurd exhausted unfinished⟩ <;>
      simp [Feed.state?, stateless, eventless, sources]
  unfold explore Session.initial
  dsimp only
  cases answered : model.initial with
  | error e => exact nothing (by simp) _
  | ok states =>
    dsimp only
    cases exceeded? options feed (states.map model.keyed) with
    | some limit => exact nothing (by simp) _
    | none =>
      generalize { session with calls.initial := session.calls.initial + 1 } = session
      have discovered :=
        discover_spec (states.map model.keyed) { feed := feed, session := session }
      have explored :=
        @explored_start _ _ model options feed stateless eventless running _ _ answered discovered
      exact exploreFrom_spec explored.flush (by omega)

end Explore

end Exploration

namespace Feed

variable {f : Feed State} {model : Model State} {options : ExplorationOptions} {log : List Event}

/-- What exploration leaves in a feed that was empty. -/
theorem exploreModel_spec (stateless : f.states = ∅) (eventless : f.events = #[])
    (running : f.status = .running) (session : Session) :
    let result := f.exploreModel model options session
    result.2.1.status = result.1 ∧
      result.2.1.Sound model options.stuttering result.2.1.events.toList ∧
      (result.1 = .exhausted → result.2.1.Complete model result.2.1.events.toList) := by
  have ended : Exploration.Ended model options (Exploration.explore model options f session).1
      (Exploration.explore model options f session).2 :=
    Exploration.explore_spec stateless eventless running session
  unfold exploreModel
  dsimp only
  generalize Exploration.explore model options f session = result at ended
  obtain ⟨status, x⟩ := result
  have running' : x.feed.status = .running := ended.running
  have finished : x.feed.finish status = { x.feed with status := status } := by
    simp [finish, running', FeedStatus.isFinished]
  rw [finished]
  refine ⟨rfl, ?_, fun exhausted => ?_⟩
  · exact ended.sound.mono (fun _ _ found => found) ended.sound.stored
  · obtain ⟨initial, expanded⟩ := ended.complete exhausted
    exact ⟨initial, expanded⟩

/-- If nothing is missing and fingerprints are distinct, every reachable state is stored. -/
theorem Complete.stored {stuttering : Bool} (complete : f.Complete model log)
    (sound : f.Sound model stuttering log) (separates : model.Separates) {s : State}
    (reachable : model.Reachable s) : f.state? (model.fingerprint s) = some s := by
  have named {s s' : State} (reachable : model.Reachable s)
      (found : f.state? (model.fingerprint s) = some s') :
      f.state? (model.fingerprint s) = some s := by
    obtain ⟨reachable', same⟩ := sound.stored _ s' found
    rw [found, separates s' s reachable' reachable same]
  induction reachable with
  | @start s starts =>
    obtain ⟨states, answered, member⟩ := starts
    obtain ⟨states', answered', every⟩ := complete.initial
    obtain rfl := Except.ok.inj (answered.symm.trans answered')
    obtain ⟨_, _, _, s', found⟩ := sound.initial _ (every s member)
    exact named (.start ⟨states, answered, member⟩) found
  | @step s s' reachable follows ih =>
    obtain ⟨successors, answered, member⟩ := follows
    obtain ⟨next, told⟩ := mem_sources.mp (complete.expanded _ s ih)
    obtain ⟨s₁, successors', found, answered', listed, every⟩ := sound.expanded _ next told
    obtain rfl := Option.some.inj (ih.symm.trans found)
    obtain rfl := Except.ok.inj (answered.symm.trans answered')
    obtain ⟨s₂, found'⟩ := every _ ((listed (model.fingerprint s')).mpr (.inl ⟨s', member, rfl⟩))
    exact named (reachable.step ⟨successors, answered, member⟩) found'

/-- Then every start and every step of the model is told. -/
theorem Complete.starts (complete : f.Complete model log) {s : State} (starts : model.Starts s) :
    .initial (model.fingerprint s) ∈ log := by
  obtain ⟨states, answered, member⟩ := starts
  obtain ⟨states', answered', every⟩ := complete.initial
  obtain rfl := Except.ok.inj (answered.symm.trans answered')
  exact every s member

theorem Complete.steps {stuttering : Bool} (complete : f.Complete model log)
    (sound : f.Sound model stuttering log) (separates : model.Separates) {s s' : State}
    (reachable : model.Reachable s) (steps : model.Steps stuttering s s') :
    ∃ next, .expanded (model.fingerprint s) next ∈ log ∧ model.fingerprint s' ∈ next := by
  have here := complete.stored sound separates reachable
  obtain ⟨next, told⟩ := mem_sources.mp (complete.expanded _ s here)
  obtain ⟨s₁, successors, found, answered, listed, _⟩ := sound.expanded _ next told
  obtain rfl := Option.some.inj (here.symm.trans found)
  refine ⟨next, told, (listed _).mpr ?_⟩
  rcases steps with ⟨successors', answered', member⟩ | ⟨on, rfl⟩
  · obtain rfl := Except.ok.inj (answered.symm.trans answered')
    exact .inl ⟨s', member, rfl⟩
  · exact .inr ⟨on, rfl⟩

/-- What a sound feed tells to follow a state does follow it. -/
theorem Sound.steps {stuttering : Bool} (sound : f.Sound model stuttering log)
    (separates : model.Separates) {fp fp' : Fingerprint} {next : List Fingerprint} {s s' : State}
    (told : .expanded fp next ∈ log) (listed : fp' ∈ next) (here : f.state? fp = some s)
    (there : f.state? fp' = some s') : model.Steps stuttering s s' := by
  obtain ⟨s₁, successors, found, answered, members, _⟩ := sound.expanded fp next told
  obtain rfl := Option.some.inj (here.symm.trans found)
  obtain ⟨reachable, named⟩ := sound.stored fp s here
  obtain ⟨reachable', named'⟩ := sound.stored fp' s' there
  rcases (members fp').mp listed with ⟨s₂, member, same⟩ | ⟨on, same⟩
  · have follows : model.Follows s s₂ := ⟨successors, answered, member⟩
    obtain rfl := separates s₂ s' (reachable.step follows) reachable' (same.trans named'.symm)
    exact .inl follows
  · subst same
    exact .inr ⟨on, Option.some.inj (there.symm.trans here)⟩

theorem Sound.starts {stuttering : Bool} (sound : f.Sound model stuttering log)
    (separates : model.Separates) {fp : Fingerprint} {s : State} (told : .initial fp ∈ log)
    (here : f.state? fp = some s) : model.Starts s := by
  obtain ⟨s', starts, same, _⟩ := sound.initial fp told
  obtain ⟨reachable, named⟩ := sound.stored fp s here
  exact separates s' s (.start starts) reachable (same.trans named.symm) ▸ starts

end Feed
end TemporalCheck
