import TemporalCheck.Proofs.Exploration

/-! What may be done to a feed. Whatever it is, a stored state stays and the log only grows, and
once the feed is finished neither its log nor its status changes any more. Where states are stored
before they are published, whatever the log mentions is stored. -/
namespace TemporalCheck

def Event.fingerprints : Event → List Fingerprint
  | .initial fp => [fp]
  | .expanded source next => source :: next

namespace Feed

variable {State : Type} {f g h : Feed State}

inductive Operation (State : Type) where
  | insert (k : Keyed State)
  | publish (events : List Event)
  | finish (status : FeedStatus)

def perform (f : Feed State) : Operation State → Feed State
  | .insert k => f.insert k
  | .publish events => f.publish events
  | .finish status => f.finish status

def performAll (f : Feed State) (operations : List (Operation State)) : Feed State :=
  operations.foldl perform f

/-- A feed at two moments, the second not before the first. -/
structure Before (f g : Feed State) : Prop where
  states : ∀ fp s, f.state? fp = some s → g.state? fp = some s
  events : f.events.toList <+: g.events.toList

theorem Before.refl (f : Feed State) : f.Before f := ⟨fun _ _ found => found, List.prefix_rfl⟩

theorem Before.trans (first : f.Before g) (second : g.Before h) : f.Before h :=
  ⟨fun fp s found => second.states fp s (first.states fp s found),
    first.events.trans second.events⟩

@[simp] theorem performAll_nil (f : Feed State) : f.performAll [] = f := rfl

@[simp] theorem performAll_cons (f : Feed State) (o : Operation State)
    (rest : List (Operation State)) : f.performAll (o :: rest) = (f.perform o).performAll rest :=
  rfl

theorem performAll_append (f : Feed State) (operations later : List (Operation State)) :
    f.performAll (operations ++ later) = (f.performAll operations).performAll later :=
  List.foldl_append

section Insert

theorem state?_eq_none {fp : Fingerprint} (absent : f.contains fp = false) :
    f.state? fp = none := by
  rw [contains, Std.TreeMap.contains_eq_isSome_getElem?] at absent
  exact Option.isNone_iff_eq_none.mp (Option.isSome_eq_false_iff.mp absent)

theorem insert_of_contains {k : Keyed State} (known : f.contains k.fingerprint = true) :
    f.insert k = f := by
  simp [insert, known]

/-- Inserting is no business of the log. -/
theorem insert_keeps (f : Feed State) (k : Keyed State) :
    (f.insert k).events = f.events ∧ (f.insert k).status = f.status ∧
      (f.insert k).readers = f.readers := by
  unfold insert
  split <;> exact ⟨rfl, rfl, rfl⟩

theorem before_insert (f : Feed State) (k : Keyed State) : f.Before (f.insert k) := by
  refine ⟨fun fp s found => ?_, (insert_keeps f k).1 ▸ List.prefix_rfl⟩
  cases known : f.contains k.fingerprint with
  | true => rwa [insert_of_contains known]
  | false =>
    have other : fp ≠ k.fingerprint := by
      rintro rfl
      simp [state?_eq_none known] at found
    rw [state?_insert known, if_neg other, found]

end Insert

section Finish

/-- Finishing is no business of states and events. -/
theorem finish_keeps (f : Feed State) (status : FeedStatus) :
    (f.finish status).states = f.states ∧ (f.finish status).events = f.events ∧
      (f.finish status).readers = f.readers := by
  unfold finish
  split <;> exact ⟨rfl, rfl, rfl⟩

theorem before_of_finish (f : Feed State) (status : FeedStatus) : (f.finish status).Before f := by
  obtain ⟨states, events, _⟩ := finish_keeps f status
  refine ⟨fun fp s found => ?_, events ▸ List.prefix_rfl⟩
  rwa [state?, states] at found

end Finish

theorem before_publish (f : Feed State) (events : List Event) : f.Before (f.publish events) := by
  unfold publish
  split
  · exact .refl f
  · refine ⟨fun fp s found => found, ?_⟩
    rw [Array.toList_append, List.toList_toArray]
    exact List.prefix_append _ _

theorem before_perform (f : Feed State) (o : Operation State) : f.Before (f.perform o) := by
  cases o with
  | insert k => exact before_insert f k
  | publish events => exact before_publish f events
  | finish status =>
    obtain ⟨states, events, _⟩ := finish_keeps f status
    refine ⟨fun fp s found => ?_, ?_⟩
    · rwa [perform, state?, states]
    · rw [perform, events]

theorem before_performAll (f : Feed State) (operations : List (Operation State)) :
    f.Before (f.performAll operations) := by
  induction operations generalizing f with
  | nil => exact .refl f
  | cons o rest ih => exact (before_perform f o).trans (ih _)

/-- A finished feed takes states only. -/
theorem perform_finished (finished : f.status.isFinished = true) (o : Operation State) :
    (f.perform o).events = f.events ∧ (f.perform o).status = f.status := by
  cases o with
  | insert k => exact ⟨(insert_keeps f k).1, (insert_keeps f k).2.1⟩
  | publish events => simp [perform, publish, finished]
  | finish status => simp [perform, finish, finished]

/-- No operation has to do with the number of readers. -/
theorem perform_readers (f : Feed State) (n : Nat) (o : Operation State) :
    ({ f with readers := n } : Feed State).perform o = { f.perform o with readers := n } := by
  cases o with
  | insert k =>
    cases known : f.states.contains k.fingerprint <;> simp [perform, insert, contains, known]
  | publish events => cases finished : f.status.isFinished <;> simp [perform, publish, finished]
  | finish status => cases finished : f.status.isFinished <;> simp [perform, finish, finished]

section Grounded

def domain (f : Feed State) : Set Fingerprint := {fp | ∃ s, f.state? fp = some s}

def offered (operations : List (Operation State)) : Set Fingerprint :=
  {fp | ∃ k, .insert k ∈ operations ∧ k.fingerprint = fp}

/-- Whatever the log mentions is stored. -/
def Grounded (f : Feed State) : Prop :=
  ∀ e ∈ f.events.toList, ∀ fp ∈ e.fingerprints, fp ∈ f.domain

def StoresFirst (known : Set Fingerprint) : List (Operation State) → Prop
  | [] => True
  | .insert k :: rest => StoresFirst (known ∪ {k.fingerprint}) rest
  | .publish events :: rest =>
    (∀ e ∈ events, ∀ fp ∈ e.fingerprints, fp ∈ known) ∧ StoresFirst known rest
  | .finish _ :: rest => StoresFirst known rest

variable {known : Set Fingerprint} {operations later : List (Operation State)}

theorem offered_cons (o : Operation State) (rest : List (Operation State)) :
    offered (o :: rest) = offered [o] ∪ offered rest := by
  ext fp
  simp only [offered, List.mem_cons, List.not_mem_nil, or_false, Set.mem_ofPred_eq, Set.mem_union,
    or_and_right, exists_or]

theorem offered_insert (k : Keyed State) : offered [.insert k] = {k.fingerprint} := by
  ext fp
  simp [offered, eq_comm]

theorem offered_inserts (entries : List (Keyed State)) :
    offered (entries.map .insert) = {fp | fp ∈ entries.map (·.fingerprint)} := by
  ext fp
  simp [offered]

theorem domain_insert (f : Feed State) (k : Keyed State) :
    (f.insert k).domain = f.domain ∪ {k.fingerprint} := by
  ext fp
  cases present : f.contains k.fingerprint with
  | true =>
    rw [insert_of_contains present]
    simp only [Set.mem_union, Set.mem_singleton_iff, iff_self_or]
    rintro rfl
    exact contains_iff.mp present
  | false =>
    simp only [domain, state?_insert present, Set.mem_ofPred_eq, Set.mem_union,
      Set.mem_singleton_iff]
    by_cases same : fp = k.fingerprint <;> simp [same]

theorem domain_publish (f : Feed State) (events : List Event) :
    (f.publish events).domain = f.domain := by
  unfold publish
  split <;> rfl

theorem domain_finish (f : Feed State) (status : FeedStatus) :
    (f.finish status).domain = f.domain := by
  unfold finish
  split <;> rfl

theorem domain_performAll (f : Feed State) (operations : List (Operation State)) :
    (f.performAll operations).domain = f.domain ∪ offered operations := by
  induction operations generalizing f with
  | nil => simp [offered]
  | cons o rest ih =>
    rw [performAll_cons, ih, offered_cons, ← Set.union_assoc]
    congr 1
    cases o with
    | insert k => rw [perform, domain_insert, offered_insert]
    | publish events => simp [perform, domain_publish, offered]
    | finish status => simp [perform, domain_finish, offered]

theorem storesFirst_append : StoresFirst known (operations ++ later) ↔
    StoresFirst known operations ∧ StoresFirst (known ∪ offered operations) later := by
  induction operations generalizing known with
  | nil => simp [offered, StoresFirst]
  | cons o rest ih =>
    rw [List.cons_append, offered_cons, ← Set.union_assoc]
    cases o with
    | insert k => simp only [StoresFirst, ih, offered_insert]
    | publish events => simp [StoresFirst, ih, offered, and_assoc]
    | finish status => simp [StoresFirst, ih, offered]

theorem storesFirst_inserts (entries : List (Keyed State)) :
    StoresFirst known (entries.map .insert) := by
  induction entries generalizing known with
  | nil => trivial
  | cons k rest ih => exact ih

theorem Grounded.perform_insert (grounded : f.Grounded) (k : Keyed State) :
    (f.insert k).Grounded := by
  intro e told fp mentioned
  rw [(insert_keeps f k).1] at told
  rw [domain_insert]
  exact .inl (grounded e told fp mentioned)

theorem Grounded.perform_publish (grounded : f.Grounded) {events : List Event}
    (stored : ∀ e ∈ events, ∀ fp ∈ e.fingerprints, fp ∈ f.domain) :
    (f.publish events).Grounded := by
  intro e told fp mentioned
  rw [domain_publish]
  unfold publish at told
  split at told
  · exact grounded e told fp mentioned
  · rw [Array.toList_append, List.toList_toArray, List.mem_append] at told
    rcases told with old | new
    · exact grounded e old fp mentioned
    · exact stored e new fp mentioned

theorem Grounded.perform_finish (grounded : f.Grounded) (status : FeedStatus) :
    (f.finish status).Grounded := by
  intro e told fp mentioned
  rw [(finish_keeps f status).2.1] at told
  rw [domain_finish]
  exact grounded e told fp mentioned

theorem Grounded.performAll (grounded : f.Grounded) (stored : known ⊆ f.domain)
    (orderly : StoresFirst known operations) : (f.performAll operations).Grounded := by
  induction operations generalizing f known with
  | nil => exact grounded
  | cons o rest ih =>
    cases o with
    | insert k =>
      refine ih (grounded.perform_insert k) ?_ orderly
      rw [perform, domain_insert]
      exact Set.union_subset_union_left _ stored
    | publish events =>
      obtain ⟨here, orderly⟩ := orderly
      refine ih (grounded.perform_publish fun e told fp mentioned =>
        stored (here e told fp mentioned)) ?_ orderly
      rwa [perform, domain_publish]
    | finish status =>
      refine ih (grounded.perform_finish status) ?_ orderly
      rwa [perform, domain_finish]

end Grounded

end Feed
end TemporalCheck
