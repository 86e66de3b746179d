import TemporalCheck.Proofs.Feed.Operation

/-! Entries with distinct fingerprints. Where a fingerprint is listed again, only its first entry
counts, for the state limit as well as for what is stored and queued. -/
namespace TemporalCheck

variable {State : Type}

section Firsts

/-- The entries with distinct fingerprints, each where its fingerprint is listed first. -/
def firsts (entries : List (Keyed State)) : List (Keyed State) :=
  entries.eraseDupsBy fun k k' => k.fingerprint == k'.fingerprint

theorem firsts_cons (k : Keyed State) (rest : List (Keyed State)) :
    firsts (k :: rest) = k :: firsts (rest.filter fun k' => k'.fingerprint ≠ k.fingerprint) := by
  rw [firsts, List.eraseDupsBy_cons]
  simp [firsts]

theorem firstEntries_eq_firsts (met : List Fingerprint) (entries : List (Keyed State)) :
    firstEntries met entries = firsts (entries.filter fun k => k.fingerprint ∉ met) := by
  induction entries generalizing met with
  | nil => rfl
  | cons k rest ih =>
    by_cases known : k.fingerprint ∈ met
    · simp [firstEntries, known, ih]
    · simp [firstEntries, known, ih, firsts_cons, List.filter_filter]

theorem firsts_eq (entries : List (Keyed State)) : firsts entries = firstEntries [] entries := by
  simp [firstEntries_eq_firsts]

/-- The fingerprints of the first entries are the fingerprints listed, each once. -/
theorem map_firsts : ∀ entries : List (Keyed State),
    (firsts entries).map (·.fingerprint) = (entries.map (·.fingerprint)).eraseDups
  | [] => rfl
  | k :: rest => by
    have onward := map_firsts (rest.filter fun k' => k'.fingerprint ≠ k.fingerprint)
    rw [firsts_cons, List.map_cons, onward, List.map_cons, List.eraseDups_cons, List.filter_map]
    congr 3
    apply List.filter_congr
    intro k' _
    by_cases same : k'.fingerprint = k.fingerprint <;> simp [same]
  termination_by entries => entries.length
  decreasing_by exact Nat.lt_succ_of_le (List.length_filter_le _ _)

/-- It only matters which fingerprints have been met. -/
theorem firstEntries_congr {met met' : List Fingerprint} (same : ∀ fp, fp ∈ met ↔ fp ∈ met')
    (entries : List (Keyed State)) : firstEntries met entries = firstEntries met' entries := by
  simp only [firstEntries_eq_firsts, same]

theorem firstEntries_append (met : List Fingerprint) (entries later : List (Keyed State)) :
    firstEntries met (entries ++ later) =
      firstEntries met entries ++ firstEntries (met ++ entries.map (·.fingerprint)) later := by
  induction entries generalizing met with
  | nil => simp [firstEntries]
  | cons k rest ih =>
    by_cases known : k.fingerprint ∈ met
    · simp only [List.cons_append, firstEntries, List.contains_iff_mem, known, if_true, ih]
      congr 1
      apply firstEntries_congr
      intro fp
      by_cases same : fp = k.fingerprint <;> simp [same, known]
    · simp only [List.cons_append, firstEntries, List.contains_iff_mem, known, if_false, ih]
      congr 2
      apply firstEntries_congr
      intro fp
      simp only [List.mem_append, List.mem_cons, List.map_cons]
      tauto

/-- Leaving out what has been met is the same before and after repetitions are dropped. -/
theorem filter_firstEntries (met met' : List Fingerprint) (entries : List (Keyed State)) :
    (firstEntries met' entries).filter (fun k => k.fingerprint ∉ met) =
      firstEntries (met ++ met') entries := by
  induction entries generalizing met' with
  | nil => rfl
  | cons k rest ih =>
    by_cases known' : k.fingerprint ∈ met'
    · simp only [firstEntries, List.contains_iff_mem, known', if_true, ih, List.mem_append, or_true]
    have onward : firstEntries (met ++ k.fingerprint :: met') rest =
        firstEntries (k.fingerprint :: (met ++ met')) rest := by
      apply firstEntries_congr
      intro fp
      simp only [List.mem_append, List.mem_cons]
      tauto
    by_cases known : k.fingerprint ∈ met
    · simp only [firstEntries, List.contains_iff_mem, known', if_false, known, List.filter_cons,
        not_true, decide_false, ih, List.mem_append, true_or, if_true, Bool.false_eq_true]
      apply firstEntries_congr
      intro fp
      by_cases same : fp = k.fingerprint <;> simp [same, known]
    · simp only [firstEntries, List.contains_iff_mem, known', if_false, known, List.filter_cons,
        not_false_eq_true, decide_true, ih, List.mem_append, or_false, if_true, onward]

theorem nodup_firstEntries (met : List Fingerprint) (entries : List (Keyed State)) :
    ((firstEntries met entries).map (·.fingerprint)).Nodup := by
  induction entries generalizing met with
  | nil => exact List.nodup_nil
  | cons k rest ih =>
    unfold firstEntries
    split
    · exact ih met
    · rw [List.map_cons]
      refine List.nodup_cons.mpr ⟨fun member => ?_, ih _⟩
      exact (mem_map_firstEntries.mp member).1 List.mem_cons_self

/-- Where no fingerprint is repeated there is nothing to drop. -/
theorem firsts_of_nodup {entries : List (Keyed State)}
    (distinct : (entries.map (·.fingerprint)).Nodup) : firsts entries = entries := by
  induction entries with
  | nil => rfl
  | cons k rest ih =>
    obtain ⟨fresh, distinct⟩ := List.nodup_cons.mp distinct
    have others : rest.filter (fun k' => k'.fingerprint ≠ k.fingerprint) = rest := by
      apply List.filter_eq_self.mpr
      intro k' member
      have other : k'.fingerprint ≠ k.fingerprint := by
        intro same
        exact fresh (List.mem_map.mpr ⟨k', member, same⟩)
      simpa using other
    rw [firsts_cons, others, ih distinct]

/-- Repetitions may be dropped beforehand. -/
theorem firstEntries_firstEntries (met met' : List Fingerprint) (entries : List (Keyed State)) :
    firstEntries met (firstEntries met' entries) = firstEntries (met ++ met') entries := by
  rw [firstEntries_eq_firsts, filter_firstEntries]
  exact firsts_of_nodup (nodup_firstEntries _ _)

theorem mem_map_firsts {entries : List (Keyed State)} {fp : Fingerprint} :
    fp ∈ (firsts entries).map (·.fingerprint) ↔ fp ∈ entries.map (·.fingerprint) := by
  rw [map_firsts, List.mem_eraseDups]

theorem mem_of_mem_firsts {entries : List (Keyed State)} {k : Keyed State}
    (member : k ∈ firsts entries) : k ∈ entries :=
  mem_of_mem_firstEntries (firsts_eq entries ▸ member)

end Firsts

section Fresh

namespace Feed

variable {f : Feed State} {k : Keyed State}

def fresh (f : Feed State) (entries : List (Keyed State)) : List (Keyed State) :=
  firstEntries f.states.keys entries

theorem contains_keys (f : Feed State) (fp : Fingerprint) :
    f.states.keys.contains fp = f.contains fp := by
  rw [Bool.eq_iff_iff, List.contains_iff_mem, Std.TreeMap.mem_keys]
  exact Std.TreeMap.mem_iff_contains

theorem mem_keys {fp : Fingerprint} : fp ∈ f.states.keys ↔ ∃ s, f.state? fp = some s := by
  rw [← List.contains_iff_mem, contains_keys, contains_iff]

theorem fresh_of_contains (known : f.contains k.fingerprint = true) (rest : List (Keyed State)) :
    f.fresh (k :: rest) = f.fresh rest := by
  rw [fresh, firstEntries, contains_keys, known, if_pos rfl, ← fresh]

theorem fresh_insert (absent : f.contains k.fingerprint = false) (rest : List (Keyed State)) :
    f.fresh (k :: rest) = k :: (f.insert k).fresh rest := by
  rw [fresh, firstEntries, contains_keys, absent, if_neg Bool.false_ne_true, fresh]
  congr 1
  apply firstEntries_congr
  intro fp
  rw [List.mem_cons, mem_keys, mem_keys, state?_insert absent]
  by_cases same : fp = k.fingerprint <;> simp [same]

/-- Repeated entries make no difference to what is stored. -/
theorem fresh_firstEntries (f : Feed State) (entries : List (Keyed State)) :
    f.fresh (firstEntries [] entries) = f.fresh entries := by
  rw [fresh, firstEntries_firstEntries, List.append_nil, ← fresh]

theorem state?_of_mem_fresh {entries : List (Keyed State)} (member : k ∈ f.fresh entries) :
    f.state? k.fingerprint = none := by
  have unmet := (mem_map_firstEntries.mp (List.mem_map_of_mem member)).1
  rw [mem_keys] at unmet
  exact Option.eq_none_iff_forall_ne_some.mpr fun s found => unmet ⟨s, found⟩

end Feed

namespace Exploration

/-- The limit is exceeded if there is no room for the states that would be stored. -/
theorem exceeded?_eq (options : ExplorationOptions) (feed : Feed State)
    (entries : List (Keyed State)) : exceeded? options feed entries =
      options.maxStates.filter fun limit =>
        limit < feed.stateCount + (feed.fresh entries).length := by
  have counted : (firstEntries [] entries).filter (fun k => !feed.contains k.fingerprint) =
      feed.fresh entries := by
    rw [Feed.fresh, ← List.append_nil feed.states.keys, ← filter_firstEntries]
    apply List.filter_congr
    intro k _
    rw [← Feed.contains_keys, decide_not, List.contains_eq_mem]
  rw [exceeded?, counted]

/-- What is discovered is stored and queued, in the order in which it is listed. -/
theorem discover_fresh (entries : List (Keyed State)) (x : Exploration State) :
    (discover entries x).queue = x.queue ++ x.feed.fresh entries ∧
      (discover entries x).feed.stateCount =
        x.feed.stateCount + (x.feed.fresh entries).length ∧
      ∀ fp s, (discover entries x).feed.state? fp = some s ↔
        x.feed.state? fp = some s ∨ ⟨fp, s⟩ ∈ x.feed.fresh entries := by
  induction entries generalizing x with
  | nil => simp [discover, Feed.fresh, firstEntries]
  | cons k rest ih =>
    unfold discover
    cases known : x.feed.contains k.fingerprint with
    | true =>
      rw [Feed.fresh_of_contains known, if_pos rfl]
      exact ih x
    | false =>
      have counted : (x.feed.insert k).stateCount = x.feed.stateCount + 1 := by
        have absent : x.feed.states.contains k.fingerprint = false := known
        simp only [Feed.insert, known, Bool.false_eq_true, if_false, Feed.stateCount,
          Std.TreeMap.size_insert, absent]
      obtain ⟨queued, count, states⟩ := ih { x with
        feed := x.feed.insert k, queue := x.queue ++ [k] }
      dsimp only at queued count states
      rw [Feed.fresh_insert known, if_neg Bool.false_ne_true]
      refine ⟨by rw [queued, List.append_assoc, List.singleton_append], ?_, fun fp s => ?_⟩
      · rw [count, counted, List.length_cons]
        omega
      · rw [states, Feed.state?_insert known, List.mem_cons]
        by_cases same : fp = k.fingerprint
        · have missing : x.feed.state? k.fingerprint = none := Feed.state?_eq_none known
          have untold : ⟨k.fingerprint, s⟩ ∉ (x.feed.insert k).fresh rest := by
            intro member
            have absent := Feed.state?_of_mem_fresh member
            simp [Feed.state?_insert known] at absent
          subst same
          simp only [if_true, missing, untold, or_false, reduceCtorEq, false_or]
          constructor
          · rintro ⟨⟩
            rfl
          · exact fun equal => congrArg (some ·.state) equal.symm
        · have other : (⟨fp, s⟩ : Keyed State) ≠ k := fun equal => same (equal ▸ rfl)
          simp [same, other]

end Exploration

end Fresh

end TemporalCheck
