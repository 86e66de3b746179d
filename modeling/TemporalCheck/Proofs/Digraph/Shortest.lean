import TemporalCheck.Proofs.Digraph.Path

/-! The path that a breadth-first search finds is a shortest one. The trails wait in the order of
their lengths, on two neighbouring levels at most, so that every node is seen first on a trail that
is no longer than any walk to it. -/
namespace TemporalCheck.Digraph

variable {g : Digraph} {inside goal : Nat → Bool} {sources walk path : List Nat}

/-- The walk leads from a source to a goal and stays inside. It may pass other goals on its way. -/
structure Walks (g : Digraph) (inside goal : Nat → Bool) (sources walk : List Nat) : Prop where
  source : ∃ v ∈ sources, walk.head? = some v
  edges : walk.IsChain g.Edge
  within : ∀ v ∈ walk, v < g.size ∧ inside v = true
  arrives : ∃ v, walk.getLast? = some v ∧ goal v = true

/-- The search has proceeded by levels; the level of a node is the length of the trail on which it
was seen first. -/
structure Levelled (g : Digraph) (inside goal : Nat → Bool) (sources : List Nat) (level : Nat → Nat)
    (queue : List Trail) (seen : Array Bool) : Prop where
  sources : ∀ v ∈ sources, v < g.size → inside v = true → v ∉ unseen seen ∧ level v = 1
  length : ∀ t ∈ queue, t.nodes.length = level t.last
  waiting : ∀ t ∈ queue, t.last < g.size ∧ t.last ∉ unseen seen
  ascending : queue.Pairwise (level ·.last ≤ level ·.last)
  frontier : ∀ v < g.size, v ∉ unseen seen → ∀ t ∈ queue, level v ≤ level t.last + 1
  kept : ∀ v < g.size, v ∉ unseen seen → (∃ t ∈ queue, t.last = v) ∨
    goal v = false ∧ ∀ w, g.Edge v w → inside w = true → w ∉ unseen seen ∧ level w ≤ level v + 1

section Search

variable {level : Nat → Nat} {t t' : Trail} {queue : List Trail} {seen : Array Bool}

theorem not_mem_unseen_claim (inside : Nat → Bool) (vs : List Nat) (seen : Array Bool) {v : Nat} :
    v ∉ unseen (claim inside vs seen).2 ↔ v ∈ (claim inside vs seen).1 ∨ v ∉ unseen seen := by
  rw [(claim_spec inside vs seen).2.2, Finset.mem_sdiff, List.mem_toFinset]
  tauto

theorem Levelled.first_le (levelled : Levelled g inside goal sources level (t :: queue) seen)
    (member : t' ∈ t :: queue) : level t.last ≤ level t'.last := by
  rcases List.mem_cons.mp member with rfl | later
  · exact le_rfl
  · exact (List.pairwise_cons.mp levelled.ascending).1 t' later

/-- What is claimed behind the first trail is one level further, and nothing else gets a new
level. -/
theorem Levelled.step (levelled : Levelled g inside goal sources level (t :: queue) seen)
    (passed : goal t.last = false) :
    let result := claim inside (Ascending.ofList (g.next t.last)) seen
    ∃ level', Levelled g inside goal sources level' (queue ++ result.1.map t.extend) result.2 := by
  intro result
  obtain ⟨members, _, _⟩ := claim_spec inside (Ascending.ofList (g.next t.last)) seen
  change ∀ v, v ∈ result.1 ↔ _ at members
  have met {v : Nat} : v ∉ unseen result.2 ↔ v ∈ result.1 ∨ v ∉ unseen seen :=
    not_mem_unseen_claim inside _ seen
  let level' (v : Nat) : Nat := if v ∈ result.1 then level t.last + 1 else level v
  have new {v : Nat} (claimed : v ∈ result.1) : level' v = level t.last + 1 := if_pos claimed
  have old {v : Nat} (known : v ∉ unseen seen) : level' v = level v :=
    if_neg fun claimed => known ((members v).mp claimed).2.2
  obtain ⟨_, headSeen⟩ := levelled.waiting t List.mem_cons_self
  have headLevel : level' t.last = level t.last := old headSeen
  have queued {t' : Trail} (member : t' ∈ queue) : level' t'.last = level t'.last :=
    old (levelled.waiting t' (List.mem_cons_of_mem t member)).2
  have added {t' : Trail} (member : t' ∈ result.1.map t.extend) :
      ∃ v ∈ result.1, t' = t.extend v ∧ level' t'.last = level t.last + 1 := by
    obtain ⟨v, claimed, rfl⟩ := List.mem_map.mp member
    exact ⟨v, claimed, rfl, new claimed⟩
  refine ⟨level', ?_, ?_, ?_, ?_, ?_, ?_⟩
  · intro v source bound within
    obtain ⟨known, here⟩ := levelled.sources v source bound within
    exact ⟨met.mpr (.inr known), (old known).trans here⟩
  · intro t' member
    rcases List.mem_append.mp member with earlier | later
    · rw [queued earlier, levelled.length t' (List.mem_cons_of_mem t earlier)]
    · obtain ⟨v, _, rfl, here⟩ := added later
      rw [here, t.nodes_extend, List.length_append, levelled.length t List.mem_cons_self,
        List.length_singleton]
  · intro t' member
    rcases List.mem_append.mp member with earlier | later
    · obtain ⟨bound, known⟩ := levelled.waiting t' (List.mem_cons_of_mem t earlier)
      exact ⟨bound, met.mpr (.inr known)⟩
    · obtain ⟨v, claimed, rfl, _⟩ := added later
      have edge : g.Edge t.last v := Ascending.mem_ofList.mp ((members v).mp claimed).1
      exact ⟨edge.lt_size, met.mpr (.inl claimed)⟩
  · refine List.pairwise_append.mpr ⟨?_, ?_, fun t' earlier t'' later => ?_⟩
    · refine levelled.ascending.tail.imp_of_mem fun member member' before => ?_
      rwa [queued member, queued member']
    · refine List.pairwise_of_forall_mem_list fun t' member t'' member' => ?_
      obtain ⟨_, _, _, here⟩ := added member
      obtain ⟨_, _, _, there⟩ := added member'
      rw [here, there]
    · obtain ⟨_, _, _, there⟩ := added later
      obtain ⟨bound, known⟩ := levelled.waiting t' (List.mem_cons_of_mem t earlier)
      rw [queued earlier, there]
      exact levelled.frontier t'.last bound known t List.mem_cons_self
  · intro v bound known t' member
    have low : level t.last ≤ level' t'.last := by
      rcases List.mem_append.mp member with earlier | later
      · rw [queued earlier]
        exact levelled.first_le (List.mem_cons_of_mem t earlier)
      · obtain ⟨_, _, _, there⟩ := added later
        omega
    have high : level' v ≤ level t.last + 1 := by
      rcases met.mp known with claimed | known
      · exact (new claimed).le
      · rw [old known]
        exact levelled.frontier v bound known t List.mem_cons_self
    omega
  · intro v bound known
    rcases met.mp known with claimed | known
    · exact .inl ⟨t.extend v, List.mem_append_right _ (List.mem_map_of_mem claimed), rfl⟩
    rcases levelled.kept v bound known with ⟨t', member, rfl⟩ | ⟨miss, onward⟩
    · rcases List.mem_cons.mp member with rfl | later
      · refine .inr ⟨passed, fun w edge within => ?_⟩
        rw [headLevel]
        by_cases fresh : w ∈ unseen seen
        · have claimed : w ∈ result.1 :=
            (members w).mpr ⟨Ascending.mem_ofList.mpr edge, within, fresh⟩
          exact ⟨met.mpr (.inl claimed), (new claimed).le⟩
        · refine ⟨met.mpr (.inr fresh), ?_⟩
          rw [old fresh]
          exact levelled.frontier w edge.lt_size fresh t' List.mem_cons_self
      · exact .inl ⟨t', List.mem_append_left _ later, rfl⟩
    · refine .inr ⟨miss, fun w edge within => ?_⟩
      obtain ⟨there, next⟩ := onward w edge within
      rw [old known, old there]
      exact ⟨met.mpr (.inr there), next⟩

/-- A walk to a goal that begins with a seen node meets the queue on its way, no earlier than on the
level of the first trail. -/
theorem Levelled.level_le (levelled : Levelled g inside goal sources level (t :: queue) seen)
    {v : Nat} {rest : List Nat} (bound : v < g.size) (known : v ∉ unseen seen)
    (edges : (v :: rest).IsChain g.Edge) (within : ∀ w ∈ rest, inside w = true)
    (arrives : ∃ w, (v :: rest).getLast? = some w ∧ goal w = true) :
    level t.last ≤ level v + rest.length := by
  induction rest generalizing v with
  | nil =>
    obtain ⟨w, last, aim⟩ := arrives
    obtain rfl : v = w := by simpa using last
    rcases levelled.kept v bound known with ⟨t', member, rfl⟩ | ⟨miss, _⟩
    · exact levelled.first_le member
    · rw [aim] at miss
      contradiction
  | cons w rest ih =>
    rcases levelled.kept v bound known with ⟨t', member, rfl⟩ | ⟨_, onward⟩
    · exact (levelled.first_le member).trans (Nat.le_add_right _ _)
    · obtain ⟨edge, edges⟩ := List.isChain_cons_cons.mp edges
      obtain ⟨here, within⟩ := List.forall_mem_cons.mp within
      obtain ⟨there, next⟩ := onward w edge here
      have later := ih edge.lt_size there edges within (by simpa using arrives)
      rw [List.length_cons]
      omega

theorem explore_shortest {fuel : Nat}
    (levelled : Levelled g inside goal sources level queue seen)
    (found : explore g inside goal fuel queue seen = some path)
    (walks : Walks g inside goal sources walk) : path.length ≤ walk.length := by
  induction fuel generalizing level queue seen with
  | zero => simp [explore] at found
  | succ fuel ih =>
    cases queue with
    | nil => simp [explore] at found
    | cons t queue =>
      unfold explore at found
      split at found
      · obtain rfl := Option.some.inj found
        obtain ⟨v, source, head⟩ := walks.source
        obtain ⟨rest, rfl⟩ := List.head?_eq_some_iff.mp head
        obtain ⟨⟨bound, here⟩, within⟩ := List.forall_mem_cons.mp walks.within
        obtain ⟨known, first⟩ := levelled.sources v source bound here
        have least := levelled.level_le bound known walks.edges
          (fun w member => (within w member).2) walks.arrives
        rw [levelled.length t List.mem_cons_self, List.length_cons]
        omega
      · next passed =>
        obtain ⟨level', later⟩ := levelled.step (by simpa using passed)
        exact ih later found

end Search

/-- At the beginning just the sources have been seen, all of them on the first level. -/
theorem levelled_start (g : Digraph) (inside goal : Nat → Bool) (sources : List Nat) :
    let result := claim inside (Ascending.ofList sources) (Array.replicate g.size false)
    Levelled g inside goal sources (fun _ => 1) (result.1.map (⟨·, []⟩)) result.2 := by
  intro result
  obtain ⟨members, _, _⟩ :=
    claim_spec inside (Ascending.ofList sources) (Array.replicate g.size false)
  change ∀ v, v ∈ result.1 ↔ _ at members
  simp only [unseen_start, Ascending.mem_ofList, Finset.mem_range] at members
  have met {v : Nat} (bound : v < g.size) : v ∉ unseen result.2 ↔ v ∈ result.1 := by
    rw [not_mem_unseen_claim, unseen_start, Finset.mem_range, or_iff_left (not_not_intro bound)]
  refine ⟨fun v source bound within => ⟨?_, rfl⟩, ?_, ?_, ?_, ?_, fun v bound known => .inl ?_⟩
  · exact (met bound).mpr ((members v).mpr ⟨source, within, bound⟩)
  · intro t member
    obtain ⟨v, _, rfl⟩ := List.mem_map.mp member
    rfl
  · intro t member
    obtain ⟨v, claimed, rfl⟩ := List.mem_map.mp member
    have bound : v < g.size := ((members v).mp claimed).2.2
    exact ⟨bound, (met bound).mpr claimed⟩
  · exact List.pairwise_of_forall fun _ _ => le_rfl
  · intro v _ _ t _
    exact Nat.le_succ 1
  · exact ⟨⟨v, []⟩, List.mem_map_of_mem ((met bound).mp known), rfl⟩

/-- No walk from a source to a goal is shorter than the path that the search finds. -/
theorem path?_shortest (found : g.path? inside goal sources = some path)
    (walks : Walks g inside goal sources walk) : path.length ≤ walk.length :=
  explore_shortest (levelled_start g inside goal sources) found walks

end TemporalCheck.Digraph
