import TemporalCheck.Digraph.Path
import TemporalCheck.Proofs.Digraph.Reach

/-! The breadth-first search finds a path to a goal whenever there is one, and what it finds is a
path that stays inside and meets no goal before its end. -/
namespace TemporalCheck.Digraph

variable {g : Digraph} {inside goal : Nat → Bool} {sources : List Nat}

/-- The path leads from a source to a goal, and to the first goal on its way. -/
structure Leads (g : Digraph) (inside goal : Nat → Bool) (sources path : List Nat) : Prop where
  source : ∃ v ∈ sources, path.head? = some v
  edges : path.IsChain g.Edge
  within : ∀ v ∈ path, v < g.size ∧ inside v = true
  arrives : ∃ v, path.getLast? = some v ∧ goal v = true
  first : ∀ v ∈ path.dropLast, goal v = false

def unseen (seen : Array Bool) : Finset Nat :=
  (Finset.range seen.size).filter fun v => seen.getD v true = false

theorem mem_unseen {seen : Array Bool} {v : Nat} : v ∈ unseen seen ↔ seen.getD v true = false := by
  rw [unseen, Finset.mem_filter, Finset.mem_range, and_iff_right_iff_imp]
  intro fresh
  by_contra out
  simp [Array.getD_eq_getD_getElem?, Array.getElem?_eq_none (Nat.not_lt.mp out)] at fresh

theorem unseen_setIfInBounds (seen : Array Bool) (v : Nat) :
    unseen (seen.setIfInBounds v true) = (unseen seen).erase v := by
  ext x
  rw [Finset.mem_erase, mem_unseen, mem_unseen]
  by_cases same : x = v
  · subst same
    simp only [Array.getD_eq_getD_getElem?, Array.getElem?_setIfInBounds, ne_eq, not_true,
      false_and, iff_false, if_true]
    split <;> simp
  · simp [same, Array.getD_eq_getD_getElem?, Array.getElem?_setIfInBounds_ne (Ne.symm same)]

/-- Claiming takes the given nodes that are inside and unseen, each once. -/
theorem claim_spec (inside : Nat → Bool) (vs : List Nat) (seen : Array Bool) :
    (∀ v, v ∈ (claim inside vs seen).1 ↔ v ∈ vs ∧ inside v = true ∧ v ∈ unseen seen) ∧
      (claim inside vs seen).1.Nodup ∧
      unseen (claim inside vs seen).2 = unseen seen \ (claim inside vs seen).1.toFinset := by
  induction vs generalizing seen with
  | nil => simp [claim]
  | cons v rest ih =>
    unfold claim
    split
    · next free =>
      simp only [Bool.and_eq_true, Bool.not_eq_true'] at free
      obtain ⟨within, fresh⟩ := free
      obtain ⟨members, distinct, left⟩ := ih (seen.setIfInBounds v true)
      rw [unseen_setIfInBounds] at members left
      dsimp only
      generalize claim inside rest (seen.setIfInBounds v true) = result at members distinct left
      refine ⟨fun x => ?_, ?_, ?_⟩
      · by_cases same : x = v
        · simp [same, within, mem_unseen.mpr fresh]
        · simp [same, members]
      · refine List.nodup_cons.mpr ⟨fun member => ?_, distinct⟩
        simp [members] at member
      · rw [left, List.toFinset_cons]
        ext x
        simp only [Finset.mem_sdiff, Finset.mem_erase, Finset.mem_insert, not_or]
        tauto
    · next taken =>
      obtain ⟨members, distinct, left⟩ := ih seen
      refine ⟨fun x => ?_, distinct, left⟩
      rw [members, List.mem_cons]
      refine ⟨fun ⟨member, free⟩ => ⟨.inr member, free⟩, fun ⟨member, free⟩ => ⟨?_, free⟩⟩
      rcases member with rfl | later
      · simp [free.1, mem_unseen.mp free.2] at taken
      · exact later

/-- Claimed nodes are unseen no more. -/
theorem length_claim (inside : Nat → Bool) (vs : List Nat) (seen : Array Bool) :
    (claim inside vs seen).1.length + (unseen (claim inside vs seen).2).card =
      (unseen seen).card := by
  obtain ⟨members, distinct, left⟩ := claim_spec inside vs seen
  rw [left, ← List.toFinset_card_of_nodup distinct, add_comm, Finset.card_sdiff_add_card_eq_card]
  exact fun v member => ((members v).mp (List.mem_toFinset.mp member)).2.2

structure Trail.Leads (g : Digraph) (inside goal : Nat → Bool) (sources : List Nat) (t : Trail) :
    Prop where
  source : ∃ v ∈ sources, t.nodes.head? = some v
  edges : t.nodes.IsChain g.Edge
  within : ∀ v ∈ t.nodes, v < g.size ∧ inside v = true
  before : ∀ v ∈ t.before, goal v = false

theorem Trail.nodes_extend (t : Trail) (v : Nat) : (t.extend v).nodes = t.nodes ++ [v] := by
  simp [nodes, extend]

theorem Trail.getLast?_nodes (t : Trail) : t.nodes.getLast? = some t.last := by
  simp [nodes]

theorem Trail.Leads.extend {t : Trail} {v : Nat} (leads : t.Leads g inside goal sources)
    (edge : g.Edge t.last v) (within : inside v = true) (passed : goal t.last = false) :
    (t.extend v).Leads g inside goal sources where
  source := by
    obtain ⟨s, member, head⟩ := leads.source
    exact ⟨s, member, by rw [t.nodes_extend, List.head?_append, head, Option.some_or]⟩
  edges := by
    rw [t.nodes_extend, List.isChain_append]
    refine ⟨leads.edges, List.isChain_singleton _, ?_⟩
    rw [t.getLast?_nodes]
    intro x last y head
    obtain rfl := Option.some.inj last
    obtain rfl := Option.some.inj head
    exact edge
  within := by
    intro x member
    rw [t.nodes_extend, List.mem_append, List.mem_singleton] at member
    rcases member with old | rfl
    · exact leads.within x old
    · exact ⟨edge.lt_size, within⟩
  before := by
    rintro x (_ | ⟨_, member⟩)
    · exact passed
    · exact leads.before x member

theorem explore_leads {fuel : Nat} {queue : List Trail} {seen : Array Bool} {path : List Nat}
    (leads : ∀ t ∈ queue, t.Leads g inside goal sources)
    (found : explore g inside goal fuel queue seen = some path) :
    Leads g inside goal sources path := by
  induction fuel generalizing queue seen with
  | zero => simp [explore] at found
  | succ fuel ih =>
    cases queue with
    | nil => simp [explore] at found
    | cons t queue =>
      rw [List.forall_mem_cons] at leads
      obtain ⟨here, leads⟩ := leads
      unfold explore at found
      split at found
      · next arrived =>
        obtain rfl := Option.some.inj found
        refine ⟨here.source, here.edges, here.within, ⟨t.last, t.getLast?_nodes, arrived⟩, ?_⟩
        intro v member
        exact here.before v (by simpa [Trail.nodes] using member)
      · next passed =>
        obtain ⟨members, _, _⟩ := claim_spec inside (Ascending.ofList (g.next t.last)) seen
        refine ih (fun t' member => ?_) found
        rcases List.mem_append.mp member with old | new
        · exact leads t' old
        · obtain ⟨v, claimed, rfl⟩ := List.mem_map.mp new
          obtain ⟨edge, within, _⟩ := (members v).mp claimed
          exact here.extend (Ascending.mem_ofList.mp edge) within (by simpa using passed)

/-- Every node that was seen still waits in the queue, or it is no goal and the inside nodes behind
it were seen as well. -/
def Kept (g : Digraph) (inside goal : Nat → Bool) (waiting : Nat → Prop) (seen : Array Bool) :
    Prop :=
  ∀ v, v < g.size → v ∉ unseen seen → waiting v ∨
    goal v = false ∧ ∀ w, g.Edge v w → inside w = true → w ∉ unseen seen

/-- When the search finds nothing, the nodes seen are part of a set that is closed under the edges
to inside nodes and has no goal. -/
theorem closed_of_explore_none {fuel : Nat} {queue : List Trail} {seen : Array Bool}
    (enough : queue.length + (unseen seen).card ≤ fuel)
    (kept : Kept g inside goal (fun v => ∃ t ∈ queue, t.last = v) seen)
    (missed : explore g inside goal fuel queue seen = none) :
    ∃ closed : Set Nat, (∀ v, v < g.size → v ∉ unseen seen → v ∈ closed) ∧
      ∀ v ∈ closed, goal v = false ∧ ∀ w, g.Edge v w → inside w = true → w ∈ closed := by
  have done {seen : Array Bool} (kept : Kept g inside goal (fun _ => False) seen) :
      ∃ closed : Set Nat, (∀ v, v < g.size → v ∉ unseen seen → v ∈ closed) ∧
        ∀ v ∈ closed, goal v = false ∧ ∀ w, g.Edge v w → inside w = true → w ∈ closed := by
    refine ⟨{v | v < g.size ∧ v ∉ unseen seen}, fun v bound met => ⟨bound, met⟩, ?_⟩
    rintro v ⟨bound, met⟩
    obtain ⟨miss, onward⟩ := (kept v bound met).resolve_left id
    exact ⟨miss, fun w edge within => ⟨edge.lt_size, onward w edge within⟩⟩
  induction fuel generalizing queue seen with
  | zero =>
    obtain rfl : queue = [] := List.eq_nil_of_length_eq_zero (by omega)
    exact done (by simpa using kept)
  | succ fuel ih =>
    cases queue with
    | nil => exact done (by simpa using kept)
    | cons t queue =>
      unfold explore at missed
      split at missed
      · contradiction
      · next passed =>
        obtain ⟨members, _, left⟩ := claim_spec inside (Ascending.ofList (g.next t.last)) seen
        have length := length_claim inside (Ascending.ofList (g.next t.last)) seen
        dsimp only at missed
        generalize claim inside (Ascending.ofList (g.next t.last)) seen = result
          at members left length missed
        have met {v : Nat} (old : v ∉ unseen seen) : v ∉ unseen result.2 := by
          rw [left]
          exact fun absurdity => old (Finset.mem_sdiff.mp absurdity).1
        have kept' : Kept g inside goal
            (fun v => ∃ t' ∈ queue ++ result.1.map t.extend, t'.last = v) result.2 := by
          intro v bound here
          by_cases old : v ∈ unseen seen
          · have claimed : v ∈ result.1 := by
              by_contra absent
              rw [left] at here
              exact here (Finset.mem_sdiff.mpr ⟨old, by simpa using absent⟩)
            exact .inl ⟨t.extend v,
              List.mem_append_right _ (List.mem_map_of_mem claimed), rfl⟩
          · rcases kept v bound old with ⟨t', member, last⟩ | ⟨miss, onward⟩
            · rcases List.mem_cons.mp member with rfl | later
              · refine .inr ⟨by simpa [last] using passed, fun w edge within => ?_⟩
                rw [left]
                intro absurdity
                obtain ⟨fresh, unclaimed⟩ := Finset.mem_sdiff.mp absurdity
                refine unclaimed (List.mem_toFinset.mpr ((members w).mpr ⟨?_, within, fresh⟩))
                exact Ascending.mem_ofList.mpr (last ▸ edge)
              · exact .inl ⟨t', List.mem_append_left _ later, last⟩
            · exact .inr ⟨miss, fun w edge within => met (onward w edge within)⟩
        obtain ⟨closed, contains, closure⟩ := ih (by
          simp only [List.length_append, List.length_map, List.length_cons] at enough ⊢
          omega) kept' missed
        exact ⟨closed, fun v bound old => contains v bound (met old), closure⟩

/-- A search that may take as many steps as there are nodes left is not cut short. -/
theorem explore_more {fuel : Nat} {queue : List Trail} {seen : Array Bool}
    (enough : queue.length + (unseen seen).card ≤ fuel) (more : Nat) :
    explore g inside goal (fuel + more) queue seen = explore g inside goal fuel queue seen := by
  induction fuel generalizing queue seen with
  | zero =>
    obtain rfl : queue = [] := List.eq_nil_of_length_eq_zero (by omega)
    cases more <;> simp [explore]
  | succ fuel ih =>
    rw [Nat.succ_add]
    cases queue with
    | nil => rfl
    | cons t queue =>
      unfold explore
      split
      · rfl
      · have length := length_claim inside (Ascending.ofList (g.next t.last)) seen
        dsimp only
        generalize claim inside (Ascending.ofList (g.next t.last)) seen = result at length
        refine ih ?_
        simp only [List.length_append, List.length_map, List.length_cons] at enough ⊢
        omega

theorem unseen_start (g : Digraph) :
    unseen (Array.replicate g.size false) = Finset.range g.size := by
  ext v
  rw [mem_unseen, Finset.mem_range, Array.getD_eq_getD_getElem?, Array.getElem?_replicate]
  split
  · next bound => simp [bound]
  · next out => simp [out]

theorem path?_leads {path : List Nat} (found : g.path? inside goal sources = some path) :
    Leads g inside goal sources path := by
  obtain ⟨members, _, _⟩ :=
    claim_spec inside (Ascending.ofList sources) (Array.replicate g.size false)
  refine explore_leads (fun t member => ?_) found
  obtain ⟨v, claimed, rfl⟩ := List.mem_map.mp member
  obtain ⟨source, within, fresh⟩ := (members v).mp claimed
  rw [unseen_start, Finset.mem_range] at fresh
  refine ⟨⟨v, Ascending.mem_ofList.mp source, rfl⟩, List.isChain_singleton _, ?_, by simp⟩
  intro w here
  obtain rfl : w = v := by simpa [Trail.nodes] using here
  exact ⟨fresh, within⟩

/-- The search for a path comes to the same if it may take more steps. -/
theorem path?_eq_explore (g : Digraph) (inside goal : Nat → Bool) (sources : List Nat)
    (more : Nat) : g.path? inside goal sources =
      let (claimed, seen) :=
        claim inside (Ascending.ofList sources) (Array.replicate g.size false)
      explore g inside goal (g.size + more) (claimed.map (⟨·, []⟩)) seen := by
  have length := length_claim inside (Ascending.ofList sources) (Array.replicate g.size false)
  rw [unseen_start, Finset.card_range] at length
  unfold path?
  dsimp only
  generalize claim inside (Ascending.ofList sources) (Array.replicate g.size false) = result
    at length
  exact (explore_more (by rw [List.length_map, length]) more).symm

/-- A search that finds nothing misses nothing: no goal can be reached inside. -/
theorem no_goal_of_path?_none (missed : g.path? inside goal sources = none) {v w : Nat}
    (source : v ∈ sources) (bound : v < g.size) (within : inside v = true)
    (path : Relation.ReflTransGen (fun a b => g.Edge a b ∧ inside b = true) v w) :
    goal w = false := by
  obtain ⟨members, _, left⟩ :=
    claim_spec inside (Ascending.ofList sources) (Array.replicate g.size false)
  have length := length_claim inside (Ascending.ofList sources) (Array.replicate g.size false)
  unfold path? at missed
  dsimp only at missed
  generalize claim inside (Ascending.ofList sources) (Array.replicate g.size false) = result
    at members left length missed
  rw [unseen_start] at members left length
  obtain ⟨closed, contains, closure⟩ := closed_of_explore_none (by
      rw [Finset.card_range] at length
      rw [List.length_map, length])
    (fun x bound met => .inl ⟨⟨x, []⟩, List.mem_map_of_mem (by
      by_contra absent
      rw [left] at met
      exact met (Finset.mem_sdiff.mpr ⟨Finset.mem_range.mpr bound, by simpa using absent⟩)), rfl⟩)
    missed
  have claimed : v ∈ result.1 :=
    (members v).mpr ⟨Ascending.mem_ofList.mpr source, within, Finset.mem_range.mpr bound⟩
  have start : v ∈ closed := contains v bound (by simp [left, claimed])
  have finish : w ∈ closed := by
    clear missed
    induction path with
    | refl => exact start
    | tail _ step ih => exact (closure _ ih).2 _ step.1 step.2
  exact (closure w finish).1

end TemporalCheck.Digraph
