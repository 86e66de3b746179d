import TemporalCheck.Proofs.Digraph.Search

/-! The depth-first search finds the strongly connected components. When a visit has reached no
older node, the nodes opened since it began are one component; otherwise they stay open, for an
older node to take along. -/
namespace TemporalCheck.Digraph

namespace Search

variable {g : Digraph} {roots : List Nat} {active : Set Nat} {s t : Search} {v x i j low : Nat}

section Leave

/-- What can be reached from a closed node is closed. -/
theorem Valid.closed_of_reaches (valid : Valid g roots active s) (bound : v < g.size)
    (closed : s.mark v = .closed) (path : g.Reaches v x) : x < g.size ∧ s.mark x = .closed := by
  refine path.preserves (P := fun a => a < g.size ∧ s.mark a = .closed) ?_ ⟨bound, closed⟩
  intro a b shut edge
  exact ⟨edge.lt_size, valid.closed a b shut.1 shut.2 edge⟩

/-- The stack around an open node: what lies above it is younger, what lies below is older. -/
theorem stack_split (valid : Valid g roots active s) (atV : s.mark v = .opened i) :
    ∃ newer older, s.stack = newer ++ v :: older ∧ s.stack.takeWhile (· != v) = newer ∧
      (∀ x, x ∈ newer ++ [v] ↔ ∃ j, i ≤ j ∧ s.mark x = .opened j) ∧
      ∀ x, x ∈ older ↔ ∃ j, j < i ∧ s.mark x = .opened j := by
  obtain ⟨newer, older, split, absent⟩ :=
    List.eq_append_cons_of_mem ((valid.stacked v).mpr ⟨i, atV⟩)
  have order := valid.order
  rw [split, List.pairwise_append, List.pairwise_cons] at order
  obtain ⟨_, ⟨below, _⟩, above⟩ := order
  have younger {x j : Nat} (member : x ∈ newer) (atX : s.mark x = .opened j) : i < j :=
    above x member v List.mem_cons_self j i atX atV
  have elder {x j : Nat} (member : x ∈ older) (atX : s.mark x = .opened j) : j < i :=
    below x member i j atV atX
  have opened {x : Nat} : x ∈ newer ∨ x = v ∨ x ∈ older ↔ ∃ j, s.mark x = .opened j := by
    rw [← valid.stacked, split, List.mem_append, List.mem_cons]
  refine ⟨newer, older, split, ?_, fun x => ?_, fun x => ?_⟩
  · have front : ∀ x ∈ newer, (x != v) = true := fun x member => by
      simpa using fun same : x = v => absent (same ▸ member)
    rw [split, List.takeWhile_append_of_pos front]
    simp
  · rw [List.mem_append, List.mem_singleton]
    constructor
    · rintro (member | rfl)
      · obtain ⟨j, atX⟩ := opened.mp (.inl member)
        exact ⟨j, (younger member atX).le, atX⟩
      · exact ⟨i, le_rfl, atV⟩
    · rintro ⟨j, late, atX⟩
      rcases opened.mpr ⟨j, atX⟩ with member | same | member
      · exact .inl member
      · exact .inr same
      · exact absurd (elder member atX) (Nat.not_lt.mpr late)
  · constructor
    · intro member
      obtain ⟨j, atX⟩ := opened.mp (.inr (.inr member))
      exact ⟨j, elder member atX, atX⟩
    · rintro ⟨j, early, atX⟩
      rcases opened.mpr ⟨j, atX⟩ with member | rfl | member
      · exact absurd (younger member atX) (Nat.not_lt.mpr early.le)
      · obtain rfl := Mark.opened.inj (atX.symm.trans atV)
        exact absurd early (Nat.lt_irrefl _)
      · exact member

theorem getD_foldl_close (members : List Nat) (marks : Array Mark) (x : Nat) :
    (members.foldl (fun marks w => marks.setIfInBounds w .closed) marks).getD x .closed =
      if x ∈ members then .closed else marks.getD x .closed := by
  induction members generalizing marks with
  | nil => simp
  | cons w rest ih =>
    rw [List.foldl_cons, ih]
    by_cases later : x ∈ rest
    · simp [later]
    · by_cases same : x = w
      · subst same
        simp only [later, if_false, List.mem_cons, true_or, if_true, Array.getD_eq_getD_getElem?,
          Array.getElem?_setIfInBounds]
        split <;> simp
      · simp [later, same, Array.getD_eq_getD_getElem?,
          Array.getElem?_setIfInBounds_ne (Ne.symm same)]

theorem size_foldl_close (members : List Nat) (marks : Array Mark) :
    (members.foldl (fun marks w => marks.setIfInBounds w .closed) marks).size = marks.size := by
  induction members generalizing marks with
  | nil => rfl
  | cons w rest ih => simp [ih]

/-- Completing a component closes the open nodes that are no older than its root. -/
theorem mark_complete (s : Search) (v x : Nat) : (s.complete v).mark x =
    if x ∈ s.stack.takeWhile (· != v) ++ [v] then .closed else s.mark x :=
  getD_foldl_close _ _ x

theorem opened_complete (valid : Valid g roots active s) (atV : s.mark v = .opened i) :
    (s.complete v).mark x = .opened j ↔ s.mark x = .opened j ∧ j < i := by
  obtain ⟨newer, older, _, front, members, _⟩ := stack_split valid atV
  rw [mark_complete, front]
  split
  · next member =>
    obtain ⟨k, late, atX⟩ := (members x).mp member
    simp only [reduceCtorEq, atX, Mark.opened.injEq, false_iff, not_and, Nat.not_lt]
    rintro rfl
    exact late
  · next absent =>
    refine ⟨fun atX => ⟨atX, ?_⟩, fun ⟨atX, _⟩ => atX⟩
    by_contra late
    exact absent ((members x).mpr ⟨j, Nat.not_lt.mp late, atX⟩)

theorem closed_complete (valid : Valid g roots active s) (atV : s.mark v = .opened i) :
    (s.complete v).mark x = .closed ↔
      s.mark x = .closed ∨ ∃ j, i ≤ j ∧ s.mark x = .opened j := by
  obtain ⟨newer, older, _, front, members, _⟩ := stack_split valid atV
  rw [mark_complete, front]
  split
  · next member => exact ⟨fun _ => .inr ((members x).mp member), fun _ => rfl⟩
  · next absent =>
    refine ⟨.inl, ?_⟩
    rintro (atX | late)
    · exact atX
    · exact absurd ((members x).mpr late) absent

theorem unseen_complete (valid : Valid g roots active s) (atV : s.mark v = .opened i) :
    (s.complete v).mark x = .unseen ↔ s.mark x = .unseen := by
  obtain ⟨newer, older, _, front, members, _⟩ := stack_split valid atV
  rw [mark_complete, front]
  split
  · next member =>
    obtain ⟨k, _, atX⟩ := (members x).mp member
    simp [atX]
  · rfl

theorem mem_complete (valid : Valid g roots active s) (atV : s.mark v = .opened i) :
    (∀ x, x ∈ (s.complete v).stack ↔ ∃ j, j < i ∧ s.mark x = .opened j) ∧
      (s.complete v).stack.Sublist s.stack ∧
      ∃ c : Component, (s.complete v).found.toList = s.found.toList ++ [c] ∧
        ∀ x, x ∈ c.nodes ↔ ∃ j, i ≤ j ∧ s.mark x = .opened j := by
  obtain ⟨newer, older, split, front, members, below⟩ := stack_split valid atV
  have rest : (s.complete v).stack = older := by
    change s.stack.drop (s.stack.takeWhile (· != v) ++ [v]).length = older
    rw [front, split, show newer ++ v :: older = newer ++ [v] ++ older by simp, List.drop_left]
  refine ⟨fun x => rest ▸ below x, rest ▸ ?_,
    Component.ofList (s.stack.takeWhile (· != v) ++ [v]), by simp [complete], fun x => ?_⟩
  · rw [split]
    exact (List.sublist_cons_self _ _).trans (List.sublist_append_right _ _)
  · rw [← members, front]
    exact Ascending.mem_ofList

variable (valid : Valid g roots active s) (unseen : s.mark v = .unseen)
  (following : Following g roots active v s [] low t)
include valid unseen following

theorem Following.root : t.mark v = .opened s.clock := by
  have bound : v < s.marks.size := valid.size ▸ lt_size_of_mark valid (by simp [unseen])
  exact following.later.opened v s.clock (by rw [mark_enter bound, if_pos rfl])

/-- A visit that has reached an older node leaves its own node open. -/
theorem Following.visited_open (older : low ≠ s.clock) :
    Visited g roots active v s (low, t) := by
  have root := following.root valid unseen
  have onward := (later_enter valid unseen).trans following.later
  obtain ⟨y, atY, path⟩ := following.lowest.resolve_left older
  refine ⟨{ following.valid with under := ?_, back := ?_, left := ?_ }, onward, by simp [root],
    following.lowest, ?_⟩
  · exact fun z member => following.valid.under z (Set.mem_insert_of_mem _ member)
  · intro x i atX
    obtain ⟨w, member, j, atW, before, path'⟩ := following.valid.back x i atX
    rcases member with rfl | member
    · obtain rfl := Mark.opened.inj (root.symm.trans atW)
      obtain ⟨z, member, k, atZ, earlier, path''⟩ := valid.back y low atY
      have := valid.recent y low atY
      exact ⟨z, member, k, onward.opened z k atZ, by omega, (path'.trans path).trans path''⟩
    · exact ⟨w, member, j, atW, before, path'⟩
  · intro x i atX idle w edge
    by_cases same : x = v
    · exact (following.done w (same ▸ edge) List.not_mem_nil).1
    · exact following.valid.left x i atX (by simp [same, idle]) w edge
  · intro x i y j atX late edge atY
    rcases late.eq_or_lt with rfl | later
    · obtain rfl := eq_of_index following.valid root atX
      exact (following.done y edge List.not_mem_nil).2 j atY
    · exact following.leaving x i y j atX later edge atY

/-- At the end of a visit that has reached no older node, no edge leads to an older node. -/
theorem Following.inside (none_older : low = s.clock) {x y : Nat}
    (young : ∃ i, s.clock ≤ i ∧ t.mark x = .opened i) (edge : g.Edge x y) :
    (∃ j, s.clock ≤ j ∧ t.mark y = .opened j) ∨ t.mark y = .closed := by
  have root := following.root valid unseen
  have onward := (later_enter valid unseen).trans following.later
  obtain ⟨i, late, atX⟩ := young
  have seen : t.mark y ≠ .unseen := by
    by_cases same : x = v
    · exact (following.done y (same ▸ edge) List.not_mem_nil).1
    · refine following.valid.left x i atX ?_ y edge
      rintro (absurdity | member)
      · exact same absurdity
      · obtain ⟨k, atX'⟩ := valid.under x member
        have early := valid.recent x k atX'
        have := Mark.opened.inj ((onward.opened x k atX').symm.trans atX)
        omega
  cases atY : t.mark y with
  | unseen => exact absurd atY seen
  | closed => exact .inr rfl
  | opened j =>
    left
    refine ⟨j, ?_, rfl⟩
    by_contra early
    rcases onward.fresh y j atY with before | ⟨_, late'⟩
    · have bounded : low ≤ j := by
        rcases late.eq_or_lt with rfl | later
        · obtain rfl := eq_of_index following.valid root atX
          exact (following.done y edge List.not_mem_nil).2 j before
        · exact following.leaving x i y j atX later edge before
      omega
    · exact early late'

/-- Then the nodes opened since the visit began are a strongly connected component. -/
theorem Following.class (none_older : low = s.clock) {x : Nat}
    (young : ∃ i, s.clock ≤ i ∧ t.mark x = .opened i) (y : Nat) :
    (∃ j, s.clock ≤ j ∧ t.mark y = .opened j) ↔ g.Connected x y := by
  have root := following.root valid unseen
  have onward := (later_enter valid unseen).trans following.later
  have bounded {z : Nat} (young : ∃ i, s.clock ≤ i ∧ t.mark z = .opened i) : z < g.size := by
    obtain ⟨_, _, atZ⟩ := young
    exact lt_size_of_mark following.valid (by simp [atZ])
  have closure {x z : Nat} (young : ∃ i, s.clock ≤ i ∧ t.mark x = .opened i)
      (path : g.Reaches x z) : (∃ j, s.clock ≤ j ∧ t.mark z = .opened j) ∨
        z < g.size ∧ t.mark z = .closed := by
    refine path.preserves (P := fun z => (∃ j, s.clock ≤ j ∧ t.mark z = .opened j) ∨
      z < g.size ∧ t.mark z = .closed) ?_ (.inl young)
    rintro a b (young | ⟨bound, shut⟩) edge
    · rcases following.inside valid unseen none_older young edge with young | shut
      · exact .inl young
      · exact .inr ⟨edge.lt_size, shut⟩
    · exact .inr ⟨edge.lt_size, following.valid.closed a b bound shut edge⟩
  have fromRoot {z : Nat} (young : ∃ i, s.clock ≤ i ∧ t.mark z = .opened i) : g.Reaches v z := by
    obtain ⟨i, late, atZ⟩ := young
    exact following.valid.onward v z s.clock i root atZ late
  have toRoot {z : Nat} (young : ∃ i, s.clock ≤ i ∧ t.mark z = .opened i) : g.Reaches z v := by
    obtain ⟨i, late, atZ⟩ := young
    obtain ⟨w, member, j, atW, _, path⟩ := following.valid.back z i atZ
    rcases member with rfl | member
    · exact path
    · -- an older active node cannot be reached
      obtain ⟨k, atW'⟩ := valid.under w member
      have early := valid.recent w k atW'
      have same := Mark.opened.inj ((onward.opened w k atW').symm.trans atW)
      rcases closure ⟨i, late, atZ⟩ path with ⟨l, late', atW''⟩ | ⟨_, shut⟩
      · have := Mark.opened.inj (atW''.symm.trans atW)
        omega
      · simp [atW] at shut
  constructor
  · exact fun young' => ⟨(toRoot young).trans (fromRoot young'),
      (toRoot young').trans (fromRoot young)⟩
  · rintro ⟨forth, back⟩
    rcases closure young forth with young' | ⟨bound, closed⟩
    · exact young'
    · obtain ⟨i, _, atX⟩ := young
      have := (following.valid.closed_of_reaches bound closed back).2
      simp [this] at atX

/-- What was open when the visit began stays open. -/
theorem Following.opened_before (atX : s.mark x = .opened j) :
    (t.complete v).mark x = .opened j := by
  have root := following.root valid unseen
  have onward := (later_enter valid unseen).trans following.later
  exact (opened_complete following.valid root).mpr
    ⟨onward.opened x j atX, valid.recent x j atX⟩

/-- The search is valid again when a component has been completed. -/
theorem Following.valid_complete (none_older : low = s.clock) :
    Valid g roots active (t.complete v) := by
  have root := following.root valid unseen
  have opened {x j : Nat} := @opened_complete g roots _ t v x s.clock j following.valid root
  have closed {x : Nat} := @closed_complete g roots _ t v x s.clock following.valid root
  have unseen_iff {x : Nat} := @unseen_complete g roots _ t v x s.clock following.valid root
  obtain ⟨stacked, sublist, c, found, members⟩ := mem_complete following.valid root
  have member_iff (d : Component) : d ∈ (t.complete v).found.toList ↔
      d ∈ t.found.toList ∨ d = c := by
    rw [found, List.mem_append, List.mem_singleton]
  constructor
  case size => exact (size_foldl_close _ _).trans following.valid.size
  case under =>
    intro z member
    obtain ⟨i, atZ⟩ := valid.under z member
    exact ⟨i, following.opened_before valid unseen atZ⟩
  case stacked =>
    intro x
    rw [stacked]
    exact exists_congr fun j => and_comm.trans opened.symm
  case recent => exact fun x i atX => following.valid.recent x i (opened.mp atX).1
  case order =>
    refine (following.valid.order.sublist sublist).imp fun before i j atX atY => ?_
    exact before i j (opened.mp atX).1 (opened.mp atY).1
  case onward =>
    intro x y i j atX atY older
    exact following.valid.onward x y i j (opened.mp atX).1 (opened.mp atY).1 older
  case back =>
    intro x i atX
    obtain ⟨atX, early⟩ := opened.mp atX
    obtain ⟨w, member, j, atW, before, path⟩ := following.valid.back x i atX
    rcases member with rfl | member
    · have := Mark.opened.inj (root.symm.trans atW)
      omega
    · exact ⟨w, member, j, opened.mpr ⟨atW, by omega⟩, before, path⟩
  case left =>
    intro x i atX idle w edge unseen'
    obtain ⟨before, early⟩ := opened.mp atX
    refine following.valid.left x i before ?_ w edge (unseen_iff.mp unseen')
    rintro (rfl | member)
    · have := Mark.opened.inj (root.symm.trans before)
      omega
    · exact idle member
  case closed =>
    intro x y bound atX edge
    rcases closed.mp atX with before | young
    · exact closed.mpr (.inl (following.valid.closed x y bound before edge))
    · exact closed.mpr (following.inside valid unseen none_older young edge).symm
  case rooted =>
    exact fun x bound seen => following.valid.rooted x bound fun h => seen (unseen_iff.mpr h)
  case found =>
    have bounded {x : Nat} (young : ∃ i, s.clock ≤ i ∧ t.mark x = .opened i) : x < g.size := by
      obtain ⟨_, _, atX⟩ := young
      exact lt_size_of_mark following.valid (by simp [atX])
    intro x
    simp only [member_iff, or_and_right, exists_or, exists_eq_left, members, closed, and_or_left,
      following.valid.found x]
    exact or_congr_right ⟨And.right, fun young => ⟨bounded young, young⟩⟩
  case nonempty =>
    intro d member
    rcases (member_iff d).mp member with before | rfl
    · exact following.valid.nonempty d before
    · exact List.ne_nil_of_mem ((members v).mpr ⟨s.clock, le_rfl, root⟩)
  case classes =>
    intro d member x here y
    rcases (member_iff d).mp member with before | rfl
    · exact following.valid.classes d before x here y
    · rw [members]
      exact following.class valid unseen none_older ((members x).mp here) y
  case apart =>
    rw [found, List.pairwise_append]
    refine ⟨following.valid.apart, List.pairwise_singleton _ _, ?_⟩
    intro d earlier e new x here y there path
    obtain rfl := List.mem_singleton.mp new
    obtain ⟨i, _, atY⟩ := (members y).mp there
    obtain ⟨bound, closed⟩ := (following.valid.found x).mpr ⟨d, earlier, here⟩
    have := (following.valid.closed_of_reaches bound closed path).2
    simp [atY] at this

/-- A visit that has reached no older node completes a component. -/
theorem Following.visited_complete (none_older : low = s.clock) :
    Visited g roots active v s (low, t.complete v) := by
  have root := following.root valid unseen
  have onward := (later_enter valid unseen).trans following.later
  have opened {x j : Nat} := @opened_complete g roots _ t v x s.clock j following.valid root
  refine ⟨following.valid_complete valid unseen none_older, ⟨onward.clock, ?_, ?_, ?_⟩, ?_,
    .inl none_older, ?_⟩
  · exact fun x i => following.opened_before valid unseen
  · exact fun x atX =>
      (closed_complete following.valid root).mpr (.inl (onward.closed x atX))
  · exact fun x i atX => onward.fresh x i (opened.mp atX).1
  · rw [Ne, unseen_complete following.valid root, root]
    simp
  · intro x i y j atX late
    exact absurd (opened.mp atX).2 (Nat.not_lt.mpr late)

end Leave

section Visit

theorem start_following (valid : Valid g roots active s) (unseen : s.mark v = .unseen)
    (onward : ∀ z ∈ active, g.Reaches z v) (rooted : g.Reached roots v) :
    Following g roots active v s (g.next v) s.clock (s.enter v) where
  valid := valid_enter valid unseen onward rooted
  later := .refl _
  lowest := .inl rfl
  leaving := by
    intro x i y j atX late
    have : i < s.clock + 1 := (valid_enter valid unseen onward rooted).recent x i atX
    omega
  done := fun w edge absent => absurd edge absent

theorem visit_spec {depth : Nat} (valid : Valid g roots active s) (unseen : s.mark v = .unseen)
    (onward : ∀ z ∈ active, g.Reaches z v) (rooted : g.Reached roots v)
    (enough : (remaining g s).card ≤ depth) :
    Visited g roots active v s (visit g depth v s) := by
  have member : v ∈ remaining g s := by
    simpa [remaining, unseen] using lt_size_of_mark valid (by simp [unseen])
  induction depth generalizing v s active with
  | zero =>
    rw [Nat.le_zero, Finset.card_eq_zero] at enough
    simp [enough] at member
  | succ depth ih =>
    have bound : v < s.marks.size := valid.size ▸ lt_size_of_mark valid (by simp [unseen])
    have fewer : (remaining g (s.enter v)).card < (remaining g s).card := by
      refine Finset.card_lt_card ⟨(later_enter valid unseen).remaining_subset g, fun all => ?_⟩
      have still := all member
      simp [remaining, mark_enter bound] at still
    have following := follow_spec valid unseen onward rooted
      (fun w t valid' unseen' onward' rooted' subset =>
        ih valid' unseen' onward' rooted' ((Finset.card_le_card subset).trans (by omega))
          (by simpa [remaining, unseen'] using lt_size_of_mark valid' (by simp [unseen'])))
      (fun _ edge => edge) (start_following valid unseen onward rooted)
    unfold visit
    dsimp only
    generalize follow (visit g depth) (g.next v) s.clock (s.enter v) = result at following
    split
    · next same => exact following.visited_complete valid unseen same
    · next other => exact following.visited_open valid unseen other

theorem not_opened (valid : Valid g roots ∅ s) : s.mark v ≠ .opened i := by
  intro atV
  obtain ⟨w, member, _⟩ := valid.back v i atV
  exact member

theorem visitRoot_spec (valid : Valid g roots ∅ s) {root : Nat} (listed : root ∈ roots) :
    Valid g roots ∅ (visitRoot g s root) ∧ Later s (visitRoot g s root) ∧
      (visitRoot g s root).mark root = .closed := by
  unfold visitRoot
  cases here : s.mark root with
  | unseen =>
    have bound : root < g.size := lt_size_of_mark valid (by simp [here])
    have visited := visit_spec valid here (by simp) ⟨root, listed, bound, .refl _⟩
      ((Finset.card_filter_le _ _).trans (Finset.card_range _).le)
    refine ⟨visited.valid, visited.later, ?_⟩
    cases there : (visit g g.size root s).2.mark root with
    | unseen => exact absurd there visited.seen
    | opened i => exact absurd there (not_opened visited.valid)
    | closed => rfl
  | opened i => exact absurd here (not_opened valid)
  | closed => exact ⟨valid, .refl s, here⟩

theorem valid_start (g : Digraph) (roots : List Nat) : Valid g roots ∅ (start g) := by
  have unseen {v : Nat} (bound : v < g.size) : (start g).mark v = .unseen := by
    simp [start, Search.mark, Array.getD_eq_getD_getElem?, bound]
  have not_opened (v i : Nat) : (start g).mark v ≠ .opened i := by
    by_cases bound : v < g.size
    · simp [unseen bound]
    · simp [start, Search.mark, Array.getD_eq_getD_getElem?, bound]
  constructor
  · simp [start]
  · simp
  · intro v
    simp only [not_opened, exists_false, iff_false]
    exact List.not_mem_nil
  · exact fun v i atV => absurd atV (not_opened v i)
  · exact .nil
  · exact fun v w i j atV => absurd atV (not_opened v i)
  · exact fun v i atV => absurd atV (not_opened v i)
  · exact fun v i atV => absurd atV (not_opened v i)
  · intro v w bound closed
    simp [unseen bound] at closed
  · exact fun v bound seen => absurd (unseen bound) seen
  · intro v
    constructor
    · rintro ⟨bound, closed⟩
      simp [unseen bound] at closed
    · rintro ⟨c, member, _⟩
      simp [start] at member
  · simp [start]
  · simp [start]
  · simp [start]

theorem visitRoots_spec {visited : List Nat} (valid : Valid g roots ∅ s)
    (listed : ∀ r ∈ visited, r ∈ roots) :
    Valid g roots ∅ (visited.foldl (visitRoot g) s) ∧ Later s (visited.foldl (visitRoot g) s) ∧
      ∀ r ∈ visited, (visited.foldl (visitRoot g) s).mark r = .closed := by
  induction visited generalizing s with
  | nil => exact ⟨valid, .refl s, by simp⟩
  | cons root rest ih =>
    rw [List.forall_mem_cons] at listed
    obtain ⟨valid, later, closed⟩ := visitRoot_spec valid listed.1
    obtain ⟨valid', later', closed'⟩ := ih valid listed.2
    refine ⟨valid', later.trans later', ?_⟩
    rintro r (_ | ⟨_, member⟩)
    · exact later'.closed root closed
    · exact closed' r member

end Visit

end Search

/-- The sets are the strongly connected components of what can be reached from the roots, and no
edge leads from one of them to a later one. -/
structure Decomposed (g : Digraph) (roots : List Nat) (components : List Component) : Prop where
  nonempty : ∀ c ∈ components, c.nodes ≠ []
  classes : ∀ c ∈ components, ∀ v ∈ c.nodes, ∀ w, w ∈ c.nodes ↔ g.Connected v w
  covers : ∀ v, (∃ c ∈ components, v ∈ c.nodes) ↔ g.Reached roots v
  apart : components.Pairwise fun c d => ∀ v ∈ c.nodes, ∀ w ∈ d.nodes, ¬g.Reaches v w

structure IsComponent (g : Digraph) (c : Component) : Prop where
  nonempty : c.nodes ≠ []
  classes : ∀ v ∈ c.nodes, ∀ w, w ∈ c.nodes ↔ g.Connected v w

theorem components_decomposed (g : Digraph) (roots : List Nat) :
    Decomposed g roots (g.components roots) := by
  obtain ⟨valid, _, closed⟩ := Search.visitRoots_spec (Search.valid_start g roots) fun _ => id
  refine ⟨valid.nonempty, valid.classes, fun v => ?_, valid.apart⟩
  refine (valid.found v).symm.trans ⟨fun ⟨bound, shut⟩ => valid.rooted v bound (by simp [shut]), ?_⟩
  rintro ⟨r, member, bound, path⟩
  exact valid.closed_of_reaches bound (closed r member) path

variable {g : Digraph} {roots : List Nat} {c d : Component} {v w : Nat}

theorem isComponent_of_mem (member : c ∈ g.components roots) : g.IsComponent c := by
  have decomposed := g.components_decomposed roots
  exact ⟨decomposed.nonempty c member, decomposed.classes c member⟩

/-- Components that share a node are the same. -/
theorem IsComponent.eq_of_mem (first : g.IsComponent c) (second : g.IsComponent d)
    (here : v ∈ c.nodes) (there : v ∈ d.nodes) : c = d := by
  have same : c.nodes = d.nodes := by
    apply c.ascending.eq_of_mem_iff d.ascending
    intro w
    rw [first.classes v here, second.classes v there]
  cases c
  cases d
  cases same
  rfl

theorem nodup_components (g : Digraph) (roots : List Nat) : (g.components roots).Nodup := by
  have decomposed := g.components_decomposed roots
  apply decomposed.apart.imp_of_mem
  intro c d member _ apart same
  obtain ⟨v, here⟩ := List.exists_mem_of_ne_nil _ (decomposed.nonempty c member)
  exact apart v here v (same ▸ here) (.refl v)

theorem mem_components_iff :
    c ∈ g.components roots ↔ g.IsComponent c ∧ ∃ v ∈ c.nodes, g.Reached roots v := by
  have decomposed := g.components_decomposed roots
  constructor
  · intro member
    obtain ⟨v, here⟩ := List.exists_mem_of_ne_nil _ (decomposed.nonempty c member)
    exact ⟨isComponent_of_mem member, v, here, (decomposed.covers v).mp ⟨c, member, here⟩⟩
  · intro ⟨component, v, here, reached⟩
    obtain ⟨d, member, there⟩ := (decomposed.covers v).mpr reached
    rwa [component.eq_of_mem (isComponent_of_mem member) here there]

/-- The search takes what can be reached from the roots apart into its strongly connected
components, and an edge between two of them leads back to the one that was complete first. -/
theorem components_partition (g : Digraph) (roots : List Nat) :
    (∀ c ∈ g.components roots, c.nodes ≠ []) ∧
      (g.components roots).Pairwise (fun c d => ∀ v ∈ c.nodes, v ∉ d.nodes) ∧
      (∀ v, (∃ c ∈ g.components roots, v ∈ c.nodes) ↔ g.Reached roots v) ∧
      (∀ v w, (∃ c ∈ g.components roots, v ∈ c.nodes ∧ w ∈ c.nodes) ↔
        g.Reached roots v ∧ g.Reached roots w ∧ g.Reaches v w ∧ g.Reaches w v) ∧
      (g.components roots).Pairwise (fun c d => ∀ v ∈ c.nodes, ∀ w ∈ d.nodes, ¬g.Edge v w) := by
  have decomposed := g.components_decomposed roots
  refine ⟨decomposed.nonempty, ?_, decomposed.covers, ?_, ?_⟩
  · apply decomposed.apart.imp
    intro c d apart v here there
    exact apart v here v there (.refl v)
  · intro v w
    constructor
    · intro ⟨c, member, hereV, hereW⟩
      have connected := (decomposed.classes c member v hereV w).mp hereW
      exact ⟨(decomposed.covers v).mp ⟨c, member, hereV⟩,
        (decomposed.covers w).mp ⟨c, member, hereW⟩, connected⟩
    · intro ⟨reachedV, _, connected⟩
      obtain ⟨c, member, hereV⟩ := (decomposed.covers v).mpr reachedV
      exact ⟨c, member, hereV, (decomposed.classes c member v hereV w).mpr connected⟩
  · apply decomposed.apart.imp
    intro c d apart v here w there edge
    exact apart v here w there edge.reaches

example : (components ⟨#[[1, 2], [0, 1], [3, 2], []]⟩ [0, 3]).map (·.nodes) =
    [[3], [2], [0, 1]] := by
  decide +kernel

end TemporalCheck.Digraph
