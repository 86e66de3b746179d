import TemporalCheck.Digraph.Component
import TemporalCheck.Proofs.Digraph.Reach

/-! The invariant of the depth-first search for strongly connected components. The nodes whose visit
is under way are the active ones. Open nodes lie on the stack by the order of their indices; an
older open node reaches every younger one, and every open node reaches an active one that is no
younger. -/
namespace TemporalCheck.Digraph.Search

variable {g : Digraph} {roots : List Nat} {active : Set Nat} {s t u : Search}
  {v w x y i j low : Nat}

/-- What is true of a search whenever a visit begins or ends. -/
structure Valid (g : Digraph) (roots : List Nat) (active : Set Nat) (s : Search) : Prop where
  size : s.marks.size = g.size
  under : ∀ v ∈ active, ∃ i, s.mark v = .opened i
  stacked : ∀ v, v ∈ s.stack ↔ ∃ i, s.mark v = .opened i
  recent : ∀ v i, s.mark v = .opened i → i < s.clock
  order : s.stack.Pairwise fun v w => ∀ i j, s.mark v = .opened i → s.mark w = .opened j → j < i
  onward : ∀ v w i j, s.mark v = .opened i → s.mark w = .opened j → i ≤ j → g.Reaches v w
  back : ∀ v i, s.mark v = .opened i →
    ∃ w ∈ active, ∃ j, s.mark w = .opened j ∧ j ≤ i ∧ g.Reaches v w
  left : ∀ v i, s.mark v = .opened i → v ∉ active → ∀ w, g.Edge v w → s.mark w ≠ .unseen
  closed : ∀ v w, v < g.size → s.mark v = .closed → g.Edge v w → s.mark w = .closed
  rooted : ∀ v, v < g.size → s.mark v ≠ .unseen → g.Reached roots v
  found : ∀ v, (v < g.size ∧ s.mark v = .closed) ↔ ∃ c ∈ s.found.toList, v ∈ c.nodes
  nonempty : ∀ c ∈ s.found.toList, c.nodes ≠ []
  classes : ∀ c ∈ s.found.toList, ∀ v ∈ c.nodes, ∀ w, w ∈ c.nodes ↔ g.Connected v w
  apart : s.found.toList.Pairwise fun c d => ∀ v ∈ c.nodes, ∀ w ∈ d.nodes, ¬g.Reaches v w

/-- A search at two moments, the second not before the first, with the same visits under way. -/
structure Later (s t : Search) : Prop where
  clock : s.clock ≤ t.clock
  opened : ∀ v i, s.mark v = .opened i → t.mark v = .opened i
  closed : ∀ v, s.mark v = .closed → t.mark v = .closed
  fresh : ∀ v i, t.mark v = .opened i → s.mark v = .opened i ∨ s.mark v = .unseen ∧ s.clock ≤ i

theorem Later.refl (s : Search) : Later s s :=
  ⟨le_rfl, fun _ _ h => h, fun _ h => h, fun _ _ h => .inl h⟩

theorem Later.unseen (later : Later s t) (unseen : t.mark v = .unseen) : s.mark v = .unseen := by
  cases before : s.mark v with
  | unseen => rfl
  | opened i => simp [later.opened v i before] at unseen
  | closed => simp [later.closed v before] at unseen

theorem Later.trans (first : Later s t) (second : Later t u) : Later s u where
  clock := first.clock.trans second.clock
  opened := fun v i h => second.opened v i (first.opened v i h)
  closed := fun v h => second.closed v (first.closed v h)
  fresh := by
    intro v i h
    rcases second.fresh v i h with opened | ⟨unseen, late⟩
    · exact first.fresh v i opened
    · exact .inr ⟨first.unseen unseen, first.clock.trans late⟩

def remaining (g : Digraph) (s : Search) : Finset Nat :=
  (Finset.range g.size).filter fun v => s.mark v = .unseen

theorem Later.remaining_subset (later : Later s t) (g : Digraph) :
    remaining g t ⊆ remaining g s := by
  intro v
  simp only [remaining, Finset.mem_filter]
  exact fun ⟨bound, unseen⟩ => ⟨bound, later.unseen unseen⟩

theorem lt_size_of_mark (valid : Valid g roots active s)
    (mark : s.mark v ≠ .closed) : v < g.size := by
  by_contra out
  rw [Search.mark, Array.getD_eq_getD_getElem?, Array.getElem?_eq_none (by rw [valid.size]; omega)]
    at mark
  exact mark rfl

theorem eq_of_index (valid : Valid g roots active s)
    (atV : s.mark v = .opened i) (atW : s.mark w = .opened i) : v = w := by
  by_contra distinct
  have symm : Std.Symm fun v w => ¬(s.mark v = .opened i ∧ s.mark w = .opened i) :=
    ⟨fun _ _ apart both => apart ⟨both.2, both.1⟩⟩
  have apart : s.stack.Pairwise fun v w => ¬(s.mark v = .opened i ∧ s.mark w = .opened i) :=
    valid.order.imp fun before ⟨first, second⟩ => Nat.lt_irrefl i (before i i first second)
  exact apart.forall ((valid.stacked v).mpr ⟨i, atV⟩) ((valid.stacked w).mpr ⟨i, atW⟩) distinct
    ⟨atV, atW⟩

section Enter

theorem mark_enter (bound : v < s.marks.size) (w : Nat) :
    (s.enter v).mark w = if w = v then .opened s.clock else s.mark w := by
  simp only [mark, enter, Array.getD_eq_getD_getElem?, Array.getElem?_setIfInBounds]
  split
  · next same =>
    subst same
    simp
  · next other => simp [Ne.symm other]

theorem later_enter (valid : Valid g roots active s) (unseen : s.mark v = .unseen) :
    Later s (s.enter v) := by
  have bound : v < s.marks.size := valid.size ▸ lt_size_of_mark valid (by simp [unseen])
  refine ⟨Nat.le_succ _, ?_, ?_, ?_⟩
  · intro w i atW
    have other : w ≠ v := by
      rintro rfl
      simp [unseen] at atW
    rwa [mark_enter bound, if_neg other]
  · intro w atW
    have other : w ≠ v := by
      rintro rfl
      simp [unseen] at atW
    rwa [mark_enter bound, if_neg other]
  · intro w i atW
    rw [mark_enter bound] at atW
    split at atW
    · next same =>
      obtain rfl := Mark.opened.inj atW
      exact .inr ⟨same ▸ unseen, le_rfl⟩
    · exact .inl atW

theorem valid_enter (valid : Valid g roots active s) (unseen : s.mark v = .unseen)
    (onward : ∀ z ∈ active, g.Reaches z v) (rooted : g.Reached roots v) :
    Valid g roots (insert v active) (s.enter v) := by
  have bound : v < s.marks.size := valid.size ▸ lt_size_of_mark valid (by simp [unseen])
  have later := later_enter valid unseen
  have reaches {x : Nat} {i : Nat} (atX : s.mark x = .opened i) : g.Reaches x v := by
    obtain ⟨z, member, _, _, _, path⟩ := valid.back x i atX
    exact path.trans (onward z member)
  have opened_iff (x i : Nat) : (s.enter v).mark x = .opened i ↔
      (x = v ∧ i = s.clock) ∨ s.mark x = .opened i := by
    rw [mark_enter bound]
    split
    · next same => subst same; simp [unseen, eq_comm]
    · next other => simp [other]
  have closed_iff (x : Nat) : (s.enter v).mark x = .closed ↔ s.mark x = .closed := by
    rw [mark_enter bound]
    split
    · next same => subst same; simp [unseen]
    · rfl
  constructor
  case size => simpa [enter] using valid.size
  case under =>
    rintro z (rfl | member)
    · exact ⟨s.clock, (opened_iff _ _).mpr (.inl ⟨rfl, rfl⟩)⟩
    · obtain ⟨i, atZ⟩ := valid.under z member
      exact ⟨i, later.opened z i atZ⟩
  case stacked =>
    intro x
    simp only [opened_iff, exists_or, exists_and_left, exists_eq, and_true, ← valid.stacked]
    exact List.mem_cons
  case recent =>
    intro x i atX
    rcases (opened_iff x i).mp atX with ⟨_, rfl⟩ | before
    · exact Nat.lt_succ_self _
    · exact (valid.recent x i before).trans (Nat.lt_succ_self _)
  case order =>
    refine List.pairwise_cons.mpr ⟨fun x member i j atV atX => ?_, ?_⟩
    · obtain ⟨k, before⟩ := (valid.stacked x).mp member
      obtain rfl := Mark.opened.inj ((later.opened x k before).symm.trans atX)
      rcases (opened_iff v i).mp atV with ⟨_, rfl⟩ | absurdity
      · exact valid.recent x k before
      · simp [unseen] at absurdity
    · refine valid.order.imp_of_mem fun {x y} memberX memberY apart i j atX atY => ?_
      obtain ⟨i', beforeX⟩ := (valid.stacked x).mp memberX
      obtain ⟨j', beforeY⟩ := (valid.stacked y).mp memberY
      obtain rfl := Mark.opened.inj ((later.opened x i' beforeX).symm.trans atX)
      obtain rfl := Mark.opened.inj ((later.opened y j' beforeY).symm.trans atY)
      exact apart i' j' beforeX beforeY
  case onward =>
    intro x y i j atX atY older
    rcases (opened_iff x i).mp atX with ⟨rfl, rfl⟩ | beforeX
    · rcases (opened_iff y j).mp atY with ⟨rfl, _⟩ | beforeY
      · exact .refl _
      · exact absurd (valid.recent y j beforeY) (Nat.not_lt.mpr older)
    · rcases (opened_iff y j).mp atY with ⟨rfl, _⟩ | beforeY
      · exact reaches beforeX
      · exact valid.onward x y i j beforeX beforeY older
  case back =>
    intro x i atX
    rcases (opened_iff x i).mp atX with ⟨rfl, rfl⟩ | before
    · exact ⟨x, Set.mem_insert _ _, s.clock, atX, le_rfl, .refl _⟩
    · obtain ⟨z, member, j, atZ, older, path⟩ := valid.back x i before
      exact ⟨z, Set.mem_insert_of_mem _ member, j, later.opened z j atZ, older, path⟩
  case left =>
    intro x i atX idle y edge
    rcases (opened_iff x i).mp atX with ⟨rfl, _⟩ | before
    · exact absurd (Set.mem_insert _ _) idle
    · exact fun late => valid.left x i before (fun member => idle (Set.mem_insert_of_mem _ member))
        y edge (later.unseen late)
  case closed =>
    intro x y bound atX edge
    exact later.closed y (valid.closed x y bound ((closed_iff x).mp atX) edge)
  case rooted =>
    intro x bound seen
    by_cases same : x = v
    · exact same ▸ rooted
    · rw [mark_enter (by assumption), if_neg same] at seen
      exact valid.rooted x bound seen
  case found =>
    intro x
    rw [closed_iff]
    exact valid.found x
  case nonempty => exact valid.nonempty
  case classes => exact valid.classes
  case apart => exact valid.apart

end Enter

/-- A number that tells how far down a visit has got: it is the index of an open node that was
reached, or the clock when the visit began. -/
def Low (g : Digraph) (s : Search) (v low : Nat) : Prop :=
  low = s.clock ∨ ∃ y, s.mark y = .opened low ∧ g.Reaches v y

structure Visited (g : Digraph) (roots : List Nat) (active : Set Nat) (v : Nat) (s : Search)
    (result : Nat × Search) : Prop where
  valid : Valid g roots active result.2
  later : Later s result.2
  seen : result.2.mark v ≠ .unseen
  lowest : Low g s v result.1
  leaving : ∀ x i y j, result.2.mark x = .opened i → s.clock ≤ i → g.Edge x y →
    s.mark y = .opened j → result.1 ≤ j

/-- A visit under way that still has to look at the nodes in `rest`. -/
structure Following (g : Digraph) (roots : List Nat) (active : Set Nat) (v : Nat) (s : Search)
    (rest : List Nat) (low : Nat) (t : Search) : Prop where
  valid : Valid g roots (insert v active) t
  later : Later (s.enter v) t
  lowest : Low g s v low
  leaving : ∀ x i y j, t.mark x = .opened i → s.clock < i → g.Edge x y → s.mark y = .opened j →
    low ≤ j
  done : ∀ w, g.Edge v w → w ∉ rest →
    t.mark w ≠ .unseen ∧ ∀ j, s.mark w = .opened j → low ≤ j

section Follow

theorem Low.le_clock (valid : Valid g roots active s) (h : Low g s v low) : low ≤ s.clock := by
  rcases h with rfl | ⟨y, atY, _⟩
  · exact le_rfl
  · exact (valid.recent y low atY).le

/-- An older node that was reached brings the number down. -/
theorem Low.min (valid : Valid g roots active s) (bound : v < s.marks.size) (h : Low g s v low)
    (later : Later (s.enter v) t) {reached : Nat}
    (source : t.clock ≤ reached ∨ ∃ y, t.mark y = .opened reached ∧ g.Reaches v y) :
    Low g s v (min low reached) := by
  have start := h.le_clock valid
  have clock : s.clock < t.clock := later.clock
  by_cases down : low ≤ reached
  · rwa [min_eq_left down]
  · rw [min_eq_right (by omega)]
    rcases source with late | ⟨y, atY, path⟩
    · omega
    · rcases later.fresh y reached atY with before | ⟨_, late⟩
      · rw [mark_enter bound] at before
        split at before
        · have := Mark.opened.inj before
          omega
        · exact .inr ⟨y, before, path⟩
      · have : s.clock < reached := late
        omega

theorem follow_spec {visit : Nat → Search → Nat × Search} (valid : Valid g roots active s)
    (unseen : s.mark v = .unseen) (onward : ∀ z ∈ active, g.Reaches z v)
    (rooted : g.Reached roots v)
    (visits : ∀ w t, Valid g roots (insert v active) t → t.mark w = .unseen →
      (∀ z ∈ insert v active, g.Reaches z w) → g.Reached roots w →
      remaining g t ⊆ remaining g (s.enter v) → Visited g roots (insert v active) w t (visit w t))
    {rest : List Nat} (edges : ∀ w ∈ rest, g.Edge v w)
    (following : Following g roots active v s rest low t) :
    Following g roots active v s [] (follow visit rest low t).1 (follow visit rest low t).2 := by
  have bound : v < s.marks.size := valid.size ▸ lt_size_of_mark valid (by simp [unseen])
  induction rest generalizing low t with
  | nil => exact following
  | cons w rest ih =>
    rw [List.forall_mem_cons] at edges
    obtain ⟨edge, edges⟩ := edges
    unfold follow
    cases here : t.mark w with
    | unseen =>
      have visited := visits w t following.valid here
        (by
          rintro z (rfl | member)
          · exact edge.reaches
          · exact (onward z member).trans edge.reaches)
        (rooted.next edge.reaches) (following.later.remaining_subset g)
      dsimp only
      generalize visit w t = result at visited
      obtain ⟨reached, u⟩ := result
      have source : t.clock ≤ reached ∨ ∃ y, t.mark y = .opened reached ∧ g.Reaches v y := by
        rcases visited.lowest with same | ⟨y, atY, path⟩
        · exact .inl same.ge
        · exact .inr ⟨y, atY, edge.reaches.trans path⟩
      refine ih edges ⟨visited.valid, following.later.trans visited.later,
        following.lowest.min valid bound following.later source, ?_, ?_⟩
      · intro x i y j atX late leaves atY
        have atY' : t.mark y = .opened j :=
          following.later.opened y j ((later_enter valid unseen).opened y j atY)
        rcases visited.later.fresh x i atX with before | ⟨_, fresh⟩
        · exact (min_le_left _ _).trans (following.leaving x i y j before late leaves atY)
        · exact (min_le_right _ _).trans (visited.leaving x i y j atX fresh leaves atY')
      · intro x leaves absent
        by_cases same : x = w
        · subst same
          refine ⟨visited.seen, fun j atX => ?_⟩
          have opened := following.later.opened x j ((later_enter valid unseen).opened x j atX)
          simp [here] at opened
        · obtain ⟨seen, bounded⟩ := following.done x leaves (by simp [same, absent])
          exact ⟨fun absurdity => seen (visited.later.unseen absurdity),
            fun j atX => (min_le_left _ _).trans (bounded j atX)⟩
    | opened index =>
      refine ih edges ⟨following.valid, following.later, following.lowest.min valid bound
        following.later (.inr ⟨w, here, edge.reaches⟩), ?_, ?_⟩
      · intro x i y j atX late leaves atY
        exact (min_le_left _ _).trans (following.leaving x i y j atX late leaves atY)
      · intro x leaves absent
        by_cases same : x = w
        · subst same
          refine ⟨by simp [here], fun j atX => ?_⟩
          have opened := following.later.opened x j ((later_enter valid unseen).opened x j atX)
          exact (min_le_right _ _).trans (Mark.opened.inj (here.symm.trans opened)).le
        · obtain ⟨seen, bounded⟩ := following.done x leaves (by simp [same, absent])
          exact ⟨seen, fun j atX => (min_le_left _ _).trans (bounded j atX)⟩
    | closed =>
      refine ih edges ⟨following.valid, following.later, following.lowest, following.leaving, ?_⟩
      intro x leaves absent
      by_cases same : x = w
      · subst same
        refine ⟨by simp [here], fun j atX => ?_⟩
        have opened := following.later.opened x j ((later_enter valid unseen).opened x j atX)
        simp [here] at opened
      · exact following.done x leaves (by simp [same, absent])

end Follow

end TemporalCheck.Digraph.Search
