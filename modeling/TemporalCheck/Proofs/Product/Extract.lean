import TemporalCheck.Proofs.Monitor.Exact
import TemporalCheck.Proofs.Product.Calls
import TemporalCheck.Proofs.Product.Lasso

/-! Lassos through any set of nodes, be it a component or not, with numbers in it that are no nodes.
What fails then is that the set is not reached, that a promise is out of reach inside, or that there
is no way back. -/
namespace TemporalCheck.Product

variable {State : Type} {p : Product State} {c : Component} {root current : NodeId}
  {pending : List Nat} {legs : Nat} {gap : LassoGap}

section Tour

/-- Every leg fulfils a promise, so that a tour does not run out of legs. -/
theorem tour_more (enough : pending.length ≤ legs) (more : Nat) :
    p.tour c root (legs + more) pending current = p.tour c root legs pending current := by
  induction legs generalizing pending current with
  | zero =>
    obtain rfl : pending = [] := List.eq_nil_of_length_eq_zero (by omega)
    rw [tour_nil, tour_nil]
  | succ legs ih =>
    cases pending with
    | nil => rw [tour_nil, tour_nil]
    | cons promise others =>
      rw [Nat.succ_add]
      cases found : p.pathWithin? c (fun v => (promise :: others).any (p.fulfils v)) current with
      | none => rw [tour_stuck found, tour_stuck found]
      | some path =>
        obtain ⟨_, _, v, last, arrived⟩ := pathWithin?_spec found
        have fewer : ((promise :: others).filter (!p.fulfils v ·)).length ≤ legs :=
          Nat.lt_succ_iff.mp ((length_filter_lt arrived).trans_le enough)
        rw [tour_cons found last, tour_cons found last, ih fewer]

theorem gap_of_tour (failed : p.tour c root legs pending current = .error gap) :
    gap = .promiseOutOfReach ∨ gap = .noWayBack := by
  have home {legs : Nat} {current : NodeId}
      (failed : p.tour c root legs [] current = .error gap) : gap = .noWayBack := by
    rw [tour_nil] at failed
    split at failed
    · exact (Except.error.inj failed).symm
    · contradiction
  induction legs generalizing pending current with
  | zero =>
    cases pending with
    | nil => exact .inr (home failed)
    | cons promise others => exact .inl (Except.error.inj failed).symm
  | succ legs ih =>
    cases pending with
    | nil => exact .inr (home failed)
    | cons promise others =>
      cases found : p.pathWithin? c (fun v => (promise :: others).any (p.fulfils v)) current with
      | none =>
        rw [tour_stuck found] at failed
        exact .inl (Except.error.inj failed).symm
      | some path =>
        obtain ⟨_, _, v, last, _⟩ := pathWithin?_spec found
        rw [tour_cons found last] at failed
        cases onward : p.tour c root legs ((promise :: others).filter (!p.fulfils v ·)) v with
        | error gap' =>
          rw [onward] at failed
          exact ih (Except.error.inj failed ▸ onward)
        | ok rest =>
          rw [onward] at failed
          contradiction

end Tour

section Gap

theorem gap_of_cycleFrom (failed : p.cycleFrom c root = .error gap) :
    gap = .promiseOutOfReach ∨ gap = .noWayBack := by
  unfold cycleFrom at failed
  dsimp only at failed
  split at failed
  · next toured => exact gap_of_tour (Except.error.inj failed ▸ toured)
  · contradiction

/-- Where no stem is found, no node of the set can be reached. -/
theorem unreached_of_stemTo (failed : p.stemTo c = .error gap) :
    gap = .unreached ∧ ∀ v ∈ c.nodes, ¬p.digraph.Reached p.initial.toList v := by
  unfold stemTo at failed
  split at failed
  · next missed =>
    refine ⟨(Except.error.inj failed).symm, fun v here ⟨r, source, bound, path⟩ => ?_⟩
    have absent := Digraph.no_goal_of_path?_none missed source bound rfl
      (Relation.ReflTransGen.mono (fun _ _ edge => ⟨edge, rfl⟩) _ _ path)
    simp [Component.contains, here] at absent
  · contradiction

/-- A stem that is found ends in a node of the set, which can be reached. -/
theorem reached_of_stemTo {stem : List NodeId} (found : p.stemTo c = .ok stem) :
    ∃ r ∈ c.nodes, stem.getLast? = some r ∧ p.digraph.Reached p.initial.toList r := by
  have leads := stemTo_spec found
  obtain ⟨u, source, head⟩ := leads.source
  obtain ⟨r, last, arrived⟩ := leads.arrives
  refine ⟨r, by simpa [Component.contains] using arrived, last, u, source, ?_, ?_⟩
  · exact (leads.within u (List.mem_of_head? head)).1
  · obtain ⟨rest, rfl⟩ := List.head?_eq_some_iff.mp head
    have ends : (u :: rest).getLast (List.cons_ne_nil u rest) = r :=
      Option.some.inj ((List.getLast?_eq_some_getLast _).symm.trans last)
    exact List.relationReflTransGen_of_exists_isChain_cons rest leads.edges ends

/-- The nodes of a path with an edge are nodes of the graph. -/
theorem lt_size_of_isChain {ids : List NodeId} (edges : ids.IsChain p.digraph.Edge)
    (long : 2 ≤ ids.length) : ∀ id ∈ ids, id < p.size := by
  intro id member
  obtain ⟨i, bound, rfl⟩ := List.mem_iff_getElem.mp member
  rw [← size_digraph]
  by_cases last : i + 1 < ids.length
  · exact (edges.getElem i last).source_lt_size
  · obtain ⟨j, rfl⟩ : ∃ j, i = j + 1 := ⟨i - 1, by omega⟩
    exact (edges.getElem j bound).lt_size

/-- If the lists of the product agree, there is a state for every node on the way, so that a lasso
is missed only where there is none to be had. -/
theorem gap_of_lasso (valid : p.Valid) (failed : p.lasso c = .error gap) :
    (gap = .unreached ∧ ∀ v ∈ c.nodes, ¬p.digraph.Reached p.initial.toList v) ∨
      ((gap = .promiseOutOfReach ∨ gap = .noWayBack) ∧
        (∃ v ∈ c.nodes, p.digraph.Reached p.initial.toList v) ∧
        ¬(p.Joined c ∧ p.Fulfilling c)) := by
  unfold lasso at failed
  cases way : p.stemTo c with
  | error gap' =>
    obtain rfl : gap' = gap := by simpa [way, bind, Except.bind] using failed
    exact .inl (unreached_of_stemTo way)
  | ok stem =>
    obtain ⟨r, here, last, reached⟩ := reached_of_stemTo way
    cases around : p.cycleFrom c r with
    | error gap' =>
      obtain rfl : gap' = gap := by simpa [way, last, around, bind, Except.bind] using failed
      refine .inr ⟨gap_of_cycleFrom around, ⟨r, here, reached⟩, fun ⟨joined, fulfilling⟩ => ?_⟩
      obtain ⟨stem', r', cycle, way', last', around'⟩ :=
        exists_loops joined fulfilling here reached
      obtain rfl := Except.ok.inj (way.symm.trans way')
      obtain rfl := Option.some.inj (last.symm.trans last')
      simp [around] at around'
    | ok cycle =>
      have loops := loops_of_found way last around
      obtain ⟨_, projectedStem⟩ := exists_project valid fun id member => by
        simpa using ((stemTo_spec way).within id member).1
      obtain ⟨_, projectedCycle⟩ :=
        exists_project valid (lt_size_of_isChain loops.cycleEdges loops.long)
      simp [way, last, around, projectedStem, projectedCycle, bind, Except.bind, pure,
        Except.pure] at failed

end Gap

/-- In a product grown by any calls, and for any set of numbers, a lasso that is taken stands on a
stem and a cycle of nodes; one is found whenever the set is reached, joined and fulfilling; and what
is reported otherwise is an unusable component, unreached just when none of its nodes is reached.
Neither a search nor a tour is ever cut short by its bound. -/
theorem lasso_correct (t : Tableau) (calls : List (Call State)) (c : Component) :
    let p := ({ tableau := t } : Product State).grow calls
    (∀ l, p.lasso c = .ok l → ∃ stem cycle, p.Loops c stem cycle ∧
      List.Forall₂ (fun id s => p.stateOf? id = some s) stem l.stem ∧
      List.Forall₂ (fun id s => p.stateOf? id = some s) cycle l.cycle) ∧
    (p.Joined c → p.Fulfilling c → (∃ v ∈ c.nodes, p.digraph.Reached p.initial.toList v) →
      ∃ l, p.lasso c = .ok l) ∧
    (∀ gap, p.lasso c = .error gap →
      (∃ detail, CheckError.ofGap c.size gap = .unusableComponent c.size detail) ∧
      (gap = .unreached ∧ (∀ v ∈ c.nodes, ¬p.digraph.Reached p.initial.toList v) ∨
        (gap = .promiseOutOfReach ∨ gap = .noWayBack) ∧
          (∃ v ∈ c.nodes, p.digraph.Reached p.initial.toList v) ∧
          ¬(p.Joined c ∧ p.Fulfilling c))) ∧
    (∀ inside goal sources more, p.digraph.path? inside goal sources =
      let (claimed, seen) :=
        Digraph.claim inside (Ascending.ofList sources) (Array.replicate p.digraph.size false)
      p.digraph.explore inside goal (p.digraph.size + more) (claimed.map (⟨·, []⟩)) seen) ∧
    ∀ root pending current more, p.tour c root (pending.length + more) pending current =
      p.tour c root pending.length pending current := by
  intro p
  have valid : p.Valid := valid_grow t calls
  refine ⟨fun l found => lasso_spec found, fun joined fulfilling ⟨v, here, reached⟩ =>
    exists_lasso valid joined fulfilling here reached, fun gap failed =>
    ⟨⟨gap.text, rfl⟩, gap_of_lasso valid failed⟩, p.digraph.path?_eq_explore,
    fun root pending current more => tour_more le_rfl more⟩

section Lamp

open Monitor (anything lamp)

/-- There is a lasso through both states of a lamp, but from the second state alone, together with a
number that is no node, there is no way back. -/
theorem lasso_correct_lamp :
    let p := ({ tableau := anything } : Product Bool).grow [.extendInitial lamp {} [⟨0, false⟩],
      .extend lamp {} 0 [⟨1, true⟩], .extend lamp {} 1 [⟨0, false⟩]]
    (p.lasso (.ofList [0, 1])).toOption = some ⟨[false], [false, true, false]⟩ ∧
      ¬(p.Joined (.ofList [1, 7]) ∧ p.Fulfilling (.ofList [1, 7])) := by
  intro p
  have failed : p.lasso (.ofList [1, 7]) = .error .noWayBack := by
    have unlooped : (match p.lasso (.ofList [1, 7]) with
        | .error gap => some gap
        | .ok _ => none) = some .noWayBack := by decide +kernel
    generalize p.lasso (.ofList [1, 7]) = result at unlooped
    cases result with
    | error gap => rw [Option.some.inj unlooped]
    | ok l => simp at unlooped
  refine ⟨by decide +kernel, ?_⟩
  obtain ⟨_, _, gaps, _⟩ := lasso_correct anything [.extendInitial lamp {} [⟨0, false⟩],
    .extend lamp {} 0 [⟨1, true⟩], .extend lamp {} 1 [⟨0, false⟩]] (.ofList [1, 7])
  rcases (gaps .noWayBack failed).2 with ⟨unreached, _⟩ | ⟨_, _, apart⟩
  · contradiction
  · exact apart

end Lamp

end TemporalCheck.Product
