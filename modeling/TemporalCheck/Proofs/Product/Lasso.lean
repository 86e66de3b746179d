import TemporalCheck.Lasso
import TemporalCheck.Proofs.Digraph.Path
import TemporalCheck.Proofs.Product.Scan

/-! Lassos of nodes. What is taken for a lasso is a path from an initial node and a closed walk that
fulfils every promise, and every set that is joined and fulfilling has one. -/
namespace TemporalCheck.Product

variable {State : Type} {p : Product State} {c : Component} {goal : NodeId → Bool}
  {root current source : NodeId} {pending : List Nat} {legs : Nat}

/-- The stem leads from an initial node to the first node in the component on its way, and the cycle
leads from there through the component back to it, past a node for every promise. -/
structure Loops (p : Product State) (c : Component) (stem cycle : List NodeId) : Prop where
  starts : ∃ v ∈ p.initial, stem.head? = some v
  stemEdges : stem.IsChain p.digraph.Edge
  cycleEdges : cycle.IsChain p.digraph.Edge
  joint : ∃ r, stem.getLast? = some r ∧ cycle.head? = some r ∧ cycle.getLast? = some r
  long : 2 ≤ cycle.length
  outside : ∀ v ∈ stem.dropLast, v ∉ c.nodes
  inside : ∀ v ∈ cycle, v ∈ c.nodes
  fulfilled : ∀ promise < p.tableau.promises.length, ∃ v ∈ cycle, p.fulfils v promise = true

section Walk

theorem pathWithin?_spec {path : List NodeId} (found : p.pathWithin? c goal source = some path) :
    (source :: path).IsChain p.digraph.Edge ∧ (∀ v ∈ path, v ∈ c.nodes) ∧
      ∃ v, path.getLast? = some v ∧ goal v = true := by
  have leads := Digraph.path?_leads found
  obtain ⟨w, edge, head⟩ := leads.source
  refine ⟨List.isChain_cons.mpr ⟨?_, leads.edges⟩, fun v member => ?_, leads.arrives⟩
  · rintro x first
    obtain rfl := Option.some.inj (head.symm.trans first)
    exact edge
  · simpa [Component.contains] using (leads.within v member).2

theorem tour_nil : p.tour c root legs [] current =
    match p.pathWithin? c (· == root) current with
    | none => .error .noWayBack
    | some path => .ok path := by
  cases legs <;> rfl

theorem tour_stuck {promise : Nat} {others : List Nat}
    (missed : p.pathWithin? c (fun v => (promise :: others).any (p.fulfils v)) current = none) :
    p.tour c root (legs + 1) (promise :: others) current = .error .promiseOutOfReach := by
  simp only [tour, missed]

theorem tour_cons {promise : Nat} {others path : List Nat} {v : NodeId}
    (found : p.pathWithin? c (fun v => (promise :: others).any (p.fulfils v)) current = some path)
    (last : path.getLast? = some v) : p.tour c root (legs + 1) (promise :: others) current =
      (p.tour c root legs ((promise :: others).filter (!p.fulfils v ·)) v).map (path ++ ·) := by
  conv_lhs => unfold tour
  simp only [found, last, Option.getD_some]
  cases p.tour c root legs ((promise :: others).filter (!p.fulfils v ·)) v <;> rfl

theorem length_filter_lt {v : NodeId} (arrived : pending.any (p.fulfils v) = true) :
    (pending.filter (!p.fulfils v ·)).length < pending.length := by
  obtain ⟨promise, member, done⟩ := List.any_eq_true.mp arrived
  exact List.length_filter_lt_length_iff_exists.mpr ⟨promise, member, by simp [done]⟩

theorem tour_nil_spec {walk : List NodeId} (found : p.tour c root legs [] current = .ok walk) :
    (current :: walk).IsChain p.digraph.Edge ∧ walk.getLast? = some root ∧
      ∀ v ∈ walk, v ∈ c.nodes := by
  rw [tour_nil] at found
  cases way : p.pathWithin? c (· == root) current with
  | none => simp [way] at found
  | some path =>
    obtain rfl : path = walk := by simpa [way] using found
    obtain ⟨edges, inside, v, last, arrived⟩ := pathWithin?_spec way
    obtain rfl : v = root := by simpa using arrived
    exact ⟨edges, last, inside⟩

/-- A tour is a walk inside the component that ends at the root and leaves no promise pending. -/
theorem tour_spec {walk : List NodeId} (found : p.tour c root legs pending current = .ok walk) :
    (current :: walk).IsChain p.digraph.Edge ∧ walk.getLast? = some root ∧
      (∀ v ∈ walk, v ∈ c.nodes) ∧ ∀ promise ∈ pending, ∃ v ∈ walk, p.fulfils v promise = true := by
  have home {legs : Nat} {current : NodeId} {walk : List NodeId}
      (found : p.tour c root legs [] current = .ok walk) :
      (current :: walk).IsChain p.digraph.Edge ∧ walk.getLast? = some root ∧
        (∀ v ∈ walk, v ∈ c.nodes) ∧ ∀ promise ∈ [], ∃ v ∈ walk, p.fulfils v promise = true := by
    obtain ⟨edges, last, inside⟩ := tour_nil_spec found
    exact ⟨edges, last, inside, by simp⟩
  induction legs generalizing pending current walk with
  | zero =>
    cases pending with
    | nil => exact home found
    | cons promise others => simp [tour] at found
  | succ legs ih =>
    cases pending with
    | nil => exact home found
    | cons promise others =>
      cases way : p.pathWithin? c (fun v => (promise :: others).any (p.fulfils v)) current with
      | none => simp [tour_stuck way] at found
      | some path =>
        obtain ⟨edges, inside, v, last, arrived⟩ := pathWithin?_spec way
        rw [tour_cons way last] at found
        cases onward : p.tour c root legs ((promise :: others).filter (!p.fulfils v ·)) v with
        | error gap => simp [onward, Except.map] at found
        | ok rest =>
          obtain rfl : path ++ rest = walk := by simpa [onward, Except.map] using found
          obtain ⟨edges', last', inside', fulfilled⟩ := ih onward
          refine ⟨?_, ?_, fun w member => ?_, fun kept asked => ?_⟩
          · rw [← List.cons_append, List.isChain_append]
            refine ⟨edges, (List.isChain_cons.mp edges').2, fun x end_ y head => ?_⟩
            rw [List.getLast?_cons, last, Option.getD_some] at end_
            obtain rfl := Option.some.inj end_
            exact (List.isChain_cons.mp edges').1 y head
          · rw [List.getLast?_append, last', Option.some_or]
          · rcases List.mem_append.mp member with here | there
            · exact inside w here
            · exact inside' w there
          · by_cases here : p.fulfils v kept = true
            · exact ⟨v, List.mem_append_left _ (List.mem_of_getLast? last), here⟩
            · obtain ⟨w, member, done⟩ :=
                fulfilled kept (List.mem_filter.mpr ⟨asked, by simpa using here⟩)
              exact ⟨w, List.mem_append_right _ member, done⟩

theorem exists_pathWithin? (goal : NodeId → Bool) (joined : p.Joined c) {v : NodeId}
    (here : source ∈ c.nodes) (there : v ∈ c.nodes) (aim : goal v = true) :
    ∃ path, p.pathWithin? c goal source = some path := by
  cases found : p.pathWithin? c goal source with
  | some path => exact ⟨path, rfl⟩
  | none =>
    obtain ⟨w, inside, edge, path⟩ := joined source here v there
    have missed := Digraph.no_goal_of_path?_none found edge edge.lt_size
      (by simpa [Component.contains] using inside) path
    simp [aim] at missed

/-- In a joined component that fulfils what is pending there is a tour. -/
theorem exists_tour (joined : p.Joined c) (rootInside : root ∈ c.nodes) (here : current ∈ c.nodes)
    (enough : pending.length ≤ legs)
    (fulfilling : ∀ promise ∈ pending, ∃ v ∈ c.nodes, p.fulfils v promise = true) :
    ∃ walk, p.tour c root legs pending current = .ok walk := by
  have home (legs : Nat) {current : NodeId} (here : current ∈ c.nodes) :
      ∃ walk, p.tour c root legs [] current = .ok walk := by
    obtain ⟨path, found⟩ := exists_pathWithin? (· == root) joined here rootInside (by simp)
    exact ⟨path, by rw [tour_nil, found]⟩
  induction legs generalizing pending current with
  | zero =>
    obtain rfl : pending = [] := List.eq_nil_of_length_eq_zero (by omega)
    exact home 0 here
  | succ legs ih =>
    cases pending with
    | nil => exact home (legs + 1) here
    | cons promise others =>
      obtain ⟨v, there, kept⟩ := fulfilling promise List.mem_cons_self
      obtain ⟨path, found⟩ := exists_pathWithin?
        (fun v => (promise :: others).any (p.fulfils v)) joined here there (by simp [kept])
      obtain ⟨_, inside, w, last, arrived⟩ := pathWithin?_spec found
      have fewer : ((promise :: others).filter (!p.fulfils w ·)).length ≤ legs :=
        Nat.lt_succ_iff.mp ((length_filter_lt arrived).trans_le enough)
      obtain ⟨rest, onward⟩ := ih (inside w (List.mem_of_getLast? last)) fewer
        fun promise asked => fulfilling promise (List.mem_of_mem_filter asked)
      exact ⟨path ++ rest, by rw [tour_cons found last, onward, Except.map]⟩

end Walk

section Project

theorem project_spec {ids : List NodeId} {states : List State}
    (projected : p.project ids = .ok states) :
    List.Forall₂ (fun id s => p.stateOf? id = some s) ids states := by
  induction ids generalizing states with
  | nil =>
    obtain rfl : [] = states := by simpa [project] using projected
    exact .nil
  | cons id rest ih =>
    unfold project at projected
    cases here : p.stateOf? id with
    | none => simp [here] at projected
    | some s =>
      cases there : p.project rest with
      | error gap => simp [here, there] at projected
      | ok others =>
        obtain rfl : s :: others = states := by simpa [here, there] using projected
        exact .cons here (ih there)

theorem stateOf?_of_lt (valid : p.Valid) {id : NodeId} (bound : id < p.size) :
    ∃ s, p.stateOf? id = some s := by
  have at_id := Array.getElem?_eq_getElem bound
  obtain ⟨s, found⟩ := (valid.stored p.nodes[id].key.fingerprint).mpr
    ⟨id, (valid.column _ id).mpr ⟨_, at_id, rfl⟩⟩
  exact ⟨s, by simp only [stateOf?, at_id, Option.bind_some, found]⟩

theorem exists_project (valid : p.Valid) {ids : List NodeId} (bounded : ∀ id ∈ ids, id < p.size) :
    ∃ states, p.project ids = .ok states := by
  induction ids with
  | nil => exact ⟨[], rfl⟩
  | cons id rest ih =>
    rw [List.forall_mem_cons] at bounded
    obtain ⟨s, here⟩ := stateOf?_of_lt valid bounded.1
    obtain ⟨others, there⟩ := ih bounded.2
    exact ⟨s :: others, by simp [project, here, there]⟩

end Project

section Lasso

theorem stemTo_spec {stem : List NodeId} (found : p.stemTo c = .ok stem) :
    Digraph.Leads p.digraph (fun _ => true) c.contains p.initial.toList stem := by
  unfold stemTo at found
  cases way : p.digraph.path? (fun _ => true) c.contains p.initial.toList with
  | none => simp [way] at found
  | some path =>
    obtain rfl : path = stem := by simpa [way] using found
    exact Digraph.path?_leads way

theorem cycleFrom_spec {cycle : List NodeId} (found : p.cycleFrom c root = .ok cycle) :
    cycle.IsChain p.digraph.Edge ∧ cycle.head? = some root ∧ cycle.getLast? = some root ∧
      2 ≤ cycle.length ∧ (∀ v ∈ cycle, v = root ∨ v ∈ c.nodes) ∧
      ∀ promise < p.tableau.promises.length, ∃ v ∈ cycle, p.fulfils v promise = true := by
  unfold cycleFrom at found
  dsimp only at found
  split at found
  · contradiction
  · next walk toured =>
    obtain rfl := Except.ok.inj found
    obtain ⟨edges, last, inside, fulfilled⟩ := tour_spec toured
    refine ⟨edges, rfl, by rw [List.getLast?_cons, last, Option.getD_some], ?_, ?_, ?_⟩
    · cases walk with
      | nil => simp at last
      | cons v rest => simp
    · intro v member
      exact (List.mem_cons.mp member).imp_right (inside v)
    · intro promise bound
      by_cases here : p.fulfils root promise = true
      · exact ⟨root, List.mem_cons_self, here⟩
      · obtain ⟨v, member, kept⟩ := fulfilled promise
          (List.mem_filter.mpr ⟨List.mem_range.mpr bound, by simpa using here⟩)
        exact ⟨v, List.mem_cons_of_mem _ member, kept⟩

theorem loops_of_found {stem cycle : List NodeId} (way : p.stemTo c = .ok stem)
    (last : stem.getLast? = some root) (around : p.cycleFrom c root = .ok cycle) :
    p.Loops c stem cycle := by
  have leads := stemTo_spec way
  obtain ⟨v, source, first⟩ := leads.source
  obtain ⟨r, last', arrived⟩ := leads.arrives
  obtain rfl := Option.some.inj (last.symm.trans last')
  obtain ⟨edges, head, last', long, inside, fulfilled⟩ := cycleFrom_spec around
  have rootInside : root ∈ c.nodes := by simpa [Component.contains] using arrived
  refine ⟨⟨v, Array.mem_toList_iff.mp source, first⟩, leads.edges, edges,
    ⟨root, last, head, last'⟩, long, fun v member => ?_, fun v member => ?_, fulfilled⟩
  · simpa [Component.contains] using leads.first v member
  · rcases inside v member with rfl | here
    · exact rootInside
    · exact here

/-- A lasso comes from the stem and the cycle that are found. -/
theorem exists_parts {l : Lasso State} (found : p.lasso c = .ok l) :
    ∃ stem r cycle, p.stemTo c = .ok stem ∧ stem.getLast? = some r ∧
      p.cycleFrom c r = .ok cycle ∧
      List.Forall₂ (fun id s => p.stateOf? id = some s) stem l.stem ∧
      List.Forall₂ (fun id s => p.stateOf? id = some s) cycle l.cycle := by
  unfold lasso at found
  cases way : p.stemTo c with
  | error gap => simp [way, bind, Except.bind] at found
  | ok stem =>
    obtain ⟨r, last, _⟩ := (stemTo_spec way).arrives
    cases around : p.cycleFrom c r with
    | error gap => simp [way, last, around, bind, Except.bind] at found
    | ok cycle =>
      cases projectedStem : p.project stem with
      | error gap => simp [way, last, around, projectedStem, bind, Except.bind] at found
      | ok stemStates =>
        cases projectedCycle : p.project cycle with
        | error gap =>
          simp [way, last, around, projectedStem, projectedCycle, bind, Except.bind] at found
        | ok cycleStates =>
          obtain rfl : ⟨stemStates, cycleStates⟩ = l := by
            simpa [way, last, around, projectedStem, projectedCycle, bind, Except.bind, pure,
              Except.pure] using found
          exact ⟨stem, r, cycle, rfl, last, around, project_spec projectedStem,
            project_spec projectedCycle⟩

/-- A lasso stands on a stem and a cycle of nodes. -/
theorem lasso_spec {l : Lasso State} (found : p.lasso c = .ok l) :
    ∃ stem cycle, p.Loops c stem cycle ∧
      List.Forall₂ (fun id s => p.stateOf? id = some s) stem l.stem ∧
      List.Forall₂ (fun id s => p.stateOf? id = some s) cycle l.cycle := by
  obtain ⟨stem, r, cycle, way, last, around, stems, cycles⟩ := exists_parts found
  exact ⟨stem, cycle, loops_of_found way last around, stems, cycles⟩

/-- In a joined and fulfilling set of nodes, one of which is reached from an initial node, a stem
and a cycle are found. -/
theorem exists_loops (joined : p.Joined c) (fulfilling : p.Fulfilling c) {v : NodeId}
    (here : v ∈ c.nodes) (reached : p.digraph.Reached p.initial.toList v) :
    ∃ stem r cycle, p.stemTo c = .ok stem ∧ stem.getLast? = some r ∧
      p.cycleFrom c r = .ok cycle := by
  obtain ⟨stem, found⟩ : ∃ stem, p.stemTo c = .ok stem := by
    unfold stemTo
    cases way : p.digraph.path? (fun _ => true) c.contains p.initial.toList with
    | some path => exact ⟨path, rfl⟩
    | none =>
      obtain ⟨r, source, bound, path⟩ := reached
      have missed := Digraph.no_goal_of_path?_none way source bound rfl
        (Relation.ReflTransGen.mono (fun _ _ edge => ⟨edge, rfl⟩) _ _ path)
      exact absurd (by simpa [Component.contains] using here) (Bool.eq_false_iff.mp missed)
  obtain ⟨r, last, arrived⟩ := (stemTo_spec found).arrives
  have rootInside : r ∈ c.nodes := by simpa [Component.contains] using arrived
  have asked : ∀ promise ∈ (List.range p.tableau.promises.length).filter (!p.fulfils r ·),
      ∃ v ∈ c.nodes, p.fulfils v promise = true := fun promise member =>
    fulfilling promise (List.mem_range.mp (List.mem_of_mem_filter member))
  obtain ⟨walk, toured⟩ := exists_tour joined rootInside rootInside le_rfl asked
  exact ⟨stem, r, r :: walk, found, last, by simp [cycleFrom, toured]⟩

/-- If the lists of the product agree, they are the nodes of a lasso. -/
theorem exists_lasso (valid : p.Valid) (joined : p.Joined c) (fulfilling : p.Fulfilling c)
    {v : NodeId} (here : v ∈ c.nodes) (reached : p.digraph.Reached p.initial.toList v) :
    ∃ l, p.lasso c = .ok l := by
  obtain ⟨stem, r, cycle, found, last, around⟩ := exists_loops joined fulfilling here reached
  obtain ⟨stemStates, projectedStem⟩ : ∃ states, p.project stem = .ok states :=
    exists_project valid fun id member => by simpa using ((stemTo_spec found).within id member).1
  obtain ⟨cycleStates, projectedCycle⟩ : ∃ states, p.project cycle = .ok states :=
    exists_project valid fun id member =>
      joined.lt_size ((loops_of_found found last around).inside id member)
  exact ⟨⟨stemStates, cycleStates⟩, by
    simp [lasso, found, last, around, projectedStem, projectedCycle, bind, Except.bind, pure,
      Except.pure]⟩

theorem joined_of_violating (member : c ∈ p.reachableComponents)
    (violating : p.isViolating c = true) : p.Joined c := by
  obtain ⟨component, _, ⟨u, hereU, v, hereV, edge⟩, _⟩ :=
    mem_reachableComponents_violating_iff.mp ⟨member, violating⟩
  exact joined_of_edge component hereU hereV edge

/-- So every violating component that a scan reports has a lasso. -/
theorem exists_lasso_of_violating (valid : p.Valid) (member : c ∈ p.reachableComponents)
    (violating : p.isViolating c = true) : ∃ l, p.lasso c = .ok l := by
  obtain ⟨_, ⟨v, here, reached⟩, _, fulfilling⟩ :=
    mem_reachableComponents_violating_iff.mp ⟨member, violating⟩
  exact exists_lasso valid (joined_of_violating member violating) fulfilling here reached

end Lasso
end TemporalCheck.Product
