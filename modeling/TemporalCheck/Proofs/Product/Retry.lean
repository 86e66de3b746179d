import TemporalCheck.Proofs.Product.Repeat

/-! A call that is stopped by an error, and the same call made again. What it had added stays, is
found again the second time, and nothing is added twice, so that in the end the product is the one
that a single call would have made. -/
namespace TemporalCheck

variable {State : Type} {model model' : Model State} {s t : Session}

def Model.AnswersAll (model : Model State) : Prop :=
  ∀ predicate state next, ∃ answer, model.holds predicate state next = .ok answer

structure Growth.Alike (g g' : Growth State) : Prop where
  product : g'.product = g.product
  failure : g'.failure = g.failure
  memory : g.session.SameMemory g'.session

theorem Growth.Alike.trans {g g' g'' : Growth State} (first : g.Alike g') (second : g'.Alike g'') :
    g.Alike g'' :=
  ⟨second.product.trans first.product, second.failure.trans first.failure,
    first.memory.trans second.memory⟩

/-- What had been added before makes no difference. -/
theorem Growth.Alike.after {g g' : Growth State} (alike : g.Alike g')
    (created earlier : List NodeId) : (g.after created).Alike (g'.after earlier) :=
  ⟨alike.product, alike.failure, alike.memory⟩

theorem Growth.Alike.onto {g g' : Growth State} (alike : g.Alike g')
    {f : Product State → Session → Growth State}
    (congr : ∀ (p : Product State) {s t : Session}, s.SameMemory t → (f p s).Alike (f p t)) :
    (g.onto f).Alike (g'.onto f) := by
  unfold Growth.onto
  rw [alike.failure]
  cases g.failure with
  | some e => exact alike
  | none => exact (alike.product ▸ congr g.product alike.memory : Growth.Alike _ _).after _ _

namespace Product

variable {p q : Product State} {id : NodeId} {next : List (Keyed State)} {e : EvalError}

section Node

theorem settle_alike {x y : Except EvalError (List (Keyed State × TableauId)) × Session}
    (same : Session.SameOutcome x y) : (p.settle id x).Alike (p.settle id y) := by
  obtain ⟨result, s⟩ := x
  obtain ⟨result', t⟩ := y
  obtain ⟨outcome, memory⟩ := same
  obtain rfl : result' = result := outcome
  cases result' with
  | error e => exact ⟨rfl, rfl, memory⟩
  | ok chosen => exact ⟨rfl, rfl, memory⟩

theorem expandNode_congr (model : Model State) (id : NodeId) (next : List (Keyed State))
    (same : s.SameMemory t) :
    (p.expandNode model s id next).Alike (p.expandNode model t id next) := by
  rw [expandNode_eq, expandNode_eq]
  exact settle_alike ((Session.replays_select _).congr model same)

/-- An error in expanding a node leaves the product as it was. -/
theorem exists_error (failed : (p.expandNode model s id next).failure = some e) :
    s.select model (p.onward id next) = (.error e, (p.expandNode model s id next).session) ∧
      (p.expandNode model s id next).product = p := by
  rw [expandNode_eq] at failed ⊢
  cases selected : s.select model (p.onward id next) with
  | mk result s' =>
    rw [selected] at failed
    cases result with
    | error e' =>
      obtain rfl : e' = e := Option.some.inj failed
      exact ⟨rfl, rfl⟩
    | ok chosen => simp [settle] at failed

theorem expandNode_agree (done : (p.expandNode model s id next).failure = none)
    (concurs : model.Concurs model' (s.askedFor model (p.onward id next))) :
    p.expandNode model' s id next = p.expandNode model s id next := by
  obtain ⟨chosen, selected, _⟩ := exists_chosen done
  have again := (Session.replays_select _).agree selected concurs
  rw [expandNode_eq, expandNode_eq, again, selected]

/-- After an error a node is expanded as if nothing had been tried. -/
theorem expandNode_retry (failed : (p.expandNode model s id next).failure = some e)
    (concurs : model.Concurs model' (s.askedFor model (p.onward id next))) :
    (p.expandNode model' s id next).Alike
      (p.expandNode model' (p.expandNode model s id next).session id next) := by
  obtain ⟨selected, _⟩ := exists_error failed
  have retried := (Session.replays_select _).retry selected concurs
  rw [expandNode_eq (s := s), expandNode_eq (s := (p.expandNode model s id next).session)]
  exact settle_alike retried

end Node

section Starts

variable {k : Keyed State} {tab : TableauId} {conditions : List (Condition State)}
  {starts : List ((Keyed State × TableauId) × List (Condition State))} {s' : Session}

/-- Sessions that judge the first start alike make it all alike. -/
theorem beginAll_cons_congr
    (onward : ∀ (p : Product State) {s t : Session}, s.SameMemory t →
      (beginAll model starts p s).Alike (beginAll model starts p t))
    (same : Session.SameOutcome (s.testAll model conditions) (t.testAll model conditions)) :
    (beginAll model (((k, tab), conditions) :: starts) p s).Alike
      (beginAll model (((k, tab), conditions) :: starts) p t) := by
  cases tested : s.testAll model conditions with
  | mk result s' =>
    cases tested' : t.testAll model conditions with
    | mk result' t' =>
      rw [tested, tested'] at same
      obtain ⟨outcome, memory⟩ := same
      obtain rfl : result' = result := outcome
      cases result' with
      | error e =>
        rw [beginAll_of_refused tested, beginAll_of_refused tested']
        exact ⟨rfl, rfl, memory⟩
      | ok admitted =>
        rw [beginAll_of_tested tested, beginAll_of_tested tested']
        exact (onward _ memory).after _ _

theorem beginAll_congr (model : Model State)
    (starts : List ((Keyed State × TableauId) × List (Condition State))) (p : Product State)
    (same : s.SameMemory t) : (beginAll model starts p s).Alike (beginAll model starts p t) := by
  induction starts generalizing p s t with
  | nil => exact ⟨rfl, rfl, same⟩
  | cons start rest ih =>
    obtain ⟨⟨k, tab⟩, conditions⟩ := start
    exact beginAll_cons_congr (fun p => ih p)
      ((Session.replays_testAll conditions).congr model same)

/-- The starts are taken up to the first that the model refuses to judge. -/
theorem beginAll_failed (failed : (beginAll model starts p s).failure = some e) :
    ∃ before start after, starts = before ++ start :: after ∧
      (beginAll model before p s).failure = none ∧
      ((beginAll model before p s).session.testAll model start.2).1 = .error e ∧
      (beginAll model starts p s).product = (beginAll model before p s).product := by
  induction starts generalizing p s with
  | nil => simp [beginAll] at failed
  | cons start rest ih =>
    obtain ⟨⟨k, tab⟩, conditions⟩ := start
    cases tested : s.testAll model conditions with
    | mk result s' =>
      cases result with
      | error e' =>
        rw [beginAll_of_refused tested] at failed ⊢
        obtain rfl : e' = e := Option.some.inj failed
        exact ⟨[], ((k, tab), conditions), rest, rfl, rfl, congrArg Prod.fst tested, rfl⟩
      | ok admitted =>
        rw [beginAll_of_tested tested] at failed ⊢
        obtain ⟨before, start, after, rfl, done⟩ := ih failed
        refine ⟨((k, tab), conditions) :: before, start, after, rfl, ?_⟩
        rw [beginAll_of_tested tested]
        exact done

theorem beginAll_retry (valid : p.Valid) (failed : (beginAll model starts p s).failure = some e)
    (concurs : model.Concurs model' (s.askedFor model starts)) :
    (beginAll model' starts p s).Alike
      (beginAll model' starts (beginAll model starts p s).product
        (beginAll model starts p s).session) := by
  induction starts generalizing p s with
  | nil => simp [beginAll] at failed
  | cons start rest ih =>
    obtain ⟨⟨k, tab⟩, conditions⟩ := start
    have talk := Session.replays_testAll conditions
    cases tested : s.testAll model conditions with
    | mk result s' =>
      simp only [Session.askedFor, tested] at concurs
      obtain ⟨here, later⟩ := List.forall_mem_append.mp concurs
      cases result with
      | error e' =>
        rw [beginAll_of_refused tested]
        exact beginAll_cons_congr (fun p => beginAll_congr model' rest p)
          (talk.retry tested here)
      | ok admitted =>
        rw [beginAll_of_tested tested] at failed ⊢
        rw [beginAll_of_tested (talk.agree tested here)]
        obtain ⟨valid', again⟩ := begin_again valid k tab admitted
        have same := ih valid' failed later
        have built := (@beginAll_from _ _ model valid' rest s').built valid'
        obtain ⟨s'', tested', memory⟩ := talk.replay tested here beginAll_recalls
        rw [Growth.product_after, Growth.session_after, beginAll_of_tested tested',
          again _ built.valid built.within]
        exact (same.trans (beginAll_congr model' rest _ memory)).after _ _

end Starts

section Column

variable {source : Fingerprint}

def expandEach (model : Model State) (next : List (Keyed State)) :
    List NodeId → Product State → Session → Growth State
  | [], p, s => { product := p, session := s }
  | id :: rest, p, s => (p.expandNode model s id next).onto (expandEach model next rest)

def askedFrom (model : Model State) (source : Fingerprint) (next : List (Keyed State)) :
    (fuel i : Nat) → Product State → Session → List (Condition State)
  | 0, _, _, _ => []
  | fuel + 1, i, p, s =>
    match (p.nodesOn source)[i]? with
    | none => []
    | some id =>
      let grown := p.expandNode model s id next
      s.askedFor model (p.onward id next) ++
        match grown.failure with
        | some _ => []
        | none => askedFrom model source next fuel (i + 1) grown.product grown.session

variable {fuel i : Nat}

theorem extendFrom_congr (model : Model State) (source : Fingerprint) (next : List (Keyed State))
    (fuel i : Nat) (p : Product State) (same : s.SameMemory t) :
    (extendFrom model source next fuel i p s).Alike
      (extendFrom model source next fuel i p t) := by
  induction fuel generalizing i p s t with
  | zero => exact ⟨rfl, rfl, same⟩
  | succ fuel ih =>
    cases at_i : (p.nodesOn source)[i]? with
    | none =>
      rw [extendFrom, extendFrom, at_i]
      exact ⟨rfl, rfl, same⟩
    | some id =>
      rw [extendFrom_onto at_i, extendFrom_onto at_i]
      exact (expandNode_congr model id next same).onto fun p _ _ same => ih (i + 1) p same

/-- The nodes are expanded up to the first that the model refuses to judge. Those that come behind
it on the fingerprint may have been added on the way. -/
theorem extendFrom_failed (valid : p.Valid)
    (failed : (extendFrom model source next fuel i p s).failure = some e) :
    ∃ before id after, (expandEach model next before p s).product.nodesOn source =
        (p.nodesOn source).take i ++ before ++ id :: after ∧
      (expandEach model next before p s).failure = none ∧
      ((expandEach model next before p s).product.expandNode model
        (expandEach model next before p s).session id next).failure = some e ∧
      (extendFrom model source next fuel i p s).product =
        (expandEach model next before p s).product := by
  induction fuel generalizing i p s with
  | zero => simp [extendFrom] at failed
  | succ fuel ih =>
    cases at_i : (p.nodesOn source)[i]? with
    | none => simp [extendFrom, at_i] at failed
    | some id =>
      obtain ⟨bound, at_id⟩ := List.getElem?_eq_some_iff.mp at_i
      rw [extendFrom_onto at_i] at failed ⊢
      cases here : (p.expandNode model s id next).failure with
      | some e' =>
        rw [Growth.onto_of_failed here] at failed ⊢
        obtain rfl : e' = e := Option.some.inj (here.symm.trans failed)
        refine ⟨[], id, (p.nodesOn source).drop (i + 1), ?_, rfl, here, (exists_error here).2⟩
        rw [expandEach, List.append_nil, ← at_id, ← List.drop_eq_getElem_cons,
          List.take_append_drop]
      | none =>
        rw [Growth.onto_of_done here] at failed ⊢
        obtain ⟨valid', within⟩ := within_expandNode valid model s id next
        obtain ⟨before, id', after, column, complete, refused, same⟩ := ih valid' failed
        have onward : expandEach model next (id :: before) p s =
            (expandEach model next before (p.expandNode model s id next).product
              (p.expandNode model s id next).session).after
              (p.expandNode model s id next).created := by
          rw [expandEach, Growth.onto_of_done here]
        refine ⟨id :: before, id', after, ?_⟩
        rw [onward]
        refine ⟨?_, complete, refused, same⟩
        obtain ⟨added, longer⟩ := within.columns source
        rw [Growth.product_after, column, ← longer, List.take_append_of_le_length bound,
          List.take_add_one, at_i]
        simp

theorem extendFrom_retry (valid : p.Valid)
    (failed : (extendFrom model source next fuel i p s).failure = some e)
    (concurs : model.Concurs model' (askedFrom model source next fuel i p s)) :
    (extendFrom model' source next fuel i p s).Alike
      (extendFrom model' source next fuel i (extendFrom model source next fuel i p s).product
        (extendFrom model source next fuel i p s).session) := by
  induction fuel generalizing i p s with
  | zero => simp [extendFrom] at failed
  | succ fuel ih =>
    cases at_i : (p.nodesOn source)[i]? with
    | none => simp [extendFrom, at_i] at failed
    | some id =>
      simp only [askedFrom, at_i] at concurs
      obtain ⟨now, later⟩ := List.forall_mem_append.mp concurs
      have congr (p : Product State) {s t : Session} (same : s.SameMemory t) :=
        extendFrom_congr model' source next fuel (i + 1) p same
      cases here : (p.expandNode model s id next).failure with
      | some e' =>
        have stopped : extendFrom model source next (fuel + 1) i p s =
            p.expandNode model s id next := by
          rw [extendFrom_onto at_i, Growth.onto_of_failed here]
        rw [stopped, (exists_error here).2, extendFrom_onto at_i, extendFrom_onto at_i]
        exact (expandNode_retry here now).onto congr
      | none =>
        rw [here] at later
        have turn (model : Model State) := @extendFrom_onto _ model s p id next source fuel i at_i
        rw [turn, Growth.onto_of_done here] at failed
        rw [turn model, turn model', expandNode_agree here now, Growth.onto_of_done here,
          Growth.onto_of_done here, Growth.product_after, Growth.session_after]
        obtain ⟨valid', within⟩ := within_expandNode valid model s id next
        obtain ⟨validU, withinU⟩ := within_extendFrom valid' model source next fuel (i + 1)
          (p.expandNode model s id next).session
        have same := ih valid' failed later
        obtain ⟨node, at_id, _⟩ := (valid.column source id).mp (List.mem_of_getElem? at_i)
        obtain ⟨t', again, memory⟩ :=
          expandNode_again valid at_id here now (.refl next) validU withinU extendFrom_recalls
        generalize extendFrom model source next fuel (i + 1)
          (p.expandNode model s id next).product (p.expandNode model s id next).session = u at *
        obtain ⟨added, longer⟩ := (within.trans withinU).columns source
        have at_i' : (u.product.nodesOn source)[i]? = some id := by
          rw [← longer, List.getElem?_append_left (List.getElem?_eq_some_iff.mp at_i).1, at_i]
        rw [extendFrom_onto at_i', again, Growth.onto_of_done rfl]
        exact (same.trans (congr u.product memory)).after _ _

end Column

section Answers

variable (answers : model.AnswersAll)
include answers

theorem exists_tested (conditions : List (Condition State)) (s : Session) :
    ∃ holds s', s.testAll model conditions = (.ok holds, s') := by
  induction conditions generalizing s with
  | nil => exact ⟨true, s, rfl⟩
  | cons c rest ih =>
    obtain ⟨holds, s', tested⟩ : ∃ holds s', s.test model c = (.ok holds, s') := by
      cases known : s.remembered? c.question with
      | some answer => exact ⟨_, _, Session.test_known known⟩
      | none =>
        obtain ⟨answer, answered⟩ :=
          answers c.literal.predicate c.current.state (c.next.map (·.state))
        exact ⟨_, _, Session.test_answered known answered⟩
    simp only [Session.testAll, tested]
    cases holds with
    | true => exact ih s'
    | false => exact ⟨false, s', rfl⟩

theorem exists_selected {α : Type} (candidates : List (α × List (Condition State)))
    (s : Session) : ∃ chosen s', s.select model candidates = (.ok chosen, s') := by
  induction candidates generalizing s with
  | nil => exact ⟨[], s, rfl⟩
  | cons candidate rest ih =>
    obtain ⟨holds, s', tested⟩ := exists_tested answers candidate.2 s
    obtain ⟨others, s'', selected⟩ := ih s'
    simp only [Session.select, tested, selected]
    exact ⟨_, s'', rfl⟩

theorem expandNode_done (p : Product State) (s : Session) (id : NodeId)
    (next : List (Keyed State)) : (p.expandNode model s id next).failure = none := by
  obtain ⟨chosen, s', selected⟩ := exists_selected answers (p.onward id next) s
  rw [expandNode_eq, selected, settle]

theorem extendFrom_done (source : Fingerprint) (next : List (Keyed State)) (fuel i : Nat)
    (p : Product State) (s : Session) :
    (extendFrom model source next fuel i p s).failure = none := by
  induction fuel generalizing i p s with
  | zero => rfl
  | succ fuel ih =>
    cases at_i : (p.nodesOn source)[i]? with
    | none => rw [extendFrom, at_i]
    | some id =>
      rw [extendFrom_onto at_i, Growth.onto_of_done (expandNode_done answers p s id next)]
      exact ih _ _ _

theorem beginAll_done (starts : List ((Keyed State × TableauId) × List (Condition State)))
    (p : Product State) (s : Session) : (beginAll model starts p s).failure = none := by
  induction starts generalizing p s with
  | nil => rfl
  | cons start rest ih =>
    obtain ⟨⟨k, tab⟩, conditions⟩ := start
    obtain ⟨admitted, s', tested⟩ := exists_tested answers conditions s
    rw [beginAll_of_tested tested]
    exact ih _ _

end Answers

namespace Call

def asked (p : Product State) : Call State → List (Condition State)
  | .extendInitial model s states => s.askedFor model (p.starts states)
  | .extend model s source next => askedFrom model source next p.tableau.size 0 p s
  | .expandNode model s id next => s.askedFor model (p.onward id next)

/-- The call was stopped by the error and has left behind just what precedes it: all starts before
the one that the model refuses to judge, all expansions of nodes on the fingerprint before the one
that it refuses, or nothing. -/
def StoppedBy (p : Product State) (e : EvalError) : Call State → Prop
  | .extendInitial model s states => ∃ before start after,
    p.starts states = before ++ start :: after ∧
      let done := beginAll model before p s
      done.failure = none ∧ (done.session.testAll model start.2).1 = .error e ∧
        (p.extendInitial model s states).product = done.product
  | .extend model s source next => ∃ before id after,
    let done := expandEach model next before p s
    done.product.nodesOn source = before ++ id :: after ∧ done.failure = none ∧
      (done.product.expandNode model done.session id next).failure = some e ∧
        (p.extend model s source next).product = done.product
  | .expandNode model s id next => (p.expandNode model s id next).product = p

theorem stoppedBy (valid : p.Valid) {call : Call State} (failed : (call.run p).failure = some e) :
    call.StoppedBy p e := by
  cases call with
  | extendInitial model s states => exact beginAll_failed failed
  | extend model s source next =>
    obtain ⟨before, id, after, column, done⟩ := extendFrom_failed valid failed
    exact ⟨before, id, after, by simpa using column, done⟩
  | expandNode model s id next => exact (exists_error failed).2

theorem retry (valid : p.Valid) {call : Call State} (failed : (call.run p).failure = some e)
    (concurs : call.model.Concurs model (call.asked p)) :
    ((call.again model call.session).run p).Alike
      ((call.again model (call.run p).session).run (call.run p).product) := by
  have within := ((call.run_from valid).built valid).within
  cases call with
  | extendInitial first s states =>
    change Growth.Alike _ (beginAll model (starts _ states) _ _)
    rw [starts_within within]
    exact beginAll_retry valid failed concurs
  | extend first s source next =>
    change Growth.Alike _ (extendFrom model source next (Tableau.size _) 0 _ _)
    rw [within.tableau]
    exact extendFrom_retry valid failed concurs
  | expandNode first s id next =>
    change Growth.Alike _ (Product.expandNode
      (Product.expandNode p first s id next).product model _ id next)
    rw [(exists_error failed).2]
    exact expandNode_retry failed concurs

theorem done (answers : model.AnswersAll) (call : Call State) (s : Session) (p : Product State) :
    ((call.again model s).run p).failure = none := by
  cases call with
  | extendInitial _ _ states => exact beginAll_done answers (p.starts states) p s
  | extend _ _ source next => exact extendFrom_done answers source next _ 0 p s
  | expandNode _ _ id next => exact expandNode_done answers p s id next

end Call

/-- A call that an error stops leaves behind just what precedes the error. When it is made again in
the same session, with a model that concurs with the answers given so far, the product becomes the
one that this model would have made of the product before the call. -/
theorem stopped_call (t : Tableau) (calls : List (Call State)) (call : Call State)
    (e : EvalError) :
    let p := ({ tableau := t } : Product State).grow calls
    let stopped := call.run p
    stopped.failure = some e → call.StoppedBy p e ∧
      ∀ model, call.model.Concurs model (call.asked p) →
        let single := (call.again model call.session).run p
        let retried := (call.again model stopped.session).run stopped.product
        retried.product = single.product ∧ retried.failure = single.failure ∧
          (model.AnswersAll → single.failure = none) := by
  intro p stopped failed
  have valid : p.Valid := valid_grow t calls
  refine ⟨Call.stoppedBy valid failed, ?_⟩
  intro model concurs single retried
  have alike : single.Alike retried := Call.retry valid failed concurs
  exact ⟨alike.product, alike.failure, fun answers => Call.done answers call call.session p⟩

section Dim

open Monitor (lamp)

def dim : Model Bool :=
  { lamp with holds := fun p on _ => if p = 0 then .ok on else .error (.predicate p 0 "dark") }

/-- Expanding the first node on a lamp that is off adds a second one, which cannot be judged. -/
theorem stopped_call_dim :
    let p := ({ tableau := watched } : Product Bool).grow [.extendInitial dim {} [⟨0, false⟩]]
    let call : Call Bool := .extend dim {} 0 [⟨0, false⟩, ⟨1, true⟩]
    let stopped := call.run p
    let single := (call.again lamp {}).run p
    let retried := (call.again lamp stopped.session).run stopped.product
    stopped.failure = some (.predicate 1 0 "dark") ∧ call.StoppedBy p (.predicate 1 0 "dark") ∧
      dim.Concurs lamp (call.asked p) ∧ lamp.AnswersAll ∧
      p.nodesOn 0 = [0] ∧ stopped.product.nodesOn 0 = [0, 1] ∧ single.product.edgeCount = 3 ∧
      retried.product = single.product ∧ single.failure = none := by
  intro p call stopped single retried
  have failed : stopped.failure = some (.predicate 1 0 "dark") := by decide +kernel
  have concurs : dim.Concurs lamp (call.asked p) := by
    intro c _ answer answered
    by_cases state : c.literal.predicate = 0
    · simpa [Condition.answer, dim, lamp, state] using answered
    · simp [Condition.answer, dim, state] at answered
  have answers : lamp.AnswersAll := fun _ _ _ => ⟨_, rfl⟩
  obtain ⟨before, again⟩ := stopped_call watched _ call _ failed
  obtain ⟨same, _, complete⟩ := again lamp concurs
  exact ⟨failed, before, concurs, answers, by decide +kernel, by decide +kernel,
    by decide +kernel, same, complete answers⟩

end Dim

end Product
end TemporalCheck
