import TemporalCheck.Proofs.Session

/-! Talking to a model again after it has refused an answer. Whatever was answered before that is
answered in the same way again, from memory or by the model, so that the talk gets to the same
point, and from there on it is as if it had not been interrupted. -/
namespace TemporalCheck

variable {State α β : Type} {model model' : Model State} {s s' t u : Session}

namespace Condition

/-- What a session remembers the answer under. -/
def question (c : Condition State) : Question :=
  ⟨c.literal.predicate, c.current.fingerprint, c.next.map (·.fingerprint)⟩

def answer (model : Model State) (c : Condition State) : Except EvalError Bool :=
  model.holds c.literal.predicate c.current.state (c.next.map (·.state))

end Condition

def Model.Concurs (model model' : Model State) (asked : List (Condition State)) : Prop :=
  ∀ c ∈ asked, ∀ answer, c.answer model = .ok answer → c.answer model' = .ok answer

theorem Model.Concurs.refl {model : Model State} (asked : List (Condition State)) :
    model.Concurs model asked :=
  fun _ _ _ answered => answered

namespace Session

/-- The conditions that are put to the model when they are tested one after the other; what is
remembered is not. -/
def asked (model : Model State) : List (Condition State) → Session → List (Condition State)
  | [], _ => []
  | c :: rest, s =>
    (if s.remembered? c.question = none then [c] else []) ++
      match s.test model c with
      | (.ok true, s) => asked model rest s
      | _ => []

def askedFor (model : Model State) :
    List (α × List (Condition State)) → Session → List (Condition State)
  | [], _ => []
  | (_, conditions) :: rest, s =>
    s.asked model conditions ++
      match s.testAll model conditions with
      | (.ok _, s) => askedFor model rest s
      | (.error _, _) => []

section Memory

structure SameMemory (s t : Session) : Prop where
  remembers : t.remembers = s.remembers
  answers : t.answers = s.answers

structure Recalls (s t : Session) : Prop where
  remembers : t.remembers = s.remembers
  answers : ∀ q answer, s.remembered? q = some answer → t.remembered? q = some answer

theorem SameMemory.refl (s : Session) : s.SameMemory s := ⟨rfl, rfl⟩

theorem SameMemory.trans (first : s.SameMemory t) (second : t.SameMemory u) : s.SameMemory u :=
  ⟨second.remembers.trans first.remembers, second.answers.trans first.answers⟩

theorem SameMemory.remembered?_eq (same : s.SameMemory t) (q : Question) :
    t.remembered? q = s.remembered? q := by
  rw [remembered?, remembered?, same.remembers, same.answers]

theorem SameMemory.remember (same : s.SameMemory t) (q : Question) (answer : Bool) :
    (s.remember q answer).SameMemory (t.remember q answer) := by
  unfold Session.remember
  rw [same.remembers]
  split
  · exact ⟨rfl, congrArg (·.insert q answer) same.answers⟩
  · exact same

theorem sameMemory_count (s : Session) (calls : Calls) : s.SameMemory { s with calls := calls } :=
  ⟨rfl, rfl⟩

theorem SameMemory.recalls (same : s.SameMemory t) : s.Recalls t :=
  ⟨same.remembers, fun q _ known => (same.remembered?_eq q).trans known⟩

theorem Recalls.refl (s : Session) : s.Recalls s := ⟨rfl, fun _ _ known => known⟩

theorem Recalls.trans (first : s.Recalls t) (second : t.Recalls u) : s.Recalls u :=
  ⟨second.remembers.trans first.remembers,
    fun q answer known => second.answers q answer (first.answers q answer known)⟩

theorem recalls_remember {q : Question} (unknown : s.remembered? q = none) (answer : Bool) :
    s.Recalls (s.remember q answer) := by
  unfold remember
  split
  · next remembers =>
    refine ⟨rfl, fun q' answer' known => ?_⟩
    have other : q ≠ q' := by
      rintro rfl
      simp [unknown] at known
    simpa [remembered?, remembers, Std.TreeMap.getElem?_insert,
      Std.LawfulEqCmp.compare_eq_iff_eq, other] using known
  · exact .refl s

@[simp]
theorem calls_remember (q : Question) (answer : Bool) : (s.remember q answer).calls = s.calls := by
  unfold remember
  split <;> rfl

theorem remembers_remember (q : Question) (answer : Bool) :
    (s.remember q answer).remembers = s.remembers := by
  unfold remember
  split <;> rfl

theorem remember_of_forgets (forgets : s.remembers = false) (q : Question) (answer : Bool) :
    s.remember q answer = s := by
  simp [remember, forgets]

/-- A session that remembers at all remembers what it has just been told. -/
theorem remembered?_remember (q : Question) (answer : Bool) :
    (s.remember q answer).remembered? q = if s.remembers then some answer else none := by
  unfold remember remembered?
  split <;> simp_all

end Memory

section Test

variable {c : Condition State} {answer : Bool} {e : EvalError}

theorem test_known (known : s.remembered? c.question = some answer) : s.test model c =
    (.ok (answer == c.literal.positive), { s with calls.recalled := s.calls.recalled + 1 }) := by
  unfold Condition.question at known
  simp only [test, predicate, known]

theorem test_answered (unknown : s.remembered? c.question = none)
    (answered : c.answer model = .ok answer) : s.test model c =
      (.ok (answer == c.literal.positive),
        { s with calls.predicates := s.calls.predicates + 1 }.remember c.question answer) := by
  unfold Condition.question at unknown
  unfold Condition.answer at answered
  simp only [test, predicate, unknown, answered]
  rfl

theorem test_refused (unknown : s.remembered? c.question = none)
    (refused : c.answer model = .error e) : s.test model c =
      (.error e, { s with calls.predicates := s.calls.predicates + 1 }) := by
  unfold Condition.question at unknown
  unfold Condition.answer at refused
  simp only [test, predicate, unknown, refused]

end Test

def SameOutcome (x y : Except EvalError α × Session) : Prop := y.1 = x.1 ∧ x.2.SameMemory y.2

theorem SameOutcome.trans {x y z : Except EvalError α × Session} (first : SameOutcome x y)
    (second : SameOutcome y z) : SameOutcome x z :=
  ⟨second.1.trans first.1, first.2.trans second.2⟩

/-- What goes on from the same outcome comes to the same. -/
theorem sameOutcome_onward {x y : Except EvalError α × Session}
    {f : α → Session → Except EvalError β × Session}
    (congr : ∀ a {s t : Session}, s.SameMemory t → SameOutcome (f a s) (f a t)) :
    SameOutcome x y → SameOutcome
      (match x with
        | (.ok a, s) => f a s
        | (.error e, s) => (.error e, s))
      (match y with
        | (.ok a, s) => f a s
        | (.error e, s) => (.error e, s)) := by
  obtain ⟨result, s⟩ := x
  obtain ⟨result', t⟩ := y
  rintro ⟨outcome, memory⟩
  obtain rfl : result' = result := outcome
  cases result' with
  | ok a => exact congr a memory
  | error e => exact ⟨rfl, memory⟩

/-- A talk to a model, with what it puts to the model, which the session counts. It depends on what
the session remembers; a model that concurs lets it take the same course; when it is repeated it
comes to the same without anything new; and after a refusal it can be taken up again. -/
structure Replays (talk : Model State → Session → Except EvalError α × Session)
    (asked : Model State → Session → List (Condition State)) : Prop where
  counted : ∀ (model : Model State) (s : Session),
    (talk model s).2.calls.predicates = s.calls.predicates + (asked model s).length
  recalls : ∀ (model : Model State) (s : Session), s.Recalls (talk model s).2
  congr : ∀ (model : Model State) {s t : Session}, s.SameMemory t →
    SameOutcome (talk model s) (talk model t)
  agree : ∀ {model model' : Model State} {s u : Session} {a : α}, talk model s = (.ok a, u) →
    model.Concurs model' (asked model s) → talk model' s = (.ok a, u)
  replay : ∀ {model model' : Model State} {s t u : Session} {a : α}, talk model s = (.ok a, u) →
    model.Concurs model' (asked model s) → u.Recalls t →
    ∃ t', talk model' t = (.ok a, t') ∧ t.SameMemory t'
  retry : ∀ {model model' : Model State} {s u : Session} {e : EvalError},
    talk model s = (.error e, u) → model.Concurs model' (asked model s) →
    SameOutcome (talk model' s) (talk model' u)

namespace Replays

variable {talk : Model State → Session → Except EvalError α × Session}
  {asks : Model State → Session → List (Condition State)}

theorem silent (a : α) : Replays (fun (_ : Model State) s => (.ok a, s)) fun _ _ => [] where
  counted := fun _ _ => rfl
  recalls := fun _ s => .refl s
  congr := fun _ _ _ same => ⟨rfl, same⟩
  agree := fun silent _ => silent
  replay := by
    intro model model' s t u b silent _ _
    obtain rfl := Except.ok.inj (Prod.mk.inj silent).1
    exact ⟨t, rfl, .refl t⟩
  retry := fun failed _ => by simp at failed

/-- One talk after another. -/
theorem bind {onward : α → Model State → Session → Except EvalError β × Session}
    {asksOnward : α → Model State → Session → List (Condition State)} (first : Replays talk asks)
    (second : ∀ a, Replays (onward a) (asksOnward a)) :
    Replays
      (fun model s => match talk model s with
        | (.ok a, s) => onward a model s
        | (.error e, s) => (.error e, s))
      (fun model s => asks model s ++ match talk model s with
        | (.ok a, s) => asksOnward a model s
        | (.error _, _) => []) where
  counted := by
    intro model s
    have before := first.counted model s
    cases talked : talk model s with
    | mk result s₁ =>
      rw [talked] at before
      cases result with
      | ok a =>
        have after := (second a).counted model s₁
        dsimp only at before ⊢
        rw [after, before, List.length_append, Nat.add_assoc]
      | error e => simpa using before
  recalls := by
    intro model s
    have kept := first.recalls model s
    cases talked : talk model s with
    | mk result s₁ =>
      rw [talked] at kept
      cases result with
      | ok a => exact kept.trans ((second a).recalls model s₁)
      | error e => exact kept
  congr := fun model _ _ same =>
    sameOutcome_onward (fun a => (second a).congr model) (first.congr model same)
  agree := by
    intro model model' s u b talked concurs
    cases here : talk model s with
    | mk result s₁ =>
      rw [here] at talked concurs
      cases result with
      | error e => simp at talked
      | ok a =>
        obtain ⟨before, after⟩ := List.forall_mem_append.mp concurs
        rw [first.agree here before]
        exact (second a).agree talked after
  replay := by
    intro model model' s t u b talked concurs recalls
    cases here : talk model s with
    | mk result s₁ =>
      rw [here] at talked concurs
      cases result with
      | error e => simp at talked
      | ok a =>
        obtain ⟨before, after⟩ := List.forall_mem_append.mp concurs
        have onward := (second a).recalls model s₁
        dsimp only at talked
        rw [talked] at onward
        obtain ⟨t₁, again, same⟩ := first.replay here before (onward.trans recalls)
        rw [again]
        obtain ⟨t₂, again', same'⟩ := (second a).replay talked after (recalls.trans same.recalls)
        exact ⟨t₂, again', same.trans same'⟩
  retry := by
    intro model model' s u e failed concurs
    cases here : talk model s with
    | mk result s₁ =>
      rw [here] at failed concurs
      obtain ⟨before, after⟩ := List.forall_mem_append.mp concurs
      cases result with
      | error e' =>
        -- the first talk breaks off, and the second one begins only when it is repeated
        obtain ⟨-, rfl⟩ := Prod.mk.inj failed
        exact sameOutcome_onward (fun a => (second a).congr model') (first.retry here before)
      | ok a =>
        have onward := (second a).recalls model s₁
        dsimp only at failed
        rw [failed] at onward
        obtain ⟨u₁, again, same⟩ := first.replay here before onward
        rw [first.agree here before, again]
        exact ((second a).retry failed after).trans ((second a).congr model' same)

end Replays

section Test

variable {c : Condition State}

theorem test_congr (model : Model State) (c : Condition State) (same : s.SameMemory t) :
    SameOutcome (s.test model c) (t.test model c) := by
  have remembered := same.remembered?_eq c.question
  have counted (x y : Calls) : SameMemory { s with calls := x } { t with calls := y } :=
    ⟨same.remembers, same.answers⟩
  cases known : s.remembered? c.question with
  | some answer =>
    rw [test_known known, test_known (remembered.trans known)]
    exact ⟨rfl, counted _ _⟩
  | none =>
    cases answered : c.answer model with
    | ok answer =>
      rw [test_answered known answered, test_answered (remembered.trans known) answered]
      exact ⟨rfl, (counted _ _).remember _ _⟩
    | error e =>
      rw [test_refused known answered, test_refused (remembered.trans known) answered]
      exact ⟨rfl, counted _ _⟩

theorem counted_test (model : Model State) (s : Session) (c : Condition State) :
    (s.test model c).2.calls.predicates =
      s.calls.predicates + (if s.remembered? c.question = none then [c] else []).length := by
  cases known : s.remembered? c.question with
  | some answer => simp [test_known known]
  | none =>
    cases answered : c.answer model with
    | ok answer => simp [test_answered known answered]
    | error e => simp [test_refused known answered]

theorem recalls_test (model : Model State) (s : Session) (c : Condition State) :
    s.Recalls (s.test model c).2 := by
  cases known : s.remembered? c.question with
  | some answer =>
    rw [test_known known]
    exact (sameMemory_count s _).recalls
  | none =>
    cases answered : c.answer model with
    | ok answer =>
      rw [test_answered known answered]
      have counted := sameMemory_count s { s.calls with predicates := s.calls.predicates + 1 }
      have unknown := (counted.remembered?_eq c.question).trans known
      exact counted.recalls.trans (recalls_remember unknown answer)
    | error e =>
      rw [test_refused known answered]
      exact (sameMemory_count s _).recalls

/-- A test that is repeated is answered from memory, or by the model if nothing is remembered. -/
theorem test_again {answer : Bool} (answered : c.answer model = .ok answer)
    (remembered : t.remembers = true → t.remembered? c.question = some answer) :
    ∃ t', t.test model c = (.ok (answer == c.literal.positive), t') ∧ t.SameMemory t' := by
  cases remembers : t.remembers with
  | true =>
    rw [test_known (remembered remembers)]
    exact ⟨_, rfl, sameMemory_count t _⟩
  | false =>
    have unknown : t.remembered? c.question = none := by simp [remembered?, remembers]
    rw [test_answered unknown answered]
    have counted := sameMemory_count t { t.calls with predicates := t.calls.predicates + 1 }
    rw [remember_of_forgets (counted.remembers.trans remembers)]
    exact ⟨_, rfl, counted⟩

theorem replays_test (c : Condition State) : Replays (fun model s => s.test model c)
    fun _ s => if s.remembered? c.question = none then [c] else [] where
  counted := fun model s => counted_test model s c
  recalls := fun model s => recalls_test model s c
  congr := fun model _ _ same => test_congr model c same
  agree := by
    intro model model' s u b tested concurs
    cases known : s.remembered? c.question with
    | some answer => rw [test_known known, ← tested, test_known known]
    | none =>
      cases answered : c.answer model with
      | error e => simp [test_refused known answered] at tested
      | ok answer =>
        have answered' := concurs c (by simp [known]) answer answered
        rw [test_answered known answered', ← tested, test_answered known answered]
  replay := by
    intro model model' s t u b tested concurs recalls
    cases known : s.remembered? c.question with
    | some answer =>
      rw [test_known known] at tested
      obtain ⟨same, rfl⟩ := Prod.mk.inj tested
      rw [test_known (recalls.answers _ _ known), same]
      exact ⟨_, rfl, sameMemory_count t _⟩
    | none =>
      cases answered : c.answer model with
      | error e => simp [test_refused known answered] at tested
      | ok answer =>
        have answered' := concurs c (by simp [known]) answer answered
        rw [test_answered known answered] at tested
        obtain ⟨same, rfl⟩ := Prod.mk.inj tested
        rw [← same]
        refine test_again answered' fun remembers => recalls.answers _ _ ?_
        rw [recalls.remembers, remembers_remember] at remembers
        rw [remembered?_remember, if_pos remembers]
  retry := by
    intro model model' s u e failed concurs
    cases known : s.remembered? c.question with
    | some answer => simp [test_known known] at failed
    | none =>
      cases answered : c.answer model with
      | ok answer => simp [test_answered known answered] at failed
      | error e =>
        rw [test_refused known answered] at failed
        obtain ⟨-, rfl⟩ := Prod.mk.inj failed
        exact test_congr model' c (sameMemory_count s _)

end Test

theorem replays_testAll (conditions : List (Condition State)) :
    Replays (fun model s => s.testAll model conditions)
      fun model s => s.asked model conditions := by
  induction conditions with
  | nil => exact .silent true
  | cons c rest ih =>
    have onward (holds : Bool) : Replays
        (fun model s => if holds then s.testAll model rest else (.ok false, s))
        (fun model s => if holds then s.asked model rest else []) := by
      cases holds with
      | true => exact ih
      | false => exact .silent false
    convert (replays_test c).bind onward using 1
    · funext model s
      rw [testAll]
      rcases s.test model c with ⟨_ | _ | _, s'⟩ <;> rfl
    · funext model s
      rw [asked]
      rcases s.test model c with ⟨_ | _ | _, s'⟩ <;> rfl

theorem replays_select (candidates : List (α × List (Condition State))) :
    Replays (fun model s => s.select model candidates)
      fun model s => s.askedFor model candidates := by
  induction candidates with
  | nil => exact .silent []
  | cons candidate rest ih =>
    obtain ⟨a, conditions⟩ := candidate
    have onward (chosen : Bool) := ih.bind fun others =>
      Replays.silent (if chosen then a :: others else others)
    convert (replays_testAll conditions).bind onward using 1
    · funext model s
      rw [select]
      rcases s.testAll model conditions with ⟨_ | _, s'⟩
      · rfl
      · dsimp only
        rcases s'.select model rest with ⟨_ | _, s''⟩ <;> rfl
    · funext model s
      rw [askedFor]
      rcases s.testAll model conditions with ⟨_ | _, s'⟩
      · rfl
      · dsimp only
        rcases s'.select model rest with ⟨_ | _, s''⟩ <;> simp

section Again

variable {candidates fewer : List (α × List (Condition State))} {chosen : List α}

/-- A candidate that was judged in a selection is judged in the same way again. -/
theorem judged_of_select (selected : s.select model candidates = (.ok chosen, u))
    (concurs : model.Concurs model' (s.askedFor model candidates))
    {candidate : α × List (Condition State)} (member : candidate ∈ candidates) :
    ∃ holds : Bool, (holds = true → candidate.1 ∈ chosen) ∧ ∀ t, u.Recalls t →
      ∃ t', t.testAll model' candidate.2 = (.ok holds, t') ∧ t.SameMemory t' := by
  induction candidates generalizing s chosen with
  | nil => simp at member
  | cons first rest ih =>
    obtain ⟨a, conditions⟩ := first
    unfold select at selected
    unfold askedFor at concurs
    cases tested : s.testAll model conditions with
    | mk result s' =>
      rw [tested] at selected concurs
      cases result with
      | error e => simp at selected
      | ok holds =>
        dsimp only at selected concurs
        obtain ⟨here, later⟩ := List.forall_mem_append.mp concurs
        have recalls := (replays_select rest).recalls model s'
        cases onward : s'.select model rest with
        | mk result' s'' =>
          rw [onward] at selected recalls
          cases result' with
          | error e => simp at selected
          | ok others =>
            obtain ⟨rfl, rfl⟩ : (if holds then a :: others else others) = chosen ∧ s'' = u := by
              simpa using selected
            rcases List.mem_cons.mp member with rfl | member
            · refine ⟨holds, fun taken => by simp [taken], fun t recalls' => ?_⟩
              exact (replays_testAll conditions).replay tested here (recalls.trans recalls')
            · obtain ⟨holds', taken, again⟩ := ih onward later member
              refine ⟨holds', fun held => ?_, again⟩
              split
              · exact List.mem_cons_of_mem a (taken held)
              · exact taken held

/-- When some of the candidates are judged again, none is chosen that was not chosen before. -/
theorem select_again (selected : s.select model candidates = (.ok chosen, u))
    (concurs : model.Concurs model' (s.askedFor model candidates)) (among : fewer ⊆ candidates)
    (recalls : u.Recalls t) : ∃ again t', t.select model' fewer = (.ok again, t') ∧
      again ⊆ chosen ∧ t.SameMemory t' := by
  induction fewer generalizing t with
  | nil => exact ⟨[], t, rfl, List.nil_subset _, .refl t⟩
  | cons candidate rest ih =>
    obtain ⟨a, conditions⟩ := candidate
    obtain ⟨here, among⟩ := List.cons_subset.mp among
    obtain ⟨holds, taken, judged⟩ := judged_of_select selected concurs here
    obtain ⟨t', tested, same⟩ := judged t recalls
    obtain ⟨again, t'', onward, known, same'⟩ := ih among (recalls.trans same.recalls)
    refine ⟨if holds then a :: again else again, t'', ?_, ?_, same.trans same'⟩
    · simp only [select, tested, onward]
    · split
      · next held => exact List.cons_subset.mpr ⟨taken held, known⟩
      · exact known

end Again

end Session
end TemporalCheck
