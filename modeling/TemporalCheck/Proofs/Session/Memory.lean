import TemporalCheck.Proofs.Session.Replay

/-! What memory saves. When the answers of a model depend on nothing but the predicate and the
fingerprints, a session that remembers gives the answers that one without memory gives. It asks
once about what is answered, and again every time about what is refused. -/
namespace TemporalCheck

structure Query (State : Type) where
  predicate : PredicateId
  current : Keyed State
  next : Option (Keyed State)

variable {State : Type} {model : Model State} {asked queries : List (Query State)}

namespace Query

/-- What a session remembers the answer under. -/
def question (q : Query State) : Question :=
  ⟨q.predicate, q.current.fingerprint, q.next.map (·.fingerprint)⟩

def answer (model : Model State) (q : Query State) : Except EvalError Bool :=
  model.holds q.predicate q.current.state (q.next.map (·.state))

def Keyed (model : Model State) (q : Query State) : Prop :=
  q.current.fingerprint = model.fingerprint q.current.state ∧
    ∀ k ∈ q.next, k.fingerprint = model.fingerprint k.state

end Query

namespace Model

/-- The answers to the queries, errors included, depend on nothing but the predicate and the
fingerprints. -/
def AnswersByQuestion (model : Model State) (queries : List (Query State)) : Prop :=
  ∀ q ∈ queries, ∀ q' ∈ queries, q.question = q'.question → q.answer model = q'.answer model

def answered (model : Model State) (asked : List (Query State)) : Finset Question :=
  ((asked.filter fun q => (q.answer model).isOk).map (·.question)).toFinset

def refusals (model : Model State) (asked : List (Query State)) : Nat :=
  asked.countP fun q => !(q.answer model).isOk

/-- So it is if the model looks at fingerprints only. -/
theorem answersByQuestion_of_fingerprints
    (blind : ∀ p s s' next next', model.fingerprint s = model.fingerprint s' →
      Option.map model.fingerprint next = Option.map model.fingerprint next' →
      model.holds p s next = model.holds p s' next')
    (keyed : ∀ q ∈ queries, q.Keyed model) : model.AnswersByQuestion queries := by
  have named {q : Query State} (member : q ∈ queries) : q.next.map (·.fingerprint) =
      (q.next.map (·.state)).map model.fingerprint := by
    rw [Option.map_map]
    exact Option.map_congr (keyed q member).2
  intro q member q' member' same
  obtain ⟨predicate, current, next⟩ := Question.mk.inj same
  rw [(keyed q member).1, (keyed q' member').1] at current
  rw [named member, named member'] at next
  rw [Query.answer, Query.answer, predicate]
  exact blind _ _ _ _ _ current next

theorem mem_answered_iff {k : Question} : k ∈ model.answered asked ↔
    ∃ q ∈ asked, q.question = k ∧ (q.answer model).isOk := by
  simp only [answered, List.mem_toFinset, List.mem_map, List.mem_filter]
  grind

theorem answered_concat (q : Query State) : model.answered (asked ++ [q]) =
    if (q.answer model).isOk then insert q.question (model.answered asked)
    else model.answered asked := by
  ext k
  split <;> simp only [mem_answered_iff, Finset.mem_insert, List.mem_append, List.mem_singleton] <;>
    grind

theorem refusals_concat (q : Query State) : model.refusals (asked ++ [q]) =
    model.refusals asked + if (q.answer model).isOk then 0 else 1 := by
  cases ok : (q.answer model).isOk <;> simp [refusals, List.countP_append, ok]

end Model

namespace Session

variable {s : Session} {q : Query State} {answer : Bool} {e : EvalError}

def ask (s : Session) (model : Model State) (q : Query State) : Except EvalError Bool × Session :=
  s.predicate model q.predicate q.current q.next

def askAll (model : Model State) :
    List (Query State) → Session → List (Except EvalError Bool) × Session
  | [], s => ([], s)
  | q :: rest, s =>
    let (answer, s) := s.ask model q
    let (answers, s) := askAll model rest s
    (answer :: answers, s)

section Ask

theorem ask_known (known : s.remembered? q.question = some answer) :
    s.ask model q = (.ok answer, { s with calls.recalled := s.calls.recalled + 1 }) := by
  unfold Query.question at known
  simp only [ask, predicate, known]

theorem ask_answered (unknown : s.remembered? q.question = none)
    (answered : q.answer model = .ok answer) : s.ask model q = (.ok answer,
      { s with calls.predicates := s.calls.predicates + 1 }.remember q.question answer) := by
  unfold Query.question at unknown
  unfold Query.answer at answered
  simp only [ask, predicate, unknown, answered]
  rfl

theorem ask_refused (unknown : s.remembered? q.question = none)
    (refused : q.answer model = .error e) : s.ask model q =
      (.error e, { s with calls.predicates := s.calls.predicates + 1 }) := by
  unfold Query.question at unknown
  unfold Query.answer at refused
  simp only [ask, predicate, unknown, refused]

/-- What is not remembered is put to the model. -/
theorem ask_unknown (unknown : s.remembered? q.question = none) (model : Model State) :
    (s.ask model q).1 = q.answer model ∧
      (s.ask model q).2.calls.predicates = s.calls.predicates + 1 := by
  cases outcome : q.answer model with
  | ok answer => simp [ask_answered unknown outcome]
  | error e => simp [ask_refused unknown outcome]

end Ask

structure Mindful (model : Model State) (asked : List (Query State)) (s : Session) : Prop where
  remembers : s.remembers = true
  remembered : ∀ k answer, s.answers[k]? = some answer ↔
    ∃ q ∈ asked, q.question = k ∧ q.answer model = .ok answer
  stored : s.answers.size = (model.answered asked).card
  put : s.calls.predicates = s.answers.size + model.refusals asked
  total : s.calls.predicates + s.calls.recalled = asked.length

structure Mindless (asked : List (Query State)) (s : Session) : Prop where
  remembers : s.remembers = false
  stored : s.answers.size = 0
  put : s.calls.predicates = asked.length
  recalled : s.calls.recalled = 0

theorem mindful_new : Mindful model [] {} where
  remembers := rfl
  remembered := by simp
  stored := by simp [Model.answered]
  put := by simp [Model.refusals]
  total := rfl

theorem mindless_forgetful : Mindless ([] : List (Query State)) forgetful where
  remembers := rfl
  stored := rfl
  put := rfl
  recalled := rfl

section Step

theorem Mindful.known_iff (mindful : Mindful model asked s) {k : Question} :
    s.remembered? k = some answer ↔ ∃ q ∈ asked, q.question = k ∧ q.answer model = .ok answer := by
  rw [remembered?, if_pos mindful.remembers, mindful.remembered]

theorem Mindful.recalling (mindful : Mindful model asked s)
    (known : s.remembered? q.question = some answer) (answered : q.answer model = .ok answer) :
    Mindful model (asked ++ [q]) { s with calls.recalled := s.calls.recalled + 1 } := by
  obtain ⟨q', member, question, answered'⟩ := mindful.known_iff.mp known
  have ok : (q.answer model).isOk := by rw [answered]; rfl
  have before : q.question ∈ model.answered asked :=
    Model.mem_answered_iff.mpr ⟨q', member, question, by rw [answered']; rfl⟩
  refine ⟨mindful.remembers, fun k answer' => ?_, ?_, ?_, ?_⟩
  · rw [mindful.remembered]
    grind
  · rw [Model.answered_concat, if_pos ok, Finset.insert_eq_of_mem before, mindful.stored]
  · change s.calls.predicates = s.answers.size + model.refusals (asked ++ [q])
    rw [Model.refusals_concat, if_pos ok, mindful.put, Nat.add_zero]
  · change s.calls.predicates + (s.calls.recalled + 1) = (asked ++ [q]).length
    rw [List.length_append, ← mindful.total, ← Nat.add_assoc, List.length_singleton]

theorem Mindful.learning (mindful : Mindful model asked s)
    (unknown : s.remembered? q.question = none) (answered : q.answer model = .ok answer) :
    Mindful model (asked ++ [q])
      ({ s with calls.predicates := s.calls.predicates + 1 }.remember q.question answer) := by
  have ok : (q.answer model).isOk := by rw [answered]; rfl
  have new (answer' : Bool) :
      ¬∃ q' ∈ asked, q'.question = q.question ∧ q'.answer model = .ok answer' := by
    rw [← mindful.known_iff, unknown]
    simp
  have fresh : q.question ∉ model.answered asked := by
    rw [Model.mem_answered_iff]
    rintro ⟨q', member, question, ok'⟩
    cases outcome : q'.answer model with
    | ok answer' => exact new answer' ⟨q', member, question, outcome⟩
    | error e =>
      rw [outcome] at ok'
      exact Bool.false_ne_true ok'
  -- so the store grows by this answer
  have absent : q.question ∉ s.answers := by
    rw [remembered?, if_pos mindful.remembers] at unknown
    rw [Std.TreeMap.mem_iff_isSome_getElem?, unknown]
    exact Bool.false_ne_true
  have size : (s.answers.insert q.question answer).size = s.answers.size + 1 := by
    simp [Std.TreeMap.size_insert, absent]
  rw [remember, if_pos mindful.remembers]
  refine ⟨mindful.remembers, fun k answer' => ?_, ?_, ?_, ?_⟩
  · simp only [Std.TreeMap.getElem?_insert, Std.LawfulEqCmp.compare_eq_iff_eq]
    split
    · next same =>
      subst same
      grind
    · rw [mindful.remembered]
      grind
  · rw [size, Model.answered_concat, if_pos ok, Finset.card_insert_of_notMem fresh, mindful.stored]
  · change s.calls.predicates + 1 =
      (s.answers.insert q.question answer).size + model.refusals (asked ++ [q])
    rw [size, Model.refusals_concat, if_pos ok, mindful.put]
    omega
  · change s.calls.predicates + 1 + s.calls.recalled = (asked ++ [q]).length
    rw [List.length_append, ← mindful.total, List.length_singleton]
    omega

theorem Mindful.failing (mindful : Mindful model asked s) (refused : q.answer model = .error e) :
    Mindful model (asked ++ [q]) { s with calls.predicates := s.calls.predicates + 1 } := by
  have failed : ¬(q.answer model).isOk := by
    rw [refused]
    exact Bool.false_ne_true
  refine ⟨mindful.remembers, fun k answer => ?_, ?_, ?_, ?_⟩
  · rw [mindful.remembered]
    grind
  · rw [Model.answered_concat, if_neg failed, mindful.stored]
  · change s.calls.predicates + 1 = s.answers.size + model.refusals (asked ++ [q])
    rw [Model.refusals_concat, if_neg failed, mindful.put, Nat.add_assoc]
  · change s.calls.predicates + 1 + s.calls.recalled = (asked ++ [q]).length
    rw [List.length_append, ← mindful.total, List.length_singleton]
    omega

/-- A query whose question was answered before is answered from memory; the others are put to the
model, also those that were refused before. -/
theorem Mindful.ask (mindful : Mindful model asked s)
    (same : ∀ q' ∈ asked, q'.question = q.question → q'.answer model = q.answer model) :
    (s.ask model q).1 = q.answer model ∧ Mindful model (asked ++ [q]) (s.ask model q).2 := by
  cases known : s.remembered? q.question with
  | some answer =>
    obtain ⟨q', member, question, answered'⟩ := mindful.known_iff.mp known
    have answered : q.answer model = .ok answer := (same q' member question).symm.trans answered'
    rw [ask_known known]
    exact ⟨answered.symm, mindful.recalling known answered⟩
  | none =>
    cases outcome : q.answer model with
    | ok answer =>
      rw [ask_answered known outcome]
      exact ⟨rfl, mindful.learning known outcome⟩
    | error e =>
      rw [ask_refused known outcome]
      exact ⟨rfl, mindful.failing outcome⟩

theorem Mindless.ask (mindless : Mindless asked s) (model : Model State) (q : Query State) :
    (s.ask model q).1 = q.answer model ∧ Mindless (asked ++ [q]) (s.ask model q).2 := by
  have unknown : s.remembered? q.question = none := by simp [remembered?, mindless.remembers]
  have counted : Mindless (asked ++ [q])
      { s with calls.predicates := s.calls.predicates + 1 } :=
    ⟨mindless.remembers, mindless.stored, by simp [mindless.put], mindless.recalled⟩
  cases outcome : q.answer model with
  | ok answer =>
    rw [ask_answered unknown outcome, remember_of_forgets counted.remembers]
    exact ⟨rfl, counted⟩
  | error e =>
    rw [ask_refused unknown outcome]
    exact ⟨rfl, counted⟩

end Step

section Run

variable {Kept : List (Query State) → Session → Prop}

/-- If every query is answered as the model answers it, and the step keeps what is known of the
session, then so it is for a list of queries. -/
theorem askAll_spec (step : ∀ front q s, front ++ [q] <+: asked ++ queries → Kept front s →
      (s.ask model q).1 = q.answer model ∧ Kept (front ++ [q]) (s.ask model q).2)
    (kept : Kept asked s) : (askAll model queries s).1 = queries.map (·.answer model) ∧
      Kept (asked ++ queries) (askAll model queries s).2 := by
  induction queries generalizing asked s with
  | nil => exact ⟨rfl, by simpa [askAll] using kept⟩
  | cons q rest ih =>
    rw [List.append_cons] at step ⊢
    obtain ⟨first, kept⟩ := step asked q s (List.prefix_append _ _) kept
    obtain ⟨others, kept⟩ := ih step kept
    exact ⟨by simp only [askAll, List.map_cons, first, others], kept⟩

theorem Mindful.askAll (mindful : Mindful model asked s) (queries : List (Query State))
    (same : model.AnswersByQuestion (asked ++ queries)) :
    (askAll model queries s).1 = queries.map (·.answer model) ∧
      Mindful model (asked ++ queries) (askAll model queries s).2 := by
  refine askAll_spec (fun front q s part mindful => ?_) mindful
  have within : front ++ [q] ⊆ asked ++ queries := part.subset
  exact mindful.ask fun q' member => same q' (within (by simp [member])) q (within (by simp))

theorem Mindless.askAll (mindless : Mindless asked s) (model : Model State)
    (queries : List (Query State)) :
    (askAll model queries s).1 = queries.map (·.answer model) ∧
      Mindless (asked ++ queries) (askAll model queries s).2 :=
  askAll_spec (fun _ q _ _ mindless => mindless.ask model q) mindless

end Run

section Compare

/-- Memory changes no answer. A session that remembers keeps an answer for each question that was
answered and puts to the model one query for each of these and all that are refused, while one
without memory keeps nothing. -/
theorem memory_transparent (same : model.AnswersByQuestion queries) :
    let mindful := askAll model queries {}
    let mindless := askAll model queries forgetful
    mindful.1 = queries.map (·.answer model) ∧ mindless.1 = mindful.1 ∧
    mindful.2.calls.predicates + mindful.2.calls.recalled = queries.length ∧
    mindless.2.calls.predicates + mindless.2.calls.recalled = queries.length ∧
    mindful.2.answers.size = (model.answered queries).card ∧
    mindful.2.calls.predicates = mindful.2.answers.size + model.refusals queries ∧
    (∀ front q e, front ++ [q] <+: queries → q.answer model = .error e →
      let before := (askAll model front {}).2
      (before.ask model q).2.calls.predicates = before.calls.predicates + 1 ∧
        ∀ model', (before.ask model' q).1 = q.answer model') ∧
    mindless.2.answers.size = 0 ∧ mindless.2.calls.recalled = 0 := by
  intro mindful mindless
  obtain ⟨answers, mind⟩ := mindful_new.askAll queries same
  obtain ⟨answers', mind'⟩ := mindless_forgetful.askAll model queries
  refine ⟨answers, answers'.trans answers.symm, mind.total, ?_, mind.stored, mind.put, ?_,
    mind'.stored, mind'.recalled⟩
  · rw [mind'.put, mind'.recalled]
    rfl
  · intro front q e part refused before
    have within : front ++ [q] ⊆ queries := part.subset
    have earlier : model.AnswersByQuestion front := fun a member b member' =>
      same a (within (by simp [member])) b (within (by simp [member']))
    have kept : Mindful model front before := (mindful_new.askAll front earlier).2
    have unknown : before.remembered? q.question = none := by
      rw [Option.eq_none_iff_forall_ne_some]
      intro answer known
      obtain ⟨q', member, question, answered⟩ := kept.known_iff.mp known
      have agree := same q' (within (by simp [member])) q (within (by simp)) question
      simp [answered, refused] at agree
    exact ⟨(ask_unknown unknown model).2, fun model' => (ask_unknown unknown model').1⟩

/-- A counter that can tell whether it stands at zero and whether a step goes up, but not whether
a state does. -/
def counter : Model UInt64 where
  fingerprint := id
  initial := .ok [0]
  successors s := .ok [s + 1]
  holds
    | 0, s, _ => .ok (s == 0)
    | 1, s, some t => .ok (decide (s < t))
    | p, s, _ => .error (.predicate p s "no such predicate of a state")

def counterQueries : List (Query UInt64) := [
  ⟨0, counter.keyed 0, none⟩,
  ⟨1, counter.keyed 0, none⟩,
  ⟨1, counter.keyed 0, some (counter.keyed 1)⟩,
  ⟨0, counter.keyed 0, none⟩,
  ⟨1, counter.keyed 0, some (counter.keyed 0)⟩,
  ⟨1, counter.keyed 0, none⟩]

theorem answersByQuestion_counter : counter.AnswersByQuestion counterQueries := by
  refine Model.answersByQuestion_of_fingerprints ?_ ?_
  · intro p s s' next next' current onward
    have states : s = s' := current
    have steps : next = next' := Option.map_injective Function.injective_id onward
    rw [states, steps]
  · intro q member
    simp only [counterQueries, List.mem_cons, List.not_mem_nil, or_false] at member
    rcases member with rfl | rfl | rfl | rfl | rfl | rfl <;> simp [Query.Keyed, Model.keyed]

/-- Three of the four questions are answered and kept; the other one is put to the model twice. -/
theorem memory_transparent_counter :
    counter.AnswersByQuestion counterQueries ∧
      (askAll counter counterQueries forgetful).1 = (askAll counter counterQueries {}).1 ∧
      (askAll counter counterQueries {}).2.answers.size = 3 ∧
      (askAll counter counterQueries {}).2.calls.predicates = 5 ∧
      (askAll counter counterQueries {}).2.calls.recalled = 1 := by
  obtain ⟨-, same, total, -, stored, put, -⟩ := memory_transparent answersByQuestion_counter
  have length : counterQueries.length = 6 := rfl
  have kept : (counter.answered counterQueries).card = 3 := by decide
  have refused : counter.refusals counterQueries = 2 := by decide
  exact ⟨answersByQuestion_counter, same, by omega, by omega, by omega⟩

end Compare

end Session
end TemporalCheck
