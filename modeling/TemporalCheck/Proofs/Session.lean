import Mathlib
import TemporalCheck.Product.Growth

/-! What a session answers. States are filed under fingerprints, one state for each; as long as only
filed states are asked about, a session answers as the model does, whether it remembers or not. -/
namespace TemporalCheck

variable {State : Type} {model : Model State} {stored : Fingerprint → Option State}

def Keyed.Filed (stored : Fingerprint → Option State) (k : Keyed State) : Prop :=
  stored k.fingerprint = some k.state

def Condition.Filed (stored : Fingerprint → Option State) (c : Condition State) : Prop :=
  c.current.Filed stored ∧ ∀ k ∈ c.next, k.Filed stored

def Condition.Holds (model : Model State) (c : Condition State) : Prop :=
  model.holds c.literal.predicate c.current.state (c.next.map (·.state)) = .ok c.literal.positive

namespace Model

def test (model : Model State) (c : Condition State) : Except EvalError Bool :=
  match model.holds c.literal.predicate c.current.state (c.next.map (·.state)) with
  | .ok answer => .ok (answer == c.literal.positive)
  | .error e => .error e

/-- Whether all conditions hold; none is looked at after the first that does not. -/
def testAll (model : Model State) : List (Condition State) → Except EvalError Bool
  | [] => .ok true
  | c :: rest =>
    match model.test c with
    | .ok true => testAll model rest
    | .ok false => .ok false
    | .error e => .error e

theorem test_eq_true_iff (c : Condition State) : model.test c = .ok true ↔ c.Holds model := by
  unfold test Condition.Holds
  cases model.holds c.literal.predicate c.current.state (c.next.map (·.state)) <;> simp

theorem testAll_eq_true_iff (conditions : List (Condition State)) :
    model.testAll conditions = .ok true ↔ ∀ c ∈ conditions, c.Holds model := by
  induction conditions with
  | nil => simp [testAll]
  | cons c rest ih =>
    rw [List.forall_mem_cons, ← ih, ← test_eq_true_iff, testAll]
    cases model.test c with
    | error e => simp
    | ok answer => cases answer <;> simp

end Model

namespace Session

/-- Everything remembered is what the model answers on filed states. -/
def Coherent (model : Model State) (stored : Fingerprint → Option State) (s : Session) : Prop :=
  ∀ (p : PredicateId) (current : Keyed State) (next : Option (Keyed State)) (answer : Bool),
    current.Filed stored → (∀ k ∈ next, k.Filed stored) →
    s.answers[(⟨p, current.fingerprint, next.map (·.fingerprint)⟩ : Question)]? = some answer →
    model.holds p current.state (next.map (·.state)) = .ok answer

theorem coherent_empty : Coherent model stored {} := by
  intro p current next answer _ _ remembered
  simp at remembered

theorem state_eq_of_filed {k k' : Keyed State} (filed : k.Filed stored) (filed' : k'.Filed stored)
    (same : k.fingerprint = k'.fingerprint) : k.state = k'.state := by
  unfold Keyed.Filed at filed filed'
  rw [same] at filed
  exact Option.some.inj (filed.symm.trans filed')

theorem next_eq_of_filed {k k' : Option (Keyed State)} (filed : ∀ x ∈ k, x.Filed stored)
    (filed' : ∀ x ∈ k', x.Filed stored)
    (same : k.map (·.fingerprint) = k'.map (·.fingerprint)) :
    k.map (·.state) = k'.map (·.state) := by
  cases k <;> cases k' <;> simp only [Option.map_none, Option.map_some, reduceCtorEq,
    Option.some.injEq] at same ⊢
  exact state_eq_of_filed (filed _ rfl) (filed' _ rfl) same

theorem coherent_remember {s : Session} (coherent : s.Coherent model stored) {p : PredicateId}
    {current : Keyed State} {next : Option (Keyed State)} {answer : Bool}
    (filed : current.Filed stored) (filedNext : ∀ k ∈ next, k.Filed stored)
    (answered : model.holds p current.state (next.map (·.state)) = .ok answer) :
    (s.remember ⟨p, current.fingerprint, next.map (·.fingerprint)⟩ answer).Coherent
      model stored := by
  unfold remember
  split
  · intro p' current' next' answer' filed' filedNext' remembered
    rw [Std.TreeMap.getElem?_insert] at remembered
    split at remembered
    · next same =>
      have same := Std.LawfulEqOrd.eq_of_compare same
      injection same with sameP sameCurrent sameNext
      obtain rfl := Option.some.inj remembered
      rw [← sameP, ← state_eq_of_filed filed filed' sameCurrent,
        ← next_eq_of_filed filedNext filedNext' sameNext]
      exact answered
    · exact coherent p' current' next' answer' filed' filedNext' remembered
  · exact coherent

theorem predicate_spec {s : Session} (coherent : s.Coherent model stored) (p : PredicateId)
    {current : Keyed State} {next : Option (Keyed State)} (filed : current.Filed stored)
    (filedNext : ∀ k ∈ next, k.Filed stored) :
    (s.predicate model p current next).1 = model.holds p current.state (next.map (·.state)) ∧
      (s.predicate model p current next).2.Coherent model stored := by
  unfold predicate
  dsimp only
  split
  · next answer remembered =>
    have kept : s.answers[(⟨p, current.fingerprint, next.map (·.fingerprint)⟩ : Question)]? =
        some answer := by
      unfold remembered? at remembered
      split at remembered
      · exact remembered
      · contradiction
    exact ⟨(coherent p current next answer filed filedNext kept).symm, coherent⟩
  · have counted : Coherent model stored
        { s with calls.predicates := s.calls.predicates + 1 } := coherent
    split
    · next answer answered =>
      exact ⟨answered.symm, coherent_remember counted filed filedNext answered⟩
    · next e failed => exact ⟨failed.symm, counted⟩

theorem test_spec {s : Session} (coherent : s.Coherent model stored) {c : Condition State}
    (filed : c.Filed stored) :
    (s.test model c).1 = model.test c ∧ (s.test model c).2.Coherent model stored := by
  have spec := predicate_spec coherent c.literal.predicate filed.1 filed.2
  unfold test Model.test
  rw [← spec.1]
  generalize s.predicate model c.literal.predicate c.current c.next = result at spec
  obtain ⟨_ | _, s'⟩ := result
  · exact ⟨rfl, spec.2⟩
  · exact ⟨rfl, spec.2⟩

theorem testAll_spec {s : Session} (coherent : s.Coherent model stored)
    {conditions : List (Condition State)} (filed : ∀ c ∈ conditions, c.Filed stored) :
    (s.testAll model conditions).1 = model.testAll conditions ∧
      (s.testAll model conditions).2.Coherent model stored := by
  induction conditions generalizing s with
  | nil => exact ⟨rfl, coherent⟩
  | cons c rest ih =>
    rw [List.forall_mem_cons] at filed
    have spec := test_spec coherent filed.1
    unfold testAll Model.testAll
    rw [← spec.1]
    generalize s.test model c = result at spec
    obtain ⟨_ | answer, s'⟩ := result
    · exact ⟨rfl, spec.2⟩
    · cases answer with
      | true => exact ih spec.2 filed.2
      | false => exact ⟨rfl, spec.2⟩

/-- What a selection from candidates comes to: all were judged and those whose conditions hold were
taken, or one of them could not be judged. -/
theorem select_spec {α : Type} {s : Session} (coherent : s.Coherent model stored)
    {candidates : List (α × List (Condition State))}
    (filed : ∀ candidate ∈ candidates, ∀ c ∈ candidate.2, c.Filed stored) :
    (s.select model candidates).2.Coherent model stored ∧
      match (s.select model candidates).1 with
      | .ok chosen =>
        (∀ candidate ∈ candidates, ∃ answer, model.testAll candidate.2 = .ok answer) ∧
          ∀ a, a ∈ chosen ↔ ∃ candidate ∈ candidates, candidate.1 = a ∧
            ∀ c ∈ candidate.2, c.Holds model
      | .error e => ∃ candidate ∈ candidates, model.testAll candidate.2 = .error e := by
  induction candidates generalizing s with
  | nil => exact ⟨coherent, by simp [select]⟩
  | cons candidate rest ih =>
    obtain ⟨a, conditions⟩ := candidate
    rw [List.forall_mem_cons] at filed
    have spec := testAll_spec coherent filed.1
    unfold select
    generalize s.testAll model conditions = result at spec
    obtain ⟨_ | chosen, s'⟩ := result
    · exact ⟨spec.2, (a, conditions), by simp, spec.1.symm⟩
    · have later := ih spec.2 filed.2
      dsimp only
      generalize s'.select model rest = result at later
      obtain ⟨_ | others, s''⟩ := result
      · obtain ⟨coherent, candidate, member, failed⟩ := later
        exact ⟨coherent, candidate, List.mem_cons_of_mem _ member, failed⟩
      · obtain ⟨coherent, judged, taken⟩ := later
        have verdict : chosen = true ↔ ∀ c ∈ conditions, c.Holds model := by
          rw [← Model.testAll_eq_true_iff, ← spec.1, Except.ok.injEq]
        refine ⟨coherent, ?_, ?_⟩
        · rintro candidate (_ | ⟨_, member⟩)
          · exact ⟨chosen, spec.1.symm⟩
          · exact judged candidate member
        · intro b
          simp only [List.exists_mem_cons_iff, ← taken, ← verdict]
          cases chosen with
          | true => simp [eq_comm]
          | false => simp

end Session
end TemporalCheck
