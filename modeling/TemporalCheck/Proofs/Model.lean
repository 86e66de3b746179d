import TemporalCheck.Model
import TemporalCheck.Proofs.Semantics

/-! The behaviours of a model, the states on them, and what the model answers there. -/
namespace TemporalCheck.Model

variable {State : Type}

def Starts (model : Model State) (s : State) : Prop :=
  ∃ states, model.initial = .ok states ∧ s ∈ states

def Follows (model : Model State) (s s' : State) : Prop :=
  ∃ states, model.successors s = .ok states ∧ s' ∈ states

inductive Reachable (model : Model State) : State → Prop where
  | start {s} : model.Starts s → Reachable model s
  | step {s s'} : Reachable model s → model.Follows s s' → Reachable model s'

/-- A step of a behaviour, which may be no step at all if stuttering is on. -/
def Steps (model : Model State) (stuttering : Bool) (s s' : State) : Prop :=
  model.Follows s s' ∨ stuttering = true ∧ s' = s

structure Behaves (model : Model State) (stuttering : Bool) (σ : Behaviour State) : Prop where
  starts : model.Starts (σ 0)
  steps : ∀ i, model.Steps stuttering (σ i) (σ (i + 1))

def Separates (model : Model State) : Prop :=
  ∀ s s', model.Reachable s → model.Reachable s' → model.fingerprint s = model.fingerprint s' →
    s = s'

def Answers (model : Model State) (stuttering : Bool) : Atom → Prop
  | .state p => ∀ s, model.Reachable s → ∃ answer, model.holds p s none = .ok answer
  | .action p => ∀ s s', model.Reachable s → model.Steps stuttering s s' →
    ∃ answer, model.holds p s (some s') = .ok answer

/-- The model refuses with this error to answer one of the atoms on reachable states. -/
def Refuses (model : Model State) (atoms : Set Atom) (e : EvalError) : Prop :=
  ∃ s, model.Reachable s ∧
    ((∃ p, .state p ∈ atoms ∧ model.holds p s none = .error e) ∨
      ∃ p s', .action p ∈ atoms ∧ model.Reachable s' ∧ model.holds p s (some s') = .error e)

structure Agrees (model : Model State) (v : Valuation State) : Prop where
  state : ∀ p s answer, model.holds p s none = .ok answer → v.state p s = answer
  action : ∀ p s s' answer, model.holds p s (some s') = .ok answer → v.action p s s' = answer

def valuation (model : Model State) : Valuation State where
  state p s := (model.holds p s none).toOption.getD false
  action p s s' := (model.holds p s (some s')).toOption.getD false

theorem agrees_valuation (model : Model State) : model.Agrees model.valuation where
  state p s answer given := by simp [valuation, given, Except.toOption]
  action p s s' answer given := by simp [valuation, given, Except.toOption]

variable {model : Model State} {stuttering : Bool} {s s' : State} {σ : Behaviour State}

theorem Steps.reachable (steps : model.Steps stuttering s s') (reachable : model.Reachable s) :
    model.Reachable s' := by
  rcases steps with follows | ⟨_, rfl⟩
  · exact reachable.step follows
  · exact reachable

theorem Behaves.reachable (behaves : model.Behaves stuttering σ) (i : Nat) :
    model.Reachable (σ i) := by
  induction i with
  | zero => exact .start behaves.starts
  | succ i ih => exact (behaves.steps i).reachable ih

/-- Where the model answers, a literal holds of its valuation just when it gives the answer
wanted. -/
theorem holds_of_holdsOn {l : Literal} (answers : model.Answers stuttering (.state l.predicate))
    (reachable : model.Reachable s) (holds : l.HoldsOn model.valuation s) :
    model.holds l.predicate s none = .ok l.positive := by
  obtain ⟨answer, given⟩ := answers s reachable
  rw [given, ← model.agrees_valuation.state _ _ _ given]
  exact congrArg Except.ok holds

theorem holds_of_holdsAlong {l : Literal} (answers : model.Answers stuttering (.action l.predicate))
    (reachable : model.Reachable s) (steps : model.Steps stuttering s s')
    (holds : l.HoldsAlong model.valuation s s') :
    model.holds l.predicate s (some s') = .ok l.positive := by
  obtain ⟨answer, given⟩ := answers s s' reachable steps
  rw [given, ← model.agrees_valuation.action _ _ _ _ given]
  exact congrArg Except.ok holds

end TemporalCheck.Model
