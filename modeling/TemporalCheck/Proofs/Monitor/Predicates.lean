import TemporalCheck.Monitor

/-! What a monitor asks of its model. Where behaviours start and how they go on it learns from the
feed, so that models with the same predicates are the same to it. -/
namespace TemporalCheck

variable {State α : Type} {model model' : Model State} (same : model'.holds = model.holds)
include same

namespace Session

theorem test_of_holds (s : Session) (c : Condition State) : s.test model' c = s.test model c := by
  unfold test predicate
  rw [same]

theorem testAll_of_holds (s : Session) (conditions : List (Condition State)) :
    s.testAll model' conditions = s.testAll model conditions := by
  induction conditions generalizing s with
  | nil => rfl
  | cons c rest ih => simp only [testAll, test_of_holds same, ih]

theorem select_of_holds (s : Session) (candidates : List (α × List (Condition State))) :
    s.select model' candidates = s.select model candidates := by
  induction candidates generalizing s with
  | nil => rfl
  | cons candidate rest ih => simp only [select, testAll_of_holds same, ih]

end Session

namespace Product

theorem beginAll_of_holds (starts : List ((Keyed State × TableauId) × List (Condition State)))
    (p : Product State) (s : Session) : beginAll model' starts p s = beginAll model starts p s := by
  induction starts generalizing p s with
  | nil => rfl
  | cons start rest ih => simp only [beginAll, Session.testAll_of_holds same, ih]

theorem expandNode_of_holds (p : Product State) (s : Session) (id : NodeId)
    (next : List (Keyed State)) :
    p.expandNode model' s id next = p.expandNode model s id next := by
  simp only [expandNode, Session.select_of_holds same]

theorem extendFrom_of_holds (source : Fingerprint) (next : List (Keyed State)) (fuel i : Nat)
    (p : Product State) (s : Session) :
    extendFrom model' source next fuel i p s = extendFrom model source next fuel i p s := by
  induction fuel generalizing i p s with
  | zero => rfl
  | succ fuel ih => simp only [extendFrom, expandNode_of_holds same, ih]

end Product

namespace Monitor

variable (feed : Feed State)

theorem settleFrom_of_holds (fuel : Nat) (todo : List NodeId) (m : Monitor State) :
    settleFrom model' feed fuel todo m = settleFrom model feed fuel todo m := by
  induction fuel generalizing todo m with
  | zero => rfl
  | succ fuel ih =>
    cases todo with
    | nil => rfl
    | cons id todo => simp only [settleFrom, Product.expandNode_of_holds same, ih]

theorem absorb_of_holds (m : Monitor State) (grown : Growth State) :
    absorb model' feed m grown = absorb model feed m grown := by
  simp only [absorb, settle, settleFrom_of_holds same]

theorem apply_of_holds (m : Monitor State) (e : Event) :
    apply model' feed m e = apply model feed m e := by
  cases e with
  | initial fp =>
    simp only [apply, Product.extendInitial, Product.beginAll_of_holds same, absorb_of_holds same]
  | expanded source next =>
    simp only [apply, Product.extend, Product.extendFrom_of_holds same, absorb_of_holds same]

theorem consume_of_holds (events : List Event) (m : Monitor State) :
    consume model' feed events m = consume model feed events m := by
  induction events generalizing m with
  | nil => rfl
  | cons e rest ih => simp only [consume, apply_of_holds same, ih]

theorem driveFrom_of_holds (fuel : Nat) (m : Monitor State) :
    driveFrom model' feed fuel m = driveFrom model feed fuel m := by
  induction fuel generalizing m with
  | zero => rfl
  | succ fuel ih => simp only [driveFrom, consume_of_holds same, ih]

/-- Monitors of models with the same predicates report the same. -/
theorem run_of_holds (m : Monitor State) : m.run model' feed = m.run model feed := by
  simp only [run, drive, driveFrom_of_holds same]

end Monitor
end TemporalCheck
