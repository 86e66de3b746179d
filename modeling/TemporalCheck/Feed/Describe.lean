import TemporalCheck.Feed
import TemporalCheck.Text.Quoted

/-! The text that shows a whole feed on one line, with the names of its parts. -/
namespace TemporalCheck

/-- A name followed by named parts in braces. -/
def describeRecord (name : String) (parts : List (String × String)) : String :=
  name ++ " \x7b " ++ ", ".intercalate (parts.map fun (label, value) => label ++ ": " ++ value) ++
    " \x7d"

/-- A name followed by one part in parentheses. -/
def describeTuple (name value : String) : String := name ++ "(" ++ value ++ ")"

def describeList (items : List String) : String := "[" ++ ", ".intercalate items ++ "]"

def EvalError.describe : EvalError → String
  | .initialStates message => describeRecord "InitialStates" [("message", Text.quote message)]
  | .successors state message =>
    describeRecord "Successors" [("state", state.describe), ("message", Text.quote message)]
  | .predicate p state message =>
    describeRecord "Predicate"
      [("predicate", predicateText p), ("state", state.describe), ("message", Text.quote message)]
  | .unknownPredicate p => describeTuple "UnknownPredicate" (predicateText p)
  | .timeout message => describeTuple "Timeout" (Text.quote message)
  | .other message => describeTuple "Other" (Text.quote message)

def Event.describe : Event → String
  | .initial fp => describeTuple "Initial" fp.describe
  | .expanded source successors =>
    describeRecord "Expanded" [("source", source.describe),
      ("successors", describeList (successors.map Fingerprint.describe))]

def FeedStatus.describe : FeedStatus → String
  | .running => "Running"
  | .exhausted => "Exhausted"
  | .truncated limit => describeRecord "Truncated" [("limit", toString limit)]
  | .failed e => describeTuple "Failed" e.describe
  | .cancelled => "Cancelled"

/-- The text of a reader's registration, which has no parts to show. -/
def readerDescription : String := "ConsumerGuard \x7b .. \x7d"

def Feed.describe {State : Type} (f : Feed State) : String :=
  describeRecord "StateFeed" [
    ("states", toString f.stateCount),
    ("log", describeRecord "FeedLog" [
      ("events", describeList (f.events.toList.map Event.describe)),
      ("status", f.status.describe)]),
    ("consumers", toString f.readers)]

end TemporalCheck
