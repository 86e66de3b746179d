import TemporalCheck.Feed
import TemporalCheck.Product.Growth
import TemporalCheck.Product.Scan
import TemporalCheck.Settings
import TemporalCheck.Verdict

/-! A monitor follows a feed on behalf of one property. It grows the product with every event, scans
it when the schedule says so, and stops at the first violation. -/
namespace TemporalCheck

structure Monitor (State : Type) where
  name : String
  product : Product State
  /-- Events between scans, if there are scans before the end. -/
  scanEvery : Option Nat
  /-- Events read at a time. -/
  batch : Nat
  detector : Detector := {}
  /-- What may follow each fingerprint, as far as the feed has told. -/
  known : Std.TreeMap Fingerprint (List Fingerprint) := ∅
  session : Session := {}
  /-- How many events have been consumed. -/
  cursor : Nat := 0
  componentsScanned : Nat := 0
  violatingComponents : Nat := 0

namespace Monitor

variable {State : Type}

def start (name : String) (tableau : Tableau) (settings : Settings) : Monitor State where
  name := name
  product := { tableau := tableau }
  scanEvery := settings.scanEvery
  batch := settings.batch

def phase (m : Monitor State) : Phase := if m.cursor = 0 then .building else .exploring

/-- The states of the fingerprints. One that is stored nowhere is left out. -/
def resolve (m : Monitor State) (feed : Feed State) (fps : List Fingerprint) : List (Keyed State) :=
  fps.filterMap fun fp => ((m.product.state? fp).or (feed.state? fp)).map (⟨fp, ·⟩)

/-- Expands the nodes to do, as far as it is known what follows them, and then the nodes added by
that, the latest first. -/
def settleFrom (model : Model State) (feed : Feed State) :
    (fuel : Nat) → (todo : List NodeId) → Monitor State → Option EvalError × Monitor State
  | 0, _, m => (none, m)
  | _ + 1, [], m => (none, m)
  | fuel + 1, id :: todo, m =>
    match (m.product.node? id).bind fun node => m.known[node.key.fingerprint]? with
    | none => settleFrom model feed fuel todo m
    | some next =>
      let grown := m.product.expandNode model m.session id (m.resolve feed next)
      let m := { m with product := grown.product, session := grown.session }
      match grown.failure with
      | some e => (some e, m)
      | none => settleFrom model feed fuel (grown.created.reverse ++ todo) m

/-- Expands the nodes that have been created. A node is to do once, and there are at most as many as
stored fingerprints times tableau nodes. -/
def settle (model : Model State) (feed : Feed State) (created : List NodeId) (m : Monitor State) :
    Option EvalError × Monitor State :=
  let possible := (m.product.states.size + feed.stateCount) * m.product.tableau.size
  settleFrom model feed (created.length + possible + 1) created.reverse m

/-- Continues with the outcome of growth, and settles the nodes that it added. -/
def absorb (model : Model State) (feed : Feed State) (m : Monitor State) (grown : Growth State) :
    Option EvalError × Monitor State :=
  let m := { m with product := grown.product, session := grown.session }
  match grown.failure with
  | some e => (some e, m)
  | none => settle model feed grown.created m

/-- Grows the product by what an event tells. -/
def apply (model : Model State) (feed : Feed State) (m : Monitor State) :
    Event → Option EvalError × Monitor State
  | .initial fp =>
    absorb model feed m (m.product.extendInitial model m.session (m.resolve feed [fp]))
  | .expanded source successors =>
    let m := { m with known := m.known.insert source successors }
    absorb model feed m (m.product.extend model m.session source (m.resolve feed successors))

/-- Looks for a violation; there is none where the product has not changed since the last scan. -/
def scan (m : Monitor State) : Option (Outcome State) × Monitor State :=
  match m.detector.scan m.product with
  | (none, _) => (none, m)
  | (some report, detector) =>
    let m := { m with
      detector := detector
      componentsScanned := m.componentsScanned + report.components
      violatingComponents := report.violating.length }
    match report.violating with
    | [] => (none, m)
    | component :: _ =>
      match m.product.lasso component with
      | .ok lasso => (some (.ok (.violated lasso)), m)
      | .error gap => (some (.error (.ofGap component.size gap)), m)

/-- Whether a scan is due after the events consumed so far. -/
def isScanDue (m : Monitor State) : Bool :=
  match m.scanEvery with
  | some n => m.cursor % n == 0
  | none => false

/-- Consumes events until one decides the outcome. -/
def consume (model : Model State) (feed : Feed State) :
    List Event → Monitor State → Option (Outcome State) × Monitor State
  | [], m => (none, m)
  | event :: rest, m =>
    match apply model feed { m with cursor := m.cursor + 1 } event with
    | (some e, m) => (some (.ok (.indeterminate (.evaluation e))), m)
    | (none, m) =>
      if m.isScanDue then
        match m.scan with
        | (some outcome, m) => (some outcome, m)
        | (none, m) => consume model feed rest m
      else consume model feed rest m

/-- The verdict on a product without violation, by how exploration ended. -/
def verdictAfter : FeedStatus → Verdict State
  | .exhausted => .satisfied
  | .truncated limit => .indeterminate (.stateLimit limit)
  | .failed e => .indeterminate (.evaluation e)
  | .running | .cancelled => .indeterminate .cancelled

def conclude (status : FeedStatus) (m : Monitor State) : Outcome State × Monitor State :=
  match m.scan with
  | (some outcome, m) => (outcome, m)
  | (none, m) => (.ok (verdictAfter status), m)

/-- Reads the feed batch by batch, at most `fuel` of them. -/
def driveFrom (model : Model State) (feed : Feed State) :
    (fuel : Nat) → Monitor State → Outcome State × Monitor State
  | 0, m => m.conclude feed.status
  | fuel + 1, m =>
    let batch := feed.read m.cursor m.batch
    if batch.events.isEmpty then m.conclude batch.status
    else
      match consume model feed batch.events m with
      | (some outcome, m) => (outcome, m)
      | (none, m) => driveFrom model feed fuel m

/-- Reads the feed to its end or to the first violation. No batch but the last is empty. -/
def drive (model : Model State) (feed : Feed State) (m : Monitor State) :
    Outcome State × Monitor State :=
  driveFrom model feed (feed.length + 1) m

def stats (m : Monitor State) : CheckStats where
  tableauNodes := m.product.tableau.size
  productNodes := m.product.size
  productEdges := m.product.edgeCount
  scans := m.detector.scans
  componentsScanned := m.componentsScanned
  violatingComponents := m.violatingComponents
  eventsConsumed := m.cursor
  calls := m.session.calls

def run (model : Model State) (feed : Feed State) (m : Monitor State) : PropertyReport State :=
  let (outcome, m) := m.drive model feed
  { name := m.name, outcome := outcome, stats := m.stats }

end Monitor
end TemporalCheck
