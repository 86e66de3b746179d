import TemporalCheck.Proofs.Check.Batch
import TemporalCheck.Proofs.Check.Failure
import TemporalCheck.Proofs.Check.Independence
import TemporalCheck.Proofs.Check.Schedule
import TemporalCheck.Proofs.Check.Limit
import TemporalCheck.Proofs.Exploration.Exhaustive
import TemporalCheck.Proofs.Feed.Protocol
import TemporalCheck.Proofs.Monitor.Earliest
import TemporalCheck.Proofs.Product.Extract
import TemporalCheck.Proofs.Product.Reorder
import TemporalCheck.Proofs.Product.Retry
import TemporalCheck.Proofs.Product.Survival
import TemporalCheck.Feed.Describe
import TemporalCheck.Settings.Json
import TemporalCheck.Settings.Text
import TemporalCheck.StateTable
import TemporalCheck.Proofs.Digraph.Shortest
import TemporalCheck.Proofs.Product.Shortest
import TemporalCheck.Proofs.Check.Stuttering
import TemporalCheck.Proofs.Tableau.Again
import TemporalCheck.Proofs.Tableau.Parts
import TemporalCheck.Proofs.Tableau.Shape
import TemporalCheck.Proofs.Tableau.Criterion
import TemporalCheck.Proofs.Fingerprint.Serial
import TemporalCheck.Proofs.Session.Memory
import TemporalCheck.Proofs.Settings.Faults
import TemporalCheck.Proofs.Settings.RoundTrip
import TemporalCheck.Proofs.Settings.Layout
import TemporalCheck.Proofs.Settings.Comments
import TemporalCheck.Proofs.Formula.Display
import TemporalCheck.Proofs.StateTable.Calls
import TemporalCheck.Proofs.Tableau.Saturation
import TemporalCheck.Proofs.Tableau.Interning
import TemporalCheck.Proofs.Tableau.Discovery
import TemporalCheck.Proofs.Monitor.Settling
