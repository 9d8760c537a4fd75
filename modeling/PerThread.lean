import PerThread.Proofs.History.Accounting
import PerThread.Proofs.History.Geometry
import PerThread.Proofs.History.Recall
import PerThread.Proofs.Table.Range
import PerThread.Proofs.History.Growth
import PerThread.Proofs.History.Total
import PerThread.Proofs.Table.Tour
import PerThread.Script.Run
import PerThread.Variable.Number
import PerThread.Workload.Counted
import PerThread.Workload.Numbers
import PerThread.Proofs.History.Fork
import PerThread.Proofs.Session.Alike
import PerThread.Proofs.Session.Whole
import PerThread.Proofs.Session.Moment
import PerThread.Proofs.Session.Steps
import PerThread.Proofs.Session.Trail
import PerThread.Proofs.Inheritance.Snapshot
import PerThread.Proofs.Reference.Core
import PerThread.Proofs.Reference.Registries
import PerThread.Proofs.Reference.Matching
import PerThread.Proofs.Reference.Changes
import PerThread.Proofs.Reference.Handles
import PerThread.Proofs.Reference.Bequests
import PerThread.Proofs.Reference.Captures
import PerThread.Proofs.Reference.Threads
import PerThread.Proofs.Reference.Session
import PerThread.Proofs.Table.Clearing
import PerThread.Proofs.History.Clearing
import PerThread.Proofs.History.Homeward
import PerThread.Proofs.History.Sweep
import PerThread.Proofs.Session.Course
import PerThread.Proofs.Session.Operations
import PerThread.Proofs.Session.Performing
import PerThread.Proofs.Session.Codes
import PerThread.Proofs.Session.Releases
import PerThread.Proofs.Session.Unlink
import PerThread.Proofs.Session.Teardown
import PerThread.Proofs.Session.Initial
import PerThread.Proofs.Session.Panics
import PerThread.Proofs.Table.Reporting
import PerThread.Proofs.Table.Homed
import PerThread.Proofs.History.Homes
