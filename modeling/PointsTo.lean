import PointsTo.Disk
import PointsTo.Main
import PointsTo.Program.Listing
import PointsTo.Proofs.Delivery.Runs
import PointsTo.Proofs.Dynamic.Runs
import PointsTo.Proofs.Lambda.Completeness
import PointsTo.Proofs.Lambda.Wiring
import PointsTo.Proofs.Limits.Runs
import PointsTo.Proofs.Precision
import PointsTo.Proofs.Propagation
import PointsTo.Proofs.Taint.Closure
import PointsTo.Proofs.Taint.Reordering
import PointsTo.Proofs.Taint.Reports
import PointsTo.Proofs.Taint.Sinks
import PointsTo.Proofs.Termination.Runs
import PointsTo.Script
import PointsTo.Proofs.Calls.Roots
import PointsTo.Proofs.Calls.Strings
import PointsTo.Proofs.Calls.Views
import PointsTo.Proofs.Rearranging
import PointsTo.Proofs.Sharing.Lockstep
import PointsTo.Proofs.Sharing.Core
import PointsTo.Proofs.Sharing.Steps
import PointsTo.Proofs.Sharing.Runs
import PointsTo.Proofs.Hierarchy.Climbing
import PointsTo.Proofs.Hierarchy.Declaring
import PointsTo.Proofs.Hierarchy.Dispatching
import PointsTo.Proofs.Hierarchy.Casting
import PointsTo.Proofs.Hierarchy.Assigning
import PointsTo.Proofs.Construction.Accepting
import PointsTo.Proofs.Facts.Hybrid
import PointsTo.Proofs.Facts.Pending
import PointsTo.Proofs.Calls.Receivers
import PointsTo.Proofs.Redelivery
import PointsTo.Proofs.Interning
import PointsTo.Proofs.Signatures
import PointsTo.Proofs.Taint.Resolving
import PointsTo.Proofs.Reports.Agreement
import PointsTo.Proofs.Facts.Members
import PointsTo.Proofs.Nesting.Runs
