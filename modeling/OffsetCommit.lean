import OffsetCommit.Main
import OffsetCommit.Tracker.Script
import OffsetCommit.Proofs.Tracker.Refinement
import OffsetCommit.Proofs.Tracker.Folding
import OffsetCommit.Proofs.Tracker.Capacity
import OffsetCommit.Proofs.Tracker.Access
import OffsetCommit.Proofs.Engine.Statuses
import OffsetCommit.Proofs.Engine.Turns
import OffsetCommit.Proofs.Pipeline.Coverage
import OffsetCommit.Proofs.Pipeline.WireOrder
import OffsetCommit.Proofs.Pipeline.Completion
import OffsetCommit.Proofs.Pipeline.Protocol
import OffsetCommit.Proofs.Pipeline.Tiling
import OffsetCommit.Proofs.Pipeline.Separation
import OffsetCommit.Proofs.Pipeline.Repetition
import OffsetCommit.Proofs.Pipeline.Assignment
import OffsetCommit.Proofs.Session
import OffsetCommit.Proofs.Engine.Shutdown
import OffsetCommit.Proofs.Engine.Crashes
import OffsetCommit.Proofs.Engine.Stopped
import OffsetCommit.Proofs.Engine.Orphans
import OffsetCommit.Proofs.Session.Observation
import OffsetCommit.Proofs.Session.Revocation
import OffsetCommit.Proofs.Session.Pace
import OffsetCommit.Proofs.Session.Reports
import OffsetCommit.Proofs.Engine.Draws
import OffsetCommit.Proofs.Engine.Rates
import OffsetCommit.Proofs.Simulation
