import Availability.Analysis
import Availability.Annotated
import Availability.CommandLine
import Availability.Error
import Availability.Expr
import Availability.Fact
import Availability.FactTable
import Availability.Graph
import Availability.Graph.Order
import Availability.Instruction
import Availability.ItemSet
import Availability.Join
import Availability.Label
import Availability.Listing
import Availability.Loop
import Availability.LoopWalk
import Availability.Main
import Availability.Proofs.Drift
import Availability.Proofs.FactTable
import Availability.Proofs.Graph.Construction
import Availability.Proofs.Graph.Lookup
import Availability.Proofs.Graph.PostOrder
import Availability.Proofs.Join
import Availability.Proofs.Machine
import Availability.Proofs.Meet
import Availability.Proofs.StraightLine
import Availability.Proofs.Worklist.AllPaths
import Availability.Proofs.Worklist.FixedPoint
import Availability.Proofs.Worklist.Soundness
import Availability.Proofs.Worklist.Termination
import Availability.Proofs.Worklist.Visit
import Availability.Sample
import Availability.ThreeAddress
import Availability.Transfer
import Availability.Worklist
import Availability.Proofs.Descent
import Availability.Proofs.Graph.PreOrder
import Availability.Proofs.Worklist.VisitBound
import Availability.Proofs.Worklist.Layout
import Availability.Proofs.LoopWalk.Recompute
import Availability.Proofs.LoopWalk.Walk
import Availability.Proofs.LoopWalk.Limit
import Availability.Proofs.LoopWalk.EmptyBlocks
import Availability.Proofs.LoopWalk.Calls
import Availability.Proofs.LoopWalk.Convergence
import Availability.Proofs.LoopWalk.AllPaths
import Availability.Proofs.Graph.EdgeOrder
import Availability.Proofs.Graph.CheckedOrder
import Availability.Proofs.Graph.Recursion
import Availability.Proofs.SelfLoops
import Availability.Proofs.Worklist.OnePass
import Availability.Proofs.Failure
import Availability.Proofs.Coherence
import Availability.Proofs.Origin
