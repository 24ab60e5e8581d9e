import HeapFlow.Client.Disposal
import HeapFlow.Client.RoutineSet
import HeapFlow.Options.Arguments
import HeapFlow.Text.Brief
import HeapFlow.Text.Full
import HeapFlow.Wire.PointsTo
import HeapFlow.Wire.Routine
import HeapFlow.Wire.Summary
import HeapFlow.Proofs.Schedule
import HeapFlow.Proofs.Solver.Run
import HeapFlow.Proofs.Solver.FixedPoint
import HeapFlow.Proofs.Entity.Sharing
import HeapFlow.Proofs.Domain.LocationSet
import HeapFlow.Proofs.Domain.PointsTo
import HeapFlow.Proofs.Client.JoinedReads
import HeapFlow.Proofs.Interpreter.Evaluated
import HeapFlow.Proofs.Interpreter.Locality
import HeapFlow.Proofs.Interpreter.Evaluation
import HeapFlow.Proofs.Solver.Confluence
import HeapFlow.Proofs.Solver.OrderIndependence
import HeapFlow.Proofs.Client.OrderIndependence
import HeapFlow.Proofs.Solver.Limit
import HeapFlow.Proofs.Solver.Reachability
import HeapFlow.Proofs.Solver.Acyclic
import HeapFlow.Proofs.Environment.Congruence
import HeapFlow.Proofs.Domain.FiniteLocations
import HeapFlow.Proofs.Entity.Reference
import HeapFlow.Proofs.Solver.Endless
import HeapFlow.Proofs.Solver.Stabilization
import HeapFlow.Proofs.Client.TrackedStorage
import HeapFlow.Proofs.Client.Stabilization
import HeapFlow.Proofs.Environment.MergeOrder
import HeapFlow.Proofs.Client.JoinOrder
import HeapFlow.Proofs.Client.MergedStates
import HeapFlow.Proofs.Client.WideningChain
import HeapFlow.Proofs.Interpreter.Invariant
import HeapFlow.Proofs.Solver.Invariant
import HeapFlow.Proofs.Client.StoredValues
import HeapFlow.Proofs.Client.ReturnedValue
import HeapFlow.Proofs.Interpreter.Logic
import HeapFlow.Proofs.Client.TrackedKeys
import HeapFlow.Proofs.UnreachableBlocks
import HeapFlow.Proofs.Interpreter.Signature
import HeapFlow.Proofs.Solver.UnreachableBlocks
import HeapFlow.Proofs.Client.UnreachableCode
import HeapFlow.Proofs.Solver.OperationValues
import HeapFlow.Proofs.Client.ValueOperations
import HeapFlow.Proofs.Client.SelfInstance
import HeapFlow.Proofs.Client.SelfMembers
import HeapFlow.Proofs.Client.CallEffects
import HeapFlow.Proofs.Wire.Routine
import HeapFlow.Proofs.Interpreter.Steps
import HeapFlow.Proofs.Interpreter.Effect
import HeapFlow.Proofs.Interpreter.UniqueIds
import HeapFlow.Proofs.Interpreter.Encounter
import HeapFlow.Proofs.Interpreter.AssignedStorage
import HeapFlow.Proofs.Solver.Coverage
import HeapFlow.Proofs.Client.Initializers
import HeapFlow.Proofs.Environment.MergeBounds
import HeapFlow.Proofs.Environment.Widening
import HeapFlow.Proofs.Environment.SelfMerge
import HeapFlow.Proofs.Interpreter.Fork
import HeapFlow.Proofs.Solver.Evaluations
import HeapFlow.Proofs.Client.CopiedStorage
import HeapFlow.Proofs.Client.Alternatives
import HeapFlow.Proofs.Domain.Semilattice
import HeapFlow.Proofs.Entity.Overlap
import HeapFlow.Proofs.Wire.PointsTo
import HeapFlow.Proofs.Wire.BuiltValues
import HeapFlow.Proofs.Client.LocationReads
import HeapFlow.Proofs.ControlFlow.LoopAnchors
import HeapFlow.Proofs.Options.Failure
import HeapFlow.Proofs.Options.Success
import HeapFlow.Proofs.Wire.Summary
import HeapFlow.Proofs.Upstream
import HeapFlow.Proofs.Interpreter.Record
import HeapFlow.Proofs.Solver.Recurrence
import HeapFlow.Proofs.Client.Oscillation
