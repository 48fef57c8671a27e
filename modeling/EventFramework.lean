import EventFramework.ForMathlib.PointerChain
import EventFramework.ForMathlib.ParentForest
import EventFramework.ForMathlib.ErrorState
import EventFramework.ForMathlib.TracedProgram
import EventFramework.ForMathlib.CallbackLog
import EventFramework.ForMathlib.EnterExit
import EventFramework.ForMathlib.StateHierarchy
import EventFramework.ForMathlib.StateHierarchyRuns
import EventFramework.ForMathlib.DequeHistory
import EventFramework.ForMathlib.FairRuns
import EventFramework.Statemachine.State
import EventFramework.Statemachine.React
import EventFramework.Statemachine.Walks
import EventFramework.Statemachine.Visits
import EventFramework.Statemachine.Selection
import EventFramework.Statemachine.Reactions
import EventFramework.Statemachine.Runs
import EventFramework.Statemachine.CommonParent
import EventFramework.Statemachine.Activity
import EventFramework.Statemachine.History
import EventFramework.Statemachine.Order
import EventFramework.Statemachine.Stability
import EventFramework.Statemachine.Deferral
import EventFramework.Statemachine.Bubbling
import EventFramework.Statemachine.Observation
import EventFramework.Statemachine.Reentrancy
import EventFramework.Statemachine.Failures
import EventFramework.Statemachine.Sessions
import EventFramework.Statemachine.StartPath
import EventFramework.Statemachine.Termination
import EventFramework.Pools.StaticPool
import EventFramework.Pools.PoolRuns
import EventFramework.Pools.MemoryResource
import EventFramework.Pools.Pool
import EventFramework.Pools.Resources
import EventFramework.Pools.Alignment
import EventFramework.Pools.Rejection
import EventFramework.ActiveObjects.EventQueue
import EventFramework.ActiveObjects.BinarySemaphore
import EventFramework.ActiveObjects.Hsm
import EventFramework.ActiveObjects.Domain
import EventFramework.ActiveObjects.EmbeddedQueue
import EventFramework.ForMathlib.SharedOwnership
import EventFramework.Signals.Lifetime
import EventFramework.Signals.EventFlow
import EventFramework.ActiveObjects.Shutdown
import EventFramework.ActiveObjects.Registration
import EventFramework.ActiveObjects.SerialObject
import EventFramework.ForMathlib.Observers
import EventFramework.Statemachine.Logging
import EventFramework.ActiveObjects.Delivery
import EventFramework.ForMathlib.OwnershipGraph
import EventFramework.ActiveObjects.Ownership
import EventFramework.ActiveObjects.Counting
import EventFramework.ForMathlib.BlockReuse
import EventFramework.Pools.Reuse
import EventFramework.ForMathlib.ReplayedCalls
import EventFramework.Statemachine.Effects
import EventFramework.Statemachine.Flattening
import EventFramework.ForMathlib.TraceRefinement
import EventFramework.Pools.Concurrency
