import StackCode.Graph.Builder
import StackCode.Lowering
import StackCode.Proofs.Body.Verified
import StackCode.Proofs.Path.Safety
import StackCode.Proofs.Draft.Succeeds
import StackCode.Proofs.Execution.Interpreter
import StackCode.Proofs.Outline.Heads
import StackCode.Proofs.Outline.Writes
import StackCode.Proofs.Execution.Step
import StackCode.Proofs.Generator.Entry
import StackCode.Proofs.Generator.Resume
import StackCode.Proofs.Generator.Regions
import StackCode.Proofs.Generator.Suspends
import StackCode.Proofs.Generator.States
import StackCode.Proofs.Execution.Points
import StackCode.Proofs.Execution.Conduct
import StackCode.Proofs.Execution.Simulation
import StackCode.Proofs.Generator.Coroutine
import StackCode.Proofs.Layout.Allots
import StackCode.Proofs.Layout.Drafted
import StackCode.Proofs.Body.Account
import StackCode.Proofs.Draft.Meets
import StackCode.Proofs.Fragment.Carries
import StackCode.Proofs.Refusal.Block
import StackCode.Proofs.Refusal.Refused
import StackCode.Proofs.Returns.Paths
import StackCode.Proofs.Order.Plans
import StackCode.Proofs.Order.Course
import StackCode.Proofs.Refusal.Accepted
import StackCode.Proofs.Refusal.Steady
import StackCode.Proofs.Order.Abreast
import StackCode.Proofs.Graph.Agreement
import StackCode.Proofs.Graph.Validation
import StackCode.Proofs.Lowering.Appends
import StackCode.Proofs.Lowering.Unreachable
import StackCode.Proofs.Debugging.Assembled
import StackCode.Proofs.Debugging.Lowered
import StackCode.Proofs.Order.Indifference
import StackCode.Proofs.Fragment.Typed
import StackCode.Proofs.Fragment.Neutral
import StackCode.Proofs.Storage.Places
import StackCode.Proofs.Storage.Alike
import StackCode.Proofs.Storage.Reached
import StackCode.Proofs.Storage.Statics
import StackCode.Proofs.Storage.Exceptions
import StackCode.Proofs.Entry.Opened
import StackCode.Proofs.Storage.Uses
import StackCode.Proofs.Entry.Setup
import StackCode.Proofs.Storage.Apart
import StackCode.Proofs.Storage.Extended
import StackCode.Proofs.Assembly.Within
import StackCode.Proofs.Storage.Completed
import StackCode.Proofs.Storage.Declared
import StackCode.Proofs.Entry.FirstValues
import StackCode.Proofs.Entry.Prologue
import StackCode.Proofs.Temps.History
import StackCode.Proofs.Temps.Lends
import StackCode.Proofs.Temps.Coded
import StackCode.Proofs.Temps.Managed
import StackCode.Proofs.Temps.Latest
import StackCode.Proofs.Temps.Discipline
import StackCode.Proofs.Order.Emission
import StackCode.Proofs.Graph.DepthFirst
import StackCode.Proofs.Labels.Accounted
import StackCode.Proofs.Cut.Executed
import StackCode.Proofs.Graph.Closure
import StackCode.Proofs.Generator.Planned
import StackCode.Proofs.Graph.Built
import StackCode.Proofs.Interner.History
