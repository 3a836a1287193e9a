import StackCode.Draft.Return
import StackCode.Generator.ResumePlan

/-!
# Suspending and resuming

Each invocation of a generator reads the state, sets it to running, and jumps to the resume label of
the point where the generator stopped; in any other state it starts at the top.  A suspension point
sets the state to its index and returns, and its resume label follows the return.
-/

namespace StackCode

namespace Draft

/-- Jumps to the resume label for the state of the generator. -/
def dispatch (resume : ResumePlan) : Draft Unit := do
  let start ← namedLabel "noStateContinuation"
  let slot ← acquireTemp .int
  emit .loadState
  emit (.storeTemp slot)
  setState .running
  emit (.loadTemp slot)
  emit (.switch resume.points start)
  releaseTemp slot
  mark start .forward

/-- Returns to the caller until the generator is resumed at this point. -/
def suspend (resume : ResumePlan) (index : Int) : Draft Unit :=
  match resume.label? index with
  | none => fail (.missingResumeLabel index)
  | some l => do
    setState (.suspendedAt index)
    emit (.ret false)
    mark l .forward

end Draft

end StackCode
