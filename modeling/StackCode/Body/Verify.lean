import StackCode.Body.Basic
import StackCode.Instr.Depth
import StackCode.LabelTable

/-!
# Verification

A finished body is checked without a look at how it came about. One pass over the instructions keeps
the depth of the evaluation stack: every label is placed once and every branch target is placed
somewhere; no instruction takes more than is there; the stack is empty at a label, and holds just
the exception at a handler. What stands between an instruction that ends the flow and the next label
is not executed, and only its branch targets are looked at. Last, the suspension points are `1, …,
n`, and each is resumed at a label that is placed.
-/

namespace StackCode

/-- What is known at a position of the checked code. -/
structure BodyCheck where
  labels : LabelTable
  depth : Nat := 0
  isLive : Bool := true
deriving DecidableEq

namespace BodyCheck

/-- Passes a label. -/
def label (s : BodyCheck) (l : Label) (isHandler : Bool) : Except LowerError BodyCheck := do
  let labels ← s.labels.mark l
  if s.isLive && (isHandler || s.depth ≠ 0) then
    .error (.stackImbalance .label s.depth isHandler.toNat)
  else
    return { labels, depth := isHandler.toNat, isLive := true }

/-- Passes an instruction that is not a label. -/
def execute (s : BodyCheck) (i : Instr) : Except LowerError BodyCheck := do
  let labels ← s.labels.referenceAll i.targets
  if s.isLive then do
    let depth ← i.depthAfter s.depth
    let isLive := !i.endsFlow
    return { labels, isLive, depth := if isLive then depth else 0 }
  else
    return { s with labels }

/-- Passes an instruction. -/
def step (handlers : List Label) (s : BodyCheck) (i : Instr) : Except LowerError BodyCheck :=
  match i with
  | .markLabel l => s.label l (l ∈ handlers)
  | i => s.execute i

end BodyCheck

namespace MethodBody

/-- The labels where some protected region sends its exceptions. -/
def handlers (b : MethodBody) : List Label := b.instrs.filterMap Instr.handler?

/-- Checks that the suspension points go on with `expected` and are resumed at placed labels. -/
def checkResumePoints (labels : LabelTable) (expected : Int) :
    List (Int × Label) → Except LowerError Unit
  | [] => .ok ()
  | (index, l) :: rest =>
    if index < 1 then .error (.nonPositiveYieldIndex index)
    else if index = expected - 1 then .error (.duplicateYieldIndex index)
    else if index ≠ expected then .error (.yieldIndexGap expected index)
    else if !labels.isMarked l then .error (.missingResumeLabel index)
    else checkResumePoints labels (expected + 1) rest

/-- Checks a body. -/
def verify (b : MethodBody) : Except LowerError Unit := do
  let start : BodyCheck := { labels := LabelTable.reserve {} b.labelCount }
  let done ← b.instrs.foldlM (BodyCheck.step b.handlers) start
  done.labels.finish
  checkResumePoints done.labels 1 b.resumePoints

end MethodBody

end StackCode
