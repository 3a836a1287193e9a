import StackCode.Draft.Basic
import StackCode.Instr.Depth

/-!
# Flow

What the assembler knows at a position of the code: how deep the evaluation stack is, whether
control can get there, and which labels have been placed and branched to. A directive comes to a few
instructions and the flow behind them, or to an error.

Code that control cannot reach is dropped, except for bookkeeping. A label revives the flow, unless
all branches to it stand before it and none of them was live.
-/

namespace StackCode

/-- What is known at a position of the code. -/
structure Flow where
  labels : LabelTable
  depth : Nat := 0
  isLive : Bool := true
  /-- Some live code stores a return value. -/
  hasStaged : Bool := false
deriving DecidableEq

namespace Flow

/-- An instruction, where it is live. -/
def emit (f : Flow) (i : Instr) : Except LowerError (List Instr × Flow) :=
  if f.isLive then do
    let depth ← i.depthAfter f.depth
    let labels ← f.labels.referenceAll i.targets
    let isLive := !i.endsFlow
    return ([i], { f with labels, isLive, depth := if isLive then depth else 0 })
  else
    return (if i.isBookkeeping then [i] else [], f)

/-- The depth at a label: a handler finds the exception. -/
def entryDepth : Arrival → Nat
  | .handler => 1
  | .join | .forward => 0

/-- A label.  Live code in front of it arrives with an empty stack, and never at a handler. -/
def mark (f : Flow) (l : Label) (arrival : Arrival) : Except LowerError (List Instr × Flow) :=
  if f.isLive && (arrival = .handler || f.depth ≠ 0) then
    let site := if arrival = .handler then .handlerEntry else .label
    .error (.stackImbalance site f.depth (entryDepth arrival))
  else do
    let labels ← f.labels.mark l
    let isLive := f.isLive || arrival ≠ .forward || f.labels.isReferenced l
    return ([.markLabel l], { f with labels, isLive, depth := entryDepth arrival })

/-- What a directive comes to. -/
def step (f : Flow) : Directive → Except LowerError (List Instr × Flow)
  | .instr i => f.emit i
  | .mark l arrival => f.mark l arrival
  | .endStatement =>
    if f.isLive && f.depth ≠ 0 then .error (.stackImbalance .endOfStatement f.depth 0)
    else .ok ([], f)
  | .endBlock b => if f.isLive then .error (.fallsOffBlock b) else .ok ([], f)
  | .stageReturn => .ok ([], { f with hasStaged := f.hasStaged || f.isLive })
  | .returnPoint l slot =>
    if f.hasStaged then do
      let (label, f) ← f.mark l .forward
      let (load, f) ← f.emit (.loadTemp slot)
      let (ret, f) ← f.emit (.ret true)
      return (label ++ load ++ ret, f)
    else if f.labels.isReferenced l then .error .returnSlotUnassigned
    else .ok ([], f)

end Flow

end StackCode
