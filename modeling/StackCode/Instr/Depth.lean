import StackCode.LowerError

/-!
# Stack depth

How one instruction changes the depth of the evaluation stack, and what it demands of the depth.
An instruction finds the values it takes; a return finds exactly the value it returns; and a jump
leaves the stack empty, since labels are placed at empty stacks.
-/

namespace StackCode

namespace Instr

/-- The depth that a return demands. -/
def returnDepth? : Instr → Option Nat
  | .ret withValue => some withValue.toNat
  | _ => none

/-- The depth after an instruction. -/
def depthAfter (i : Instr) (depth : Nat) : Except LowerError Nat :=
  if depth < i.pops then
    .error (.stackUnderflow i.mnemonic depth)
  else if i.returnDepth?.any (· ≠ depth) then
    .error (.stackImbalance .ret depth (i.returnDepth?.getD 0))
  else
    let after := depth - i.pops + i.pushes
    if i.isJump && after ≠ 0 then .error (.stackImbalance .branch after 0) else .ok after

end Instr

end StackCode
