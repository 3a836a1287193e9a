import StackCode.Expr
import StackCode.Instr.Intrinsic

/-!
# Stack-machine instructions

The instruction set that procedures are compiled to.  An instruction works on an evaluation stack,
on the variables and temporaries of its procedure, and on the state of a generator.  Every
instruction knows how many values it takes and leaves, whether control can pass it, and where else
control may go.
-/

namespace StackCode

/-- A branch target.  Labels are numbered from 0 within one procedure. -/
structure Label where
  index : Nat
deriving DecidableEq

/-- A temporary storage slot.  Slots are numbered from 0 within one procedure. -/
structure TempSlot where
  index : Nat
deriving DecidableEq

/-- What a call instruction calls. -/
inductive Callee where
  /-- A user function. -/
  | function (name : Name)
  | intrinsic (i : Intrinsic)
deriving DecidableEq

/-- An instruction. -/
inductive Instr where
  | nop
  | constInt (n : Int)
  | constFloat (bits : UInt64)
  | constBool (b : Bool)
  | constStr (s : Name)
  | constNull
  | loadLocal (id : LocalId)
  | storeLocal (id : LocalId)
  /-- Makes a variable unbound. -/
  | clearLocal (id : LocalId)
  | loadTemp (slot : TempSlot)
  | storeTemp (slot : TempSlot)
  /-- Pushes the run-time context. -/
  | loadContext
  /-- Pushes the state of the generator. -/
  | loadState
  /-- Pops the next state of the generator. -/
  | storeState
  | pop
  | dup
  | convert (source target : Ty)
  | binary (op : BinaryOp)
  | call (callee : Callee) (argc : Nat) (returns : Bool)
  | new (cls : Name) (argc : Nat)
  | branch (target : Label)
  /-- Pops a boolean and branches when it is `when`. -/
  | branchIf (when : Bool) (target : Label)
  /-- Pops an integer and jumps to the first case with that key, or to the default. -/
  | switch (cases : List (Int × Label)) (default : Label)
  | ret (withValue : Bool)
  | throw
  /-- Opens a protected region. -/
  | enterTry (handler : Label)
  /-- Closes the innermost protected region and branches. -/
  | leave (target : Label)
  /-- Places a label; this and what follows are not executed. -/
  | markLabel (label : Label)
  /-- Declares a temporary. -/
  | allocTemp (slot : TempSlot) (ty : Ty)
  /-- Ends a use of a temporary. -/
  | freeTemp (slot : TempSlot)
  /-- Lets a debugger stop at a place of the source. -/
  | sequencePoint (span : Span)
  /-- A place that a debugger steps over. -/
  | hiddenSequencePoint
deriving DecidableEq

namespace Instr

/-- The instruction that pushes a literal. -/
def ofLiteral : Literal → Instr
  | .int n => .constInt n
  | .float bits => .constFloat bits
  | .bool b => .constBool b
  | .str s => .constStr s
  | .null => .constNull

/-- The call of an intrinsic with the arguments it takes. -/
def callIntrinsic (i : Intrinsic) : Instr := .call (.intrinsic i) i.arity i.returns

/-- The number of values taken from the evaluation stack. -/
def pops : Instr → Nat
  | .storeLocal _ | .storeTemp _ | .storeState | .pop | .branchIf _ _ | .switch _ _ | .throw
  | .dup | .convert _ _ => 1
  | .binary _ => 2
  | .call _ argc _ | .new _ argc => argc
  | .ret withValue => withValue.toNat
  | _ => 0

/-- The number of values left on the evaluation stack. -/
def pushes : Instr → Nat
  | .constInt _ | .constFloat _ | .constBool _ | .constStr _ | .constNull | .loadLocal _
  | .loadTemp _ | .loadContext | .loadState | .convert _ _ | .binary _ | .new _ _ => 1
  | .dup => 2
  | .call _ _ returns => returns.toNat
  | _ => 0

/-- Whether control never passes on to the next instruction. -/
def endsFlow : Instr → Bool
  | .branch _ | .switch _ _ | .ret _ | .throw | .leave _ => true
  | _ => false

/-- Whether control may be passed on to a label by the instruction itself. -/
def isJump : Instr → Bool
  | .branch _ | .branchIf _ _ | .switch _ _ | .leave _ => true
  | _ => false

/-- Labels and temporaries are declared also where the code around them is never executed. -/
def isBookkeeping : Instr → Bool
  | .markLabel _ | .allocTemp _ _ | .freeTemp _ => true
  | _ => false

/-- The labels that control may go to, in the order in which the instruction names them. -/
def targets : Instr → List Label
  | .branch l | .branchIf _ l | .leave l | .enterTry l => [l]
  | .switch cases default => cases.map Prod.snd ++ [default]
  | _ => []

/-- The handler of a protected region that the instruction opens. -/
def handler? : Instr → Option Label
  | .enterTry l => some l
  | _ => none

/-- The short name of the operation. -/
def mnemonic : Instr → String
  | .nop => "nop"
  | .constInt _ => "const.i"
  | .constFloat _ => "const.f"
  | .constBool _ => "const.b"
  | .constStr _ => "const.s"
  | .constNull => "const.null"
  | .loadLocal _ => "ldloc"
  | .storeLocal _ => "stloc"
  | .clearLocal _ => "clrloc"
  | .loadTemp _ => "ldtmp"
  | .storeTemp _ => "sttmp"
  | .loadContext => "ldctx"
  | .loadState => "ldstate"
  | .storeState => "ststate"
  | .pop => "pop"
  | .dup => "dup"
  | .convert _ _ => "conv"
  | .binary _ => "binop"
  | .call _ _ _ => "call"
  | .new _ _ => "new"
  | .branch _ => "br"
  | .branchIf true _ => "brtrue"
  | .branchIf false _ => "brfalse"
  | .switch _ _ => "switch"
  | .ret true => "ret.v"
  | .ret false => "ret"
  | .throw => "throw"
  | .enterTry _ => "try"
  | .leave _ => "leave"
  | .markLabel _ => "label"
  | .allocTemp _ _ => ".temp"
  | .freeTemp _ => ".free"
  | .sequencePoint _ | .hiddenSequencePoint => ".line"

end Instr

end StackCode
