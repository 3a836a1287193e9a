import Mathlib.Logic.Function.Basic
import StackCode.Instr.Basic
import StackCode.Proofs.Execution.Run

/-!
# The stack machine

What the instructions do.  What the run-time system does is left open: a `Runtime` tells the result
of every conversion, operator, call and creation of an object, and may keep a world of its own to tell
it from.  What is seen of a run are the calls, the objects created, the stores to variables, and how
it ends; the memory keeps the record.

A generator is invoked again and again.  Its memory and its state stay between invocations; the
stack, the temporaries and the protected regions do not.
-/

namespace StackCode

/-- An operation whose result the run-time system tells. -/
inductive Operation where
  | convert (source target : Ty)
  | binary (op : BinaryOp)
  | call (callee : Callee)
  | new (cls : Name)
deriving DecidableEq

/-- Calls and the creation of objects are seen from outside. -/
def Operation.isSeen : Operation → Bool
  | .call _ | .new _ => true
  | _ => false

/-- A run-time system with values `V` and a world `W` of its own. -/
structure Runtime (V W : Type) where
  literal : Literal → V
  /-- The run-time context. -/
  context : V
  /-- What an unbound variable holds. -/
  unbound : V
  isTrue : V → Bool
  toInt : V → Int
  perform : Operation → List V → W → V × W

/-- The value that a fresh slot of a type holds. -/
def Runtime.default? {V W : Type} (R : Runtime V W) (ty : Ty) : Option V := ty.default?.map R.literal

/-- The values are integers, and every operation gives 0. -/
def Runtime.ints : Runtime Int Unit where
  literal
    | .int n => n
    | _ => 0
  context := 0
  unbound := 0
  isTrue v := v != 0
  toInt v := v
  perform _ _ w := (0, w)

/-- What is seen of a run. -/
inductive Event (V : Type) where
  | perform (op : Operation) (args : List V)
  | store (id : LocalId) (v : V)
  | clear (id : LocalId)
  | ret (v : Option V)
  | throw (v : V)
  /-- A generator is invoked again, with this state. -/
  | resume (state : V)

/-- What a run works on. -/
structure Memory (V W : Type) where
  locals : LocalId → V
  world : W
  /-- What has been seen, from the beginning. -/
  trace : List (Event V)

namespace Memory

variable {V W : Type}

def note (m : Memory V W) (e : Event V) : Memory V W := { m with trace := m.trace ++ [e] }

/-- Has the run-time system perform an operation. -/
def perform (R : Runtime V W) (op : Operation) (args : List V) (m : Memory V W) :
    V × Memory V W :=
  let (v, world) := R.perform op args m.world
  let m := if op.isSeen then m.note (.perform op args) else m
  (v, { m with world })

def store (m : Memory V W) (id : LocalId) (v : V) : Memory V W :=
  { m.note (.store id v) with locals := Function.update m.locals id v }

def clear (R : Runtime V W) (m : Memory V W) (id : LocalId) : Memory V W :=
  { m.note (.clear id) with locals := Function.update m.locals id R.unbound }

end Memory

/-- What stays between the invocations of a generator. -/
structure Kept (V W : Type) where
  memory : Memory V W
  state : V

def Kept.note {V W : Type} (s : Kept V W) (e : Event V) : Kept V W :=
  { s with memory := s.memory.note e }

/-- A generator in this state. -/
def inState (state : Int) : Kept Int Unit where
  memory := { locals := fun _ => 0, world := (), trace := [] }
  state := state

/-- What the machine keeps for one invocation. -/
structure Control (V : Type) where
  pc : Nat
  stack : List V
  temps : TempSlot → V
  /-- The handlers of the protected regions that are open, the innermost first. -/
  regions : List Label

/-- On to the next instruction, with this stack. -/
def Control.pass {V : Type} (c : Control V) (stack : List V) : Control V :=
  { c with pc := c.pc + 1, stack }

variable {V W : Type}

/-- What a plain instruction does to the stack and the memory. -/
def Instr.exec (R : Runtime V W) : Instr → List V × Memory V W → Option (List V × Memory V W)
  | .constInt n, (st, m) => some (R.literal (.int n) :: st, m)
  | .constFloat bits, (st, m) => some (R.literal (.float bits) :: st, m)
  | .constBool b, (st, m) => some (R.literal (.bool b) :: st, m)
  | .constStr s, (st, m) => some (R.literal (.str s) :: st, m)
  | .constNull, (st, m) => some (R.literal .null :: st, m)
  | .loadLocal id, (st, m) => some (m.locals id :: st, m)
  | .storeLocal id, (v :: st, m) => some (st, m.store id v)
  | .clearLocal id, (st, m) => some (st, m.clear R id)
  | .loadContext, (st, m) => some (R.context :: st, m)
  | .pop, (_ :: st, m) => some (st, m)
  | .dup, (v :: st, m) => some (v :: v :: st, m)
  | .convert source target, (v :: st, m) =>
    let (v, m) := m.perform R (.convert source target) [v]
    some (v :: st, m)
  | .binary op, (b :: a :: st, m) =>
    let (v, m) := m.perform R (.binary op) [a, b]
    some (v :: st, m)
  | .call callee argc returns, (st, m) =>
    if argc ≤ st.length then
      let (v, m) := m.perform R (.call callee) (st.take argc).reverse
      some ((if returns then [v] else []) ++ st.drop argc, m)
    else none
  | .new cls argc, (st, m) =>
    if argc ≤ st.length then
      let (v, m) := m.perform R (.new cls) (st.take argc).reverse
      some (v :: st.drop argc, m)
    else none
  | .nop, s | .sequencePoint _, s | .hiddenSequencePoint, s => some s
  | _, _ => none

/-- What plain instructions do one after the other. -/
def Instr.execAll (R : Runtime V W) (code : List Instr) (s : List V × Memory V W) :
    Option (List V × Memory V W) := code.foldlM (fun s i => i.exec R s) s

namespace Runtime

/-- Goes on at a label. -/
def goTo (code : List Instr) (c : Control V) (l : Label) (s : Kept V W) :
    Run (Control V) (Kept V W) :=
  match code.idxOf? (.markLabel l) with
  | some q => .on { c with pc := q } s
  | none => .stuck s

/-- An exception goes to the handler of the innermost open region, or ends the invocation. -/
def raise (code : List Instr) (c : Control V) (v : V) (s : Kept V W) :
    Run (Control V) (Kept V W) :=
  match c.regions with
  | [] => .done (s.note (.throw v))
  | l :: _ => goTo code { c with stack := [v] } l s

/-- On behind a plain instruction, or stuck where it does not find what it takes. -/
def work (R : Runtime V W) (i : Instr) (c : Control V) (s : Kept V W) : Run (Control V) (Kept V W) :=
  match i.exec R (c.stack, s.memory) with
  | some (st, memory) => .on (c.pass st) { s with memory }
  | none => .stuck s

/-- One step of the machine. -/
def step (R : Runtime V W) (code : List Instr) (c : Control V) (s : Kept V W) :
    Run (Control V) (Kept V W) :=
  match code[c.pc]?, c.stack with
  | none, _ => .stuck s
  | some (.markLabel _), st | some (.allocTemp _ _), st | some (.freeTemp _), st => .on (c.pass st) s
  | some (.loadTemp slot), st => .on (c.pass (c.temps slot :: st)) s
  | some (.storeTemp slot), v :: st =>
    .on { c.pass st with temps := Function.update c.temps slot v } s
  | some .loadState, st => .on (c.pass (s.state :: st)) s
  | some .storeState, v :: st => .on (c.pass st) { s with state := v }
  | some (.branch l), _ => goTo code c l s
  | some (.branchIf when l), v :: st =>
    if R.isTrue v = when then goTo code { c with stack := st } l s else .on (c.pass st) s
  | some (.switch table default), v :: st =>
    goTo code { c with stack := st } ((table.lookup (R.toInt v)).getD default) s
  | some (.enterTry l), st => .on { c.pass st with regions := l :: c.regions } s
  | some (.leave l), _ => goTo code { c with regions := c.regions.tail } l s
  | some (.ret true), v :: _ => .done (s.note (.ret (some v)))
  | some (.ret false), _ => .done (s.note (.ret none))
  | some .throw, v :: _ => raise code c v s
  | some i, _ => R.work i c s

/-- The beginning of an invocation. -/
def enter (R : Runtime V W) : Control V :=
  { pc := 0, stack := [], temps := fun _ => R.unbound, regions := [] }

end Runtime

end StackCode
