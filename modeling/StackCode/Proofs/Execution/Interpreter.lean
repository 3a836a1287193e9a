import StackCode.Procedure
import StackCode.Proofs.Execution.Machine

/-!
# Direct execution of a graph

What a procedure does, told from its graph: no stack, no labels, no code.  An expression gives a value
and changes the memory, operands from left to right; what the types of values differ in is made up
for by conversions.  A block runs its statements in order, up to the first that returns or throws, and
goes on along its edge; the exit returns the default value.  A generator is told as if nothing ever
stopped it: where it is suspended, it goes on with the next statement, and only the record shows that
it has returned and has been invoked again.

Protected regions and locals arrays are left out.
-/

namespace StackCode

/-- The type of what an expression pushes; `void` says that it pushes nothing. -/
def Expr.resultTy : Expr → Ty
  | .assign note _ _ | .call note _ _ => note.ty
  | e => e.ty.orValue

variable {V W : Type}

/-- Makes a value of one type one of another. -/
def Memory.coerce (R : Runtime V W) (source target : Ty) (v : V) (m : Memory V W) :
    V × Memory V W :=
  if source = target then (v, m) else m.perform R (.convert source target) [v]

namespace Procedure

variable (p : Procedure) (R : Runtime V W)

/-- The type of a variable. -/
def localTy (id : LocalId) : Ty := (p.locals.get? id).elim .void (·.ty)

mutual

/-- The value of an expression.  One of type `void` is not used by anything. -/
def eval : Expr → Memory V W → V × Memory V W
  | .literal _ v, m => (R.literal v, m)
  | .var _ id, m => (m.locals id, m)
  | .assign note target value, m =>
    let (v, m) := eval value m
    let (v, m) := m.coerce R value.resultTy (p.localTy target) v
    let m := m.store target v
    if note.ty.isVoid then (v, m) else m.coerce R (p.localTy target) note.ty v
  | .binary _ op lhs rhs, m =>
    let (a, m) := eval lhs m
    let (b, m) := eval rhs m
    m.perform R (.binary op) [a, b]
  | .call _ callee args, m =>
    let (vs, m) := evalArgs args m
    m.perform R (.call (.function callee)) vs
  | .new _ cls args, m =>
    let (vs, m) := evalArgs args m
    m.perform R (.new cls) vs
  | .item _ array key, m =>
    let (a, m) := eval array m
    let (a, m) := m.coerce R array.resultTy .array a
    let (k, m) := eval key m
    let (k, m) := m.coerce R key.resultTy .value k
    m.perform R (.call (.intrinsic .arrayGet)) [a, k]

/-- The values of arguments, from left to right. -/
def evalArgs : List Expr → Memory V W → List V × Memory V W
  | [], m => ([], m)
  | arg :: args, m =>
    let (v, m) := eval arg m
    let (vs, m) := evalArgs args m
    (v :: vs, m)

end

/-- The value of an expression as one of a type. -/
def evalAs (e : Expr) (ty : Ty) (m : Memory V W) : V × Memory V W :=
  let (v, m) := p.eval R e m
  m.coerce R e.resultTy ty v

end Procedure

/-- Calls an intrinsic for its result. -/
def Memory.ask (R : Runtime V W) (m : Memory V W) (i : Intrinsic) (args : List V) :
    V × Memory V W := m.perform R (.call (.intrinsic i)) args

/-- Calls an intrinsic for its effect. -/
def Memory.tell (R : Runtime V W) (m : Memory V W) (i : Intrinsic) (args : List V) : Memory V W :=
  (m.ask R i args).2

namespace Procedure

variable (p : Procedure) (R : Runtime V W)

/-! ## Statements -/

/-- What is returned where no value is. -/
def defaultReturn : Option V := if p.isGenerator then none else R.default? p.returnType

/-- Brings a returned value into the form in which it is returned.  That of a generator is recorded,
and nothing is returned. -/
def execKeep (ty : Ty) (v : V) (m : Memory V W) : Option V × Memory V W :=
  if ty.isVoid then (p.defaultReturn R, m)
  else if p.isGenerator then
    let (v, m) := m.coerce R ty .value v
    (none, m.tell R .setGeneratorReturn [v])
  else if p.returnType.isVoid then (none, m)
  else
    let (v, m) := m.coerce R ty p.returnType v
    (some v, m)

/-- Returns to the caller. -/
def execReturn (value : Option Expr) (m : Memory V W) : Memory V W :=
  match value with
  | none => m.note (.ret (p.defaultReturn R))
  | some e =>
    let (v, m) := p.eval R e m
    let (v, m) := p.execKeep R e.resultTy v m
    m.note (.ret v)

/-- Binds a variable to the global variable of the same name. -/
def execBindGlobal (id : LocalId) (m : Memory V W) : Memory V W :=
  let name := (p.locals.get? id).elim .empty (·.name)
  let (v, m) := m.ask R .globalRef [R.context, R.literal (.str name)]
  m.store id v

def execDefineConst (name : Name) (e : Expr) (m : Memory V W) : Memory V W :=
  let (v, m) := p.evalAs R e .value m
  m.tell R .defineConstant [R.context, R.literal (.str name), v]

/-- Binds a variable to static storage. -/
def execBindHolder (d : StaticDecl) (m : Memory V W) : V × Memory V W :=
  let (holder, m) := m.ask R .staticHolder [R.context, R.literal (.str d.key)]
  (holder, m.store d.target holder)

/-- Binds a variable to static storage, which is initialized once. -/
def execStatic (d : StaticDecl) (m : Memory V W) : Memory V W :=
  let (holder, m) := execBindHolder R d m
  match d.init with
  | none => m
  | some init =>
    let (done, m) := m.ask R .staticIsInitialized [holder]
    if R.isTrue done then m
    else
      let (v, m) := p.evalAs R init .value m
      m.tell R .staticInitialize [holder, v]

def execUnset (target : UnsetTarget) (m : Memory V W) : Memory V W :=
  match target with
  | .var id => m.clear R id
  | .item array key =>
    let (a, m) := p.evalAs R array .array m
    let (k, m) := p.evalAs R key .value m
    m.tell R .removeKey [a, k]
  | .property inst name =>
    let (v, m) := p.evalAs R inst .value m
    m.tell R .unsetProperty [v, R.literal (.str name)]

/-- Publishes the value and the key of a suspension point. -/
def execPublish (y : Yield) (m : Memory V W) : Memory V W :=
  let (v, m) := p.evalAs R y.value .value m
  match y.key with
  | some key =>
    let (k, m) := p.evalAs R key .value m
    m.tell R (if y.isDelegated then .setGeneratorCurrentDelegated else .setGeneratorCurrentWithKey)
      [v, k]
  | none =>
    if y.isDelegated then m.tell R .setGeneratorCurrentDelegated [v, R.literal .null]
    else m.tell R .setGeneratorCurrent [v]

/-- Publishes a value; the generator returns, and is invoked again in the state of the suspension
point. -/
def execYield (y : Yield) (m : Memory V W) : Memory V W :=
  ((p.execPublish R y m).note (.ret none)).note (.resume (R.literal (.int y.index)))

/-- What a statement does. -/
def execStmt (s : Stmt) (m : Memory V W) : Run Unit (Memory V W) :=
  match s with
  | .empty _ | .declare => .on () m
  | .expr e => .on () (p.eval R e m).2
  | .ret value => .done (p.execReturn R value m)
  | .throw e =>
    let (v, m) := p.evalAs R e .value m
    .done (m.note (.throw v))
  | .declareFunction name =>
    .on () (m.tell R .declareFunction [R.context, R.literal (.str name)])
  | .declareType name => .on () (m.tell R .declareType [R.context, R.literal (.str name)])
  | .bindGlobal id => .on () (p.execBindGlobal R id m)
  | .defineConst name e => .on () (p.execDefineConst R name e m)
  | .bindStatic d => .on () (p.execStatic R d m)
  | .unset target => .on () (p.execUnset R target m)
  | .yield y => .on () (p.execYield R y m)

/-- What statements do one after the other. -/
def execStmts : List Stmt → Memory V W → Run Unit (Memory V W)
  | [], m => .on () m
  | s :: ss, m => (p.execStmt R s m).andThen fun _ m => execStmts ss m

/-! ## Blocks -/

/-- Where an edge leads to. -/
def follow (e : Edge) (m : Memory V W) : Run BlockId (Memory V W) :=
  match e with
  | .goto target | .leave target | .protect target _ _ => .on target m
  | .branch condition onTrue onFalse =>
    let (v, m) := p.evalAs R condition .bool m
    .on (if R.isTrue v then onTrue else onFalse) m
  | .switch selector cases default =>
    let (v, m) := p.evalAs R selector .int m
    .on ((cases.lookup (R.toInt v)).getD default) m
  | .none => .stuck m

/-- What a block does: its statements, and then its edge. -/
def execBlock (b : BlockId) (m : Memory V W) : Run BlockId (Memory V W) :=
  match p.graph.block? b with
  | none => .stuck m
  | some block =>
    (p.execStmts R block.statements m).andThen fun _ m =>
      if block.kind = .exit then .done (m.note (.ret (p.defaultReturn R)))
      else p.follow R block.edge m

end Procedure

/-- Gives a variable its first value. -/
def Memory.initVar (R : Runtime V W) (m : Memory V W) (v : Local) : Memory V W :=
  match R.default? v.ty with
  | some value => if v.needsInit then m.store v.id value else m
  | none => m

namespace Procedure

variable (p : Procedure) (R : Runtime V W)

/-! ## The procedure -/

/-- What is done once, before the first block: a script is marked as included, and the variables get
their first values. -/
def execPrologue (m : Memory V W) : Memory V W :=
  let m := match p.kind with
    | .scriptMain script => m.tell R .onInclude [R.context, R.literal (.str script)]
    | _ => m
  if p.localsInitialized then m else p.locals.toList.foldl (Memory.initVar R) m

/-- The procedure after so many of its blocks. -/
def interpret (m : Memory V W) (n : Nat) : Run BlockId (Memory V W) :=
  Run.after (p.execBlock R) (.on p.graph.start (p.execPrologue R m)) n

end Procedure

end StackCode
