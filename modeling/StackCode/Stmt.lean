import StackCode.Expr

/-!
# Statements

The statements of a basic block.  Control flow inside a procedure belongs to the edges between
blocks, so a statement is straight-line except that it may return, throw or suspend.
-/

namespace StackCode

/-- What `unset` can remove. -/
inductive UnsetTarget where
  | var (id : LocalId)
  | item (array key : Expr)
  | property (inst : Expr) (name : Name)

/-- A variable bound to static storage.  Two declarations with one key share the storage, and the
initializer runs once per key. -/
structure StaticDecl where
  target : LocalId
  key : Name
  init : Option Expr

/-- A suspension point of a generator.  Indices count from 1 within the procedure. -/
structure Yield where
  index : Int
  value : Expr
  key : Option Expr
  /-- The value is passed on from another generator. -/
  isDelegated : Bool

/-- A statement. -/
inductive Stmt where
  | empty (span : Option Span)
  /-- Evaluates and discards. -/
  | expr (e : Expr)
  | ret (value : Option Expr)
  | throw (exception : Expr)
  /-- A conditionally declared function. -/
  | declareFunction (name : Name)
  /-- A conditionally declared class. -/
  | declareType (name : Name)
  /-- Binds a variable to the global variable of the same name. -/
  | bindGlobal (id : LocalId)
  | defineConst (name : Name) (value : Expr)
  | bindStatic (decl : StaticDecl)
  | unset (target : UnsetTarget)
  | yield (y : Yield)
  /-- A compiler directive without effect at run time. -/
  | declare

namespace Stmt

/-- The short name of a statement's kind. -/
def kindName : Stmt → String
  | .empty _ => "empty"
  | .expr _ => "expression"
  | .ret _ => "return"
  | .throw _ => "throw"
  | .declareFunction _ => "function-decl"
  | .declareType _ => "type-decl"
  | .bindGlobal _ => "global"
  | .defineConst _ _ => "global-const"
  | .bindStatic _ => "static"
  | .unset _ => "unset"
  | .yield _ => "yield"
  | .declare => "declare"

/-- The source position at which a debugger stops for the statement. -/
def span : Stmt → Option Span
  | .empty s => s
  | .expr e | .throw e | .defineConst _ e => e.span
  | .ret value => value.bind Expr.span
  | .yield y => y.value.span
  | .declareFunction _ | .declareType _ | .bindGlobal _ | .bindStatic _ | .unset _ | .declare =>
    none

/-- The index of a suspension point. -/
def yieldIndex? : Stmt → Option Int
  | .yield y => some y.index
  | _ => none

end Stmt

end StackCode
