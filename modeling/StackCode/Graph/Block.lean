import StackCode.Stmt

/-!
# Basic blocks

A block runs its statements in order and then follows its one edge.  Ordinals give the order in
which the blocks stood in the source.
-/

namespace StackCode

/-- A basic block: its position in the procedure's graph. -/
structure BlockId where
  index : Nat
deriving DecidableEq

inductive BlockKind where
  /-- The one entry of the procedure. -/
  | start
  /-- The one end of the procedure. -/
  | exit
  | normal
deriving DecidableEq

/-- How control leaves a block. -/
inductive Edge where
  | goto (target : BlockId)
  | branch (condition : Expr) (onTrue onFalse : BlockId)
  /-- A jump table over an integer; the first case with the selector's key is taken. -/
  | switch (selector : Expr) (cases : List (Int × BlockId)) (default : BlockId)
  /-- Enters a protected region at `body`.  An exception inside it continues at `handler`, with the
  exception stored in the local, if there is one. -/
  | protect (body handler : BlockId) (exception : Option LocalId)
  /-- Leaves the innermost protected region. -/
  | leave (target : BlockId)
  /-- No successor: the block returns, throws or is never reached. -/
  | none

namespace Edge

/-- The blocks that control may continue at, in order. -/
def targets : Edge → List BlockId
  | .goto t | .leave t => [t]
  | .branch _ t f => [t, f]
  | .switch _ cases default => cases.map Prod.snd ++ [default]
  | .protect body handler _ => [body, handler]
  | .none => []

/-- The target that is entered by an exception only. -/
def handler? : Edge → Option BlockId
  | .protect _ handler _ => some handler
  | _ => Option.none

/-- The targets that control reaches by itself. -/
def normalTargets : Edge → List BlockId
  | .protect body _ _ => [body]
  | e => e.targets

theorem mem_targets_iff {e : Edge} {b : BlockId} :
    b ∈ e.targets ↔ b ∈ e.normalTargets ∨ e.handler? = some b := by
  cases e <;> simp [targets, normalTargets, handler?, eq_comm]

def isNone : Edge → Bool
  | .none => true
  | _ => false

@[simp] theorem isNone_iff {e : Edge} : e.isNone = true ↔ e = .none := by
  cases e <;> simp [isNone]

/-- The short name of an edge's kind. -/
def kindName : Edge → String
  | .goto _ => "unconditional"
  | .branch _ _ _ => "conditional"
  | .switch _ _ _ => "multi-way"
  | .protect _ _ _ => "exceptional"
  | .leave _ => "leave"
  | .none => "none"

end Edge

/-- A basic block. -/
structure Block where
  id : BlockId
  ordinal : Nat
  kind : BlockKind
  statements : List Stmt
  edge : Edge

/-- A suspension point and the block that holds it. -/
structure YieldSite where
  index : Int
  block : BlockId
deriving DecidableEq

/-- The suspension points of a block, in statement order. -/
def Block.yields (b : Block) : List YieldSite :=
  b.statements.filterMap fun s => s.yieldIndex?.map fun index => ⟨index, b.id⟩

end StackCode
