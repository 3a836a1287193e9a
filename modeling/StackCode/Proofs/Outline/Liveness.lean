import StackCode.Plan

/-!
# Liveness

Where control gets to in a procedure, read off its graph: through statements, to the edge of a
block, and from there to the exit.  The assembler finds out the same while it runs over the code.
-/

namespace StackCode

namespace Stmt

def isReturn : Stmt → Bool
  | .ret _ => true
  | _ => false

/-- Whether control gets behind a statement; a generator is resumed behind a suspension. -/
def liveAfter (live : Bool) : Stmt → Bool
  | .ret _ | .throw _ => false
  | .yield _ => true
  | _ => live

/-- Whether control gets behind some statements. -/
def liveThrough (live : Bool) (ss : List Stmt) : Bool := ss.foldl liveAfter live

/-- Whether control gets to a return statement. -/
def reachesReturn (live : Bool) : List Stmt → Bool
  | [] => false
  | s :: ss => (live && s.isReturn) || reachesReturn (s.liveAfter live) ss

end Stmt

namespace Plan

variable (c : Plan)

def isLabelled (b : BlockId) : Bool := (c.label? b).isSome

/-- Whether control gets to the edge of a block other than the exit. -/
def reachesEdge (b : Block) : Bool :=
  Stmt.liveThrough (b.kind = .start || c.isLabelled b.id) b.statements

/-- Whether control gets to the exit. -/
def reachesExit : Bool :=
  c.blocks.any fun b => b.kind ≠ .exit && c.reachesEdge b && c.procedure.graph.exit ∈ b.edge.targets

/-- Whether control gets to the statements of a block. -/
def reachesBlock (b : Block) : Bool :=
  if b.kind = .exit then c.reachesExit else b.kind = .start || c.isLabelled b.id

/-- Whether control gets to a return statement. -/
def reachesReturn : Bool :=
  c.blocks.any fun b => Stmt.reachesReturn (c.reachesBlock b) b.statements

end Plan

end StackCode
