import StackCode.Generator.ResumePlan
import StackCode.Options
import StackCode.Procedure

/-!
# Plans

What is known of a procedure's code before any of it is drafted: the order of the blocks, the label
of every block that some edge leads to, and the label of every suspension point.

Block labels come first, numbered in the order in which the edges of the code name the blocks; the
resume labels follow.
-/

namespace StackCode

/-- The plan of a procedure's code. -/
structure Plan where
  procedure : Procedure
  options : Options
  /-- The blocks in the order of their code. -/
  blocks : List Block
  /-- The blocks that an edge of the code leads to; the position of one is its label. -/
  labelled : List BlockId
  /-- The resume labels, of which only a generator has any. -/
  resume : ResumePlan

namespace Plan

/-- The blocks that the edges of some blocks lead to, each where it is named first. -/
def targetsOf (blocks : List Block) : List BlockId :=
  (blocks.flatMap fun b => b.edge.targets).eraseDups

/-- Plans the code of a procedure, and allots the labels that the plan needs. -/
def make (p : Procedure) (options : Options) (strategy : LayoutStrategy) :
    Except LowerError (Plan × LabelTable) :=
  match p.graph.emissionOrder strategy p.liveBlocks with
  | none => .error .invalidEmitOrder
  | some order => do
    let blocks := order.filterMap p.graph.block?
    let labelled := targetsOf blocks
    let labels := LabelTable.reserve {} labelled.length
    let plan := { procedure := p, options, blocks, labelled, resume := ⟨[]⟩ }
    if p.isGenerator then
      let (resume, labels) := ResumePlan.make (p.graph.yields.map (·.index)) labels
      return ({ plan with resume := ← resume }, labels)
    else
      return (plan, labels)

/-- The label of a block, if some edge leads to it. -/
def label? (c : Plan) (b : BlockId) : Option Label := (c.labelled.idxOf? b).map Label.mk

/-- The label of a block that an edge leads to. -/
def blockLabel (c : Plan) (b : BlockId) : Except LowerError Label :=
  match c.label? b with
  | some l => .ok l
  | none => .error (.unlabeledBlock b)

/-- What a protected region with this handler does with the exception. -/
def exceptionOf? (handler : BlockId) (b : Block) : Option (Option LocalId) :=
  match b.edge with
  | .protect _ h exception => if h = handler then some exception else none
  | _ => none

/-- What a handler does with the exception: stores it in a variable or drops it.  Where several
regions share the handler, the last one in the code decides. -/
def caught? (c : Plan) (handler : BlockId) : Option (Option LocalId) :=
  c.blocks.reverse.findSome? (exceptionOf? handler)

end Plan

end StackCode
