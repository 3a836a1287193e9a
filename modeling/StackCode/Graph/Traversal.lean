import StackCode.Graph.FlowGraph

/-!
# Depth-first traversal

One walk serves every traversal. It keeps a list of tasks: to enter a block, or to leave one whose
successors have all been walked. A block is entered once, its successors are walked in edge order,
and it is listed when it is left; so the list of left blocks, newest first, is the reverse
postorder.

Every task shortens what remains by exactly one: entering a block adds a task per successor and the
task of leaving it, which is what the block itself counted for while it was fresh.
-/

namespace StackCode

/-- A step of a depth-first walk. -/
inductive WalkTask where
  | enter (b : BlockId)
  | leave (b : BlockId)
deriving DecidableEq

namespace FlowGraph

/-- The tasks that a block adds when it is entered. -/
def tasksOf (g : FlowGraph) (b : BlockId) : List WalkTask :=
  (g.successors b).map .enter ++ [.leave b]

/-- The tasks that blocks will add. -/
def tasksIn (g : FlowGraph) : List BlockId → Nat
  | [] => 0
  | b :: fresh => (g.tasksOf b).length + g.tasksIn fresh

/-- The steps that remain while the blocks `fresh` have not been entered. -/
def remaining (g : FlowGraph) (fresh : List BlockId) (todo : List WalkTask) : Nat :=
  g.tasksIn fresh + todo.length

theorem tasksIn_erase {g : FlowGraph} {fresh : List BlockId} {b : BlockId} (h : b ∈ fresh) :
    g.tasksIn (fresh.erase b) + (g.tasksOf b).length = g.tasksIn fresh := by
  induction fresh with
  | nil => cases h
  | cons c fresh ih =>
    by_cases hbc : c = b
    · subst hbc
      simp only [List.erase_cons_head, tasksIn]
      omega
    · have := ih (List.mem_of_ne_of_mem (Ne.symm hbc) h)
      rw [List.erase_cons_tail (by simpa using hbc)]
      simp only [tasksIn]
      omega

theorem remaining_enter {g : FlowGraph} {fresh : List BlockId} {b : BlockId}
    {todo : List WalkTask} (h : b ∈ fresh) :
    g.remaining (fresh.erase b) (g.tasksOf b ++ todo) < g.remaining fresh (.enter b :: todo) := by
  have : g.tasksIn (fresh.erase b) + (g.tasksOf b).length = g.tasksIn fresh := tasksIn_erase h
  simp only [remaining, List.length_append, List.length_cons]
  omega

/-- Walks the tasks in order and lists each block that is left in front of `left`. -/
def walk (g : FlowGraph) (fresh left : List BlockId) : List WalkTask → List BlockId
  | [] => left
  | .leave b :: todo => g.walk fresh (b :: left) todo
  | .enter b :: todo =>
    if b ∈ fresh then g.walk (fresh.erase b) left (g.tasksOf b ++ todo)
    else g.walk fresh left todo
termination_by todo => g.remaining fresh todo
decreasing_by
  · simp only [remaining, List.length_cons]; omega
  · exact remaining_enter ‹_›
  · simp only [remaining, List.length_cons]; omega

/-- The blocks reached from the start; loops apart, an edge leads forward in this order. -/
def reversePostorder (g : FlowGraph) : List BlockId := g.walk g.ids [] [.enter g.start]

/-- The blocks reached from the start in the order in which a depth-first walk leaves them. -/
def postorder (g : FlowGraph) : List BlockId := g.reversePostorder.reverse

/-- The blocks reached from any of the roots, in no particular order.  Roots that are not blocks
of the graph reach nothing. -/
def reachableFrom (g : FlowGraph) (roots : List BlockId) : List BlockId :=
  g.walk g.ids [] (roots.map .enter)

end FlowGraph

end StackCode
