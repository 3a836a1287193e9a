import StackCode.Proofs.Execution.Points

/-!
# The course of execution

Execution of some code where everything that decides about it is given: the outcome of every test, the
number that every jump table is entered with, and the exceptions (`Fate`).  However protected regions
are closed, an exception goes to the handler of one that has been entered, or ends execution; so the
fate tells which.  What is seen of an execution are the instructions (`Sight`).  Labels, branches, tests
and the declarations of temporaries are not seen, nor are the numbers of slots; a label that an
instruction names is seen as what it marks.
-/

namespace StackCode

/-- All that decides about the course of execution. -/
structure Fate where
  /-- The outcome of a test, after so many tests. -/
  test : Nat → Bool
  /-- What a jump table is entered with, after so many instructions seen. -/
  select : Nat → Int
  /-- Whether the instruction raises an exception that is executed after so many seen, and which of the
  protected regions entered by then has the handler, the last one first. -/
  raised : Nat → Option Nat

namespace Instr

/-- Labels, branches, tests and the declarations of temporaries are not seen. -/
def isSeen : Instr → Bool
  | .markLabel _ | .branch _ | .branchIf _ _ | .allocTemp _ _ | .freeTemp _ => false
  | _ => true

/-- The instruction without the numbers of its slot and its labels. -/
def bare (i : Instr) : Instr :=
  match i.erased with
  | .branch _ => .branch ⟨0⟩
  | .branchIf when _ => .branchIf when ⟨0⟩
  | .switch cases _ => .switch (cases.map fun e => (e.1, ⟨0⟩)) ⟨0⟩
  | .enterTry _ => .enterTry ⟨0⟩
  | .leave _ => .leave ⟨0⟩
  | i => i

end Instr

/-- What is seen of an instruction: the instruction without numbers, and what its labels mark. -/
structure Sight where
  instr : Instr
  marks : List (Option Spot)
deriving DecidableEq

def Instr.sight (reads : Label → Option Spot) (i : Instr) : Sight :=
  { instr := i.bare, marks := i.targets.map reads }

/-- Where execution has come to. -/
structure Walk where
  pc : Nat := 0
  /-- The handlers of the protected regions entered so far, the last one first. -/
  entered : List Label := []
  /-- The number of tests so far. -/
  tests : Nat := 0

/-- Goes on at a label. -/
def Walk.goTo (code : List Instr) (w : Walk) (l : Label) (seen : List Sight) :
    Run Walk (List Sight) :=
  match code.idxOf? (.markLabel l) with
  | some q => .on { w with pc := q } seen
  | none => .stuck seen

namespace Fate

variable (fate : Fate) (reads : Label → Option Spot) (code : List Instr)

/-- Where an instruction leads that raises no exception. -/
def proceed (n : Nat) (w : Walk) (i : Instr) (seen : List Sight) : Run Walk (List Sight) :=
  match i with
  | .switch table default => w.goTo code ((table.lookup (fate.select n)).getD default) seen
  | .leave l => w.goTo code l seen
  | .ret _ | .throw => .done seen
  | _ => .on { w with pc := w.pc + 1 } seen

/-- Execution of an instruction that is seen.  An exception that no handler is found for ends it. -/
def execute (w : Walk) (i : Instr) (seen : List Sight) : Run Walk (List Sight) :=
  let w := { w with entered := i.handler?.toList ++ w.entered }
  match fate.raised seen.length with
  | some k =>
    match w.entered[k]? with
    | some l => w.goTo code l (seen ++ [i.sight reads])
    | none => .done (seen ++ [i.sight reads])
  | none => fate.proceed code seen.length w i (seen ++ [i.sight reads])

/-- One step. -/
def step (w : Walk) (seen : List Sight) : Run Walk (List Sight) :=
  match code[w.pc]? with
  | none => .stuck seen
  | some (.branch l) => w.goTo code l seen
  | some (.branchIf when l) =>
    let next := { w with tests := w.tests + 1 }
    if fate.test w.tests = when then next.goTo code l seen
    else .on { next with pc := w.pc + 1 } seen
  | some i => if i.isSeen then fate.execute reads code w i seen else .on { w with pc := w.pc + 1 } seen

/-- What `n` steps from the first instruction come to. -/
def run (n : Nat) : Run Walk (List Sight) := Run.after (fate.step reads code) (.on {} []) n

end Fate

/-! ## Single steps -/

section
variable {fate : Fate} {reads : Label → Option Spot} {code : List Instr} {w : Walk} {seen : List Sight}

theorem Instr.isSeen_of_isStraight {i : Instr} (hi : i.isStraight = true) : i.isSeen = true := by
  cases i <;> first | rfl | cases hi

/-- A straight instruction that ends the flow returns or throws. -/
theorem Fate.proceed_of_endsFlow {i : Instr} {n : Nat} (hi : i.isStraight = true)
    (hflow : i.endsFlow = true) : fate.proceed code n w i seen = .done seen := by
  cases i with
  | ret | throw => rfl
  | switch => simp [Instr.isStraight, Instr.targets] at hi
  | _ => first | cases hflow; done | cases hi

theorem Fate.proceed_of_passes {i : Instr} {n : Nat} (hi : i.isStraight = true)
    (hflow : i.endsFlow = false) :
    fate.proceed code n w i seen = .on { w with pc := w.pc + 1 } seen := by
  cases i <;> first | rfl | cases hflow

theorem Walk.goTo_eq (hplaced : (placedIn code).Nodup) {l : Label} {q : Nat}
    (hq : code[q]? = some (.markLabel l)) : w.goTo code l seen = .on { w with pc := q } seen := by
  unfold goTo
  rw [idxOf?_of_placed hplaced hq]

theorem Fate.step_of_not_seen {i : Instr} (hpc : code[w.pc]? = some i) (hi : i.isBookkeeping = true) :
    fate.step reads code w seen = .on { w with pc := w.pc + 1 } seen := by
  unfold step
  rw [hpc]
  cases i <;> first | rfl | cases hi

theorem Fate.step_of_seen {i : Instr} (hpc : code[w.pc]? = some i) (hi : i.isSeen = true) :
    fate.step reads code w seen = fate.execute reads code w i seen := by
  unfold step
  rw [hpc]
  cases i <;> first | rfl | cases hi

theorem Fate.step_branch {l : Label} (hpc : code[w.pc]? = some (.branch l)) :
    fate.step reads code w seen = w.goTo code l seen := by
  unfold step
  rw [hpc]

theorem Fate.step_branchIf {when : Bool} {l : Label} (hpc : code[w.pc]? = some (.branchIf when l)) :
    fate.step reads code w seen =
      if fate.test w.tests = when then Walk.goTo code { w with tests := w.tests + 1 } l seen
      else .on { w with pc := w.pc + 1, tests := w.tests + 1 } seen := by
  unfold step
  rw [hpc]

/-- Labels and notes are passed. -/
theorem Fate.leads_of_skips {q : Nat} (h : Skips code w.pc q) :
    Run.Leads (fate.step reads code) (.on w seen) (.on { w with pc := q } seen) := by
  generalize hpc : w.pc = pc at h
  induction h generalizing w with
  | refl => rw [← hpc]; exact .refl _
  | note hi hnote _ ih =>
    subst hpc
    apply Run.Leads.of_step
    rw [step_of_not_seen hi (Instr.isBookkeeping_of_isNote hnote)]
    exact ih rfl
  | label hl _ ih =>
    subst hpc
    apply Run.Leads.of_step
    rw [step_of_not_seen hl rfl]
    exact ih rfl

end

end StackCode
