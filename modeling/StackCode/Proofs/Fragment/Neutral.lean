import StackCode.Lowering
import StackCode.Proofs.Assembly.Steps
import StackCode.Proofs.Fragment.Carries
import StackCode.Proofs.Fragment.Typed

/-!
# Expressions spare the stack

The code generator is followed from any point on.  How far it has got is what has been allotted, the code
that there is, and what the assembler knows at the end of it (`Progress`); a draft is written by drafting
it and assembling that at once (`Draft.write`).  So are drafts that follow each other
(`Draft.write_bind`), and so is a whole procedure (`Plan.appendTo_eq_write`).

Writing an expression puts its value, if it has one, on top of the stack, and changes nothing else: none
of its instructions takes a value that has been there before.  Where control does not get to, it writes
nothing.  Main statement: `Procedure.evaluate_neutral`.
-/

namespace StackCode

/-- How far the code generator has got. -/
structure Progress where
  frame : Frame
  code : Array Instr
  flow : Flow

namespace Draft

variable {α β : Type}

/-- What comes of a draft that is assembled at once: how far that gets, and the answer.  Of an error in the
code and a draft that stopped, the error comes first. -/
def write (x : Draft α) (s : Progress) : Progress × Except LowerError α :=
  let drafted := x s.frame
  let assembly := assemble s.code s.flow drafted.code
  ({ frame := drafted.frame, code := assembly.code, flow := assembly.flow },
    match assembly.fault with
    | some e => .error e
    | none => drafted.result)

/-- Drafts that follow each other are written one after the other. -/
theorem write_bind {x : Draft α} {s : Progress} {a : α} (h : (x.write s).2 = .ok a)
    (next : α → Draft β) : (x >>= next).write s = (next a).write (x.write s).1 := by
  simp only [write] at h
  cases hfault : (assemble s.code s.flow (x s.frame).code).fault with
  | some e =>
    rw [hfault] at h
    cases h
  | none =>
    rw [hfault] at h
    simp only [write, bind_of_ok h, assemble_append_of_fault hfault]

end Draft

/-- A procedure is lowered by writing its draft, with the labels known that it allots. -/
theorem Plan.appendTo_eq_write (c : Plan) (labels : LabelTable) (code : Array Instr) :
    c.appendTo labels code =
      let s := c.draft.write
        { frame := { labels }, code, flow := { labels := (c.draft { labels }).frame.labels } }
      (s.1.code, s.2 >>= fun () =>
        c.summary code.size s.1.frame { code := s.1.code, flow := s.1.flow, fault := none }) := by
  unfold appendTo Draft.write
  simp only
  cases hassembly : assemble code { labels := (c.draft { labels }).frame.labels }
    (c.draft { labels }).code with
  | mk out flow fault =>
    cases fault with
    | some e => rfl
    | none => cases (c.draft { labels }).result <;> rfl

/-! ## Plain code -/

namespace Instr

/-- Sends control elsewhere, opens or closes a region, or places a label. -/
def isControl : Instr → Bool
  | .branch _ | .branchIf _ _ | .switch _ _ | .ret _ | .throw | .enterTry _ | .leave _
  | .markLabel _ => true
  | _ => false

theorem isControl_of_isOperand {i : Instr} (h : i.isOperand = true) : i.isControl = false := by
  cases i <;> first | rfl | cases h

/-- From that depth on, no instruction takes any of the values that have been on the stack before the
first one. -/
def Spare (is : List Instr) (depth : Nat) : Prop :=
  ∀ before i behind, is = before ++ i :: behind →
    ∃ d, depthThrough before depth = .ok d ∧ depth + i.pops ≤ d

/-- Plain code moves the depth alike, whatever lies below. -/
theorem depthThrough_add {is : List Instr} {n after : Nat} (his : ∀ i ∈ is, i.isPlain = true)
    (h : depthThrough is n = .ok after) (k : Nat) : depthThrough is (k + n) = .ok (k + after) := by
  induction is generalizing n with
  | nil =>
    cases h
    rfl
  | cons i is ih =>
    obtain ⟨hi, his⟩ := List.forall_mem_cons.1 his
    obtain ⟨d, hfirst, hrest⟩ := depthThrough_cons_iff.1 h
    obtain ⟨hpops, rfl⟩ := depth_eq_of_passes hfirst
    refine depthThrough_cons_iff.2 ⟨k + (n - i.pops + i.pushes), ?_, ih his hrest⟩
    rw [depthAfter_of_pops_le (returnDepth?_of_isPlain hi) (isJump_of_isPlain hi) (by omega)]
    congr 1
    omega

/-- Plain code that finds all it takes on an empty stack takes nothing of what lies below. -/
theorem spare_of_depthThrough {is : List Instr} {after : Nat} (his : ∀ i ∈ is, i.isPlain = true)
    (h : depthThrough is 0 = .ok after) (depth : Nat) : Spare is depth := by
  rintro before i behind rfl
  obtain ⟨d, hbefore, hrest⟩ := depthThrough_append_iff.1 h
  obtain ⟨_, hi, -⟩ := depthThrough_cons_iff.1 hrest
  refine ⟨depth + d, ?_, Nat.add_le_add_left (depth_eq_of_passes hi).1 depth⟩
  exact depthThrough_add (fun j hj => his j (List.mem_append_left _ hj)) hbefore depth

end Instr

namespace Draft

variable {α : Type} {x : Fragment α} {s : Progress}

theorem write_of_assembles {instrs : List Instr} {g : Flow}
    (h : Assembles s.flow (x.code.map .instr) instrs g) :
    (ofFragment x).write s = ({ s with code := s.code ++ instrs, flow := g }, x.result) := by
  have hassembly : assemble s.code s.flow (x.code.map .instr) =
      { code := s.code ++ instrs, flow := g, fault := none } := assemble_eq_iff.2 ⟨instrs, h, rfl⟩
  simp only [write, ofFragment_apply, hassembly]

/-- Plain code that control gets to is appended, and moves the depth alone. -/
theorem write_live (hx : x.IsPlain) (hs : s.flow.isLive = true) {after : Nat}
    (h : Instr.depthThrough x.code s.flow.depth = .ok after) :
    (ofFragment x).write s =
      ({ s with code := s.code ++ x.code, flow := { s.flow with depth := after } }, x.result) :=
  write_of_assembles (.of_depthThrough (fun i hi => Instr.passes_of_isPlain (hx i hi)) hs h)

/-- Where control does not get to, plain code leaves everything as it was. -/
theorem write_dead (hx : x.IsPlain) (hs : s.flow.isLive = false) :
    (ofFragment x).write s = (s, x.result) := by
  rw [write_of_assembles (.of_isPlain_dead hx hs), Array.appendList_nil]

/-- Writing the draft puts a value of the type that it answers on top of the stack, and changes nothing
else. -/
structure Neutral (x : Draft Ty) : Prop where
  /-- Behind a draft that did not stop, control still passes, with one value more on the stack or none;
  the labels and the stored return value are what they were. -/
  flow : ∀ s s' ty, s.flow.isLive = true → x.write s = (s', .ok ty) →
    s'.flow = { s.flow with depth := s.flow.depth + ty.width }
  /-- No label and no temporary is allotted; and whether or not control gets there, the draft places and
  names no label, and declares, reads, writes and ends the use of no temporary. -/
  frame : ∀ s, (x.write s).1.frame = s.frame ∧ ∀ d ∈ (x s.frame).code, ∃ i, d = .instr i ∧
    i.placed? = none ∧ i.targets = [] ∧ i.isNote = false ∧ i.usesTemp = false
  /-- What is written, also if the draft stops, is work on values, and spares those below. -/
  code : ∀ s, s.flow.isLive = true → ∃ added : List Instr, (x.write s).1.code = s.code ++ added ∧
    (∀ i ∈ added, i.isOperand = true ∧ i.isControl = false) ∧ Instr.Spare added s.flow.depth
  /-- Where control does not get to, nothing changes, and the answer is what it would be elsewhere. -/
  dead : ∀ s s', s.flow.isLive = false → s'.flow.isLive = true → x.write s = (s, (x.write s').2)

end Draft

/-- A fragment that finds all it takes on an empty stack is neutral on any. -/
theorem Fragment.Carries.neutral {x : Fragment Ty} (h : x.Carries True 0 Ty.width)
    (hoperand : x.IsOperand) : (Draft.ofFragment x).Neutral := by
  have hplain : x.IsPlain := hoperand.isWork.isPlain
  obtain ⟨after, hthrough, hafter⟩ := h.lands trivial 0
  have hlive {s : Progress} (hs : s.flow.isLive = true) := Draft.write_live hplain hs
    (Instr.depthThrough_add hplain hthrough s.flow.depth)
  refine ⟨fun s s' ty hs hwrite => ?_, fun s => ⟨rfl, fun d hd => ?_⟩,
    fun s hs => ⟨x.code, ?_, ?_, ?_⟩, fun s s' hs hs' => ?_⟩
  · rw [hlive hs] at hwrite
    obtain ⟨rfl, hresult⟩ := Prod.mk.inj hwrite
    rw [hafter ty hresult, Nat.zero_add]
  · obtain ⟨i, hi, rfl⟩ := List.mem_map.1 hd
    have hstraight : i.isStraight = true := Instr.isStraight_of_isPlain (hplain i hi)
    exact ⟨i, rfl, Instr.placed?_of_isStraight hstraight, Instr.targets_of_isStraight hstraight,
      Instr.isNote_of_isPlain (hplain i hi), Instr.usesTemp_of_isPlain (hplain i hi)⟩
  · rw [hlive hs]
  · exact fun i hi => ⟨hoperand i hi, Instr.isControl_of_isOperand (hoperand i hi)⟩
  · exact Instr.spare_of_depthThrough hplain hthrough s.flow.depth
  · rw [Draft.write_dead hplain hs, hlive hs']

namespace Procedure

/-- An expression is written without a trace but its value. -/
theorem evaluate_neutral {p : Procedure} (h : p.VoidFree) (e : Expr) :
    (Draft.ofFragment (p.evaluate e)).Neutral :=
  (evaluate_carries (fun _ => h) e).neutral (p.isOperand_evaluate e)

/-- Two values wait on the stack. -/
def waiting : Progress where
  frame := { labels := {} }
  code := #[.constInt 1, .constNull]
  flow := { labels := {}, depth := 2 }

/-- An assignment to an entry of an array, with another one inside, is computed above the values that wait,
and where control does not get to, it is left out. -/
theorem tallied_neutral : tally.VoidFree ∧
    ((Draft.ofFragment (tally.evaluate tallied)).write waiting).1.flow = { labels := {}, depth := 3 } ∧
    (Draft.ofFragment (tally.evaluate tallied)).write
        { waiting with flow := { waiting.flow with isLive := false } } =
      ({ waiting with flow := { waiting.flow with isLive := false } }, .ok .value) := by
  have hvoid : tally.VoidFree := by
    unfold Procedure.VoidFree
    decide
  have hneutral := evaluate_neutral hvoid tallied
  exact ⟨hvoid, hneutral.flow waiting _ .value rfl (Prod.ext rfl rfl), hneutral.dead _ waiting rfl rfl⟩

end Procedure

end StackCode
