import StackCode.Proofs.Assembly.Steps
import StackCode.Proofs.Outline.Renders

/-!
# Sound directives

The labels that the code places and the protected regions that it opens are those of its directives.
A directive is sound if they are what the reading says; drafts that render operations consist of
sound directives, and none of them marks a handler.
-/

namespace StackCode

/-- The handler of the protected region that a directive opens. -/
def Directive.opens? : Directive → Option Label
  | .instr i => i.handler?
  | _ => none

/-- The label that a directive places. -/
def Directive.marks? : Directive → Option Label
  | .mark l _ | .returnPoint l _ => some l
  | _ => none

def Directive.isHandlerMark : Directive → Bool
  | .mark _ .handler => true
  | _ => false

namespace Flow

variable {f f' : Flow} {d : Directive} {instrs : List Instr} {i : Instr} {l : Label}

/-- What a directive may come to: its instruction, its label, or the return of a slot. -/
theorem mem_of_step (h : f.step d = .ok (instrs, f')) (hi : i ∈ instrs) :
    d = .instr i ∨ (∃ l, d.marks? = some l ∧ i = .markLabel l) ∨
      ∃ l slot, d = .returnPoint l slot ∧ (i = .loadTemp slot ∨ i = .ret true) := by
  have hemit {f f' : Flow} {j : Instr} {instrs : List Instr}
      (h : f.emit j = .ok (instrs, f')) (hi : i ∈ instrs) : i = j := by
    cases hf : f.isLive with
    | true =>
      obtain ⟨rfl, -⟩ := (emit_live hf).1 h
      exact List.mem_singleton.1 hi
    | false =>
      obtain ⟨rfl, -⟩ := (emit_dead hf).1 h
      split at hi
      · exact List.mem_singleton.1 hi
      · cases hi
  have hmark {f f' : Flow} {l : Label} {arrival : Arrival} {instrs : List Instr}
      (h : f.mark l arrival = .ok (instrs, f')) (hi : i ∈ instrs) : i = .markLabel l := by
    obtain ⟨rfl, -⟩ := mark_eq_ok_iff.1 h
    exact List.mem_singleton.1 hi
  cases d with
  | instr j => exact .inl (congrArg _ (hemit h hi).symm)
  | mark l arrival => exact .inr (.inl ⟨l, rfl, hmark h hi⟩)
  | endStatement => obtain ⟨-, rfl, -⟩ := step_endStatement.1 h; cases hi
  | endBlock b => obtain ⟨-, rfl, -⟩ := step_endBlock.1 h; cases hi
  | stageReturn => obtain ⟨rfl, -⟩ := step_stageReturn h; cases hi
  | returnPoint l slot =>
    have hpoint := step_returnPoint h
    split at hpoint
    · obtain ⟨f₁, f₂, c₁, c₂, c₃, h₁, h₂, h₃, rfl⟩ := hpoint
      rw [List.mem_append, List.mem_append] at hi
      rcases hi with (hi | hi) | hi
      · exact .inr (.inl ⟨l, rfl, hmark h₁ hi⟩)
      · exact .inr (.inr ⟨l, slot, rfl, .inl (hemit h₂ hi)⟩)
      · exact .inr (.inr ⟨l, slot, rfl, .inr (hemit h₃ hi)⟩)
    · obtain ⟨-, rfl, -⟩ := hpoint
      cases hi

/-- A region that the code opens is opened by a directive. -/
theorem opens_of_step (h : f.step d = .ok (instrs, f')) (hi : i ∈ instrs)
    (hl : i.handler? = some l) : d.opens? = some l := by
  rcases mem_of_step h hi with rfl | ⟨m, -, rfl⟩ | ⟨m, slot, -, rfl | rfl⟩
  · exact hl
  · cases hl
  · cases hl
  · cases hl

/-- A label that the code places is placed by a directive. -/
theorem marks_of_step (hd : d.IsProper) (h : f.step d = .ok (instrs, f'))
    (hl : .markLabel l ∈ instrs) : d.marks? = some l := by
  rcases mem_of_step h hl with rfl | ⟨m, hm, heq⟩ | ⟨m, slot, -, heq | heq⟩
  · cases hd
  · cases heq
    exact hm
  · cases heq
  · cases heq

end Flow

/-! ## Soundness -/

/-- A label that is none of a block's. -/
def Reading.IsInner (r : Reading) (l : Label) : Prop :=
  r.bound ≤ l.index ∨ ∃ index, r.label? (.resume index) = some l

/-- A directive that places labels and opens regions as the reading says. -/
structure Directive.Sound (r : Reading) (d : Directive) : Prop where
  isProper : d.IsProper
  opens : ∀ l, d.opens? = some l → ∃ h, r.catches h ∧ r.label? (.block h) = some l
  marks : ∀ l, d.marks? = some l → (r.IsInner l ∧ d.isHandlerMark = false) ∨
    ∃ b, r.label? (.block b) = some l ∧ (d.isHandlerMark = true ↔ r.catches b)

namespace Directive.Sound

variable {r : Reading} {i : Instr} {l : Label}

theorem of_instr (hplaced : i.placed? = none) (hopens : i.handler? = none) :
    Directive.Sound r (.instr i) where
  isProper := hplaced
  opens l hl := by
    change i.handler? = some l at hl
    rw [hopens] at hl
    cases hl
  marks := nofun

theorem of_isNote (hi : i.isNote = true) : Directive.Sound r (.instr i) :=
  .of_instr (Instr.placed?_of_isNote hi) (by cases i <;> first | rfl | cases hi)

theorem of_isStraight (hi : i.isStraight = true) : Directive.Sound r (.instr i) :=
  .of_instr (Instr.placed?_of_isStraight hi) (Instr.handler?_of_isStraight hi)

theorem of_forward (hl : r.IsInner l) : Directive.Sound r (.mark l .forward) where
  isProper := trivial
  opens := nofun
  marks m hm := by cases hm; exact .inl ⟨hl, rfl⟩

theorem of_returnPoint {slot : TempSlot} (hl : r.IsInner l) :
    Directive.Sound r (.returnPoint l slot) where
  isProper := trivial
  opens := nofun
  marks m hm := by cases hm; exact .inl ⟨hl, rfl⟩

end Directive.Sound

/-- Directives behind whose handler marks the exception is taken from the stack. -/
inductive Receives : List Directive → Prop
  | nil : Receives []
  | quiet {d : Directive} {ds : List Directive} (hd : d.isHandlerMark = false)
      (rest : Receives ds) : Receives (d :: ds)
  | handler {l : Label} {notes : List Instr} {i : Instr} {ds : List Directive}
      (hnotes : ∀ i ∈ notes, i.isNote = true) (hi : i.isStraight = true) (hpops : i.pops = 1)
      (rest : Receives ds) :
      Receives (.mark l .handler :: (notes.map .instr ++ .instr i :: ds))

namespace Receives

variable {ds ds' : List Directive}

theorem append (h : Receives ds) (h' : Receives ds') : Receives (ds ++ ds') := by
  induction h with
  | nil => exact h'
  | quiet hd _ ih => exact .quiet hd ih
  | handler hnotes hi hpops _ ih =>
    rw [List.cons_append, List.append_assoc, List.cons_append]
    exact .handler hnotes hi hpops ih

theorem of_forall (h : ∀ d ∈ ds, d.isHandlerMark = false) : Receives ds := by
  induction ds with
  | nil => exact .nil
  | cons d ds ih =>
    obtain ⟨hd, hds⟩ := List.forall_mem_cons.1 h
    exact .quiet hd (ih hds)

end Receives

/-! ## What renders operations is sound -/

namespace Renders

variable {r : Reading} {v w : Bool} {ds : List Directive} {ops : List Op}

theorem sound (h : Renders r v ds ops w) : ∀ d ∈ ds, d.Sound r := by
  induction h with
  | nil => simp
  | note hi _ ih => exact List.forall_mem_cons.2 ⟨.of_isNote hi, ih⟩
  | run hi _ ih => exact List.forall_mem_cons.2 ⟨.of_isStraight hi, ih⟩
  | stage _ _ ih =>
    exact List.forall_mem_cons.2 ⟨⟨trivial, nofun, nofun⟩,
      List.forall_mem_cons.2 ⟨.of_instr rfl rfl, ih⟩⟩
  | guard hl _ _ ihb ih =>
    refine List.forall_mem_cons.2 ⟨.of_instr rfl rfl, List.forall_mem_append.2 ⟨ihb, ?_⟩⟩
    exact List.forall_mem_cons.2 ⟨.of_forward (.inl hl), ih⟩
  | enter hl hh _ ih =>
    refine List.forall_mem_cons.2 ⟨⟨rfl, fun l hopens => ?_, nofun⟩, ih⟩
    cases hopens
    exact ⟨_, hh, hl⟩
  | goto _ _ _ ih => exact List.forall_mem_cons.2 ⟨.of_instr rfl rfl, ih⟩
  | suspend hl _ ih =>
    exact List.forall_mem_cons.2 ⟨.of_instr rfl rfl,
      List.forall_mem_cons.2 ⟨.of_forward (.inr ⟨_, hl⟩), ih⟩⟩
  | settle _ ih => exact List.forall_mem_cons.2 ⟨⟨trivial, nofun, nofun⟩, ih⟩

theorem isProper (h : Renders r v ds ops w) : ∀ d ∈ ds, d.IsProper :=
  fun d hd => (h.sound d hd).isProper

theorem receives (h : Renders r v ds ops w) : Receives ds := by
  induction h with
  | nil => exact .nil
  | note _ _ ih => exact .quiet rfl ih
  | run _ _ ih => exact .quiet rfl ih
  | stage _ _ ih => exact .quiet rfl (.quiet rfl ih)
  | guard _ _ _ ihb ih => exact .quiet rfl (ihb.append (.quiet rfl ih))
  | enter _ _ _ ih => exact .quiet rfl ih
  | goto _ _ _ ih => exact .quiet rfl ih
  | suspend _ _ ih => exact .quiet rfl (.quiet rfl ih)
  | settle _ ih => exact .quiet rfl ih

/-- The first of some operations comes behind notes. -/
theorem exists_run {i : Instr} (h : Renders r v ds (.run i :: ops) w) :
    ∃ (notes : List Instr) (j : Instr) (rest : List Directive),
      ds = notes.map .instr ++ .instr j :: rest ∧ (∀ n ∈ notes, n.isNote = true) ∧
        j.isStraight = true ∧ j.erased = i ∧ Renders r (v && !j.endsFlow) rest ops w := by
  generalize hops : Op.run i :: ops = ops' at h
  induction h with
  | note hi _ ih =>
    obtain ⟨notes, j, rest, rfl, hnotes, hj⟩ := ih hops
    exact ⟨_ :: notes, j, rest, rfl, List.forall_mem_cons.2 ⟨hi, hnotes⟩, hj⟩
  | run hi rest _ =>
    cases hops
    exact ⟨[], _, _, rfl, nofun, hi, rfl, rest⟩
  | _ => cases hops

end Renders

namespace Ends

variable {r : Reading} {next : Option Spot} {v : Bool} {ds : List Directive} {ops : List Op}

theorem sound (h : Ends r next v ds ops) : ∀ d ∈ ds, d.Sound r := by
  cases h with
  | fall => simp
  | jump => exact List.forall_mem_singleton.2 (.of_instr rfl rfl)
  | forkFall => exact List.forall_mem_singleton.2 (.of_instr rfl rfl)
  | forkJump =>
    exact List.forall_mem_cons.2 ⟨.of_instr rfl rfl,
      List.forall_mem_singleton.2 (.of_instr rfl rfl)⟩
  | select => exact List.forall_mem_singleton.2 (.of_instr rfl rfl)
  | leave => exact List.forall_mem_singleton.2 (.of_instr rfl rfl)
  | dangle => exact List.forall_mem_singleton.2 ⟨trivial, nofun, nofun⟩

theorem receives (h : Ends r next v ds ops) : Receives ds := by
  cases h with
  | fall => exact .nil
  | forkJump => exact .quiet rfl (.quiet rfl .nil)
  | _ => exact .quiet rfl .nil

end Ends

namespace RendersEnd

variable {r : Reading} {next : Option Spot} {v w : Bool} {ds : List Directive} {ops : List Op}

theorem sound (h : RendersEnd r next v ds ops w) : ∀ d ∈ ds, d.Sound r := by
  cases h with
  | intro front back => exact List.forall_mem_append.2 ⟨front.sound, back.sound⟩

theorem receives (h : RendersEnd r next v ds ops w) : Receives ds := by
  cases h with
  | intro front back => exact front.receives.append back.receives

end RendersEnd

end StackCode
