import StackCode.Proofs.Cut.Abreast
import StackCode.Proofs.Cut.Accepted

/-!
# Operations of an ordinary procedure

An ordinary procedure names a label in its statements only where it returns or initializes static
storage.  Its statements come to the same directives with other labels, to idle ones where control does
not get, and control does not get behind those that stop.  Main statements: `spell_relabel`,
`isIdle_spell`, `Outline.blocks_statement`.
-/

namespace StackCode

open Landmark

/-- An operation of an ordinary procedure, in a statement that returns or not, and that initializes
static storage or not. -/
def Op.isOrdinary (returns initializes : Bool) : Op → Bool
  | .run i => i.isStraight
  | .stage => returns
  | .guard code => initializes && code.all Instr.isStraight
  | .goto s => returns && s = .ret
  | .settle => true
  | _ => false

namespace Outline

variable {o : Outline} {returns initializes : Bool}

theorem isOrdinary_of_isStraight {ops : List Op} (h : ∀ op ∈ ops, op.isStraight = true) :
    ∀ op ∈ ops, op.isOrdinary returns initializes = true := by
  intro op hop
  have hop := h op hop
  cases op with
  | run i => exact hop
  | _ => cases hop

theorem isOrdinary_of_isPlain {α : Type} {x : Fragment α} (hx : x.IsPlain) :
    ∀ op ∈ x.ops, op.isOrdinary returns initializes = true :=
  isOrdinary_of_isStraight (isStraight_of_isPlain hx)

theorem isOrdinary_sequencePoint (span : Option Span) :
    ∀ op ∈ o.sequencePoint span, op.isOrdinary returns initializes = true := by
  unfold sequencePoint
  cases span with
  | none => exact nofun
  | some span =>
    simp only
    split
    · exact List.forall_mem_singleton.2 rfl
    · exact nofun

theorem isOrdinary_returnValue (value : Option Expr) :
    ∀ op ∈ o.returnValue value, op.isOrdinary true initializes = true := by
  unfold returnValue Fragment.opsThen
  refine List.forall_mem_append.2 ⟨isOrdinary_of_isPlain (o.isPlain_returned value), ?_⟩
  cases (o.returned value).result with
  | error e => exact nofun
  | ok ty =>
    refine List.forall_mem_append.2 ⟨List.forall_mem_append.2
      ⟨isOrdinary_of_isPlain (o.isPlain_keep ty), ?_⟩, List.forall_mem_singleton.2 rfl⟩
    split
    · exact List.forall_mem_singleton.2 rfl
    · exact nofun

theorem isOrdinary_bindStatic (d : StaticDecl) :
    ∀ op ∈ o.bindStatic d, op.isOrdinary returns d.init.isSome = true := by
  unfold bindStatic
  refine List.forall_mem_append.2 ⟨isOrdinary_of_isPlain (o.procedure.isPlain_bindHolder _ _), ?_⟩
  cases d.init with
  | none => exact nofun
  | some init =>
    refine List.forall_mem_append.2 ⟨List.forall_mem_append.2
      ⟨isOrdinary_of_isPlain (o.procedure.isPlain_loadVar d.target),
        isOrdinary_of_isPlain (Fragment.isPlain_callIntrinsic .staticIsInitialized)⟩,
      List.forall_mem_singleton.2 (List.all_eq_true.2 fun i hi => ?_)⟩
    exact Instr.isStraight_of_isPlain (o.isPlain_staticInit _ _ i hi)

theorem isStraight_throwValue (p : Procedure) (e : Expr) :
    ∀ i ∈ (p.throwValue e).code, i.isStraight = true :=
  Fragment.forall_code_bind (fun i hi => Instr.isStraight_of_isPlain (p.isPlain_value e _ _ i hi))
    fun _ => List.forall_mem_singleton.2 rfl

theorem isOrdinary_statement {s : Stmt} (hs : s.yieldIndex? = none) :
    ∀ op ∈ o.statement s, op.isOrdinary s.isReturn s.initializes = true := by
  refine List.forall_mem_append.2 ⟨List.forall_mem_append.2 ⟨isOrdinary_sequencePoint s.span, ?_⟩,
    List.forall_mem_singleton.2 rfl⟩
  cases s with
  | empty span =>
    change ∀ op ∈ (if span.isSome && o.options.sequencePoints then [Op.run .nop] else []), _
    split
    · exact List.forall_mem_singleton.2 rfl
    · exact nofun
  | expr e => exact isOrdinary_of_isPlain (o.procedure.isPlain_discardValue e)
  | ret value => exact isOrdinary_returnValue value
  | throw e => exact isOrdinary_of_isStraight (isStraight_ops (isStraight_throwValue o.procedure e))
  | declareFunction name | declareType name =>
    exact isOrdinary_of_isPlain (Fragment.isPlain_callWithName _ name)
  | bindGlobal id => exact isOrdinary_of_isPlain (o.procedure.isPlain_bindGlobal id)
  | defineConst name e => exact isOrdinary_of_isPlain (o.procedure.isPlain_defineConst name e)
  | bindStatic d => exact isOrdinary_bindStatic d
  | unset target => exact isOrdinary_of_isPlain (o.procedure.isPlain_unset target)
  | yield y => cases hs
  | declare => exact nofun

end Outline

/-! ## Statements that stop -/

/-- Behind a statement that stops control does not get on. -/
theorem Outline.blocks_statement {o : Outline} {s : Stmt} (hwrites : o.Writes s) (hs : s.stops = true)
    (label : Landmark → Label) (own : Label) : Blocks (spell label own (o.statement s)) := by
  -- the last instruction of the statement
  obtain ⟨front, op, i, hbody, hop, hflow⟩ : ∃ front op i, o.statementBody s = front ++ [op] ∧
      op.spell label own = [.instr i] ∧ i.endsFlow = true := by
    cases s with
    | ret value =>
      obtain ⟨ty, hty, -⟩ := Fragment.succeeds_bind_iff.1 hwrites
      refine ⟨(o.returned value).ops ++ ((o.keep ty).ops ++ if o.stages then [.stage] else []),
        .goto .ret, .branch (label (.spot .ret)), ?_, rfl, rfl⟩
      change o.returnValue value = _
      unfold returnValue Fragment.opsThen
      rw [hty, List.append_assoc]
    | throw e =>
      obtain ⟨u, hu, -⟩ := Fragment.succeeds_bind_iff.1 hwrites
      refine ⟨(o.procedure.value e .value .thrown).ops, .run .throw, .throw, ?_, rfl, rfl⟩
      change (o.procedure.value e .value .thrown >>= fun _ => Fragment.emit .throw).ops = _
      rw [Fragment.bind_of_ok hu]
      exact List.map_append
    | _ => cases hs
  intro f g code ha
  unfold statement at ha
  rw [hbody, spell_append, spell_append, spell_append] at ha
  obtain ⟨m, _, _, hfront, hsettle, -⟩ := Assembles.append_iff.1 ha
  rw [← List.append_assoc] at hfront
  obtain ⟨k, _, _, -, hlast, -⟩ := Assembles.append_iff.1 hfront
  have hone : spell label own [op] = [.instr i] := (List.append_nil _).trans hop
  rw [hone] at hlast
  have hm : m.isLive = false := by
    have hstep := Assembles.singleton_iff.1 hlast
    cases hk : k.isLive with
    | false =>
      obtain ⟨-, rfl⟩ := (Flow.emit_dead hk).1 hstep
      exact hk
    | true =>
      obtain ⟨-, _, _, -, -, rfl⟩ := (Flow.emit_live hk).1 hstep
      exact congrArg (!·) hflow
  obtain ⟨-, -, rfl⟩ := Flow.step_endStatement.1 (Assembles.singleton_iff.1 hsettle)
  exact hm

/-! ## Directives of ordinary operations -/

variable {returns initializes : Bool} {ops : List Op}
  (hops : ∀ op ∈ ops, op.isOrdinary returns initializes = true)
include hops

/-- With other labels, ordinary operations come to the same directives with other labels. -/
theorem spell_relabel {σ : Label → Label} {label label' : Landmark → Label} {own own' : Label}
    (hret : returns = true → label (.spot .ret) = σ (label' (.spot .ret)))
    (hown : initializes = true → own = σ own') :
    spell label own ops = (spell label' own' ops).map (Directive.relabel σ) := by
  have hstraight {i : Instr} (hi : i.isStraight = true) : i.relabel σ = i :=
    Instr.relabel_eq_self (by rw [Instr.targets_of_isStraight hi]; exact nofun)
      (Instr.placed?_of_isStraight hi)
  induction ops with
  | nil => rfl
  | cons op ops ih =>
    obtain ⟨hop, hops⟩ := List.forall_mem_cons.1 hops
    change op.spell label own ++ spell label own ops =
      (op.spell label' own' ++ spell label' own' ops).map (Directive.relabel σ)
    rw [ih hops, List.map_append]
    congr 1
    cases op with
    | run i =>
      change [Directive.instr i] = [Directive.instr (i.relabel σ)]
      rw [hstraight hop]
    | stage | settle => rfl
    | goto s =>
      obtain ⟨hreturns, hs⟩ := Bool.and_eq_true_iff.1 hop
      obtain rfl := of_decide_eq_true hs
      change [Directive.instr (.branch (label (.spot .ret)))] = _
      rw [hret hreturns]
      rfl
    | guard code =>
      obtain ⟨hinit, hcode⟩ := Bool.and_eq_true_iff.1 hop
      have hbody : code.map (fun i => Directive.instr i.erased) =
          (code.map fun i => Directive.instr i.erased).map (Directive.relabel σ) := by
        rw [List.map_map]
        refine List.map_congr_left fun i hi => congrArg Directive.instr ?_
        exact (hstraight ((Instr.isStraight_erased i).trans (List.all_eq_true.1 hcode i hi))).symm
      change Directive.instr (.branchIf true own) ::
        (code.map (fun i => Directive.instr i.erased) ++ [Directive.mark own .forward]) = _
      rw [hown hinit, hbody]
      simp [Op.spell, Directive.relabel, Instr.relabel]
    | enter | fork | select | leave | suspend | unstage | dangle => cases hop

omit hops in
/-- Straight operations name no labels. -/
theorem spell_relabel_straight (hops : ∀ op ∈ ops, op.isStraight = true)
    (σ : Label → Label) (label label' : Landmark → Label) (own own' : Label) :
    spell label own ops = (spell label' own' ops).map (Directive.relabel σ) := by
  have hordinary : ∀ op ∈ ops, op.isOrdinary false false = true :=
    Outline.isOrdinary_of_isStraight hops
  exact spell_relabel hordinary nofun nofun

/-- Ordinary operations are idle where control does not get. -/
theorem isIdle_spell (label : Landmark → Label) (own : Label) :
    ∀ d ∈ spell label own ops, d.isIdle = true := by
  have hstraight {i : Instr} (hi : i.isStraight = true) : (Directive.instr i).isIdle = true := by
    change (!i.isBookkeeping) = true
    rw [Instr.isBookkeeping_of_isStraight hi]
    rfl
  refine List.forall_mem_flatMap.2 fun op hop => ?_
  have hop := hops op hop
  cases op with
  | run i => exact List.forall_mem_singleton.2 (hstraight hop)
  | stage => exact List.forall_mem_cons.2 ⟨rfl, List.forall_mem_singleton.2 rfl⟩
  | goto | settle => exact List.forall_mem_singleton.2 rfl
  | guard code =>
    refine List.forall_mem_cons.2 ⟨rfl, List.forall_mem_append.2 ⟨fun d hd => ?_,
      List.forall_mem_singleton.2 rfl⟩⟩
    obtain ⟨i, hi, rfl⟩ := List.mem_map.1 hd
    exact hstraight ((Instr.isStraight_erased i).trans
      (List.all_eq_true.1 (Bool.and_eq_true_iff.1 hop).2 i hi))
  | enter | fork | select | leave | suspend | unstage | dangle => cases hop

end StackCode
