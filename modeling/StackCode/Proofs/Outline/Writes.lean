import StackCode.Proofs.Draft.Succeeds
import StackCode.Proofs.Outline.Reading
import StackCode.Proofs.Plan.Lowered

/-!
# What can be written

Whether the draft of a procedure gets to its end can be read off the outline, block by block: the
expressions have the values that are needed, the variables are declared, and only a generator
suspends itself.  The layout has no say in it.  Main statement: `Plan.Lowered.writes`.
-/

namespace StackCode

namespace Outline

/-- Nothing stops the writing of a statement. -/
def Writes (o : Outline) : Stmt → Prop
  | .empty _ | .declareFunction _ | .declareType _ | .declare => True
  | .expr e => (o.procedure.discardValue e).Succeeds
  | .ret value => (o.returned value >>= o.keep).Succeeds
  | .throw e => (o.procedure.throwValue e).Succeeds
  | .bindGlobal id => (o.procedure.bindGlobal id).Succeeds
  | .defineConst name e => (o.procedure.defineConst name e).Succeeds
  | .bindStatic d => (o.procedure.bindHolder d.target d.key).Succeeds ∧
      ∀ init, d.init = some init → (o.staticInit d.target init).Succeeds
  | .unset target => (o.procedure.unset target).Succeeds
  | .yield y => o.procedure.isGenerator = true ∧ 1 ≤ y.index ∧
      y.index.toNat ≤ o.procedure.graph.yields.length ∧ (o.procedure.publish y).Succeeds

/-- Nothing stops the writing of an edge. -/
def WritesEdge (o : Outline) : Edge → Prop
  | .branch condition _ _ => (o.procedure.value condition .bool .branchCondition).Succeeds
  | .switch selector _ _ => (o.procedure.value selector .int .switchSelector).Succeeds
  | _ => True

/-- Nothing stops the writing of a block. -/
structure WritesBlock (o : Outline) (b : Block) : Prop where
  receive : ∀ id, o.caught b.id = some (some id) → ∃ place, o.procedure.place id = .ok place
  statements : ∀ s ∈ b.statements, o.Writes s
  edge : b.kind ≠ .exit → o.WritesEdge b.edge

end Outline

namespace Plan

variable {c : Plan} {frame : Frame}

/-! ## Statements -/

/-- The branch to the return label. -/
theorem branch_succeeds :
    (Draft.returnLabel >>= fun l => Draft.emit (.branch l)).Succeeds frame :=
  (Draft.succeeds_bind_of (P := True) Draft.succeeds_returnLabel fun _ _ _ _ =>
    iff_of_true (Draft.succeeds_emit _) trivial).2 trivial

theorem stageReturn_succeeds_iff {ty : Ty} (hgen : c.procedure.isGenerator = false)
    (hfits : frame.Fits c) :
    (Draft.stageReturn c.procedure.returnType ty).Succeeds frame ↔ (c.outline.keep ty).Succeeds := by
  unfold Draft.stageReturn
  refine Draft.succeeds_bind_of (Draft.succeeds_returnSlot? _) fun ds mid slot hslot => ?_
  have hstages := isSome_of_returnSlot? hgen hfits hslot
  have hkeep : c.outline.keep ty =
      if c.procedure.returnType.isVoid then if ty.isVoid then pure () else Fragment.emit .pop
      else if ty.isVoid then Fragment.pushDefault c.procedure.returnType
      else Fragment.convert ty c.procedure.returnType := by
    unfold Outline.keep
    exact if_neg (by rw [show c.outline.procedure = c.procedure from rfl, hgen]; nofun)
  rw [hkeep]
  simp only [Outline.stages, outline, hgen, Bool.not_false, Bool.true_and] at hstages
  simp only [Draft.liftM_eq]
  cases slot with
  | some slot =>
    have hvoid : c.procedure.returnType.isVoid = false := by simpa using hstages
    have hrest {mid : Frame} : (Draft.directive .stageReturn >>= fun _ =>
        Draft.emit (.storeTemp slot) >>= fun _ =>
          Draft.returnLabel >>= fun l => Draft.emit (.branch l)).Succeeds mid := by
      rw [Draft.succeeds_directive_bind_iff, Draft.succeeds_emit_bind_iff]
      exact branch_succeeds
    rw [hvoid, if_neg Bool.false_ne_true]
    simp only
    split
    · exact Draft.succeeds_ofFragment_bind_unit_iff.trans (and_iff_left hrest)
    · exact Draft.succeeds_ofFragment_bind_unit_iff.trans (and_iff_left hrest)
  | none =>
    have hvoid : c.procedure.returnType.isVoid = true := by simpa using hstages
    rw [hvoid, if_pos rfl]
    simp only
    split
    · exact iff_of_true branch_succeeds (Fragment.succeeds_pure ())
    · refine iff_of_true ?_ (Fragment.succeeds_emit _)
      rw [Draft.succeeds_emit_bind_iff]
      exact branch_succeeds

theorem returnValue_succeeds_iff {value : Option Expr} (hfits : frame.Fits c) :
    (c.returnValue value).Succeeds frame ↔ c.outline.Writes (.ret value) := by
  have hreturned : c.returnValue value = (Draft.ofFragment (c.outline.returned value) >>= fun ty =>
      if c.procedure.isGenerator then Draft.finishGenerator ty
      else Draft.stageReturn c.procedure.returnType ty) := by
    cases value <;> rfl
  rw [hreturned, Draft.succeeds_ofFragment_bind_iff]
  change _ ↔ (c.outline.returned value >>= c.outline.keep).Succeeds
  rw [Fragment.succeeds_bind_iff]
  refine exists_congr fun ty => and_congr_right fun _ => ?_
  cases hgen : c.procedure.isGenerator with
  | false =>
    rw [if_neg Bool.false_ne_true]
    exact stageReturn_succeeds_iff hgen hfits
  | true =>
    rw [if_pos rfl, finishGenerator_eq hgen]
    exact Draft.succeeds_ofFragment_bind_unit_iff.trans (and_iff_left branch_succeeds)

theorem bindStatic_succeeds_iff {d : StaticDecl} :
    (c.bindStatic d).Succeeds frame ↔ c.outline.Writes (.bindStatic d) := by
  unfold bindStatic Outline.Writes
  simp only [Draft.liftM_eq]
  rw [Draft.succeeds_ofFragment_bind_unit_iff]
  refine and_congr_right fun _ => ?_
  cases d.init with
  | none => exact iff_of_true (Draft.succeeds_pure ()) nofun
  | some init =>
    simp only [Option.some.injEq, forall_eq']
    refine Draft.succeeds_bind_of Draft.succeeds_freshLabel fun _ mid l _ => ?_
    have hcall (i : Intrinsic) : (Fragment.callIntrinsic i).Succeeds := Fragment.succeeds_emit _
    rw [Draft.succeeds_ofFragment_bind_unit_iff, Draft.succeeds_ofFragment_bind_unit_iff,
      Draft.succeeds_emit_bind_iff, Draft.succeeds_ofFragment_bind_unit_iff,
      Draft.succeeds_ofFragment_bind_unit_iff, Draft.succeeds_ofFragment_bind_unit_iff]
    change _ ↔ (c.procedure.loadVar d.target >>= fun _ =>
      c.procedure.value init .value .staticInitializer >>= fun _ =>
        Fragment.callIntrinsic .staticInitialize).Succeeds
    rw [Fragment.succeeds_bind_unit_iff, Fragment.succeeds_bind_unit_iff]
    constructor
    · rintro ⟨-, -, hload, hvalue, hinit, -⟩
      exact ⟨hload, hvalue, hinit⟩
    · rintro ⟨hload, hvalue, hinit⟩
      exact ⟨hload, hcall _, hload, hvalue, hinit, Draft.succeeds_mark _ _⟩

theorem yieldValue_succeeds_iff (hmade : c.Made) {y : Yield} :
    (c.yieldValue y).Succeeds frame ↔ c.outline.Writes (.yield y) := by
  change _ ↔ c.procedure.isGenerator = true ∧ 1 ≤ y.index ∧
    y.index.toNat ≤ c.procedure.graph.yields.length ∧ (c.procedure.publish y).Succeeds
  unfold yieldValue
  cases hgen : c.procedure.isGenerator with
  | false =>
    rw [Bool.not_false, if_pos rfl]
    exact iff_of_false (Draft.not_succeeds_fail _) nofun
  | true =>
    rw [Bool.not_true, if_neg Bool.false_ne_true]
    by_cases hpos : y.index < 1
    · rw [if_pos hpos]
      refine iff_of_false (Draft.not_succeeds_fail _) ?_
      rintro ⟨-, hle, -⟩
      omega
    · rw [if_neg hpos, Draft.liftM_eq, Draft.succeeds_ofFragment_bind_unit_iff, Draft.suspend]
      have hlabels : c.resume.labels.length = c.procedure.graph.yields.length := by
        rw [hmade.resume, List.length_map, List.length_range, if_pos hgen]
      cases hl : c.resume.label? y.index with
      | none =>
        refine iff_of_false (fun h => Draft.not_succeeds_fail _ h.2) ?_
        rintro ⟨-, hle, hlen, -⟩
        have hsome := hmade.resume_label?_eq_some_iff
          (l := ⟨c.labelled.length + (y.index.toNat - 1)⟩).2 ⟨hle, hlabels ▸ hlen, rfl⟩
        rw [hl] at hsome
        cases hsome
      | some l =>
        obtain ⟨hle, hlen, -⟩ := hmade.resume_label?_eq_some_iff.1 hl
        simp only [Draft.succeeds_setState_bind_iff, Draft.succeeds_emit_bind_iff,
          Draft.succeeds_mark, and_true]
        exact ⟨fun h => ⟨trivial, hle, hlabels ▸ hlen, h⟩, fun h => h.2.2.2⟩

theorem statementBody_succeeds_iff (hmade : c.Made) (hfits : frame.Fits c) {s : Stmt} :
    (c.statementBody s).Succeeds frame ↔ c.outline.Writes s := by
  unfold statementBody
  cases s with
  | empty span =>
    refine iff_of_true ?_ trivial
    simp only
    split
    · exact Draft.succeeds_emit _
    · exact Draft.succeeds_pure ()
  | declare => exact iff_of_true (Draft.succeeds_pure ()) trivial
  | declareFunction name =>
    exact iff_of_true (Draft.succeeds_ofFragment_iff.2 (Fragment.succeeds_callWithName _ _)) trivial
  | declareType name =>
    exact iff_of_true (Draft.succeeds_ofFragment_iff.2 (Fragment.succeeds_callWithName _ _)) trivial
  | ret value => exact returnValue_succeeds_iff hfits
  | bindStatic d => exact bindStatic_succeeds_iff
  | yield y => exact yieldValue_succeeds_iff hmade
  | expr e => exact Draft.succeeds_ofFragment_iff
  | throw e => exact Draft.succeeds_ofFragment_iff
  | bindGlobal id => exact Draft.succeeds_ofFragment_iff
  | defineConst name e => exact Draft.succeeds_ofFragment_iff
  | unset target => exact Draft.succeeds_ofFragment_iff

theorem sequencePoint_succeeds (span : Option Span) : (c.sequencePoint span).Succeeds frame := by
  unfold sequencePoint
  split
  · split
    · exact Draft.succeeds_emit _
    · exact Draft.succeeds_pure ()
  · exact Draft.succeeds_pure ()

theorem statement_succeeds_iff (hmade : c.Made) (hfits : frame.Fits c) {s : Stmt} :
    (c.statement s).Succeeds frame ↔ c.outline.Writes s := by
  unfold statement
  refine Draft.succeeds_bind_of (sequencePoint_succeeds _) fun ds mid u hpoint => ?_
  obtain ⟨rfl, -⟩ := sequencePoint_renders hpoint
  rw [← statementBody_succeeds_iff hmade hfits, Draft.succeeds_bind_iff]
  constructor
  · rintro ⟨ds, frame', a, h, -⟩
    exact ⟨ds, frame', a, h⟩
  · rintro ⟨ds, frame', a, h⟩
    exact ⟨ds, frame', a, h, Draft.succeeds_directive _⟩

theorem statements_succeed_iff (hmade : c.Made) (hfits : frame.Fits c) {ss : List Stmt} :
    (ss.forM c.statement).Succeeds frame ↔ ∀ s ∈ ss, c.outline.Writes s := by
  induction ss generalizing frame with
  | nil => exact iff_of_true (Draft.succeeds_pure ()) nofun
  | cons s ss ih =>
    change (c.statement s >>= fun _ => ss.forM c.statement).Succeeds frame ↔ _
    rw [List.forall_mem_cons, ← statement_succeeds_iff hmade hfits, Draft.succeeds_bind_iff]
    constructor
    · rintro ⟨ds, mid, u, hs, hss⟩
      exact ⟨⟨ds, mid, u, hs⟩, (ih (statement_renders hfits hs).fits).1 hss⟩
    · rintro ⟨⟨ds, mid, u, hs⟩, hss⟩
      exact ⟨ds, mid, u, hs, (ih (statement_renders hfits hs).fits).2 hss⟩

/-! ## Edges -/

/-- Every block that an edge leads to has a label. -/
def Labels (c : Plan) (e : Edge) : Prop := ∀ t ∈ e.targets, ∃ l, c.label? t = some l

theorem blockLabel_bind_succeeds_iff {α : Type} {b : BlockId} {f : Label → Draft α} {l : Label}
    (hl : c.label? b = some l) :
    (Draft.ofFragment (Fragment.ofExcept (c.blockLabel b)) >>= f).Succeeds frame ↔
      (f l).Succeeds frame := by
  unfold Draft.Succeeds
  simp only [gives_blockLabel_bind_iff, hl, Option.some.injEq, exists_eq_left']

theorem jump_succeeds {target : BlockId} {next : Option BlockId} {l : Label}
    (hl : c.label? target = some l) : (c.jump target next).Succeeds frame := by
  unfold jump
  split
  · exact Draft.succeeds_pure ()
  · exact (blockLabel_bind_succeeds_iff hl).2 (Draft.succeeds_emit _)

theorem jumpTable_succeeds {cases : List (Int × BlockId)}
    (h : ∀ e ∈ cases, ∃ l, c.label? e.2 = some l) : ∃ table, c.jumpTable cases = .ok table := by
  induction cases with
  | nil => exact ⟨[], rfl⟩
  | cons e cases ih =>
    obtain ⟨he, hcases⟩ := List.forall_mem_cons.1 h
    obtain ⟨l, hl⟩ := he
    obtain ⟨table, htable⟩ := ih hcases
    refine ⟨(e.1, l) :: table, ?_⟩
    unfold jumpTable at htable ⊢
    rw [List.mapM_cons, htable]
    obtain ⟨key, target⟩ := e
    simp only [blockLabel_eq_ok_iff.2 hl]
    rfl

theorem edge_succeeds_iff {b : Block} {next : Option BlockId} (hlabels : c.Labels b.edge) :
    (c.edge b next).Succeeds frame ↔ c.outline.WritesEdge b.edge := by
  unfold edge
  simp only [Draft.liftM_eq]
  cases he : b.edge with
  | goto target =>
    obtain ⟨l, hl⟩ := hlabels target (by rw [he]; exact List.mem_singleton.2 rfl)
    exact iff_of_true (jump_succeeds hl) trivial
  | branch condition s t =>
    obtain ⟨l, hl⟩ := hlabels s (by rw [he]; exact List.mem_cons_self)
    obtain ⟨m, hm⟩ := hlabels t (by rw [he]; exact List.mem_cons_of_mem _ (List.mem_singleton.2 rfl))
    refine Draft.succeeds_ofFragment_bind_unit_iff.trans (and_iff_left ?_)
    split
    · rw [Draft.succeeds_emit_bind_iff]
      exact jump_succeeds hl
    · split
      · exact (blockLabel_bind_succeeds_iff hm).2 (Draft.succeeds_emit _)
      · refine (blockLabel_bind_succeeds_iff hl).2 ?_
        rw [Draft.succeeds_emit_bind_iff]
        exact jump_succeeds hm
  | switch selector cases default =>
    have hmem {t : BlockId} (ht : t ∈ cases.map Prod.snd ++ [default]) :
        ∃ l, c.label? t = some l := hlabels t (by rw [he]; exact ht)
    obtain ⟨l, hl⟩ := hmem (List.mem_append_right _ (List.mem_singleton.2 rfl))
    obtain ⟨table, htable⟩ := @jumpTable_succeeds c cases fun e hmem' =>
      hmem (List.mem_append_left _ (List.mem_map_of_mem hmem'))
    refine Draft.succeeds_ofFragment_bind_unit_iff.trans (and_iff_left ?_)
    refine Draft.succeeds_ofFragment_bind_iff.2 ⟨table, htable, ?_⟩
    exact (blockLabel_bind_succeeds_iff hl).2 (Draft.succeeds_emit _)
  | protect body handler exception =>
    obtain ⟨l, hl⟩ := hlabels handler
      (by rw [he]; exact List.mem_cons_of_mem _ (List.mem_singleton.2 rfl))
    obtain ⟨m, hm⟩ := hlabels body (by rw [he]; exact List.mem_cons_self)
    refine iff_of_true ((blockLabel_bind_succeeds_iff hl).2 ?_) trivial
    rw [Draft.succeeds_emit_bind_iff]
    exact jump_succeeds hm
  | leave target =>
    obtain ⟨l, hl⟩ := hlabels target (by rw [he]; exact List.mem_singleton.2 rfl)
    exact iff_of_true ((blockLabel_bind_succeeds_iff hl).2 (Draft.succeeds_emit _)) trivial
  | none => exact iff_of_true (Draft.succeeds_directive _) trivial

/-! ## The entry -/

theorem entry_writes {frame' : Frame} {ds : List Directive} {u : Unit}
    (h : c.entry.Gives frame ds frame' u) : c.procedure.initLocals.Succeeds := by
  rw [entry_eq] at h
  obtain ⟨_, _, _, _, -, h₁, -⟩ := Draft.gives_bind_iff.1 h
  obtain ⟨_, _, _, _, -, h₂, -⟩ := Draft.gives_bind_iff.1 h₁
  obtain ⟨_, _, _, _, -, h₃, -⟩ := Draft.gives_bind_iff.1 h₂
  obtain ⟨_, _, hinit, -⟩ := Draft.gives_ofFragment_bind_iff.1 h₃
  exact ⟨_, hinit⟩

/-! ## Blocks -/

/-- What a draft that gets to its end says of a block. -/
theorem block_writes (hmade : c.Made) {b : Block} (hb : b ∈ c.blocks) {next : Option BlockId}
    {frame' : Frame} {ds : List Directive} {u : Unit} (hfits : frame.Fits c)
    (h : (c.block b next).Gives frame ds frame' u) :
    c.outline.WritesBlock b ∧ (b.kind = .start → c.procedure.initLocals.Succeeds) := by
  obtain ⟨mid, mid₂, mid₃, d₁, d₂, d₃, d₄, rfl, h₁, hentry, h₂, hfits₂, h₃, h₄⟩ :=
    block_parts hfits h
  refine ⟨⟨fun id hid => ?_, ?_, fun hk => ?_⟩, fun hk => ?_⟩
  · have hcaught : c.caught? b.id = some (some id) := hid
    obtain ⟨-, l, hl⟩ := hmade.handler (t := b.id) (by rw [hcaught]; rfl)
    unfold enterBlock at h₂
    rw [hl, hcaught] at h₂
    obtain ⟨_, hreceive, -⟩ := Draft.gives_directive_bind_iff.1 h₂
    obtain ⟨place, rest, hplace, -⟩ := Draft.gives_ofFragment_bind_iff.1 hreceive
    exact ⟨place, hplace⟩
  · exact (statements_succeed_iff hmade hfits₂).1 ⟨_, _, _, h₃⟩
  · unfold blockEnd at h₄
    rw [if_neg hk] at h₄
    exact (edge_succeeds_iff fun t ht => (hmade.target hb ht).2).1 ⟨_, _, _, h₄⟩
  · rw [if_pos hk] at h₁
    exact entry_writes h₁

theorem blocksFrom_writes (hmade : c.Made) {bs : List Block} (hbs : ∀ b ∈ bs, b ∈ c.blocks)
    {frame' : Frame} {ds : List Directive} {u : Unit} (hfits : frame.Fits c)
    (h : (c.blocksFrom bs).Gives frame ds frame' u) :
    ∀ b ∈ bs, c.outline.WritesBlock b ∧ (b.kind = .start → c.procedure.initLocals.Succeeds) := by
  induction bs generalizing frame ds with
  | nil => exact nofun
  | cons b bs ih =>
    obtain ⟨hb, hbs⟩ := List.forall_mem_cons.1 hbs
    obtain ⟨_, mid, _, _, hfirst, hrest, rfl⟩ := Draft.gives_bind_iff.1 h
    obtain ⟨-, hfits', -⟩ := block_sound hmade hb hfits hfirst
    exact List.forall_mem_cons.2 ⟨block_writes hmade hb hfits hfirst, ih hbs hfits' hrest⟩

/-- Nothing has stopped the writing of code that is finished. -/
theorem Lowered.writes (hmade : c.Made) {labels : LabelTable} {ds : List Directive} {final : Frame}
    {code : List Instr} {g : Flow} (hsize : labels.size = c.bound)
    (h : c.Lowered labels ds final code g) :
    (∀ b ∈ c.blocks, c.outline.WritesBlock b) ∧ c.procedure.initLocals.Succeeds := by
  obtain ⟨_, mid, _, _, hblocks, -, rfl⟩ := Draft.gives_bind_iff.1 h.gives
  have hfits : ({ labels } : Frame).Fits c := ⟨Nat.le_of_eq hsize.symm, nofun, nofun⟩
  have hwrites := blocksFrom_writes hmade (fun _ => id) hfits hblocks
  obtain ⟨first, mids, last, hlist, hstart, -⟩ := hmade.ends
  have hfirst : first ∈ c.blocks := hlist ▸ List.mem_cons_self
  refine ⟨fun b hb => (hwrites b hb).1, (hwrites first hfirst).2 ?_⟩
  exact (hmade.kind_eq_start_iff hfirst).2 hstart

end Plan

end StackCode
