import StackCode.Proofs.Outline.Liveness
import StackCode.Proofs.Outline.Renders

/-!
# Statements render their outlines

The draft of every statement renders the operations that the outline has for it, in live code and in
dead code alike, and control leaves it where `Stmt.liveAfter` says so.  Main statement:
`Plan.statements_render`.
-/

namespace StackCode

/-- The number of labels that a plan allots. -/
def Plan.bound (c : Plan) : Nat := c.labelled.length + c.resume.labels.length

/-- The reading agrees with the plan, and with what a frame has allotted for returning. -/
structure Reading.Covers (r : Reading) (c : Plan) (frame : Frame) : Prop where
  bound : r.bound = c.bound
  block : ∀ b, r.label? (.block b) = c.label? b
  resume : ∀ index, r.label? (.resume index) = c.resume.label? index
  ret : ∀ l, frame.returnLabel = some l → r.label? .ret = some l
  slot : ∀ s, frame.returnSlot = some s → r.slot? = some s

theorem Reading.Covers.mono {r : Reading} {c : Plan} {frame frame' : Frame} (h : r.Covers c frame')
    (hframe : frame.Grows frame') : r.Covers c frame :=
  ⟨h.bound, h.block, h.resume, fun l hl => h.ret l (hframe.returnLabel l hl),
    fun s hs => h.slot s (hframe.returnSlot s hs)⟩

/-- What the draft of a plan keeps up: the labels of the plan come first, there is a return slot only
where return values wait in it, and the return label brings the slot with it. -/
structure Frame.Fits (frame : Frame) (c : Plan) : Prop where
  size : c.bound ≤ frame.labels.size
  slot : ∀ s, frame.returnSlot = some s → c.outline.stages = true
  label : ∀ l, frame.returnLabel = some l →
    c.bound ≤ l.index ∧ (c.outline.stages = true → ∃ s, frame.returnSlot = some s)

theorem Frame.Fits.mono {frame frame' : Frame} {c : Plan} (h : frame.Fits c)
    (hgrows : frame.Grows frame') (hlabel : frame'.returnLabel = frame.returnLabel)
    (hslot : frame'.returnSlot = frame.returnSlot) : frame'.Fits c where
  size := Nat.le_trans h.size hgrows.size_le
  slot s hs := h.slot s (hslot ▸ hs)
  label l hl := by rw [hslot]; exact h.label l (hlabel ▸ hl)

namespace Draft

variable {α β : Type}

@[simp] theorem liftM_eq (x : Fragment α) : (liftM x : Draft α) = ofFragment x := rfl

/-- Straight-line code is drafted piece by piece. -/
theorem ofFragment_bind (x : Fragment α) (f : α → Fragment β) :
    ofFragment (x >>= f) = ofFragment x >>= fun a => ofFragment (f a) := by
  funext frame
  cases hx : x.result with
  | error e =>
    rw [bind_of_error (e := e) (by rw [ofFragment_apply, hx]), ofFragment_apply,
      Fragment.bind_of_error hx]
    rfl
  | ok a =>
    rw [bind_of_ok (a := a) (by rw [ofFragment_apply, hx]), ofFragment_apply,
      Fragment.bind_of_ok hx]
    simp only [ofFragment_apply, List.map_append]

theorem ofFragment_pure (a : α) : ofFragment (pure a) = pure a := rfl

/-! ## Growing frames -/

section
variable {frame frame' : Frame} {code : List Directive}

theorem grows_add (frame : Frame) (name : Option String) :
    frame.Grows { frame with labels := (frame.labels.add { name }).2 } where
  size_le := by
    change frame.labels.size ≤ (frame.labels.entries.push _).size
    rw [Array.size_push]
    exact Nat.le_succ _
  isBlank h := LabelTable.isBlank_add h name
  returnLabel _ h := h
  returnSlot _ h := h

theorem grows_temps (frame : Frame) (temps : TempPool) : frame.Grows { frame with temps } :=
  ⟨Nat.le_refl _, id, fun _ => id, fun _ => id⟩

theorem grows_of_returnLabel {l : Label} (h : returnLabel.Gives frame code frame' l) :
    frame.Grows frame' ∧ frame'.returnLabel = some l ∧ frame'.returnSlot = frame.returnSlot ∧
      (frame.returnLabel = some l ∨ l.index = frame.labels.size) := by
  obtain ⟨-, h⟩ := gives_returnLabel_iff.1 h
  cases hl : frame.returnLabel with
  | some l' =>
    rw [hl] at h
    obtain ⟨rfl, rfl⟩ := h
    exact ⟨.refl _, hl, rfl, .inl rfl⟩
  | none =>
    rw [hl] at h
    obtain ⟨rfl, rfl⟩ := h
    have hgrows := grows_add frame (some "<return>")
    refine ⟨⟨hgrows.size_le, hgrows.isBlank, fun l' hl' => ?_, fun _ => id⟩, rfl, rfl, .inr rfl⟩
    rw [hl] at hl'
    cases hl'

theorem grows_of_returnSlot? {ty : Ty} {slot : Option TempSlot}
    (h : (returnSlot? ty).Gives frame code frame' slot) :
    frame.Grows frame' ∧ frame'.returnSlot = slot ∧ frame'.returnLabel = frame.returnLabel ∧
      ∃ s isNew, code = allocation s isNew ty := by
  have h := gives_returnSlot?_iff.1 h
  cases hs : frame.returnSlot with
  | some s =>
    rw [hs] at h
    obtain ⟨rfl, rfl, rfl⟩ := h
    exact ⟨.refl _, hs, rfl, s, false, rfl⟩
  | none =>
    rw [hs] at h
    simp only at h
    split at h
    · obtain ⟨rfl, rfl, rfl⟩ := h
      exact ⟨.refl _, hs, rfl, ⟨0⟩, false, rfl⟩
    · obtain ⟨rfl, rfl, rfl⟩ := h
      refine ⟨⟨Nat.le_refl _, id, fun _ => id, fun s' hs' => ?_⟩, rfl, rfl, _, _, rfl⟩
      rw [hs] at hs'
      cases hs'

end

end Draft

namespace Outline

theorem isPlain_returned (o : Outline) (value : Option Expr) : (o.returned value).IsPlain := by
  cases value with
  | some e => exact o.procedure.isPlain_evaluate e
  | none => exact Fragment.isPlain_pure _

theorem isPlain_keep (o : Outline) (ty : Ty) : (o.keep ty).IsPlain := by
  unfold keep
  split
  · split
    · exact Fragment.isPlain_pure _
    · exact (Fragment.isPlain_convert _ _).bind fun _ => Fragment.isPlain_callIntrinsic _
  · split
    · split
      · exact Fragment.isPlain_pure _
      · exact Fragment.isPlain_emit rfl
    · split
      · exact Fragment.isPlain_pushDefault _
      · exact Fragment.isPlain_convert _ _

theorem isPlain_staticInit (o : Outline) (target : LocalId) (init : Expr) :
    (o.staticInit target init).IsPlain :=
  (o.procedure.isPlain_loadVar target).bind fun _ =>
    (o.procedure.isPlain_value init _ _).bind fun _ => Fragment.isPlain_callIntrinsic _

end Outline

namespace Plan

variable {c : Plan} {frame frame' : Frame} {ds : List Directive} {u : Unit}

/-! ## Return statements -/

/-- What a return statement does once the value is there. -/
theorem finishGenerator_eq (hgen : c.procedure.isGenerator = true) (ty : Ty) :
    Draft.finishGenerator ty = (do
      Draft.ofFragment (c.outline.keep ty)
      let l ← Draft.returnLabel
      Draft.emit (.branch l)) := by
  unfold Draft.finishGenerator Outline.keep
  simp only [outline, hgen, ↓reduceIte]
  split
  · rfl
  · simp only [Draft.ofFragment_bind, bind_assoc, Draft.liftM_eq]

/-- What a return statement comes to: what keeps the value, and a branch to the return label. -/
structure ReturnRenders (c : Plan) (frame frame' : Frame) (ds : List Directive) (ops : List Op) (l : Label)
    (ds₀ : List Directive) (ops₀ : List Op) : Prop where
  grows : frame.Grows frame'
  fits : frame'.Fits c
  returnLabel : frame'.returnLabel = some l
  code : ds = ds₀ ++ [.instr (.branch l)]
  ops : ops = ops₀ ++ [.goto .ret]
  renders : ∀ r v, r.Covers c frame' → Renders r v ds₀ ops₀ v

/-- The branch to the return label. -/
theorem branch_gives (hsize : c.bound ≤ frame.labels.size)
    (hslot : ∀ s, frame.returnSlot = some s → c.outline.stages = true)
    (hpaired : c.outline.stages = true → ∃ s, frame.returnSlot = some s)
    (hlabel : ∀ l, frame.returnLabel = some l → c.bound ≤ l.index)
    (h : (Draft.returnLabel >>= fun l => Draft.emit (.branch l)).Gives frame ds frame' u) :
    frame.Grows frame' ∧ frame'.Fits c ∧ frame'.returnSlot = frame.returnSlot ∧
      ∃ l, frame'.returnLabel = some l ∧ ds = [.instr (.branch l)] := by
  obtain ⟨l, mid, _, _, hl, he, rfl⟩ := Draft.gives_bind_iff.1 h
  obtain ⟨rfl, rfl⟩ := Draft.gives_emit_iff.1 he
  obtain ⟨rfl, -⟩ := Draft.gives_returnLabel_iff.1 hl
  obtain ⟨hgrows, hreturn, hslot', hold⟩ := Draft.grows_of_returnLabel hl
  refine ⟨hgrows, ⟨Nat.le_trans hsize hgrows.size_le, fun s hs => hslot s (hslot' ▸ hs),
    fun l' hl' => ⟨?_, ?_⟩⟩, hslot', l, hreturn, rfl⟩
  · rw [hreturn] at hl'
    cases hl'
    rcases hold with hold | hold
    · exact hlabel _ hold
    · rw [hold]
      exact hsize
  · rw [hslot']
    exact hpaired

/-- An ordinary procedure has a return slot where it has a value to return. -/
theorem isSome_of_returnSlot? {slot : Option TempSlot} (hgen : c.procedure.isGenerator = false)
    (hfits : frame.Fits c)
    (h : (Draft.returnSlot? c.procedure.returnType).Gives frame ds frame' slot) :
    slot.isSome = c.outline.stages := by
  have h := Draft.gives_returnSlot?_iff.1 h
  cases hs : frame.returnSlot with
  | some s =>
    rw [hs] at h
    rw [h.2.2, hfits.slot s hs]
    rfl
  | none =>
    rw [hs] at h
    simp only at h
    split at h
    · next hvoid =>
      rw [h.2.2]
      simp only [Outline.stages, outline, hvoid, Bool.not_true, Bool.and_false, Option.isSome_none]
    · next hvoid =>
      rw [h.2.2]
      simp only [Outline.stages, outline, hgen, eq_false_of_ne_true hvoid, Bool.not_false,
        Bool.and_true, Option.isSome_some]

/-- Where a returned value is stored, if it is. -/
def storing : Option TempSlot → List Directive
  | some slot => [.stageReturn, .instr (.storeTemp slot)]
  | none => []

/-- What a return statement of an ordinary procedure comes to once its value is there: what keeps the
value, and a branch to the return label. -/
structure StageGives (c : Plan) (ty : Ty) (frame frame' : Frame) (ds : List Directive) (l : Label) :
    Prop where
  grows : frame.Grows frame'
  fits : frame'.Fits c
  returnLabel : frame'.returnLabel = some l
  returnSlot : frame'.returnSlot.isSome = c.outline.stages
  result : ∃ a, (c.outline.keep ty).result = .ok a
  code : ∃ s isNew, ds = Draft.allocation s isNew c.procedure.returnType ++
    ((c.outline.keep ty).code.map .instr ++ (storing frame'.returnSlot ++ [.instr (.branch l)]))

theorem stageReturn_gives {ty : Ty} (hgen : c.procedure.isGenerator = false) (hfits : frame.Fits c)
    (h : (Draft.stageReturn c.procedure.returnType ty).Gives frame ds frame' u) :
    ∃ l, StageGives c ty frame frame' ds l := by
  unfold Draft.stageReturn at h
  obtain ⟨slot, mid, code, rest, hslot, h, rfl⟩ := Draft.gives_bind_iff.1 h
  obtain ⟨hgrows, hmid, hmidLabel, s, isNew, rfl⟩ := Draft.grows_of_returnSlot? hslot
  have hsize := Nat.le_trans hfits.size hgrows.size_le
  have hlabel : ∀ l, mid.returnLabel = some l → c.bound ≤ l.index := fun l hl =>
    (hfits.label l (hmidLabel ▸ hl)).1
  have hsome := isSome_of_returnSlot? hgen hfits hslot
  cases slot with
  | some slot =>
    have hstages : c.outline.stages = true := hsome.symm
    have hvoid : c.procedure.returnType.isVoid = false := by
      simpa [Outline.stages, outline, hgen] using hstages
    have hkeep_eq : c.outline.keep ty =
        if ty.isVoid then Fragment.pushDefault c.procedure.returnType
        else Fragment.convert ty c.procedure.returnType := by
      simp only [Outline.keep, outline, hgen, hvoid, Bool.false_eq_true, ↓reduceIte]
    have hrest : (Draft.ofFragment (c.outline.keep ty) >>= fun _ =>
        Draft.directive .stageReturn >>= fun _ => Draft.emit (.storeTemp slot) >>= fun _ =>
          Draft.returnLabel >>= fun l => Draft.emit (.branch l)).Gives mid rest frame' u := by
      rw [hkeep_eq]
      simp only at h
      split at h
      · next hty => rw [if_pos hty]; exact h
      · next hty => rw [if_neg hty]; exact h
    obtain ⟨_, rest₁, hkeep, h₁, rfl⟩ := Draft.gives_ofFragment_bind_iff.1 hrest
    obtain ⟨rest₂, h₂, rfl⟩ := Draft.gives_directive_bind_iff.1 h₁
    obtain ⟨rest₃, h₃, rfl⟩ := Draft.gives_emit_bind_iff.1 h₂
    obtain ⟨hgrows', hfits', hslot', l, hl, rfl⟩ := branch_gives hsize (fun _ _ => hstages)
      (fun _ => ⟨slot, hmid⟩) hlabel h₃
    refine ⟨l, hgrows.trans hgrows', hfits', hl, ?_, ⟨_, hkeep⟩, s, isNew, ?_⟩
    · rw [hslot', hmid]
      exact hsome
    · rw [hslot', hmid]
      rfl
  | none =>
    have hstages : c.outline.stages = false := hsome.symm
    have hvoid : c.procedure.returnType.isVoid = true := by
      simpa [Outline.stages, outline, hgen] using hstages
    have hkeep_eq : c.outline.keep ty = if ty.isVoid then pure () else Fragment.emit .pop := by
      simp only [Outline.keep, outline, hgen, hvoid, Bool.false_eq_true, ↓reduceIte]
    have hrest : (Draft.ofFragment (c.outline.keep ty) >>= fun _ =>
        Draft.returnLabel >>= fun l => Draft.emit (.branch l)).Gives mid rest frame' u := by
      rw [hkeep_eq]
      simp only at h
      split at h
      · next hty => rw [if_pos hty, Draft.ofFragment_pure, pure_bind]; exact h
      · next hty => rw [if_neg hty]; exact h
    obtain ⟨_, rest₁, hkeep, h₁, rfl⟩ := Draft.gives_ofFragment_bind_iff.1 hrest
    obtain ⟨hgrows', hfits', hslot', l, hl, rfl⟩ := branch_gives hsize
      (fun s hs => by rw [hmid] at hs; cases hs) (fun hs => by rw [hstages] at hs; cases hs) hlabel h₁
    refine ⟨l, hgrows.trans hgrows', hfits', hl, ?_, ⟨_, hkeep⟩, s, isNew, ?_⟩
    · rw [hslot', hmid]
      exact hsome
    · rw [hslot', hmid]
      rfl

theorem stageReturn_renders {ty : Ty} (hgen : c.procedure.isGenerator = false)
    (hfits : frame.Fits c)
    (h : (Draft.stageReturn c.procedure.returnType ty).Gives frame ds frame' u) :
    ∃ l ds₀ ops₀, ReturnRenders c frame frame' ds ((c.outline.keep ty).ops ++
      (if c.outline.stages then [.stage] else []) ++ [.goto .ret]) l ds₀ ops₀ := by
  obtain ⟨l, hstage⟩ := stageReturn_gives hgen hfits h
  obtain ⟨s, isNew, rfl⟩ := hstage.code
  refine ⟨l, Draft.allocation s isNew c.procedure.returnType ++ ((c.outline.keep ty).code.map .instr ++
    storing frame'.returnSlot), (c.outline.keep ty).ops ++
      (if c.outline.stages then [.stage] else []), hstage.grows, hstage.fits, hstage.returnLabel, ?_,
    rfl, fun r v hr => .allocation_append (.plain_append (c.outline.isPlain_keep ty) ?_)⟩
  · simp only [List.append_assoc]
  · rw [← hstage.returnSlot]
    cases hslot : frame'.returnSlot with
    | some slot => exact .stage (hr.slot slot hslot) (.nil v)
    | none => exact .nil v

theorem returnValue_renders {value : Option Expr} (hfits : frame.Fits c)
    (h : (c.returnValue value).Gives frame ds frame' u) :
    ∃ l ds₀ ops₀, ReturnRenders c frame frame' ds (c.outline.returnValue value) l ds₀ ops₀ := by
  have hreturned : (Draft.ofFragment (c.outline.returned value) >>= fun ty =>
      if c.procedure.isGenerator then Draft.finishGenerator ty
      else Draft.stageReturn c.procedure.returnType ty).Gives frame ds frame' u := by
    cases value with
    | some e => exact h
    | none => exact h
  obtain ⟨ty, rest, hty, hrest, rfl⟩ := Draft.gives_ofFragment_bind_iff.1 hreturned
  have hplain := c.outline.isPlain_returned value
  have hops : c.outline.returnValue value = (c.outline.returned value).ops ++
      ((c.outline.keep ty).ops ++ (if c.outline.stages then [.stage] else []) ++ [.goto .ret]) := by
    unfold Outline.returnValue Fragment.opsThen
    rw [hty]
  rw [hops]
  cases hgen : c.procedure.isGenerator with
  | false =>
    rw [hgen] at hrest
    obtain ⟨l, ds₀, ops₀, hret⟩ := stageReturn_renders hgen hfits hrest
    refine ⟨l, _ ++ ds₀, _ ++ ops₀, hret.grows, hret.fits, hret.returnLabel, ?_, ?_, fun r v hr =>
      .plain_append hplain (hret.renders r v hr)⟩
    · rw [hret.code, List.append_assoc]
    · rw [hret.ops, List.append_assoc]
  | true =>
    rw [hgen, if_pos rfl, finishGenerator_eq hgen] at hrest
    obtain ⟨-, rest', -, hbranch, rfl⟩ := Draft.gives_ofFragment_bind_iff.1 hrest
    have hstages : c.outline.stages = false := by
      simp only [Outline.stages, outline, hgen, Bool.not_true, Bool.false_and]
    obtain ⟨hgrows, hfits', hslot, l, hl, rfl⟩ := branch_gives hfits.size hfits.slot
      (fun hs => by rw [hstages] at hs; cases hs) (fun l hl => (hfits.label l hl).1) hbranch
    refine ⟨l, _ ++ (c.outline.keep ty).code.map .instr, _ ++ (c.outline.keep ty).ops, hgrows,
      hfits', hl, ?_, ?_, fun r v hr =>
        .plain_append hplain (.ofPlain (c.outline.isPlain_keep ty) v)⟩
    · rw [List.append_assoc]
    · rw [hstages, if_neg Bool.false_ne_true, List.append_nil, List.append_assoc]

/-! ## Static storage and suspension points -/

theorem bindStatic_renders {d : StaticDecl} (h : (c.bindStatic d).Gives frame ds frame' u) :
    frame.Grows frame' ∧ frame'.returnLabel = frame.returnLabel ∧
      frame'.returnSlot = frame.returnSlot ∧
      ∀ r v, r.bound ≤ frame.labels.size → Renders r v ds (c.outline.bindStatic d) v := by
  have hholder := c.procedure.isPlain_bindHolder d.target d.key
  unfold bindStatic at h
  unfold Outline.bindStatic
  simp only [Draft.liftM_eq] at h
  obtain ⟨-, rest, -, h₀, rfl⟩ := Draft.gives_ofFragment_bind_iff.1 h
  cases hinit : d.init with
  | none =>
    rw [hinit] at h₀
    obtain ⟨rfl, rfl, -⟩ := Draft.gives_pure_iff.1 h₀
    exact ⟨.refl _, rfl, rfl, fun r v _ => .plain_append hholder (.nil v)⟩
  | some init =>
    rw [hinit] at h₀
    obtain ⟨l, mid, _, _, hl, h₁, rfl⟩ := Draft.gives_bind_iff.1 h₀
    obtain ⟨rfl, rfl, rfl⟩ := Draft.gives_freshLabel_iff.1 hl
    obtain ⟨-, _, -, h₂, rfl⟩ := Draft.gives_ofFragment_bind_iff.1 h₁
    obtain ⟨-, _, -, h₃, rfl⟩ := Draft.gives_ofFragment_bind_iff.1 h₂
    obtain ⟨rest', h₄, rfl⟩ := Draft.gives_emit_bind_iff.1 h₃
    have h₄ : (Draft.ofFragment (c.outline.staticInit d.target init) >>= fun _ =>
        Draft.mark ⟨frame.labels.size⟩ .forward).Gives
          { frame with labels := (frame.labels.add {}).2 } rest' frame' u := by
      unfold Outline.staticInit
      simp only [Draft.ofFragment_bind, bind_assoc]
      exact h₄
    obtain ⟨-, _, -, h₅, rfl⟩ := Draft.gives_ofFragment_bind_iff.1 h₄
    obtain ⟨rfl, rfl⟩ := Draft.gives_mark_iff.1 h₅
    refine ⟨Draft.grows_add _ none, rfl, rfl, fun r v hbound => .plain_append hholder ?_⟩
    simp only [List.nil_append, List.append_assoc]
    refine .plain_append (c.procedure.isPlain_loadVar d.target) ?_
    refine .plain_append (Fragment.isPlain_callIntrinsic _) ?_
    exact .guard hbound (.ofPlain (c.outline.isPlain_staticInit d.target init) v) (.nil v)

/-- A suspension publishes its value, sets the state, and returns in front of its resume label. -/
theorem yieldValue_gives {y : Yield} (h : (c.yieldValue y).Gives frame ds frame' u) :
    frame' = frame ∧ ∃ l, c.resume.label? y.index = some l ∧
      ds = (c.procedure.publish y).code.map .instr ++ [.instr (.constInt y.index),
        .instr .storeState, .instr (.ret false), .mark l .forward] := by
  unfold yieldValue at h
  split at h
  · exact absurd h Draft.not_gives_fail
  · split at h
    · exact absurd h Draft.not_gives_fail
    · rw [Draft.liftM_eq] at h
      obtain ⟨-, rest, -, h₁, rfl⟩ := Draft.gives_ofFragment_bind_iff.1 h
      unfold Draft.suspend at h₁
      cases hl : c.resume.label? y.index with
      | none =>
        rw [hl] at h₁
        exact absurd h₁ Draft.not_gives_fail
      | some l =>
        rw [hl] at h₁
        obtain ⟨rest, h₂, rfl⟩ := Draft.gives_setState_bind_iff.1 h₁
        obtain ⟨rest, h₃, rfl⟩ := Draft.gives_emit_bind_iff.1 h₂
        obtain ⟨rfl, rfl⟩ := Draft.gives_mark_iff.1 h₃
        exact ⟨rfl, l, rfl, rfl⟩

theorem yieldValue_renders {y : Yield} (h : (c.yieldValue y).Gives frame ds frame' u) :
    frame' = frame ∧ ∀ r v, r.Covers c frame →
      Renders r v ds (c.outline.statementBody (.yield y)) true := by
  obtain ⟨rfl, l, hl, rfl⟩ := yieldValue_gives h
  refine ⟨rfl, fun r v hr => ?_⟩
  change Renders r v _ ((c.procedure.publish y).ops ++
    Outline.setState (.suspendedAt y.index) ++ [.suspend y.index]) true
  rw [List.append_assoc]
  refine .plain_append (c.procedure.isPlain_publish y) ?_
  refine .step rfl rfl (.step rfl rfl ?_)
  exact .suspend ((hr.resume y.index).trans hl) (.nil true)

/-! ## Statements -/

/-- Straight-line code in a draft renders itself. -/
theorem ofFragment_renders {x : Fragment Unit} (hx : x.IsPlain)
    (h : (Draft.ofFragment x).Gives frame ds frame' u) :
    frame' = frame ∧ ∀ r v, Renders r v ds x.ops v := by
  obtain ⟨rfl, rfl, -⟩ := Draft.gives_ofFragment_iff.1 h
  exact ⟨rfl, fun _ v => .ofPlain hx v⟩

theorem throwValue_renders {e : Expr}
    (h : (Draft.ofFragment (c.procedure.throwValue e)).Gives frame ds frame' u) :
    frame' = frame ∧ ∀ r v, Renders r v ds (c.procedure.throwValue e).ops false := by
  obtain ⟨rfl, rfl, hok⟩ := Draft.gives_ofFragment_iff.1 h
  refine ⟨rfl, fun r v => ?_⟩
  obtain ⟨a, ha, -, hcode⟩ := Fragment.bind_eq_ok hok
  unfold Fragment.ops Procedure.throwValue
  rw [hcode, List.map_append, List.map_append]
  refine .append (.ofPlain (c.procedure.isPlain_value e _ _) v) (.run rfl ?_)
  rw [show Instr.throw.endsFlow = true from rfl, Bool.not_true, Bool.and_false]
  exact .nil false

/-- What the draft of a statement has to do with its outline. -/
structure StatementRenders (c : Plan) (s : Stmt) (frame frame' : Frame) (ds : List Directive)
    (ops : List Op) : Prop where
  grows : frame.Grows frame'
  fits : frame'.Fits c
  renders : ∀ r v, r.Covers c frame' → (v = true → s.isReturn = true → r.joins .ret) →
    Renders r v ds ops (s.liveAfter v)

theorem statementBody_renders {s : Stmt} (hfits : frame.Fits c)
    (h : (c.statementBody s).Gives frame ds frame' u) :
    StatementRenders c s frame frame' ds (c.outline.statementBody s) := by
  have hplain : ∀ {x : Fragment Unit}, x.IsPlain → (Draft.ofFragment x).Gives frame ds frame' u →
      c.outline.statementBody s = x.ops → (∀ v, s.liveAfter v = v) →
      StatementRenders c s frame frame' ds (c.outline.statementBody s) := by
    intro x hx hg hops hlive
    obtain ⟨rfl, hr⟩ := ofFragment_renders hx hg
    exact ⟨.refl _, hfits, fun r v _ _ => by rw [hops, hlive]; exact hr r v⟩
  unfold statementBody at h
  cases s with
  | empty span =>
    have hops : c.outline.statementBody (.empty span) =
        if (span.isSome && c.options.sequencePoints) = true then [.run .nop] else [] := rfl
    simp only at h
    split at h
    · next hspan =>
      obtain ⟨rfl, rfl⟩ := Draft.gives_emit_iff.1 h
      rw [if_pos hspan] at hops
      exact ⟨.refl _, hfits, fun r v _ _ => hops ▸ .step rfl rfl (.nil v)⟩
    · next hspan =>
      obtain ⟨rfl, rfl, -⟩ := Draft.gives_pure_iff.1 h
      rw [if_neg hspan] at hops
      exact ⟨.refl _, hfits, fun r v _ _ => hops ▸ .nil v⟩
  | expr e => exact hplain (c.procedure.isPlain_discardValue e) h rfl fun _ => rfl
  | ret value =>
    obtain ⟨l, ds₀, ops₀, hret⟩ := returnValue_renders hfits h
    refine ⟨hret.grows, hret.fits, fun r v hr hjoins => ?_⟩
    rw [hret.code, show c.outline.statementBody (.ret value) = _ from hret.ops]
    exact (hret.renders r v hr).append
      (.goto (hr.ret l hret.returnLabel) (fun hv => hjoins hv rfl) (.nil false))
  | throw e =>
    obtain ⟨rfl, hr⟩ := throwValue_renders h
    exact ⟨.refl _, hfits, fun r v _ _ => hr r v⟩
  | declareFunction name => exact hplain (Fragment.isPlain_callWithName _ _) h rfl fun _ => rfl
  | declareType name => exact hplain (Fragment.isPlain_callWithName _ _) h rfl fun _ => rfl
  | bindGlobal id => exact hplain (c.procedure.isPlain_bindGlobal id) h rfl fun _ => rfl
  | defineConst name e => exact hplain (c.procedure.isPlain_defineConst name e) h rfl fun _ => rfl
  | bindStatic d =>
    obtain ⟨hgrows, hlabel, hslot, hrenders⟩ := bindStatic_renders h
    exact ⟨hgrows, hfits.mono hgrows hlabel hslot, fun r v hr _ =>
      hrenders r v (hr.bound ▸ hfits.size)⟩
  | unset target => exact hplain (c.procedure.isPlain_unset target) h rfl fun _ => rfl
  | yield y =>
    obtain ⟨rfl, hr⟩ := yieldValue_renders h
    exact ⟨.refl _, hfits, fun r v hc _ => hr r v hc⟩
  | declare =>
    obtain ⟨rfl, rfl, -⟩ := Draft.gives_pure_iff.1 h
    exact ⟨.refl _, hfits, fun r v _ _ => .nil v⟩

theorem sequencePoint_renders {span : Option Span}
    (h : (c.sequencePoint span).Gives frame ds frame' u) :
    frame' = frame ∧ ∀ r v, Renders r v ds (c.outline.sequencePoint span) v := by
  unfold sequencePoint at h
  unfold Outline.sequencePoint
  cases span with
  | none =>
    obtain ⟨rfl, rfl, -⟩ := Draft.gives_pure_iff.1 h
    exact ⟨rfl, fun r v => .nil v⟩
  | some span =>
    have hops : c.outline.options = c.options := rfl
    simp only [hops] at h ⊢
    split at h
    · next hpoints =>
      obtain ⟨rfl, rfl⟩ := Draft.gives_emit_iff.1 h
      rw [if_pos hpoints]
      exact ⟨rfl, fun r v => .step rfl rfl (.nil v)⟩
    · next hpoints =>
      obtain ⟨rfl, rfl, -⟩ := Draft.gives_pure_iff.1 h
      rw [if_neg hpoints]
      exact ⟨rfl, fun r v => .nil v⟩

theorem statement_renders {s : Stmt} (hfits : frame.Fits c)
    (h : (c.statement s).Gives frame ds frame' u) :
    StatementRenders c s frame frame' ds (c.outline.statement s) := by
  unfold statement at h
  obtain ⟨_, mid, _, _, hp, h₁, rfl⟩ := Draft.gives_bind_iff.1 h
  obtain ⟨rfl, hpoint⟩ := sequencePoint_renders hp
  obtain ⟨_, mid', _, _, hb, hend, rfl⟩ := Draft.gives_bind_iff.1 h₁
  obtain ⟨rfl, rfl⟩ := Draft.gives_directive_iff.1 hend
  have hbody := statementBody_renders hfits hb
  refine ⟨hbody.grows, hbody.fits, fun r v hc hret => ?_⟩
  unfold Outline.statement
  rw [List.append_assoc]
  exact (hpoint r v).append ((hbody.renders r v hc hret).append (.settle (.nil _)))

/-- What the draft of several statements has to do with their outline. -/
structure StatementsRender (c : Plan) (ss : List Stmt) (frame frame' : Frame)
    (ds : List Directive) : Prop where
  grows : frame.Grows frame'
  fits : frame'.Fits c
  renders : ∀ r v, r.Covers c frame' →
    (Stmt.reachesReturn v ss = true → r.joins .ret) →
      Renders r v ds (c.outline.statements ss) (Stmt.liveThrough v ss)

theorem statements_render {ss : List Stmt} (hfits : frame.Fits c)
    (h : (ss.forM c.statement).Gives frame ds frame' u) :
    StatementsRender c ss frame frame' ds := by
  induction ss generalizing frame ds with
  | nil =>
    obtain ⟨rfl, rfl, -⟩ := Draft.gives_pure_iff.1 h
    exact ⟨.refl _, hfits, fun r v _ _ => .nil v⟩
  | cons s ss ih =>
    obtain ⟨_, mid, ds₁, ds₂, hs, hss, rfl⟩ := Draft.gives_bind_iff.1 h
    have hs := statement_renders hfits hs
    have hss := ih hs.fits hss
    refine ⟨hs.grows.trans hss.grows, hss.fits, fun r v hr hret => ?_⟩
    have hfirst : Renders r v ds₁ (c.outline.statement s) (s.liveAfter v) := by
      refine hs.renders r v (hr.mono hss.grows) fun hv hs => hret ?_
      simp only [Stmt.reachesReturn, hv, hs, Bool.and_self, Bool.true_or]
    have hrest := hss.renders r (s.liveAfter v) hr fun h => hret <| by
      simp only [Stmt.reachesReturn, h, Bool.or_true]
    exact hfirst.append hrest

end Plan

end StackCode
