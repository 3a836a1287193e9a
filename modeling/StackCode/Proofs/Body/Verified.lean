import StackCode.Proofs.Body.Tracks
import StackCode.Proofs.Outline.Realizes

/-!
# When the verifier accepts the code of a procedure

The verifier accepts the code of a procedure exactly if every handler is visible to it: the code
opens a region with the handler, and the handler's label does not stand right behind another one.
The first fails where the region is entered in dead code, which is not emitted while the label of the
handler is; the second where the code in front of the handler ends in a label that is not branched
to.  Main statement: `Procedure.verify_eq_ok_iff`.
-/

namespace StackCode

theorem mem_handlersIn {code : List Instr} {l : Label} :
    l ∈ handlersIn code ↔ .enterTry l ∈ code := by
  rw [handlersIn, List.mem_filterMap]
  constructor
  · rintro ⟨i, hi, hl⟩
    cases i <;> cases hl
    exact hi
  · intro h; exact ⟨_, h, rfl⟩

/-! ## Suspension points -/

namespace ResumePlan

/-- Points that go on with the next index, at placed labels, pass the check. -/
theorem checkResumePoints_zipIdx {table : LabelTable} {ls : List Label} {k : Nat}
    (h : ∀ l ∈ ls, table.isMarked l = true) :
    MethodBody.checkResumePoints table ((k : Int) + 1)
      ((ls.zipIdx k).map fun (l, i) => ((i : Int) + 1, l)) = .ok () := by
  induction ls generalizing k with
  | nil => rfl
  | cons l ls ih =>
    obtain ⟨hl, hls⟩ := List.forall_mem_cons.1 h
    rw [List.zipIdx_cons, List.map_cons, MethodBody.checkResumePoints, if_neg (by omega),
      if_neg (by omega), if_neg (not_not.2 rfl), hl]
    exact ih hls

theorem exists_label?_of_mem {resume : ResumePlan} {l : Label} (h : l ∈ resume.labels) :
    ∃ index, resume.label? index = some l := by
  obtain ⟨i, hi⟩ := List.mem_iff_getElem?.1 h
  refine ⟨(i : Int) + 1, ?_⟩
  unfold label?
  rw [if_neg (by omega), show ((i : Int) + 1).toNat - 1 = i by omega, hi]

end ResumePlan

namespace Plan

variable {c : Plan} {labels : LabelTable} {ds : List Directive} {final : Frame}
  {code : List Instr} {g : Flow}

/-- What the verifier asks of the handlers. -/
def HandlersVisible (c : Plan) (code : List Instr) : Prop :=
  ∀ h l, (c.caught? h).isSome = true → c.label? h = some l → .enterTry l ∈ code ∧
    ∀ front back, code = front ++ .markLabel l :: back → endsInLabel front = false

theorem handlersEntered_iff (hreal : Realizes (c.reading final) c.outline code) :
    HandlersEntered (c.reading final) (handlersIn code) [] code ↔ c.HandlersVisible code := by
  constructor
  · intro hentered h l hcaught hlabel
    have hl : (c.reading final).IsHandler l := ⟨h, hcaught, hlabel⟩
    obtain ⟨l', q, hlabel', hq, -⟩ := hreal.handler h hcaught
    obtain rfl := Option.some_inj.1 (hlabel.symm.trans hlabel')
    obtain ⟨front, back, hcode⟩ := List.append_of_mem (List.mem_of_getElem? hq)
    refine ⟨mem_handlersIn.1 (hentered front l back hcode hl).1, fun front back hcode => ?_⟩
    exact (hentered front l back hcode hl).2
  · rintro hvisible front l back hcode ⟨h, hcaught, hlabel⟩
    obtain ⟨hmem, hfront⟩ := hvisible h l hcaught hlabel
    exact ⟨mem_handlersIn.2 hmem, hfront front back hcode⟩

/-- The directives of a draft mark the handlers as such, and nothing else. -/
theorem isHandlerMark_iff (hmade : c.Made) {d : Directive} (hd : d.Sound (c.reading final))
    {l : Label} (hl : d.marks? = some l) :
    d.isHandlerMark = true ↔ (c.reading final).IsHandler l := by
  rcases hd.marks l hl with ⟨hinner, hmark⟩ | ⟨b, hlabel, hmark⟩
  · rw [hmark]
    refine ⟨nofun, ?_⟩
    rintro ⟨h, -, hlabel⟩
    have hlt : l.index < c.labelled.length := label?_lt hlabel
    rcases hinner with hle | ⟨index, hindex⟩
    · exact absurd hle (Nat.not_le.2 (Nat.lt_of_lt_of_le hlt (Nat.le_add_right _ _)))
    · obtain ⟨-, -, heq⟩ := hmade.resume_label?_eq_some_iff.1 hindex
      omega
  · rw [hmark]
    refine ⟨fun hb => ⟨b, hb, hlabel⟩, ?_⟩
    rintro ⟨h, hh, hlabel'⟩
    rw [label?_inj hlabel hlabel']
    exact hh

/-- The code of a finished draft passes the verifier exactly if its handlers are visible. -/
theorem Lowered.verify_iff (hmade : c.Made) (hsize : labels.size = c.bound)
    (hblank : labels.IsBlank) (h : c.Lowered labels ds final code g) {body : MethodBody}
    (hinstrs : body.instrs = code) (hlabels : body.labelCount = final.labels.size)
    (hpoints : body.resumePoints = c.resume.points) :
    body.verify = .ok () ↔ c.HandlersVisible code := by
  have hreal := h.realizes hmade hsize hblank
  obtain ⟨-, hgrows, hsound, hreceives⟩ := h.sound hmade hsize
  have hproper := fun d hd => (hsound d hd).isProper
  have hstart : BodyCheck.Tracks [] { labels := final.labels }
      { labels := LabelTable.reserve {} body.labelCount } := by
    have hfinal := hgrows.isBlank hblank
    have hreserved := LabelTable.isBlank_reserve LabelTable.isBlank_empty body.labelCount
    refine ⟨⟨?_, fun l => ?_, fun l => ?_⟩, fun _ => ⟨rfl, rfl⟩, nofun, nofun⟩
    · rw [LabelTable.size_reserve_empty, hlabels]
    · rw [(hfinal l).1, (hreserved l).1]
    · rw [(hfinal l).2, (hreserved l).2]
  obtain ⟨hforward, hback⟩ := hreceives.tracks hproper
    (fun d hd l hl => isHandlerMark_iff hmade (hsound d hd) hl) hreal.opened hstart h.assembles
  rw [← handlersEntered_iff hreal]
  have hverify : body.verify = (BodyCheck.run (handlersIn code)
      { labels := LabelTable.reserve {} body.labelCount } code).bind fun done =>
        done.labels.finish.bind fun _ =>
          MethodBody.checkResumePoints done.labels 1 body.resumePoints := by
    rw [← hinstrs]
    rfl
  constructor
  · intro hok
    refine hback ?_
    rw [hverify] at hok
    cases hrun : BodyCheck.run (handlersIn code)
      { labels := LabelTable.reserve {} body.labelCount } code with
    | error e => rw [hrun] at hok; cases hok
    | ok s => exact ⟨s, rfl⟩
  · intro hentered
    obtain ⟨s, hrun, htracks⟩ := hforward hentered
    have hfinish : s.labels.finish = .ok () := LabelTable.finish_eq_ok_iff.2 fun l hl => by
      rw [← htracks.labels.isReferenced_eq] at hl
      rw [← htracks.labels.isMarked_eq]
      exact LabelTable.finish_eq_ok_iff.1 h.finish l hl
    rw [hverify, hrun]
    change s.labels.finish.bind _ = _
    rw [hfinish, hpoints]
    refine ResumePlan.checkResumePoints_zipIdx (k := 0) fun l hl => ?_
    obtain ⟨index, hindex⟩ := ResumePlan.exists_label?_of_mem hl
    obtain ⟨l', q, hl', hq, -⟩ := hreal.spot (.resume index) (Option.isSome_iff_exists.2 ⟨l, hindex⟩)
    obtain rfl := Option.some_inj.1 (hindex.symm.trans hl')
    rw [← htracks.labels.isMarked_eq]
    exact ((h.assembles.advances hproper).grows.isMarked_iff l).2
      (.inr (mem_placedIn.2 (List.mem_of_getElem? hq)))

/-! ## With and without the verifier -/

/-- The same plan, where the code is to be verified or not. -/
def withVerify (c : Plan) (v : Bool) : Plan := { c with options := { c.options with verify := v } }

theorem blocksFrom_withVerify (c : Plan) (v : Bool) (bs : List Block) :
    (c.withVerify v).blocksFrom bs = c.blocksFrom bs := by
  induction bs with
  | nil => rfl
  | cons b bs ih =>
    have hblock (next : Option BlockId) : (c.withVerify v).block b next = c.block b next := rfl
    rw [blocksFrom, blocksFrom, ih, hblock]

theorem appendTo_withVerify (c : Plan) (v : Bool) (labels : LabelTable) (code : Array Instr) :
    (c.withVerify v).appendTo labels code = c.appendTo labels code := by
  have hdraft : (c.withVerify v).draft = c.draft := by
    unfold draft
    rw [blocksFrom_withVerify]
    rfl
  unfold appendTo
  rw [hdraft]
  rfl

theorem make_verify (p : Procedure) (options : Options) (v : Bool) (strategy : LayoutStrategy) :
    make p { options with verify := v } strategy =
      (make p options strategy).map fun made => (made.1.withVerify v, made.2) := by
  unfold make
  cases p.graph.emissionOrder strategy p.liveBlocks with
  | none => rfl
  | some order =>
    cases p.isGenerator with
    | false => rfl
    | true =>
      simp only [↓reduceIte]
      cases (ResumePlan.make (p.graph.yields.map (·.index))
        (LabelTable.reserve {} (targetsOf (order.filterMap p.graph.block?)).length)).1 <;> rfl

end Plan

namespace Procedure

/-- Code is generated the same way whether it is to be verified or not. -/
theorem lowerInto_verify (p : Procedure) (options : Options) (v : Bool)
    (strategy : LayoutStrategy) (code : Array Instr) :
    p.lowerInto { options with verify := v } strategy code = p.lowerInto options strategy code := by
  unfold lowerInto
  rw [Plan.make_verify]
  cases Plan.make p options strategy with
  | error e => rfl
  | ok made => exact Plan.appendTo_withVerify _ _ _ _

/-- The verifier decides about a body that has been generated, if it is asked. -/
theorem lower_eq {p : Procedure} {options : Options} {out : Array Instr} {sum : Summary}
    (h : p.lowerInto options options.order.arrange #[] = (out, .ok sum)) :
    p.lower options = if options.verify then
        (MethodBody.ofSummary p.name out.toList sum).verify.map fun _ =>
          MethodBody.ofSummary p.name out.toList sum
      else .ok (MethodBody.ofSummary p.name out.toList sum) := by
  unfold lower
  rw [h]
  cases options.verify with
  | false => rfl
  | true =>
    change ((MethodBody.ofSummary p.name out.toList sum).verify.bind fun _ => _) = _
    cases (MethodBody.ofSummary p.name out.toList sum).verify <;> rfl

/-- The verifier accepts generated code exactly if the handlers are visible in it. -/
theorem exists_verify_iff {p : Procedure} {options : Options} {strategy : LayoutStrategy}
    {out : Array Instr} {sum : Summary} (h : p.lowerInto options strategy #[] = (out, .ok sum)) :
    ∃ c labels, Plan.make p options strategy = .ok (c, labels) ∧
      ((MethodBody.ofSummary p.name out.toList sum).verify = .ok () ↔
        c.HandlersVisible out.toList) := by
  obtain ⟨c, labels, ds, final, g, hmake, hlowered, hsum⟩ := lowerInto_eq_ok_iff.1 h
  obtain ⟨hsize, hblank⟩ := Plan.labels_of_make hmake
  refine ⟨c, labels, hmake, ?_⟩
  refine hlowered.verify_iff (Plan.made_of_make hmake) hsize hblank rfl ?_ ?_
  · rw [hsum]
    rfl
  · rw [hsum]
    rfl

/-- Where no region is protected, the verifier accepts whatever is generated. -/
theorem verify_of_handler?_eq_none {p : Procedure} {options : Options} {strategy : LayoutStrategy}
    {out : Array Instr} {sum : Summary} (h : p.lowerInto options strategy #[] = (out, .ok sum))
    (hnone : ∀ id b, p.graph.block? id = some b → b.edge.handler? = none) :
    (MethodBody.ofSummary p.name out.toList sum).verify = .ok () := by
  obtain ⟨c, labels, hmake, hverify⟩ := exists_verify_iff h
  have hmade := Plan.made_of_make hmake
  obtain ⟨-, -, rfl, -⟩ := Plan.make_eq_ok hmake
  refine hverify.2 fun t l ht _ => ?_
  obtain ⟨b, hb, hhandler⟩ := Plan.Made.isSome_caught?_iff.1 ht
  rw [hnone b.id b (hmade.block? b hb)] at hhandler
  cases hhandler

/-- The verifier accepts the code of a procedure, and lowering comes to the same with it and without
it, exactly if the code shows every handler: a region is opened with it, and no other label stands
right before it. -/
theorem verify_eq_ok_iff {p : Procedure} {options : Options} {strategy : LayoutStrategy}
    {out : Array Instr} {sum : Summary} (h : p.lowerInto options strategy #[] = (out, .ok sum)) :
    ∃ c labels, Plan.make p options strategy = .ok (c, labels) ∧
      ((MethodBody.ofSummary p.name out.toList sum).verify = .ok () ↔
        c.HandlersVisible out.toList) ∧
      (strategy = options.order.arrange →
        (p.lower { options with verify := true } = p.lower { options with verify := false } ↔
          c.HandlersVisible out.toList)) := by
  obtain ⟨c, labels, hmake, hverify⟩ := exists_verify_iff h
  refine ⟨c, labels, hmake, hverify, fun hstrategy => ?_⟩
  have hlower (v : Bool) :
      p.lowerInto { options with verify := v } options.order.arrange #[] = (out, .ok sum) := by
    rw [lowerInto_verify, ← hstrategy, h]
  have hon := lower_eq (hlower true)
  have hoff := lower_eq (hlower false)
  rw [hon, hoff, ← hverify, if_pos rfl, if_neg Bool.false_ne_true]
  cases (MethodBody.ofSummary p.name out.toList sum).verify with
  | error e => exact ⟨nofun, nofun⟩
  | ok u => exact ⟨fun _ => rfl, fun _ => rfl⟩

end Procedure

/-- A procedure that returns before it would enter its protected region: the entry is dead code, but
the body and the handler of the region are not. -/
def deadRegion : Procedure where
  name := ⟨1⟩
  returnType := .void
  locals := {}
  graph :=
    { blocks := #[
        { id := ⟨0⟩, ordinal := 0, kind := .start, statements := [.ret none]
          edge := .protect ⟨2⟩ ⟨3⟩ none },
        { id := ⟨1⟩, ordinal := 1, kind := .exit, statements := [], edge := .none },
        { id := ⟨2⟩, ordinal := 2, kind := .normal, statements := [], edge := .leave ⟨1⟩ },
        { id := ⟨3⟩, ordinal := 3, kind := .normal, statements := [], edge := .leave ⟨1⟩ }]
      wellFormed := wellFormed_of_fault?_eq_none (by decide) }

/-- The code of `deadRegion`; nothing in it opens the region that label 1 handles. -/
def deadRegionCode : Array Instr :=
  #[.branch ⟨3⟩, .markLabel ⟨0⟩, .leave ⟨2⟩, .markLabel ⟨1⟩, .pop, .leave ⟨2⟩, .markLabel ⟨2⟩,
    .markLabel ⟨3⟩, .ret false]

def deadRegionSummary : Summary where
  instrCount := 9
  temps := []
  labelCount := 4
  resumePoints := []
  debugLocals := []

theorem lowerInto_deadRegion : deadRegion.lowerInto {} BlockOrder.ordinal.arrange #[] =
    (deadRegionCode, .ok deadRegionSummary) := by
  have horder : deadRegion.graph.emissionOrder BlockOrder.ordinal.arrange deadRegion.liveBlocks =
      some [⟨0⟩, ⟨2⟩, ⟨3⟩, ⟨1⟩] := by cbv
  unfold Procedure.lowerInto Plan.make
  rw [horder]
  decide +kernel

theorem deadRegion_verify_iff :
    ∃ c labels, Plan.make deadRegion {} BlockOrder.ordinal.arrange = .ok (c, labels) ∧
      ((MethodBody.ofSummary ⟨1⟩ deadRegionCode.toList deadRegionSummary).verify = .ok () ↔
        c.HandlersVisible deadRegionCode.toList) ∧
      (deadRegion.lower { verify := true } = deadRegion.lower { verify := false } ↔
        c.HandlersVisible deadRegionCode.toList) := by
  obtain ⟨c, labels, hmake, hverify, hlower⟩ := Procedure.verify_eq_ok_iff lowerInto_deadRegion
  exact ⟨c, labels, hmake, hverify, hlower rfl⟩

/-- Code is generated for `deadRegion`, but the verifier rejects it. -/
theorem deadRegion_rejected :
    deadRegion.lowerInto {} BlockOrder.ordinal.arrange #[] =
        (deadRegionCode, .ok deadRegionSummary) ∧
      deadRegion.lower { verify := true } = .error (.stackUnderflow "pop" 0) ∧
      deadRegion.lower { verify := false } =
        .ok (MethodBody.ofSummary ⟨1⟩ deadRegionCode.toList deadRegionSummary) := by
  have hlower (v : Bool) : deadRegion.lowerInto { verify := v }
      (Options.order { verify := v }).arrange #[] = (deadRegionCode, .ok deadRegionSummary) := by
    rw [← lowerInto_deadRegion]
    exact Procedure.lowerInto_verify deadRegion {} v _ _
  refine ⟨lowerInto_deadRegion, ?_, ?_⟩
  · rw [Procedure.lower_eq (hlower true)]
    decide +kernel
  · rw [Procedure.lower_eq (hlower false)]
    decide +kernel

end StackCode
