import StackCode.Proofs.Layout.Allots
import StackCode.Proofs.Outline.Writes

/-!
# The draft of a whole procedure

A draft gets to its end if nothing stops the writing of its blocks and of the first values of its
variables.  Then all slots have been handed back, the debugger's views are those of the entry, and
the labels can be counted: those of the plan, one for the dispatch of a generator, those of the
statements, and one for returning.  Main statements: `Plan.draft_succeeds`, `Plan.draft_allots`.
-/

namespace StackCode

namespace Draft

variable {β : Type} {frame frame' : Frame} {ds : List Directive} {u : Unit}

theorem succeeds_acquireTemp_bind_iff {ty : Ty} {f : TempSlot → Draft β} :
    (acquireTemp ty >>= f).Succeeds frame ↔
      (f (frame.temps.acquire ty).1).Succeeds
        { frame with temps := (frame.temps.acquire ty).2.2 } := by
  refine succeeds_bind_of (succeeds_acquireTemp ty) fun ds mid slot h => ?_
  obtain ⟨rfl, -, rfl⟩ := gives_acquireTemp_iff.1 h
  rfl

theorem succeeds_releaseTemp {slot : TempSlot} (h : frame.temps.inUse slot = true) :
    (releaseTemp slot).Succeeds frame := by
  obtain ⟨temps, hrelease, -⟩ := TempPool.exists_tryRelease h
  exact ⟨_, _, (), gives_releaseTemp_iff.2 ⟨temps, hrelease, rfl, rfl⟩⟩

/-- What is behind the hand-back of a slot does not depend on it. -/
theorem succeeds_releaseTemp_bind {slot : TempSlot} {f : Unit → Draft β}
    (h : frame.temps.inUse slot = true) (hf : ∀ mid, (f ()).Succeeds mid) :
    (releaseTemp slot >>= f).Succeeds frame := by
  obtain ⟨ds, mid, u, hrelease⟩ := succeeds_releaseTemp h
  exact succeeds_bind_iff.2 ⟨ds, mid, u, hrelease, hf mid⟩

/-- A slot that has just been checked out is in use. -/
theorem inUse_acquire (temps : TempPool) (ty : Ty) :
    (temps.acquire ty).2.2.inUse (temps.acquire ty).1 = true :=
  ((temps.acquire_spec ty).2 _).2 (.inl rfl)

/-! ## Handing the views back -/

/-- Slots that are in use, each of them once, can be handed back one after the other. -/
theorem releaseAll_succeeds {views : List (Name × TempSlot)} (hnodup : (views.map Prod.snd).Nodup)
    (hviews : ∀ s ∈ views.map Prod.snd, frame.temps.inUse s = true) :
    (views.forM fun v => releaseTemp v.2).Succeeds frame := by
  induction views generalizing frame with
  | nil => exact succeeds_pure ()
  | cons v views ih =>
    change (releaseTemp v.2 >>= fun _ => views.forM fun v => releaseTemp v.2).Succeeds frame
    rw [List.map_cons, List.nodup_cons] at hnodup
    obtain ⟨temps, hrelease, hinUse⟩ := TempPool.exists_tryRelease (hviews v.2 List.mem_cons_self)
    refine succeeds_bind_iff.2
      ⟨_, _, (), gives_releaseTemp_iff.2 ⟨temps, hrelease, rfl, rfl⟩, ih hnodup.2 fun s hs => ?_⟩
    refine (hinUse s).2 ⟨?_, hviews s (List.mem_cons_of_mem _ hs)⟩
    rintro rfl
    exact hnodup.1 hs

/-- Slots that have been handed back are not in use any more, and nothing else changes. -/
theorem releaseAll_gives {views : List (Name × TempSlot)}
    (h : (views.forM fun v => releaseTemp v.2).Gives frame ds frame' u) :
    frame'.labels = frame.labels ∧ frame'.debugLocals = frame.debugLocals ∧
      ∀ s, frame'.temps.inUse s = true →
        s ∉ views.map Prod.snd ∧ frame.temps.inUse s = true := by
  induction views generalizing frame ds with
  | nil =>
    obtain ⟨-, rfl, -⟩ := gives_pure_iff.1 h
    exact ⟨rfl, rfl, fun s hs => ⟨List.not_mem_nil, hs⟩⟩
  | cons v views ih =>
    obtain ⟨_, mid, _, _, h₁, h₂, -⟩ := gives_bind_iff.1 h
    obtain ⟨temps, hrelease, -, rfl⟩ := gives_releaseTemp_iff.1 h₁
    obtain ⟨hlabels, hviews, hinUse⟩ := ih h₂
    refine ⟨hlabels, hviews, fun s hs => ?_⟩
    obtain ⟨hnot, hs⟩ := hinUse s hs
    obtain ⟨hne, hs⟩ := (TempPool.inUse_of_tryRelease hrelease s).1 hs
    refine ⟨fun hmem => ?_, hs⟩
    rcases List.mem_cons.1 hmem with heq | hmem
    · exact hne heq
    · exact hnot hmem

end Draft

namespace Plan

variable {c : Plan} {frame frame' : Frame} {ds : List Directive} {u : Unit}

/-! ## The entry -/

theorem debugLocal_tidy {array : LocalId} {v : Local} (htidy : frame.Tidy)
    (h : (Draft.debugLocal array v).Gives frame ds frame' u) : frame'.Tidy := by
  unfold Draft.debugLocal at h
  simp only [Draft.liftM_eq] at h
  obtain ⟨slot, mid, _, _, hslot, h₁, -⟩ := Draft.gives_bind_iff.1 h
  obtain ⟨rfl, -, rfl⟩ := Draft.gives_acquireTemp_iff.1 hslot
  obtain ⟨_, h₂, -⟩ := Draft.gives_emit_bind_iff.1 h₁
  obtain ⟨_, h₃, -⟩ := Draft.gives_emit_bind_iff.1 h₂
  obtain ⟨-, _, -, h₄, -⟩ := Draft.gives_ofFragment_bind_iff.1 h₃
  obtain ⟨_, h₅, -⟩ := Draft.gives_emit_bind_iff.1 h₄
  rw [Draft.gives_getFrame_bind_iff] at h₅
  obtain ⟨-, rfl⟩ := Draft.gives_setFrame_iff.1 h₅
  exact htidy.view .value v.name

theorem forM_debugLocal_tidy {array : LocalId} {vars : List Local} (htidy : frame.Tidy)
    (h : (vars.forM (Draft.debugLocal array)).Gives frame ds frame' u) : frame'.Tidy := by
  induction vars generalizing frame ds with
  | nil =>
    obtain ⟨-, rfl, -⟩ := Draft.gives_pure_iff.1 h
    exact htidy
  | cons v vars ih =>
    obtain ⟨_, mid, _, _, hv, hvars, -⟩ := Draft.gives_bind_iff.1 h
    exact ih (debugLocal_tidy htidy hv) hvars

theorem debugLocals_tidy (htidy : frame.Tidy) (h : c.debugLocals.Gives frame ds frame' u) :
    frame'.Tidy := by
  unfold debugLocals at h
  split at h
  · split at h
    · exact forM_debugLocal_tidy htidy h
    · obtain ⟨-, rfl, -⟩ := Draft.gives_pure_iff.1 h
      exact htidy
  · obtain ⟨-, rfl, -⟩ := Draft.gives_pure_iff.1 h
    exact htidy

theorem debugLocals_succeeds : c.debugLocals.Succeeds frame := by
  have hall {array : LocalId} {vars : List Local} :
      (vars.forM (Draft.debugLocal array)).Succeeds frame := by
    induction vars generalizing frame with
    | nil => exact Draft.succeeds_pure ()
    | cons v vars ih =>
      change (Draft.debugLocal array v >>= fun _ => vars.forM (Draft.debugLocal array)).Succeeds frame
      have hfirst : (Draft.debugLocal array v).Succeeds frame := by
        unfold Draft.debugLocal
        rw [Draft.succeeds_acquireTemp_bind_iff, Draft.succeeds_emit_bind_iff,
          Draft.succeeds_emit_bind_iff, Draft.liftM_eq, Draft.succeeds_ofFragment_bind_unit_iff,
          Draft.succeeds_emit_bind_iff, Draft.succeeds_getFrame_bind_iff]
        exact ⟨Fragment.succeeds_emit _, Draft.succeeds_setFrame _⟩
      obtain ⟨ds, mid, a, h⟩ := hfirst
      exact Draft.succeeds_bind_iff.2 ⟨ds, mid, a, h, ih⟩
  unfold debugLocals
  split
  · split
    · exact hall
    · exact Draft.succeeds_pure ()
  · exact Draft.succeeds_pure ()

/-- The label that the dispatch of a generator needs. -/
def dispatchLabels (c : Plan) : Nat := if c.procedure.isGenerator then 1 else 0

theorem dispatch_allots {resume : ResumePlan} (htidy : frame.Tidy)
    (h : (Draft.dispatch resume).Gives frame ds frame' u) :
    frame'.Tidy ∧ frame'.labels.size = frame.labels.size + 1 := by
  unfold Draft.dispatch at h
  obtain ⟨_, _, _, _, hl, h₁, -⟩ := Draft.gives_bind_iff.1 h
  obtain ⟨-, rfl, rfl⟩ := Draft.gives_namedLabel_iff.1 hl
  obtain ⟨slot, mid, notes, _, hslot, h₂, -⟩ := Draft.gives_bind_iff.1 h₁
  obtain ⟨rfl, -, rfl⟩ := Draft.gives_acquireTemp_iff.1 hslot
  obtain ⟨_, h₃, -⟩ := Draft.gives_emit_bind_iff.1 h₂
  obtain ⟨_, h₄, -⟩ := Draft.gives_emit_bind_iff.1 h₃
  obtain ⟨_, h₅, -⟩ := Draft.gives_setState_bind_iff.1 h₄
  obtain ⟨_, h₆, -⟩ := Draft.gives_emit_bind_iff.1 h₅
  obtain ⟨_, h₇, -⟩ := Draft.gives_emit_bind_iff.1 h₆
  obtain ⟨_, _, _, _, h₈, h₉, -⟩ := Draft.gives_bind_iff.1 h₇
  obtain ⟨temps, hrelease, -, rfl⟩ := Draft.gives_releaseTemp_iff.1 h₈
  obtain ⟨-, rfl⟩ := Draft.gives_mark_iff.1 h₉
  exact ⟨htidy.congr (TempPool.inUse_borrow hrelease) rfl rfl, Array.size_push _⟩

theorem dispatch_succeeds {resume : ResumePlan} : (Draft.dispatch resume).Succeeds frame := by
  unfold Draft.dispatch
  refine (Draft.succeeds_bind_of (P := True) (Draft.succeeds_namedLabel _) fun _ mid _ _ => ?_).2
    trivial
  rw [Draft.succeeds_acquireTemp_bind_iff, Draft.succeeds_emit_bind_iff,
    Draft.succeeds_emit_bind_iff, Draft.succeeds_setState_bind_iff, Draft.succeeds_emit_bind_iff,
    Draft.succeeds_emit_bind_iff]
  refine iff_of_true (Draft.succeeds_releaseTemp_bind (Draft.inUse_acquire _ _) fun _ => ?_) trivial
  exact Draft.succeeds_mark _ _

/-- What the entry allots: the debugger's views, and the label of the dispatch. -/
theorem entry_allots (htidy : frame.Tidy) (h : c.entry.Gives frame ds frame' u) :
    frame'.Tidy ∧ frame'.labels.size = frame.labels.size + c.dispatchLabels := by
  rw [entry_eq] at h
  obtain ⟨_, _, _, _, h₁, k₁, -⟩ := Draft.gives_bind_iff.1 h
  obtain ⟨_, _, _, _, h₂, k₂, -⟩ := Draft.gives_bind_iff.1 k₁
  obtain ⟨_, _, _, _, h₃, k₃, -⟩ := Draft.gives_bind_iff.1 k₂
  obtain ⟨_, _, -, k₄, -⟩ := Draft.gives_ofFragment_bind_iff.1 k₃
  obtain ⟨_, _, _, _, h₅, k₅, -⟩ := Draft.gives_bind_iff.1 k₄
  obtain ⟨_, _, _, _, h₆, hdispatch, -⟩ := Draft.gives_bind_iff.1 k₅
  obtain ⟨rfl, -⟩ := hiddenPoint_renders h₁
  obtain ⟨rfl, -⟩ := contextCheck_renders h₂
  obtain ⟨rfl, -⟩ := registration_renders h₃
  have htidy' := debugLocals_tidy htidy h₅
  obtain ⟨hkeeps, -⟩ := debugLocals_renders h₅
  obtain ⟨rfl, -⟩ := openingBrace_renders h₆
  unfold dispatchLabels
  rw [← hkeeps.labels]
  split at hdispatch
  · next hgen =>
    rw [if_pos hgen]
    exact dispatch_allots htidy' hdispatch
  · next hgen =>
    rw [if_neg hgen]
    obtain ⟨-, rfl, -⟩ := Draft.gives_pure_iff.1 hdispatch
    exact ⟨htidy', rfl⟩

theorem entry_succeeds (hinit : c.procedure.initLocals.Succeeds) : c.entry.Succeeds frame := by
  have hthen {α β : Type} {x : Draft α} {f : α → Draft β} {frame : Frame} (hx : x.Succeeds frame)
      (hf : ∀ a mid, (f a).Succeeds mid) : (x >>= f).Succeeds frame := by
    obtain ⟨ds, mid, a, h⟩ := hx
    exact Draft.succeeds_bind_iff.2 ⟨ds, mid, a, h, hf a mid⟩
  rw [entry_eq]
  refine hthen ?_ fun _ _ => hthen ?_ fun _ _ => hthen ?_ fun _ _ =>
    hthen (Draft.succeeds_ofFragment_iff.2 hinit) fun _ _ => hthen debugLocals_succeeds fun _ _ =>
      hthen ?_ fun _ _ => ?_
  · split
    · exact Draft.succeeds_emit _
    · exact Draft.succeeds_pure ()
  · unfold contextCheck
    split
    · rw [Draft.succeeds_emit_bind_iff]
      exact Draft.succeeds_ofFragment_iff.2 (Fragment.succeeds_emit _)
    · exact Draft.succeeds_pure ()
  · unfold registration
    split
    · exact Draft.succeeds_ofFragment_iff.2 (Fragment.succeeds_callWithName _ _)
    · exact Draft.succeeds_pure ()
  · unfold openingBrace
    split
    · split
      · exact hthen (sequencePoint_succeeds _) fun _ _ => Draft.succeeds_emit _
      · exact Draft.succeeds_pure ()
    · exact Draft.succeeds_pure ()
  · split
    · exact dispatch_succeeds
    · exact Draft.succeeds_pure ()

/-! ## Entering a block -/

theorem storePending_allots {id : LocalId} (h : (c.procedure.storePending id).Gives frame ds frame' u) :
    frame'.debugLocals = frame.debugLocals ∧
      ∀ s, frame'.temps.inUse s = frame.temps.inUse s := by
  unfold Procedure.storePending at h
  have hlift : (liftM (c.procedure.place id) : Draft Place) =
      Draft.ofFragment (Fragment.ofExcept (c.procedure.place id)) := rfl
  rw [hlift] at h
  obtain ⟨place, rest, -, h₁, -⟩ := Draft.gives_ofFragment_bind_iff.1 h
  cases place with
  | slot id =>
    obtain ⟨-, rfl⟩ := Draft.gives_emit_iff.1 h₁
    exact ⟨rfl, fun _ => rfl⟩
  | entry array key ty =>
    simp only [Draft.liftM_eq] at h₁
    obtain ⟨slot, mid, _, _, hslot, h₂, -⟩ := Draft.gives_bind_iff.1 h₁
    obtain ⟨rfl, -, rfl⟩ := Draft.gives_acquireTemp_iff.1 hslot
    obtain ⟨_, h₃, -⟩ := Draft.gives_emit_bind_iff.1 h₂
    obtain ⟨-, _, -, h₄, -⟩ := Draft.gives_ofFragment_bind_iff.1 h₃
    obtain ⟨_, h₅, -⟩ := Draft.gives_emit_bind_iff.1 h₄
    obtain ⟨-, _, -, h₆, -⟩ := Draft.gives_ofFragment_bind_iff.1 h₅
    obtain ⟨temps, hrelease, -, rfl⟩ := Draft.gives_releaseTemp_iff.1 h₆
    exact ⟨rfl, TempPool.inUse_borrow hrelease⟩

theorem storePending_succeeds {id : LocalId} {place : Place} (hplace : c.procedure.place id = .ok place) :
    (c.procedure.storePending id).Succeeds frame := by
  unfold Procedure.storePending
  have hlift : (liftM (c.procedure.place id) : Draft Place) =
      Draft.ofFragment (Fragment.ofExcept (c.procedure.place id)) := rfl
  rw [hlift]
  refine Draft.succeeds_ofFragment_bind_iff.2 ⟨place, hplace, ?_⟩
  cases place with
  | slot id => exact Draft.succeeds_emit _
  | entry array key ty =>
    simp only [Draft.liftM_eq]
    rw [Draft.succeeds_acquireTemp_bind_iff, Draft.succeeds_emit_bind_iff,
      Draft.succeeds_ofFragment_bind_unit_iff, Draft.succeeds_emit_bind_iff,
      Draft.succeeds_ofFragment_bind_unit_iff]
    exact ⟨⟨(), rfl⟩, Fragment.succeeds_emit _, Draft.succeeds_releaseTemp (Draft.inUse_acquire _ _)⟩

theorem enterBlock_allots {b : Block} (h : (c.enterBlock b).Gives frame ds frame' u) :
    frame.Allots frame' 0 false := by
  obtain ⟨hkeeps, -⟩ := enterBlock_gives h
  have hsame : frame'.debugLocals = frame.debugLocals ∧
      ∀ s, frame'.temps.inUse s = frame.temps.inUse s := by
    unfold enterBlock at h
    split at h
    · obtain ⟨-, rfl, -⟩ := Draft.gives_pure_iff.1 h
      exact ⟨rfl, fun _ => rfl⟩
    · split at h
      · obtain ⟨_, h₁, -⟩ := Draft.gives_directive_bind_iff.1 h
        split at h₁
        · exact storePending_allots h₁
        · obtain ⟨-, rfl⟩ := Draft.gives_emit_iff.1 h₁
          exact ⟨rfl, fun _ => rfl⟩
      · obtain ⟨-, rfl⟩ := Draft.gives_mark_iff.1 h
        exact ⟨rfl, fun _ => rfl⟩
  refine ⟨hsame.1, fun htidy => htidy.congr hsame.2 hsame.1 hkeeps.returnSlot, ?_, ?_,
    fun l hl => .inl (hkeeps.returnLabel ▸ hl), ?_⟩
  · rw [hkeeps.labels, hkeeps.returnLabel]
    rfl
  · rw [hkeeps.returnLabel, Bool.or_false]
  · rw [hkeeps.returnLabel, hkeeps.returnSlot]
    exact id

theorem enterBlock_succeeds {b : Block} (hwrites : c.outline.WritesBlock b) :
    (c.enterBlock b).Succeeds frame := by
  unfold enterBlock
  split
  · exact Draft.succeeds_pure ()
  · split
    · next exception hcaught =>
      refine Draft.succeeds_mark_bind_iff.2 ?_
      cases exception with
      | none => exact Draft.succeeds_emit _
      | some id =>
        obtain ⟨place, hplace⟩ := hwrites.receive id hcaught
        exact storePending_succeeds hplace
    · exact Draft.succeeds_mark _ _

/-! ## The exit -/

/-- The exit hands the return slot back, and only the slots of the views stay in use. -/
theorem exit_allots (hfits : frame.Fits c) (htidy : frame.Tidy)
    (hpaired : frame.returnSlot.isSome = true → frame.returnLabel.isSome = true)
    (h : (if c.procedure.isGenerator then Draft.exitGenerator
      else Draft.exitOrdinary c.procedure.returnType).Gives frame ds frame' u) :
    frame'.labels = frame.labels ∧ frame'.debugLocals = frame.debugLocals ∧
      ∀ s, frame'.temps.inUse s = true ↔ s ∈ frame.debugLocals.map Prod.snd := by
  have hstays (hslot : frame.returnSlot = none) (s : TempSlot) :
      frame.temps.inUse s = true ↔ s ∈ frame.debugLocals.map Prod.snd := by
    rw [htidy.inUse_iff, hslot]
    exact or_iff_left nofun
  split at h
  · next hgen =>
    obtain ⟨rfl, -⟩ := exitGenerator_gives h
    refine ⟨rfl, rfl, hstays ?_⟩
    by_contra hne
    obtain ⟨s, hs⟩ := Option.ne_none_iff_exists'.1 hne
    have hstages := hfits.slot s hs
    simp [Outline.stages, outline, hgen] at hstages
  · unfold Draft.exitOrdinary at h
    rw [Draft.gives_getFrame_bind_iff] at h
    simp only [Draft.liftM_eq] at h
    cases hslot : frame.returnSlot with
    | none =>
      rw [hslot] at h
      cases hl : frame.returnLabel with
      | none =>
        rw [hl] at h
        obtain ⟨_, _, -, h₁, -⟩ := Draft.gives_ofFragment_bind_iff.1 h
        obtain ⟨-, rfl⟩ := Draft.gives_emit_iff.1 h₁
        exact ⟨rfl, rfl, hstays hslot⟩
      | some l =>
        rw [hl] at h
        obtain ⟨_, h₁, -⟩ := Draft.gives_directive_bind_iff.1 h
        obtain ⟨_, _, -, h₂, -⟩ := Draft.gives_ofFragment_bind_iff.1 h₁
        obtain ⟨-, rfl⟩ := Draft.gives_emit_iff.1 h₂
        exact ⟨rfl, rfl, hstays hslot⟩
    | some slot =>
      rw [hslot] at h hpaired
      obtain ⟨_, _, -, h₁, -⟩ := Draft.gives_ofFragment_bind_iff.1 h
      obtain ⟨_, h₂, -⟩ := Draft.gives_emit_bind_iff.1 h₁
      obtain ⟨l, mid, _, _, hl, h₃, -⟩ := Draft.gives_bind_iff.1 h₂
      obtain ⟨_, h₄, -⟩ := Draft.gives_directive_bind_iff.1 h₃
      obtain ⟨temps, hrelease, -, rfl⟩ := Draft.gives_releaseTemp_iff.1 h₄
      obtain ⟨l', hlabel⟩ := Option.isSome_iff_exists.1 (hpaired rfl)
      obtain ⟨-, hl⟩ := Draft.gives_returnLabel_iff.1 hl
      rw [hlabel] at hl
      obtain ⟨rfl, -⟩ := hl
      refine ⟨rfl, rfl, fun s => ?_⟩
      change temps.inUse s = true ↔ _
      rw [TempPool.inUse_of_tryRelease hrelease, htidy.inUse_iff, hslot]
      constructor
      · rintro ⟨hne, hs | hs⟩
        · exact hs
        · exact absurd (Option.some_inj.1 hs).symm hne
      · intro hs
        refine ⟨?_, .inl hs⟩
        rintro rfl
        exact htidy.apart _ hslot hs

theorem exit_succeeds (htidy : frame.Tidy) :
    (if c.procedure.isGenerator then Draft.exitGenerator
      else Draft.exitOrdinary c.procedure.returnType).Succeeds frame := by
  have hdefault (ty : Ty) : (Fragment.pushDefault ty).Succeeds := by
    unfold Fragment.pushDefault
    cases ty.default? with
    | none => exact Fragment.succeeds_pure ()
    | some v => exact Fragment.succeeds_emit _
  split
  · unfold Draft.exitGenerator
    rw [Draft.succeeds_getFrame_bind_iff]
    cases frame.returnLabel with
    | none => exact Draft.succeeds_setState_bind_iff.2 (Draft.succeeds_emit _)
    | some l =>
      refine Draft.succeeds_mark_bind_iff.2 ?_
      exact Draft.succeeds_setState_bind_iff.2 (Draft.succeeds_emit _)
  · unfold Draft.exitOrdinary
    rw [Draft.succeeds_getFrame_bind_iff]
    simp only [Draft.liftM_eq]
    have hreturn : (Draft.ofFragment (Fragment.pushDefault c.procedure.returnType) >>= fun _ =>
        Draft.emit (.ret !c.procedure.returnType.isVoid)).Succeeds frame :=
      Draft.succeeds_ofFragment_bind_unit_iff.2 ⟨hdefault _, Draft.succeeds_emit _⟩
    cases hslot : frame.returnSlot with
    | none =>
      cases frame.returnLabel with
      | none => exact hreturn
      | some l => exact Draft.succeeds_mark_bind_iff.2 hreturn
    | some slot =>
      refine Draft.succeeds_ofFragment_bind_unit_iff.2 ⟨hdefault _, Draft.succeeds_emit_bind_iff.2 ?_⟩
      obtain ⟨ds, mid, l, hl⟩ : Draft.returnLabel.Succeeds frame := Draft.succeeds_returnLabel
      refine Draft.succeeds_bind_iff.2 ⟨ds, mid, l, hl, Draft.succeeds_directive_bind_iff.2 ?_⟩
      apply Draft.succeeds_releaseTemp
      have hinUse := (htidy.inUse_iff slot).2 (.inr hslot)
      obtain ⟨-, hl⟩ := Draft.gives_returnLabel_iff.1 hl
      split at hl
      · obtain ⟨rfl, -⟩ := hl
        exact hinUse
      · obtain ⟨rfl, -⟩ := hl
        exact hinUse

/-! ## Blocks -/

/-- The labels of their own that the statements of some blocks need. -/
def ownLabelsIn (bs : List Block) : Nat := (bs.map fun b => ownLabels b.statements).sum

/-- Whether some blocks have a return statement. -/
def returnsIn (bs : List Block) : Bool := bs.any fun b => b.statements.any Stmt.isReturn

section
variable {b : Block} {next : Option BlockId}

/-- The parts of a block behind the entry. -/
theorem body_allots (hfits : frame.Fits c) {mid mid' : Frame} {ds' : List Directive} {u' : Unit}
    (henter : (c.enterBlock b).Gives frame ds mid u)
    (hstatements : (b.statements.forM c.statement).Gives mid ds' mid' u') :
    frame.Allots mid' (ownLabels b.statements) (b.statements.any Stmt.isReturn) := by
  have hkeeps := (enterBlock_gives henter).1
  have hmid : mid.Fits c := hfits.mono hkeeps.grows hkeeps.returnLabel hkeeps.returnSlot
  have hallots := (enterBlock_allots henter).trans (statements_allot hmid hstatements)
  rwa [Nat.zero_add, Bool.false_or] at hallots

theorem edgeBlock_allots (hk : b.kind = .normal) (hfits : frame.Fits c)
    (h : (c.block b next).Gives frame ds frame' u) :
    frame.Allots frame' (ownLabels b.statements) (b.statements.any Stmt.isReturn) := by
  obtain ⟨mid₁, mid₂, mid₃, _, _, _, _, -, h₁, -, h₂, -, h₃, h₄⟩ := block_parts hfits h
  rw [if_neg (by rw [hk]; nofun)] at h₁
  obtain ⟨-, rfl, -⟩ := Draft.gives_pure_iff.1 h₁
  unfold blockEnd at h₄
  rw [if_neg (by rw [hk]; nofun)] at h₄
  obtain ⟨rfl, -⟩ := edge_renders h₄
  exact body_allots hfits h₂ h₃

theorem block_succeeds (hmade : c.Made) (hb : b ∈ c.blocks) (hwrites : c.outline.WritesBlock b)
    (hinit : b.kind = .start → c.procedure.initLocals.Succeeds) (hfits : frame.Fits c)
    (htidy : frame.Tidy) : (c.block b next).Succeeds frame := by
  have hentry : ∃ ds mid u, (if b.kind = .start then c.entry else pure ()).Gives frame ds mid u ∧
      mid.Fits c ∧ mid.Tidy := by
    split
    · next hk =>
      obtain ⟨ds, mid, u, h⟩ : c.entry.Succeeds frame := entry_succeeds (hinit hk)
      obtain ⟨hgrows, hslot, hlabel⟩ := entry_keeps h
      exact ⟨ds, mid, u, h, hfits.mono hgrows hlabel hslot, (entry_allots htidy h).1⟩
    · exact ⟨[], frame, (), Draft.gives_pure_iff.2 ⟨rfl, rfl, rfl⟩, hfits, htidy⟩
  obtain ⟨d₁, mid₁, u₁, h₁, hfits₁, htidy₁⟩ := hentry
  obtain ⟨d₂, mid₂, u₂, h₂⟩ : (c.enterBlock b).Succeeds mid₁ := enterBlock_succeeds hwrites
  have hkeeps := (enterBlock_gives h₂).1
  have hfits₂ : mid₂.Fits c := hfits₁.mono hkeeps.grows hkeeps.returnLabel hkeeps.returnSlot
  obtain ⟨d₃, mid₃, u₃, h₃⟩ := (statements_succeed_iff hmade hfits₂).2 hwrites.statements
  have htidy₃ := (body_allots hfits₁ h₂ h₃).tidy htidy₁
  rw [block_eq]
  refine Draft.succeeds_bind_iff.2 ⟨d₁, mid₁, u₁, h₁, ?_⟩
  refine Draft.succeeds_bind_iff.2 ⟨d₂, mid₂, u₂, h₂, ?_⟩
  refine Draft.succeeds_bind_iff.2 ⟨d₃, mid₃, u₃, h₃, ?_⟩
  unfold blockEnd
  split
  · exact exit_succeeds htidy₃
  · next hk => exact (edge_succeeds_iff fun t ht => (hmade.target hb ht).2).2 (hwrites.edge hk)

end

section
variable {mids : List Block} {last : Block} (hlast : last.kind = .exit)
include hlast

/-- What the blocks behind the start allot before the exit ends. -/
theorem blocksFrom_allots (hmids : ∀ b ∈ mids, b.kind = .normal) (hfits : frame.Fits c)
    (h : (c.blocksFrom (mids ++ [last])).Gives frame ds frame' u) :
    ∃ mid ds', frame.Allots mid (ownLabelsIn (mids ++ [last])) (returnsIn (mids ++ [last])) ∧
      mid.Fits c ∧ (if c.procedure.isGenerator then Draft.exitGenerator
        else Draft.exitOrdinary c.procedure.returnType).Gives mid ds' frame' () := by
  induction mids generalizing frame ds with
  | nil =>
    obtain ⟨_, _, _, _, hblock, hnil, -⟩ := Draft.gives_bind_iff.1 h
    obtain ⟨-, rfl, -⟩ := Draft.gives_pure_iff.1 hnil
    obtain ⟨mid₁, mid₂, mid₃, _, _, _, _, -, h₁, -, h₂, hfits₂, h₃, h₄⟩ := block_parts hfits hblock
    rw [if_neg (by rw [hlast]; nofun)] at h₁
    obtain ⟨-, rfl, -⟩ := Draft.gives_pure_iff.1 h₁
    unfold blockEnd at h₄
    rw [if_pos hlast] at h₄
    refine ⟨mid₃, _, ?_, (statements_render hfits₂ h₃).fits, h₄⟩
    have hallots := body_allots hfits h₂ h₃
    unfold ownLabelsIn returnsIn
    simpa using hallots
  | cons b mids ih =>
    obtain ⟨hb, hmids⟩ := List.forall_mem_cons.1 hmids
    obtain ⟨_, next, _, _, hblock, hrest, -⟩ := Draft.gives_bind_iff.1 h
    have hfits' : next.Fits c := by
      obtain ⟨_, _, mid₃, _, _, _, _, -, -, -, -, hfits₂, h₃, h₄⟩ := block_parts hfits hblock
      unfold blockEnd at h₄
      rw [if_neg (by rw [hb]; nofun)] at h₄
      obtain ⟨rfl, -⟩ := edge_renders h₄
      exact (statements_render hfits₂ h₃).fits
    obtain ⟨mid, ds', hallots, hmid, hexit⟩ := ih hmids hfits' hrest
    exact ⟨mid, ds', (edgeBlock_allots hb hfits hblock).trans hallots, hmid, hexit⟩

theorem blocksFrom_succeeds (hmade : c.Made) (hmem : ∀ b ∈ mids ++ [last], b ∈ c.blocks)
    (hmids : ∀ b ∈ mids, b.kind = .normal)
    (hwrites : ∀ b ∈ mids ++ [last], c.outline.WritesBlock b) (hfits : frame.Fits c)
    (htidy : frame.Tidy) : (c.blocksFrom (mids ++ [last])).Succeeds frame := by
  induction mids generalizing frame with
  | nil =>
    obtain ⟨ds, mid, u, h⟩ : (c.block last none).Succeeds frame := block_succeeds hmade (hmem last (by simp))
      (hwrites last (by simp)) (fun hk => by rw [hlast] at hk; cases hk) hfits htidy
    exact Draft.succeeds_bind_iff.2 ⟨ds, mid, u, h, Draft.succeeds_pure ()⟩
  | cons b mids ih =>
    obtain ⟨hb, hmids⟩ := List.forall_mem_cons.1 hmids
    obtain ⟨hbmem, hmem⟩ := List.forall_mem_cons.1 hmem
    obtain ⟨hbwrites, hwrites⟩ := List.forall_mem_cons.1 hwrites
    obtain ⟨ds, mid, u, h⟩ : (c.block b ((mids ++ [last]).head?.map (·.id))).Succeeds frame := block_succeeds hmade hbmem
      hbwrites (fun hk => by rw [hb] at hk; cases hk) hfits htidy
    refine Draft.succeeds_bind_iff.2 ⟨ds, mid, u, h, ih hmem hmids hwrites ?_ ?_⟩
    · exact (block_sound hmade hbmem hfits h).2.1
    · exact (edgeBlock_allots hb hfits h).tidy htidy

end

/-! ## The whole draft -/

/-- Nothing stops the writing of a procedure. -/
structure Writes (c : Plan) : Prop where
  block : ∀ b ∈ c.blocks, c.outline.WritesBlock b
  init : c.procedure.initLocals.Succeeds

/-- What a draft has allotted in the end. -/
structure DraftAllots (c : Plan) (labels : LabelTable) (final : Frame) : Prop where
  size : final.labels.size =
    labels.size + c.dispatchLabels + ownLabelsIn c.blocks + (returnsIn c.blocks).toNat
  views : ∃ ds mid, c.entry.Gives { labels } ds mid () ∧ final.debugLocals = mid.debugLocals

variable {labels : LabelTable} {final : Frame}

theorem toNat_eq_length {α : Type} (x : Option α) : x.isSome.toNat = x.toList.length := by
  cases x <;> rfl

/-- What the blocks have allotted: of the slots, those of the debugger's views are still in use. -/
theorem blocks_allot (hmade : c.Made) (hsize : labels.size = c.bound)
    (h : (c.blocksFrom c.blocks).Gives { labels } ds frame' u) :
    c.DraftAllots labels frame' ∧ (frame'.debugLocals.map Prod.snd).Nodup ∧
      ∀ s, frame'.temps.inUse s = true ↔ s ∈ frame'.debugLocals.map Prod.snd := by
  obtain ⟨first, mids, last, hblocks, hfirst, hlast, hmids⟩ := hmade.blocks_eq
  have hall := h
  rw [hblocks] at hall
  obtain ⟨_, frame₁, _, _, hstart, hrest, -⟩ := Draft.gives_bind_iff.1 hall
  have hfits₀ : ({ labels } : Frame).Fits c := ⟨Nat.le_of_eq hsize.symm, nofun, nofun⟩
  obtain ⟨mid₁, mid₂, mid₃, d₁, _, _, _, -, hentry, -, h₂, hfits₂, h₃, h₄⟩ :=
    block_parts hfits₀ hstart
  rw [if_pos hfirst] at hentry
  obtain ⟨hgrows, hslot, hlabel⟩ := entry_keeps hentry
  obtain ⟨htidy₁, hsize₁⟩ := entry_allots (.empty labels) hentry
  have hfits₁ : mid₁.Fits c := hfits₀.mono hgrows hlabel hslot
  unfold blockEnd at h₄
  rw [if_neg (by rw [hfirst]; nofun)] at h₄
  obtain ⟨rfl, -⟩ := edge_renders h₄
  obtain ⟨mid, _, hblocksAllot, hmid, hexit⟩ :=
    blocksFrom_allots hlast hmids (statements_render hfits₂ h₃).fits hrest
  -- everything between the entry and the end of the exit
  have hallots := (body_allots hfits₁ h₂ h₃).trans hblocksAllot
  have htidy := hallots.tidy htidy₁
  have hpaired := hallots.paired (by rw [hslot]; exact nofun)
  obtain ⟨hlabels, hviews, hinUse⟩ := exit_allots hmid htidy hpaired hexit
  refine ⟨⟨?_, d₁, mid₁, hentry, hviews.trans hallots.debugLocals⟩, ?_, ?_⟩
  · have hcount := hallots.size
    have hreturn := congrArg Bool.toNat hallots.returnLabel
    have hown : ownLabelsIn c.blocks = ownLabels first.statements + ownLabelsIn (mids ++ [last]) := by
      rw [hblocks]
      rfl
    have hreturns : returnsIn c.blocks =
        (first.statements.any Stmt.isReturn || returnsIn (mids ++ [last])) := by
      rw [hblocks]
      rfl
    rw [toNat_eq_length, hlabel] at hreturn
    rw [hlabel] at hcount
    change _ = (false || _).toNat at hreturn
    rw [Bool.false_or, ← hreturns] at hreturn
    rw [hlabels, hown]
    change _ + 0 = _ at hcount
    change mid₁.labels.size = labels.size + _ at hsize₁
    omega
  · rw [hviews]
    exact htidy.nodup
  · rw [hviews]
    exact hinUse

theorem draft_allots (hmade : c.Made) (hsize : labels.size = c.bound)
    (h : c.draft.Gives { labels } ds final u) :
    c.DraftAllots labels final ∧ final.temps.firstLeaked? = none := by
  obtain ⟨_, mid, _, _, hblocks, hfree, -⟩ := Draft.gives_bind_iff.1 h
  obtain ⟨hallots, -, hinUse⟩ := blocks_allot hmade hsize hblocks
  unfold releaseDebugLocals at hfree
  rw [Draft.gives_getFrame_bind_iff] at hfree
  obtain ⟨hlabels, hviews, hfreed⟩ := Draft.releaseAll_gives hfree
  obtain ⟨ds, entered, hentry, hsame⟩ := hallots.views
  refine ⟨⟨hlabels ▸ hallots.size, ds, entered, hentry, hviews.trans hsame⟩,
    TempPool.firstLeaked?_eq_none_iff.2 fun s => ?_⟩
  by_contra hused
  obtain ⟨hnot, hs⟩ := hfreed s (by simpa using hused)
  exact hnot ((hinUse s).1 hs)

theorem draft_succeeds (hmade : c.Made) (hsize : labels.size = c.bound) (hwrites : c.Writes) :
    c.draft.Succeeds { labels } := by
  obtain ⟨first, mids, last, hblocks, hfirst, hlast, hmids⟩ := hmade.blocks_eq
  have hmem : ∀ b ∈ first :: (mids ++ [last]), b ∈ c.blocks := by rw [hblocks]; exact fun _ => id
  obtain ⟨hfirstMem, hrestMem⟩ := List.forall_mem_cons.1 hmem
  have hfits₀ : ({ labels } : Frame).Fits c := ⟨Nat.le_of_eq hsize.symm, nofun, nofun⟩
  obtain ⟨ds₁, frame₁, u₁, hstart⟩ :
      (c.block first ((mids ++ [last]).head?.map (·.id))).Succeeds { labels } := block_succeeds hmade hfirstMem (hwrites.block first hfirstMem) (fun _ => hwrites.init) hfits₀ (.empty labels)
  have hfits₁ := (block_sound hmade hfirstMem hfits₀ hstart).2.1
  have htidy₁ : frame₁.Tidy := by
    obtain ⟨mid₁, mid₂, mid₃, _, _, _, _, -, hentry, -, h₂, -, h₃, h₄⟩ := block_parts hfits₀ hstart
    rw [if_pos hfirst] at hentry
    obtain ⟨hgrows, hslot, hlabel⟩ := entry_keeps hentry
    unfold blockEnd at h₄
    rw [if_neg (by rw [hfirst]; nofun)] at h₄
    obtain ⟨rfl, -⟩ := edge_renders h₄
    exact (body_allots (hfits₀.mono hgrows hlabel hslot) h₂ h₃).tidy
      (entry_allots (.empty labels) hentry).1
  obtain ⟨ds₂, frame₂, u₂, hrest⟩ := blocksFrom_succeeds hlast hmade hrestMem hmids
    (fun b hb => hwrites.block b (hrestMem b hb)) hfits₁ htidy₁
  have hall : (c.blocksFrom c.blocks).Gives { labels } (ds₁ ++ ds₂) frame₂ u₂ := by
    rw [hblocks]
    exact Draft.gives_bind_iff.2 ⟨_, _, _, _, hstart, hrest, rfl⟩
  obtain ⟨-, hnodup, hinUse⟩ := blocks_allot hmade hsize hall
  refine Draft.succeeds_bind_iff.2 ⟨_, _, _, hall, ?_⟩
  unfold releaseDebugLocals
  rw [Draft.succeeds_getFrame_bind_iff]
  exact Draft.releaseAll_succeeds hnodup fun s hs => (hinUse s).2 hs

end Plan

end StackCode
