import StackCode.Proofs.Outline.Edge

/-!
# The entry and the exit render their outlines

What is left of a procedure: the code that runs once per invocation, the label of a block with the
code that receives an exception, and the end of the exit block.
-/

namespace StackCode

namespace Plan

variable {c : Plan} {frame frame' : Frame} {ds : List Directive} {u : Unit}

/-- What stays the same while no label is allotted and nothing is returned. -/
structure KeepsLabels (frame frame' : Frame) : Prop where
  labels : frame'.labels = frame.labels
  returnLabel : frame'.returnLabel = frame.returnLabel
  returnSlot : frame'.returnSlot = frame.returnSlot

theorem KeepsLabels.refl (frame : Frame) : KeepsLabels frame frame := ⟨rfl, rfl, rfl⟩

theorem KeepsLabels.trans {frame₁ frame₂ frame₃ : Frame} (h : KeepsLabels frame₁ frame₂)
    (h' : KeepsLabels frame₂ frame₃) : KeepsLabels frame₁ frame₃ :=
  ⟨h'.labels.trans h.labels, h'.returnLabel.trans h.returnLabel, h'.returnSlot.trans h.returnSlot⟩

theorem KeepsLabels.grows (h : KeepsLabels frame frame') : frame.Grows frame' where
  size_le := Nat.le_of_eq (congrArg LabelTable.size h.labels.symm)
  isBlank hb := by rw [h.labels]; exact hb
  returnLabel l hl := by rw [h.returnLabel, hl]
  returnSlot s hs := by rw [h.returnSlot, hs]

/-! ## Entering a block -/

/-- How control comes to the label of a block. -/
def arrival (c : Plan) (b : Block) : Arrival :=
  if (c.caught? b.id).isSome then .handler else if b.kind = .exit then .forward else .join

theorem storePending_renders {id : LocalId}
    (h : (c.procedure.storePending id).Gives frame ds frame' u) :
    KeepsLabels frame frame' ∧ (∃ i ops, c.outline.storePending id = .run i :: ops ∧ i.pops = 1) ∧
      ∀ r v, Renders r v ds (c.outline.storePending id) v := by
  unfold Procedure.storePending at h
  have hlift : (liftM (c.procedure.place id) : Draft Place) =
      Draft.ofFragment (Fragment.ofExcept (c.procedure.place id)) := rfl
  rw [hlift] at h
  obtain ⟨place, rest, hplace, h₁, rfl⟩ := Draft.gives_ofFragment_bind_iff.1 h
  have hplace : c.outline.procedure.place id = .ok place := hplace
  unfold Outline.storePending
  rw [hplace]
  cases place with
  | slot id =>
    obtain ⟨rfl, rfl⟩ := Draft.gives_emit_iff.1 h₁
    exact ⟨.refl _, ⟨_, _, rfl, rfl⟩, fun r v => .step rfl rfl (.nil v)⟩
  | entry array key ty =>
    simp only [Draft.liftM_eq] at h₁
    obtain ⟨slot, mid, _, _, hslot, h₂, rfl⟩ := Draft.gives_bind_iff.1 h₁
    obtain ⟨-, rfl, rfl⟩ := Draft.gives_acquireTemp_iff.1 hslot
    obtain ⟨_, h₃, rfl⟩ := Draft.gives_emit_bind_iff.1 h₂
    obtain ⟨-, _, -, h₄, rfl⟩ := Draft.gives_ofFragment_bind_iff.1 h₃
    obtain ⟨_, h₅, rfl⟩ := Draft.gives_emit_bind_iff.1 h₄
    obtain ⟨-, _, -, h₆, rfl⟩ := Draft.gives_ofFragment_bind_iff.1 h₅
    obtain ⟨temps, -, rfl, rfl⟩ := Draft.gives_releaseTemp_iff.1 h₆
    refine ⟨⟨rfl, rfl, rfl⟩, ⟨_, _, rfl, rfl⟩, fun r v => .allocation_append ?_⟩
    refine .step rfl rfl (.plain_append (Place.isPlain_pushKey _) ?_)
    exact .step rfl rfl (.step rfl rfl (.note rfl (.nil v)))

/-- The code in front of the statements of a block: its label, and what receives an exception. -/
theorem enterBlock_gives {b : Block} (h : (c.enterBlock b).Gives frame ds frame' u) :
    KeepsLabels frame frame' ∧
      match c.label? b.id with
      | none => ds = []
      | some l => ∃ rest, ds = .mark l (c.arrival b) :: rest ∧
          ((c.caught? b.id).isSome = true →
            ∃ i ops, c.outline.receive b.id = .run i :: ops ∧ i.pops = 1) ∧
          ∀ r v, Renders r v rest (c.outline.receive b.id) v := by
  unfold enterBlock at h
  unfold Outline.receive arrival
  cases hl : c.label? b.id with
  | none =>
    rw [hl] at h
    obtain ⟨rfl, rfl, -⟩ := Draft.gives_pure_iff.1 h
    exact ⟨.refl _, rfl⟩
  | some l =>
    rw [hl] at h
    have hops : c.outline.caught b.id = c.caught? b.id := rfl
    rw [hops]
    cases hc : c.caught? b.id with
    | none =>
      rw [hc] at h
      obtain ⟨rfl, rfl⟩ := Draft.gives_mark_iff.1 h
      exact ⟨.refl _, [], rfl, nofun, fun r v => .nil v⟩
    | some exception =>
      rw [hc] at h
      obtain ⟨rest, h₁, rfl⟩ := Draft.gives_directive_bind_iff.1 h
      cases exception with
      | none =>
        obtain ⟨rfl, rfl⟩ := Draft.gives_emit_iff.1 h₁
        exact ⟨.refl _, _, rfl, fun _ => ⟨_, _, rfl, rfl⟩, fun r v => .step rfl rfl (.nil v)⟩
      | some id =>
        obtain ⟨hkeeps, hfirst, hrenders⟩ := storePending_renders h₁
        exact ⟨hkeeps, rest, rfl, fun _ => hfirst, hrenders⟩

/-! ## The prologue -/

theorem contextCheck_renders (h : c.contextCheck.Gives frame ds frame' u) :
    frame' = frame ∧ ∀ r v, Renders r v ds
      (if c.outline.options.debug && c.outline.procedure.isStatic then
        [.run .loadContext, .run (.callIntrinsic .debugAssertNotNull)] else []) v := by
  unfold contextCheck at h
  change frame' = frame ∧ ∀ r v, Renders r v ds
    (if c.options.debug && c.procedure.isStatic then
      [.run .loadContext, .run (.callIntrinsic .debugAssertNotNull)] else []) v
  split at h
  · next hcheck =>
    obtain ⟨_, h₁, rfl⟩ := Draft.gives_emit_bind_iff.1 h
    obtain ⟨rfl, rfl, -⟩ := Draft.gives_ofFragment_iff.1 h₁
    rw [if_pos hcheck]
    exact ⟨rfl, fun r v => .step rfl rfl (.step rfl rfl (.nil v))⟩
  · next hcheck =>
    obtain ⟨rfl, rfl, -⟩ := Draft.gives_pure_iff.1 h
    rw [if_neg hcheck]
    exact ⟨rfl, fun r v => .nil v⟩

theorem registration_renders (h : c.registration.Gives frame ds frame' u) :
    frame' = frame ∧ ∀ r v, Renders r v ds
      (match c.outline.procedure.kind with
        | .scriptMain script => (Fragment.callWithName .onInclude script).ops
        | _ => []) v := by
  unfold registration at h
  have hkind : c.outline.procedure.kind = c.procedure.kind := rfl
  rw [hkind]
  cases hk : c.procedure.kind with
  | scriptMain script =>
    rw [hk] at h
    exact ofFragment_renders (Fragment.isPlain_callWithName _ _) h
  | function =>
    rw [hk] at h
    obtain ⟨rfl, rfl, -⟩ := Draft.gives_pure_iff.1 h
    exact ⟨rfl, fun r v => .nil v⟩
  | method =>
    rw [hk] at h
    obtain ⟨rfl, rfl, -⟩ := Draft.gives_pure_iff.1 h
    exact ⟨rfl, fun r v => .nil v⟩

theorem debugLocal_renders {array : LocalId} {v : Local}
    (h : (Draft.debugLocal array v).Gives frame ds frame' u) :
    KeepsLabels frame frame' ∧ ∀ r w, Renders r w ds
      [.run (.loadLocal array), .run (.constStr v.name), .run (.callIntrinsic .indirectLocal),
        .run (.storeTemp ⟨0⟩)] w := by
  unfold Draft.debugLocal at h
  simp only [Draft.liftM_eq] at h
  obtain ⟨slot, mid, _, _, hslot, h₁, rfl⟩ := Draft.gives_bind_iff.1 h
  obtain ⟨-, rfl, rfl⟩ := Draft.gives_acquireTemp_iff.1 hslot
  obtain ⟨_, h₂, rfl⟩ := Draft.gives_emit_bind_iff.1 h₁
  obtain ⟨_, h₃, rfl⟩ := Draft.gives_emit_bind_iff.1 h₂
  obtain ⟨-, _, -, h₄, rfl⟩ := Draft.gives_ofFragment_bind_iff.1 h₃
  obtain ⟨_, h₅, rfl⟩ := Draft.gives_emit_bind_iff.1 h₄
  rw [Draft.gives_getFrame_bind_iff] at h₅
  obtain ⟨rfl, rfl⟩ := Draft.gives_setFrame_iff.1 h₅
  refine ⟨⟨rfl, rfl, rfl⟩, fun r w => .allocation_append ?_⟩
  exact .step rfl rfl (.step rfl rfl (.step rfl rfl (.step rfl rfl (.nil w))))

theorem debugLocals_renders (h : c.debugLocals.Gives frame ds frame' u) :
    KeepsLabels frame frame' ∧ ∀ r v, Renders r v ds c.outline.debugLocals v := by
  unfold debugLocals at h
  unfold Outline.debugLocals
  have harray : c.outline.procedure.localsArray = c.procedure.localsArray := rfl
  rw [harray]
  cases ha : c.procedure.localsArray with
  | none =>
    rw [ha] at h
    obtain ⟨rfl, rfl, -⟩ := Draft.gives_pure_iff.1 h
    exact ⟨.refl _, fun r v => .nil v⟩
  | some array =>
    rw [ha] at h
    have hoptions : c.outline.options = c.options := rfl
    have hlocals : c.outline.procedure.locals = c.procedure.locals := rfl
    simp only [hoptions, hlocals] at h ⊢
    split at h
    · next hdebug =>
      rw [if_pos hdebug]
      clear ha harray hdebug
      revert h
      generalize c.procedure.locals.toList.filter _ = vars
      intro h
      induction vars generalizing frame ds with
      | nil =>
        obtain ⟨rfl, rfl, -⟩ := Draft.gives_pure_iff.1 h
        exact ⟨.refl _, fun r v => .nil v⟩
      | cons v vars ih =>
        obtain ⟨_, mid, _, _, hv, hvars, rfl⟩ := Draft.gives_bind_iff.1 h
        obtain ⟨hkeeps, hrenders⟩ := debugLocal_renders hv
        obtain ⟨hkeeps', hrenders'⟩ := ih hvars
        exact ⟨hkeeps.trans hkeeps', fun r w => (hrenders r w).append (hrenders' r w)⟩
    · next hdebug =>
      obtain ⟨rfl, rfl, -⟩ := Draft.gives_pure_iff.1 h
      rw [if_neg hdebug]
      exact ⟨.refl _, fun r v => .nil v⟩

theorem openingBrace_renders (h : c.openingBrace.Gives frame ds frame' u) :
    frame' = frame ∧ ∀ r v, Renders r v ds c.outline.openingBrace v := by
  unfold openingBrace at h
  unfold Outline.openingBrace
  have hspan : c.outline.procedure.bodySpan = c.procedure.bodySpan := rfl
  have hoptions : c.outline.options = c.options := rfl
  rw [hspan, hoptions]
  cases hs : c.procedure.bodySpan with
  | none =>
    rw [hs] at h
    obtain ⟨rfl, rfl, -⟩ := Draft.gives_pure_iff.1 h
    exact ⟨rfl, fun r v => .nil v⟩
  | some span =>
    rw [hs] at h
    simp only at h ⊢
    split at h
    · next hdebug =>
      rw [if_pos hdebug]
      obtain ⟨_, mid, _, _, hpoint, hnop, rfl⟩ := Draft.gives_bind_iff.1 h
      obtain ⟨rfl, hrenders⟩ := sequencePoint_renders hpoint
      obtain ⟨rfl, rfl⟩ := Draft.gives_emit_iff.1 hnop
      exact ⟨rfl, fun r v => (hrenders r v).append (.step rfl rfl (.nil v))⟩
    · next hdebug =>
      rw [if_neg hdebug]
      obtain ⟨rfl, rfl, -⟩ := Draft.gives_pure_iff.1 h
      exact ⟨rfl, fun r v => .nil v⟩

theorem hiddenPoint_renders
    (h : (if c.options.sequencePoints then Draft.emit .hiddenSequencePoint
      else pure () : Draft Unit).Gives frame ds frame' u) :
    frame' = frame ∧ ∀ r v, Renders r v ds
      (if c.outline.options.sequencePoints then [.run .hiddenSequencePoint] else []) v := by
  have hoptions : c.outline.options = c.options := rfl
  rw [hoptions]
  split at h
  · next hpoints =>
    obtain ⟨rfl, rfl⟩ := Draft.gives_emit_iff.1 h
    rw [if_pos hpoints]
    exact ⟨rfl, fun r v => .step rfl rfl (.nil v)⟩
  · next hpoints =>
    obtain ⟨rfl, rfl, -⟩ := Draft.gives_pure_iff.1 h
    rw [if_neg hpoints]
    exact ⟨rfl, fun r v => .nil v⟩

theorem entry_eq (c : Plan) :
    c.entry =
      ((if c.options.sequencePoints then Draft.emit .hiddenSequencePoint else pure ()) >>= fun _ =>
        c.contextCheck >>= fun _ => c.registration >>= fun _ =>
        Draft.ofFragment c.procedure.initLocals >>= fun _ => c.debugLocals >>= fun _ =>
        c.openingBrace >>= fun _ =>
          if c.procedure.isGenerator then Draft.dispatch c.resume else pure ()) := by
  unfold entry
  cases c.options.sequencePoints <;> rfl

/-- The code that runs once per invocation is the prologue, and in a generator the dispatch. -/
theorem entry_gives (h : c.entry.Gives frame ds frame' u) :
    ∃ mid ds₁ ds₂, ds = ds₁ ++ ds₂ ∧ KeepsLabels frame mid ∧
      (∀ r v, Renders r v ds₁ c.outline.prologue v) ∧
      (if c.procedure.isGenerator then Draft.dispatch c.resume else pure ()).Gives mid ds₂ frame' u := by
  rw [entry_eq] at h
  obtain ⟨_, _, d₁, _, h₁, k₁, rfl⟩ := Draft.gives_bind_iff.1 h
  obtain ⟨_, _, d₂, _, h₂, k₂, rfl⟩ := Draft.gives_bind_iff.1 k₁
  obtain ⟨_, _, d₃, _, h₃, k₃, rfl⟩ := Draft.gives_bind_iff.1 k₂
  obtain ⟨_, _, d₄, _, h₄, k₄, rfl⟩ := Draft.gives_bind_iff.1 k₃
  obtain ⟨_, _, d₅, _, h₅, k₅, rfl⟩ := Draft.gives_bind_iff.1 k₄
  obtain ⟨_, mid, d₆, d₇, h₆, k₆, rfl⟩ := Draft.gives_bind_iff.1 k₅
  obtain ⟨rfl, r₁⟩ := hiddenPoint_renders h₁
  obtain ⟨rfl, r₂⟩ := contextCheck_renders h₂
  obtain ⟨rfl, r₃⟩ := registration_renders h₃
  obtain ⟨rfl, r₄⟩ := ofFragment_renders c.procedure.isPlain_initLocals h₄
  obtain ⟨hkeeps, r₅⟩ := debugLocals_renders h₅
  obtain ⟨rfl, r₆⟩ := openingBrace_renders h₆
  refine ⟨mid, d₁ ++ (d₂ ++ (d₃ ++ (d₄ ++ (d₅ ++ d₆)))), d₇, ?_, hkeeps, fun r v => ?_, k₆⟩
  · simp only [List.append_assoc]
  · unfold Outline.prologue
    simp only [List.append_assoc]
    exact (r₁ r v).append ((r₂ r v).append ((r₃ r v).append ((r₄ r v).append
      ((r₅ r v).append (r₆ r v)))))

/-! ## The exit -/

/-- What a generator does first in every invocation. -/
theorem dispatch_gives {resume : ResumePlan} (h : (Draft.dispatch resume).Gives frame ds frame' u) :
    ∃ slot notes, (∀ d ∈ notes, ∃ i, d = .instr i ∧ i.isNote = true) ∧
      ds = notes ++ [.instr .loadState, .instr (.storeTemp slot),
        .instr (.constInt GeneratorState.running.toInt), .instr .storeState,
        .instr (.loadTemp slot), .instr (.switch resume.points ⟨frame.labels.size⟩),
        .instr (.freeTemp slot), .mark ⟨frame.labels.size⟩ .forward] ∧
      frame'.labels = (frame.labels.add { name := some "noStateContinuation" }).2 ∧
      frame'.returnLabel = frame.returnLabel ∧ frame'.returnSlot = frame.returnSlot := by
  unfold Draft.dispatch at h
  obtain ⟨_, _, _, _, hl, h₁, rfl⟩ := Draft.gives_bind_iff.1 h
  obtain ⟨rfl, rfl, rfl⟩ := Draft.gives_namedLabel_iff.1 hl
  obtain ⟨slot, mid, notes, _, hslot, h₂, rfl⟩ := Draft.gives_bind_iff.1 h₁
  obtain ⟨-, rfl, rfl⟩ := Draft.gives_acquireTemp_iff.1 hslot
  obtain ⟨_, h₃, rfl⟩ := Draft.gives_emit_bind_iff.1 h₂
  obtain ⟨_, h₄, rfl⟩ := Draft.gives_emit_bind_iff.1 h₃
  obtain ⟨_, h₅, rfl⟩ := Draft.gives_setState_bind_iff.1 h₄
  obtain ⟨_, h₆, rfl⟩ := Draft.gives_emit_bind_iff.1 h₅
  obtain ⟨_, h₇, rfl⟩ := Draft.gives_emit_bind_iff.1 h₆
  obtain ⟨_, _, _, _, hrelease, h₈, rfl⟩ := Draft.gives_bind_iff.1 h₇
  obtain ⟨temps, -, rfl, rfl⟩ := Draft.gives_releaseTemp_iff.1 hrelease
  obtain ⟨rfl, rfl⟩ := Draft.gives_mark_iff.1 h₈
  refine ⟨slot, _, ?_, rfl, rfl, rfl, rfl⟩
  intro d hd
  unfold Draft.allocation at hd
  split at hd
  · exact ⟨_, List.mem_singleton.1 hd, rfl⟩
  · cases hd

/-- The code that returns the default value. -/
def defaultCode (c : Plan) : List Instr :=
  (Fragment.pushDefault c.procedure.returnType).code ++ [.ret !c.procedure.returnType.isVoid]

/-- The default value is returned where there is nothing else to return. -/
theorem exit_renders (hgen : c.procedure.isGenerator = false) (r : Reading) (v : Bool) :
    Renders r v (c.defaultCode.map .instr) c.outline.exit false := by
  have hexit : c.outline.exit = (Fragment.pushDefault c.procedure.returnType).ops ++
      [.run (.ret !c.procedure.returnType.isVoid)] := by
    unfold Outline.exit
    rw [show c.outline.procedure = c.procedure from rfl, hgen]
    exact if_neg Bool.false_ne_true
  rw [hexit, defaultCode, List.map_append]
  refine .plain_append (Fragment.isPlain_pushDefault _) (.run rfl ?_)
  rw [show (Instr.ret _).endsFlow = true from rfl, Bool.not_true, Bool.and_false]
  exact .nil false

/-- The exit block of an ordinary procedure, part by part. -/
theorem exitOrdinary_gives (hfits : frame.Fits c)
    (h : (Draft.exitOrdinary c.procedure.returnType).Gives frame ds frame' u) :
    frame.Grows frame' ∧ frame'.Fits c ∧ frame'.returnSlot = frame.returnSlot ∧
      match frame.returnSlot with
      | some slot => ∃ l, frame'.returnLabel = some l ∧
          ds = c.defaultCode.map .instr ++ [.returnPoint l slot, .instr (.freeTemp slot)]
      | none => frame' = frame ∧
          ds = (frame.returnLabel.map (Directive.mark · .forward)).toList ++
            c.defaultCode.map .instr := by
  unfold Draft.exitOrdinary at h
  rw [Draft.gives_getFrame_bind_iff] at h
  simp only [Draft.liftM_eq] at h
  rw [defaultCode, List.map_append]
  cases hslot : frame.returnSlot with
  | none =>
    rw [hslot] at h
    cases hl : frame.returnLabel with
    | none =>
      rw [hl] at h
      obtain ⟨_, _, -, h₁, rfl⟩ := Draft.gives_ofFragment_bind_iff.1 h
      obtain ⟨rfl, rfl⟩ := Draft.gives_emit_iff.1 h₁
      exact ⟨.refl _, hfits, hslot, rfl, rfl⟩
    | some l =>
      rw [hl] at h
      obtain ⟨_, h₁, rfl⟩ := Draft.gives_directive_bind_iff.1 h
      obtain ⟨_, _, -, h₂, rfl⟩ := Draft.gives_ofFragment_bind_iff.1 h₁
      obtain ⟨rfl, rfl⟩ := Draft.gives_emit_iff.1 h₂
      exact ⟨.refl _, hfits, hslot, rfl, rfl⟩
  | some slot =>
    rw [hslot] at h
    obtain ⟨_, _, -, h₁, rfl⟩ := Draft.gives_ofFragment_bind_iff.1 h
    obtain ⟨_, h₂, rfl⟩ := Draft.gives_emit_bind_iff.1 h₁
    obtain ⟨l, mid, _, _, hl, h₃, rfl⟩ := Draft.gives_bind_iff.1 h₂
    obtain ⟨_, h₄, rfl⟩ := Draft.gives_directive_bind_iff.1 h₃
    obtain ⟨temps, -, rfl, rfl⟩ := Draft.gives_releaseTemp_iff.1 h₄
    obtain ⟨hgrows, hlabel, hslot', hold⟩ := Draft.grows_of_returnLabel hl
    obtain ⟨rfl, -⟩ := Draft.gives_returnLabel_iff.1 hl
    have hfits' : mid.Fits c := by
      refine ⟨Nat.le_trans hfits.size hgrows.size_le, fun s hs => hfits.slot s (hslot' ▸ hs),
        fun l' hl' => ⟨?_, fun _ => ⟨slot, hslot'.trans hslot⟩⟩⟩
      rw [hlabel] at hl'
      cases hl'
      rcases hold with hold | hold
      · exact (hfits.label _ hold).1
      · rw [hold]
        exact hfits.size
    have htemps := Draft.grows_temps mid temps
    refine ⟨hgrows.trans htemps, hfits'.mono htemps rfl rfl, hslot'.trans hslot, l, hlabel, ?_⟩
    rw [List.append_assoc]
    rfl

/-- The exit block of a generator, behind the return label, if there is one. -/
theorem exitGenerator_gives (h : Draft.exitGenerator.Gives frame ds frame' u) :
    frame' = frame ∧ ds = (frame.returnLabel.map (Directive.mark · .forward)).toList ++
      [.instr (.constInt GeneratorState.closed.toInt), .instr .storeState, .instr (.ret false)] := by
  unfold Draft.exitGenerator at h
  rw [Draft.gives_getFrame_bind_iff] at h
  cases hl : frame.returnLabel with
  | none =>
    rw [hl] at h
    obtain ⟨_, h₁, rfl⟩ := Draft.gives_setState_bind_iff.1 h
    obtain ⟨rfl, rfl⟩ := Draft.gives_emit_iff.1 h₁
    exact ⟨rfl, rfl⟩
  | some l =>
    rw [hl] at h
    obtain ⟨_, h₁, rfl⟩ := Draft.gives_directive_bind_iff.1 h
    obtain ⟨_, h₂, rfl⟩ := Draft.gives_setState_bind_iff.1 h₁
    obtain ⟨rfl, rfl⟩ := Draft.gives_emit_iff.1 h₂
    exact ⟨rfl, rfl⟩

/-- The end of the exit block: behind the return label, if there is one, or in front of the point
where stored values are returned. -/
theorem exit_gives (hfits : frame.Fits c)
    (h : (if c.procedure.isGenerator then Draft.exitGenerator
      else Draft.exitOrdinary c.procedure.returnType).Gives frame ds frame' u) :
    frame.Grows frame' ∧ frame'.Fits c ∧
      ∃ ds₀, (∀ r v, Renders r v ds₀ c.outline.exit false) ∧
        match frame.returnSlot with
        | some slot => ∃ l, frame'.returnLabel = some l ∧
            ds = ds₀ ++ [.returnPoint l slot, .instr (.freeTemp slot)]
        | none => frame' = frame ∧
            ds = (frame.returnLabel.map (Directive.mark · .forward)).toList ++ ds₀ := by
  cases hgen : c.procedure.isGenerator with
  | true =>
    rw [hgen, if_pos rfl] at h
    have hslot : frame.returnSlot = none := by
      cases hs : frame.returnSlot with
      | none => rfl
      | some s =>
        have := hfits.slot s hs
        simp only [Outline.stages, outline, hgen, Bool.not_true, Bool.false_and] at this
        cases this
    have hexit : c.outline.exit = Outline.setState .closed ++ [.run (.ret false)] := by
      unfold Outline.exit
      exact if_pos hgen
    have hrenders : ∀ r v, Renders r v [.instr (.constInt GeneratorState.closed.toInt),
        .instr .storeState, .instr (.ret false)] c.outline.exit false := by
      intro r v
      rw [hexit]
      refine .step rfl rfl (.step rfl rfl (.run rfl ?_))
      rw [show (Instr.ret _).endsFlow = true from rfl, Bool.not_true, Bool.and_false]
      exact .nil false
    obtain ⟨rfl, rfl⟩ := exitGenerator_gives h
    rw [hslot]
    exact ⟨.refl _, hfits, _, hrenders, rfl, rfl⟩
  | false =>
    rw [hgen, if_neg Bool.false_ne_true] at h
    obtain ⟨hgrows, hfits', -, hcode⟩ := exitOrdinary_gives hfits h
    exact ⟨hgrows, hfits', _, fun r v => exit_renders hgen r v, hcode⟩

end Plan

end StackCode
