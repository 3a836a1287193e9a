import StackCode.Proofs.Refusal.Edge

/-!
# The entry and the exit keep the account

What runs once per invocation allots the slots of the debugger's views, and in a generator a label of
its own.  The exit settles the account: whatever has been branched to has its label, and only the
debugger's views are still there.  Main statements: `Plan.entry_meets`, `Plan.exit_meets`.
-/

namespace StackCode

/-- The slots that are checked out are these. -/
structure Frame.Viewing (frame : Frame) (views : List TempSlot) : Prop where
  inUse_iff : ∀ s, frame.temps.inUse s = true ↔ s ∈ views
  nodup : views.Nodup

namespace Frame

variable {frame : Frame} {slot : TempSlot}

/-- A slot that has been handed back was in use. -/
theorem inUse_of_tryRelease {temps temps' : TempPool} (h : temps.tryRelease slot = (.ok (), temps')) (s : TempSlot) :
    temps.inUse s = true ↔ s = slot ∨ temps'.inUse s = true := by
  rw [TempPool.inUse_of_tryRelease h]
  by_cases hs : s = slot
  · simp [hs, (TempPool.tryRelease_spec h).1]
  · simp [hs]

/-- The slot that was asked for becomes a view of the debugger. -/
theorem Lends.view (h : frame.Lends slot) (name : Name) :
    ({ frame with debugLocals := frame.debugLocals ++ [(name, slot)] } : Frame).Tidy := by
  obtain ⟨temps, hrelease, htidy⟩ := h
  have hinUse := inUse_of_tryRelease hrelease
  have hfree : temps.inUse slot = false := Bool.eq_false_iff.2 fun hused =>
    ((TempPool.inUse_of_tryRelease hrelease slot).1 hused).1 rfl
  have hnot := (not_congr (htidy.inUse_iff slot)).1 (Bool.eq_false_iff.1 hfree)
  obtain ⟨hview, hslot⟩ := not_or.1 hnot
  refine ⟨fun s => ?_, ?_, fun s hs hmem => ?_⟩
  · rw [hinUse, htidy.inUse_iff, List.map_append, List.mem_append, List.map_singleton,
      List.mem_singleton]
    tauto
  · rw [List.map_append, List.map_singleton, List.nodup_append]
    refine ⟨htidy.nodup, List.nodup_singleton _, ?_⟩
    rintro s hs t ht rfl
    rw [List.mem_singleton.1 ht] at hs
    exact hview hs
  · rw [List.map_append, List.map_singleton, List.mem_append, List.mem_singleton] at hmem
    rcases hmem with hmem | rfl
    · exact htidy.apart s hs hmem
    · exact hslot hs

/-- Without a return slot only the debugger's views are there. -/
theorem Tidy.viewing (h : frame.Tidy) (hslot : frame.returnSlot = none) :
    frame.Viewing (frame.debugLocals.map Prod.snd) :=
  ⟨fun s => by rw [h.inUse_iff, hslot]; simp, h.nodup⟩

/-- Without the return slot only the debugger's views are left. -/
theorem Tidy.viewing_of_tryRelease {temps : TempPool} (h : frame.Tidy)
    (hslot : frame.returnSlot = some slot) (hrelease : frame.temps.tryRelease slot = (.ok (), temps)) :
    ({ frame with temps } : Frame).Viewing (frame.debugLocals.map Prod.snd) := by
  refine ⟨fun s => ?_, h.nodup⟩
  change temps.inUse s = true ↔ _
  rw [TempPool.inUse_of_tryRelease hrelease, h.inUse_iff, hslot, Option.some.injEq]
  constructor
  · rintro ⟨hne, hview | heq⟩
    · exact hview
    · exact absurd heq.symm hne
  · intro hview
    exact ⟨fun heq => h.apart slot hslot (heq ▸ hview), .inl hview⟩

end Frame

namespace Plan

variable {c : Plan} {todo : List Label} {R : Account} {v : Bool} {d : Nat}

/-! ## The entry -/

theorem debugLocal_meets (array : LocalId) (var : Local) :
    (Draft.debugLocal array var).Meets c.Permits (c.At (c.Books todo Frame.Tidy) v 0) fun _ =>
      c.At (c.Books todo Frame.Tidy) v 0 := by
  unfold Draft.debugLocal
  simp only [Draft.liftM_eq]
  refine (acquireTemp_meets .value).bind fun slot => ?_
  refine Draft.Meets.seq (step_meets (.loadLocal array) 0 rfl rfl) ?_
  refine Draft.Meets.seq (step_meets (.constStr var.name) 1 rfl rfl) ?_
  refine Draft.Meets.seq (sure_meets (Fragment.isPlain_callIntrinsic _)
    (Fragment.callIntrinsic_carries (n := 0) .indirectLocal)) ?_
  refine Draft.Meets.seq (step_meets (.storeTemp slot) 0 rfl rfl) ?_
  refine .of_gives fun frame => ⟨[], _, (), Draft.gives_getFrame_bind_iff.2
    (Draft.gives_setFrame_iff.2 ⟨rfl, rfl⟩), fun _ => rfl, .refl _, fun f hp => ⟨⟨?_, ?_⟩, hp.2⟩⟩
  · exact hp.1.1.congr rfl rfl ⟨hp.1.1.fits.size, hp.1.1.fits.slot, hp.1.1.fits.label⟩
  · exact hp.1.2.view var.name

theorem debugLocals_meets :
    c.debugLocals.Meets c.Permits (c.At (c.Books todo Frame.Tidy) v 0) fun _ =>
      c.At (c.Books todo Frame.Tidy) v 0 := by
  have hall (array : LocalId) (vars : List Local) : (vars.forM (Draft.debugLocal array)).Meets
      c.Permits (c.At (c.Books todo Frame.Tidy) v 0) fun _ =>
        c.At (c.Books todo Frame.Tidy) v 0 := by
    induction vars with
    | nil => exact .pure fun _ _ => id
    | cons var vars ih => exact (debugLocal_meets array var).seq ih
  unfold debugLocals
  split
  · split
    · exact hall _ _
    · exact .pure fun _ _ => id
  · exact .pure fun _ _ => id

/-- A generator goes on where it stopped, or begins behind a label of its own. -/
theorem dispatch_meets (hmade : c.Made) (hgen : c.procedure.isGenerator = true) :
    (Draft.dispatch c.resume).Meets c.Permits (c.At (c.Books todo Frame.Tidy) v 0) fun _ =>
      c.At (c.Books todo Frame.Tidy) true 0 := by
  unfold Draft.dispatch
  refine (namedLabel_meets "noStateContinuation").bind fun start => ?_
  refine Draft.Meets.bind (Q := fun slot => c.At (fun frame labels staged =>
    c.Books (start :: todo) (·.Lends slot) frame labels staged ∧ c.bound ≤ start.index) v 0) ?_
      fun slot => ?_
  · have hslot : (Draft.acquireTemp .int).Meets c.Permits
        (c.At (c.Books (start :: todo) Frame.Tidy) v 0) fun slot =>
          c.At (c.Books (start :: todo) (·.Lends slot)) v 0 := acquireTemp_meets .int
    exact (hslot.keep (c.bound ≤ start.index)).conseq (fun _ _ h => ⟨⟨h.1.1, h.2⟩, h.1.2⟩)
      fun _ _ _ h => ⟨⟨h.1.1, h.2⟩, h.1.2⟩
  refine Draft.Meets.seq (step_meets .loadState 0 rfl rfl) ?_
  refine Draft.Meets.seq (step_meets (.storeTemp slot) 0 rfl rfl) ?_
  refine (setState_meets .running).seq ?_
  refine Draft.Meets.seq (step_meets (.loadTemp slot) 0 rfl rfl) ?_
  refine Draft.Meets.seq (Q := c.At (c.Books (start :: todo) (·.Lends slot)) false 0) ?_ ?_
  · rw [← Bool.and_false v]
    refine branch_meets (start :: todo) (i := .switch c.resume.points start) rfl rfl
      fun frame labels staged h => ⟨h.1.1, h.1, fun _ => ⟨fun l hl => ?_, fun labels' hkeeps =>
        ⟨hkeeps, h.1.2⟩⟩⟩
    rcases List.mem_append.1 hl with hl | hl
    · obtain ⟨point, hpoint, rfl⟩ := List.mem_map.1 hl
      have hresume : c.resume.label? point.1 = some point.2 := (mem_points_iff hmade hgen).1 hpoint
      obtain ⟨hpos, hle, hindex⟩ := hmade.resume_label?_eq_some_iff.1 hresume
      have hlt : point.2.index < c.bound := by
        unfold bound
        omega
      refine ⟨(h.1.1.planned _ hlt).imp_right .inl, fun hret => ?_, fun hexit => ?_⟩
      · exact absurd hlt (Nat.not_lt.2 (h.1.1.fits.label _ hret).1)
      · have := label?_lt hexit
        omega
    · rw [List.mem_singleton.1 hl]
      refine ⟨.inr (.inl List.mem_cons_self), fun hret => ?_, fun hexit => ?_⟩
      · exact absurd hret (h.1.1.owed start List.mem_cons_self).2.2
      · exact absurd hexit (ne_label?_of_bound_le h.2 _)
  · exact releaseTemp_meets.seq (place_meets .forward nofun nofun
      fun frame labels staged h => ⟨h, fun _ => rfl⟩)

theorem entry_meets (hmade : c.Made) :
    c.entry.Meets c.Permits (c.At (c.Books todo Frame.Tidy) true 0) fun _ =>
      c.At (c.Books todo Frame.Tidy) true 0 := by
  rw [entry_eq]
  refine Draft.Meets.seq (Q := c.At (c.Books todo Frame.Tidy) true 0) ?_ ?_
  · split
    · exact step_meets .hiddenSequencePoint 0 rfl rfl
    · exact .pure fun _ _ => id
  refine Draft.Meets.seq (Q := c.At (c.Books todo Frame.Tidy) true 0) ?_ ?_
  · unfold contextCheck
    split
    · exact Draft.Meets.seq (step_meets .loadContext 0 rfl rfl) (sure_meets
        (Fragment.isPlain_callIntrinsic _) (Fragment.callIntrinsic_carries (n := 0) .debugAssertNotNull))
    · exact .pure fun _ _ => id
  refine Draft.Meets.seq (Q := c.At (c.Books todo Frame.Tidy) true 0) ?_ ?_
  · unfold registration
    split
    · exact sure_meets (Fragment.isPlain_callWithName _ _)
        (Fragment.callWithName_carries (n := 0) rfl _)
    · exact .pure fun _ _ => id
  refine (sure_meets c.procedure.isPlain_initLocals Procedure.initLocals_carries).seq ?_
  refine debugLocals_meets.seq ?_
  refine Draft.Meets.seq (Q := c.At (c.Books todo Frame.Tidy) true 0) ?_ ?_
  · unfold openingBrace
    split
    · split
      · exact (sequencePoint_meets _).seq (step_meets .nop 0 rfl rfl)
      · exact .pure fun _ _ => id
    · exact .pure fun _ _ => id
  · split
    · next hgen => exact dispatch_meets hmade hgen
    · exact .pure fun _ _ => id

/-! ## The exit -/

/-- Whatever has been branched to has its label. -/
def Settled (L : Frame → Prop) : Account := fun frame labels _ =>
  (∀ l, labels.isReferenced l = true → labels.isMarked l = true) ∧ L frame

/-- Without a return label everything has its label in the end. -/
theorem Keeps.settled_of_none {frame : Frame} {labels : LabelTable} {staged : Bool}
    (h : c.Keeps [] frame labels staged) (hnone : frame.returnLabel = none) (l : Label)
    (hl : labels.isReferenced l = true) : labels.isMarked l = true := by
  rcases h.settled l hl with hmarked | howed | hret
  · exact hmarked
  · cases howed
  · rw [hnone] at hret
    cases hret

/-- The return label is the last one to be placed. -/
theorem Keeps.settled_of_mark {frame : Frame} {labels labels' : LabelTable} {staged : Bool} {r : Label}
    (h : c.Keeps [] frame labels staged) (hr : frame.returnLabel = some r)
    (hgrows : labels.Grows labels' [r] []) (l : Label) (hl : labels'.isReferenced l = true) :
    labels'.isMarked l = true := by
  rw [hgrows.isReferenced_iff] at hl
  rw [hgrows.isMarked_iff, List.mem_singleton]
  rcases h.settled l (hl.resolve_right List.not_mem_nil) with hmarked | howed | hret
  · exact .inl hmarked
  · cases howed
  · rw [hr] at hret
    exact .inr (Option.some_inj.1 hret.symm)

/-- The return label is placed at the end of the code, with nothing else to be placed. -/
theorem placeReturn_meets {l : Label} {L : Frame → Prop} (hd : v = true → d = 0)
    (hL : ∀ frame, L frame → frame.returnLabel = some l) :
    (Draft.mark l .forward).Meets c.Permits (c.At (c.Books [] L) v d) fun _ =>
      c.At (Settled L) true 0 := by
  refine mark_meets (fun hv => ⟨nofun, hd hv⟩) (fun _ => rfl) fun frame labels staged h hsize => ?_
  obtain ⟨hlt, hfree, -⟩ := h.1.ret l (hL frame h.2)
  exact ⟨Nat.lt_of_lt_of_le hlt hsize, hfree, fun _ => rfl, fun labels' hgrows =>
    ⟨h.1.settled_of_mark (hL frame h.2) hgrows, h.2⟩⟩

/-- The return label is placed, if there is one. -/
theorem placeReturn?_meets (label : Option Label) {L : Frame → Prop}
    (hL : ∀ frame, L frame → frame.returnLabel = label) :
    (label.elim (pure ()) (Draft.mark · .forward) : Draft Unit).Meets c.Permits
      (c.At (c.Books [] L) v 0) fun _ => c.At (Settled L) true 0 := by
  cases label with
  | some l => exact placeReturn_meets (fun _ => rfl) hL
  | none =>
    refine .pure fun frame f h => h.mono (fun frame labels staged h => ⟨?_, h.2⟩) fun _ => rfl
    exact h.1.settled_of_none (hL frame h.2)

/-- What the exit leaves: every label is placed, and only the debugger's views are there. -/
def Done (c : Plan) : Frame → Flow → Prop :=
  c.At (Settled fun frame => frame.Viewing (frame.debugLocals.map Prod.snd)) false 0

/-- The exit where there is no return slot. -/
theorem exitPlain_meets {frame : Frame} {x : Draft Unit}
    (hslot : frame.Fits c → frame.returnSlot = none)
    (hx : ∀ {R : Account}, x.Meets c.Permits (c.At R true 0) fun _ => c.At R false 0) :
    (frame.returnLabel.elim (pure ()) (Draft.mark · .forward) >>= fun _ => x : Draft Unit).Meets c.Permits
        (fun frame' f => frame' = frame ∧ c.At (c.Books [] Frame.Tidy) v 0 frame' f) fun _ => c.Done := by
  have hplace := placeReturn?_meets frame.returnLabel (c := c) (v := v)
    (L := fun frame' => frame'.returnLabel = frame.returnLabel ∧
      frame'.Viewing (frame'.debugLocals.map Prod.snd)) fun frame' h => h.1
  refine Draft.Meets.seq (hplace.strengthen ?_) (hx.weaken fun _ frame' f h =>
    h.mono (fun _ _ _ (hsettled : Settled _ _ _ _) => ⟨hsettled.1, hsettled.2.2⟩) id)
  rintro frame' f ⟨rfl, h⟩
  exact ⟨⟨h.1.1, rfl, h.1.2.viewing (hslot h.1.1.fits)⟩, h.2⟩

theorem exitGenerator_meets (hgen : c.procedure.isGenerator = true) :
    Draft.exitGenerator.Meets c.Permits (c.At (c.Books [] Frame.Tidy) v 0) fun _ => c.Done := by
  have hexit : Draft.exitGenerator = (Draft.getFrame >>= fun frame =>
      frame.returnLabel.elim (pure ()) (Draft.mark · .forward) >>= fun _ =>
        Draft.setState .closed >>= fun _ => Draft.emit (.ret false)) := by
    unfold Draft.exitGenerator
    congr 1
    funext frame
    cases frame.returnLabel <;> rfl
  rw [hexit]
  refine .getFrame fun frame => exitPlain_meets (fun hfits => ?_)
    ((setState_meets .closed).seq (ret_meets false))
  cases hs : frame.returnSlot with
  | none => rfl
  | some slot =>
    have hstages := hfits.slot slot hs
    simp only [Outline.stages, outline, hgen, Bool.not_true, Bool.false_and] at hstages
    cases hstages

/-- What is returned where nothing else is. -/
theorem returnDefault_meets {R : Account} :
    (Draft.ofFragment (Fragment.pushDefault c.procedure.returnType) >>= fun _ =>
      Draft.emit (.ret !c.procedure.returnType.isVoid)).Meets c.Permits (c.At R v 0) fun _ =>
        c.At R false 0 := by
  have hwidth : c.procedure.returnType.width = (!c.procedure.returnType.isVoid).toNat := by
    unfold Ty.width
    cases c.procedure.returnType.isVoid <;> rfl
  have hret := ret_meets (!c.procedure.returnType.isVoid) (c := c) (R := R) (v := v)
  rw [← hwidth] at hret
  exact Draft.Meets.seq (sure_meets (Fragment.isPlain_pushDefault _) (Fragment.pushDefault_carries _)) hret

/-- The point where stored values are returned. -/
theorem returnPoint_meets {l : Label} {slot : TempSlot} {L : Frame → Prop}
    (hL : ∀ frame, L frame → frame.returnLabel = some l ∧ frame.returnSlot = some slot) :
    (Draft.directive (.returnPoint l slot)).Meets c.Permits (c.At (c.Books [] L) false 0) fun _ =>
      c.At (Settled L) false 0 := by
  refine .split (fun _ f => f.hasStaged = true) ?_ ?_
  · -- where values are stored, the label is placed, and the slot is loaded behind it
    have hreturn : (Draft.mark l .forward >>= fun _ => Draft.emit (.loadTemp slot) >>= fun _ =>
        Draft.emit (.ret true)).Meets c.Permits (c.At (c.Books [] L) false 0) fun _ =>
          c.At (Settled L) false 0 := by
      refine Draft.Meets.seq (placeReturn_meets (fun hv => by cases hv) fun frame h => (hL frame h).1) ?_
      exact Draft.Meets.seq (step_meets (.loadTemp slot) 0 rfl rfl) (ret_meets true)
    refine (hreturn.strengthen fun _ _ h => h.1).of_run_eq (fun _ => rfl) fun frame f h => ?_
    unfold Draft.run
    rw [Draft.directive_apply, Flow.through_returnPoint h.2]
    rfl
  · -- elsewhere nothing has branched to it
    have hstep {frame : Frame} {f : Flow} (hp : c.At (c.Books [] L) false 0 frame f ∧
        ¬ f.hasStaged = true) : f.labels.isReferenced l = false ∧
          f.step (.returnPoint l slot) = .ok ([], f) := by
      have hfree : f.labels.isReferenced l = false := eq_false_of_ne_true fun href =>
        hp.2 ((hp.1.1.1.ret l (hL frame hp.1.1.2).1).2.2 href
          (hp.1.1.1.fits.slot slot (hL frame hp.1.1.2).2))
      refine ⟨hfree, ?_⟩
      simp only [Flow.step, eq_false_of_ne_true hp.2, hfree, Bool.false_eq_true, ↓reduceIte]
    refine .directive (fun frame f e hp _ h => ?_) fun frame f code g hp _ h => ?_
    · rw [(hstep hp).2] at h
      cases h
    · rw [(hstep hp).2] at h
      cases h
      refine ⟨⟨fun m hm => ?_, hp.1.1.2⟩, hp.1.2⟩
      rcases hp.1.1.1.settled m hm with hmarked | howed | hret
      · exact hmarked
      · cases howed
      · rw [(hL frame hp.1.1.2).1] at hret
        cases hret
        rw [(hstep hp).1] at hm
        cases hm

theorem exitOrdinary_meets :
    (Draft.exitOrdinary c.procedure.returnType).Meets c.Permits (c.At (c.Books [] Frame.Tidy) v 0)
      fun _ => c.Done := by
  have hexit : Draft.exitOrdinary c.procedure.returnType = (Draft.getFrame >>= fun frame =>
      frame.returnSlot.elim
        (frame.returnLabel.elim (pure ()) (Draft.mark · .forward) >>= fun _ =>
          Draft.ofFragment (Fragment.pushDefault c.procedure.returnType) >>= fun _ =>
            Draft.emit (.ret !c.procedure.returnType.isVoid))
        fun slot => (Draft.ofFragment (Fragment.pushDefault c.procedure.returnType) >>= fun _ =>
          Draft.emit (.ret !c.procedure.returnType.isVoid)) >>= fun _ =>
            Draft.returnLabel >>= fun l => Draft.directive (.returnPoint l slot) >>= fun _ =>
              Draft.releaseTemp slot) := by
    unfold Draft.exitOrdinary
    congr 1
    funext frame
    cases frame.returnSlot with
    | none => cases frame.returnLabel <;> rfl
    | some slot =>
      simp only [Option.elim_some, bind_assoc]
      rfl
  rw [hexit]
  refine .getFrame fun frame => ?_
  cases hs : frame.returnSlot with
  | none => exact exitPlain_meets (fun _ => hs) returnDefault_meets
  | some slot =>
    simp only [Option.elim_some]
    have hlabel := returnLabel_meets [] (c := c) (v := false) (d := 0)
      (R := c.Books [] fun frame => frame.Tidy ∧ frame.returnSlot = some slot)
      (fun frame labels staged h => ⟨h.1, fun _ => ⟨slot, h.2.2⟩⟩)
      fun frame labels staged table l h hkeeps => ⟨hkeeps, h.2.1.congr (fun _ => rfl) rfl rfl, h.2.2⟩
    refine Draft.Meets.seq ((returnDefault_meets (v := v)).strengthen ?_) (hlabel.bind fun l => ?_)
    · rintro frame' f ⟨rfl, h⟩
      exact ⟨⟨h.1.1, h.1.2, hs⟩, h.2⟩
    · refine Draft.Meets.seq (Q := c.At (Settled fun frame => (frame.Tidy ∧
        frame.returnSlot = some slot) ∧ frame.returnLabel = some l) false 0) ?_ ?_
      · refine (returnPoint_meets fun frame h => ⟨h.2, h.1.2⟩).strengthen fun frame f h => ?_
        exact ⟨⟨h.1.1.1, h.1.1.2, h.1.2⟩, h.2⟩
      · refine releaseTemp_meets_of fun frame labels staged h => ?_
        obtain ⟨temps, hrelease, -⟩ :=
          TempPool.exists_tryRelease ((h.2.1.1.inUse_iff slot).2 (.inr h.2.1.2))
        exact ⟨temps, hrelease, h.1, h.2.1.1.viewing_of_tryRelease h.2.1.2 hrelease⟩

theorem exit_meets :
    (if c.procedure.isGenerator then Draft.exitGenerator
      else Draft.exitOrdinary c.procedure.returnType).Meets c.Permits
        (c.At (c.Books [] Frame.Tidy) v 0) fun _ => c.Done := by
  split
  · next hgen => exact exitGenerator_meets hgen
  · exact exitOrdinary_meets

end Plan

end StackCode
