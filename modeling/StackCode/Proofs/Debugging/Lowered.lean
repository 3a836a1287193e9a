import StackCode.Proofs.Debugging.Assembled
import StackCode.Proofs.Refusal.Refused

/-!
# Debugging does not change the program

Whatever is asked for debugging, a procedure is refused for the same error, or its code is the code
without debugging and what debugging adds: places to stop, a check of the context in front, the views
behind the setup, and at the end what hands their slots back; all other slots are so many further on.
Main statement: `Procedure.lowerInto_debugging`.
-/

namespace StackCode

namespace Plan

variable {c : Plan} {labels : LabelTable}

/-- The same is planned, with nothing for a debugger. -/
theorem make_plain (p : Procedure) (options : Options) (strategy : LayoutStrategy) :
    make p options.plain strategy =
      (make p options strategy).map fun made => (made.1.plain, made.2) := by
  unfold make
  cases p.graph.emissionOrder strategy p.liveBlocks with
  | none => rfl
  | some order =>
    cases p.isGenerator with
    | false => rfl
    | true =>
      simp only [↓reduceIte]
      cases (ResumePlan.make (p.graph.yields.map (·.index))
        (LabelTable.reserve {} (targetsOf (order.filterMap p.graph.block?)).length)).1 <;> rfl

theorem isInternal_of_summary {base : Nat} {frame : Frame} {assembly : Assembly} {e : LowerError}
    (h : c.summary base frame assembly = .error e) : e.isInternal = true := by
  unfold summary LabelTable.finish at h
  cases hunmarked : assembly.flow.labels.firstUnmarked? with
  | some l =>
    rw [hunmarked] at h
    cases h
    rfl
  | none =>
    rw [hunmarked] at h
    cases hleaked : frame.temps.firstLeaked? with
    | some slot =>
      rw [hleaked] at h
      cases h
      rfl
    | none =>
      rw [hleaked] at h
      cases h

/-- Why the code of a plan is refused: the assembler stops, or it does not and the draft does. -/
theorem appendTo_eq_error_iff {code : Array Instr} {e : LowerError} (he : e.isInternal = false) :
    (c.appendTo labels code).2 = .error e ↔
      ({ labels := (c.draft { labels }).frame.labels } : Flow).through (c.draft { labels }).code =
          .error e ∨
        (∃ g, ({ labels := (c.draft { labels }).frame.labels } : Flow).through
          (c.draft { labels }).code = .ok g) ∧ (c.draft { labels }).result = .error e := by
  unfold appendTo
  simp only
  rw [Flow.through_eq code]
  generalize assemble code { labels := (c.draft { labels }).frame.labels }
    (c.draft { labels }).code = assembly
  cases assembly.fault with
  | some e' => simp
  | none =>
    cases (c.draft { labels }).result with
    | error e' => simp
    | ok u =>
      simp only [reduceCtorEq, and_false, or_false, iff_false]
      intro h
      rw [isInternal_of_summary h] at he
      cases he

/-- With debugging, the code of a plan is refused for what it is refused for without. -/
theorem appendTo_error_of_plain (hmade : c.Made) (hsize : labels.size = c.bound)
    (hblank : labels.IsBlank) {code : Array Instr} {e : LowerError}
    (h : (c.plain.appendTo labels code).2 = .error e) : (c.appendTo labels code).2 = .error e := by
  have hinternal : e.isInternal = false :=
    (permits_of_appendTo hmade.plain hsize hblank (Prod.ext rfl h)).internal
  obtain ⟨shown, rest, freed, hdebugged, hshown, -⟩ := draft_debugged hmade hsize
  have hthrough := through_debugged (f := { labels := (c.draft { labels }).frame.labels }) hdebugged
    hshown rfl
  rw [appendTo_eq_error_iff hinternal] at h ⊢
  rw [hthrough, hdebugged.labels]
  refine h.imp_right fun ⟨hg, hresult⟩ => ⟨hg, ?_⟩
  obtain ⟨e', hresult', rfl | ⟨s, rfl⟩⟩ := hdebugged.error e hresult
  · exact hresult'
  · cases hinternal

/-- With debugging, the code of a plan is finished where it is without. -/
theorem appendTo_ok_of_plain (hmade : c.Made) (hsize : labels.size = c.bound)
    {out : Array Instr} {sum : Summary} (h : c.plain.appendTo labels #[] = (out, .ok sum)) :
    ∃ out' sum', c.appendTo labels #[] = (out', .ok sum') ∧
      sum'.labelCount = sum.labelCount ∧ sum'.resumePoints = sum.resumePoints ∧
      sum'.debugLocals = c.procedure.views c.options ∧
      sum'.temps = List.replicate (c.procedure.views c.options).length .value ++ sum.temps ∧
      ∃ rest, out.toList = c.procedure.setup.code ++ rest ∧
        (out'.toList.filter fun i => !i.isStop) =
          c.procedure.contextCheckCode c.options ++
            (c.procedure.setup.code ++ c.procedure.viewsCode c.options) ++
          (rest.map (Instr.shift (c.procedure.views c.options).length) ++
            (c.procedure.views c.options).map fun v => .freeTemp v.2) := by
  obtain ⟨ds, final, g, hlowered, rfl⟩ := appendTo_empty_eq_ok_iff.1 h
  obtain ⟨shown, rest, freed, hdebugged, -, hall⟩ := draft_debugged hmade hsize
  rw [hlowered.gives] at hdebugged hall
  obtain rfl := hall rfl
  obtain ⟨hresult, rfl, htypes, hviews⟩ := hdebugged.ok rfl
  have hgives := Draft.gives_of_result hresult
  obtain ⟨code, out', hout, hassembles, hfilter⟩ :=
    assembles_debugged hdebugged rfl hlowered.assembles
  have hfull : c.Lowered labels (c.draft { labels }).code (c.draft { labels }).frame out' g :=
    ⟨hgives, by rw [hdebugged.labels]; exact hassembles, hlowered.finish,
      (draft_allots hmade hsize hgives).2⟩
  refine ⟨out'.toArray, _, appendTo_empty_eq_ok_iff.2 ⟨_, _, g, hfull, rfl⟩,
    congrArg LabelTable.size hdebugged.labels, rfl, hviews, ?_, code, hout, hfilter⟩
  simp only [htypes, Array.toList_append, Array.toList_replicate]

end Plan

namespace Procedure

variable {p : Procedure} {options : Options} {strategy : LayoutStrategy}

theorem lowerInto_plain_eq_error {code : Array Instr} {e : LowerError}
    (h : (p.lowerInto options.plain strategy code).2 = .error e) :
    (p.lowerInto options strategy code).2 = .error e := by
  unfold lowerInto at h ⊢
  rw [Plan.make_plain] at h
  cases hmake : Plan.make p options strategy with
  | error e' =>
    rw [hmake] at h
    exact h
  | ok made =>
    obtain ⟨c, labels⟩ := made
    rw [hmake] at h
    obtain ⟨hsize, hblank⟩ := Plan.labels_of_make hmake
    exact Plan.appendTo_error_of_plain (Plan.made_of_make hmake) hsize hblank h

theorem lowerInto_plain_eq_ok {out : Array Instr} {sum : Summary}
    (h : p.lowerInto options.plain strategy #[] = (out, .ok sum)) :
    ∃ out' sum', p.lowerInto options strategy #[] = (out', .ok sum') ∧
      sum'.labelCount = sum.labelCount ∧ sum'.resumePoints = sum.resumePoints ∧
      sum'.debugLocals = p.views options ∧
      sum'.temps = List.replicate (p.views options).length .value ++ sum.temps ∧
      ∃ rest, out.toList = p.setup.code ++ rest ∧
        (out'.toList.filter fun i => !i.isStop) =
          p.contextCheckCode options ++ (p.setup.code ++ p.viewsCode options) ++
          (rest.map (Instr.shift (p.views options).length) ++
            (p.views options).map fun v => .freeTemp v.2) := by
  obtain ⟨c', labels, hplain, happend⟩ := exists_make_of_lowerInto h
  rw [Plan.make_plain] at hplain
  cases hmake : Plan.make p options strategy with
  | error e =>
    rw [hmake] at hplain
    cases hplain
  | ok made =>
    rw [hmake] at hplain
    cases hplain
    rw [lowerInto_of_make hmake]
    obtain ⟨-, -, rfl, rfl, -⟩ := Plan.make_eq_ok hmake
    exact Plan.appendTo_ok_of_plain (Plan.made_of_make hmake) (Plan.labels_of_make hmake).1 happend

/-- Whatever is asked for debugging, the procedure is refused for the same error, or the code is the same
but for places to stop, the check of the context, the views, and the numbers of the other slots. -/
theorem lowerInto_debugging (p : Procedure) (options : Options) (strategy : LayoutStrategy)
    (front : Array Instr) :
    (∀ e, (p.lowerInto options strategy front).2 = .error e ↔
      (p.lowerInto options.plain strategy front).2 = .error e) ∧
    ∀ out sum, p.lowerInto options.plain strategy front = (out, .ok sum) →
      ∃ out' sum', p.lowerInto options strategy front = (out', .ok sum') ∧
        sum'.labelCount = sum.labelCount ∧ sum'.resumePoints = sum.resumePoints ∧
        sum'.debugLocals = p.views options ∧
        sum'.temps = List.replicate (p.views options).length .value ++ sum.temps ∧
        ∃ rest full, out = front ++ (p.setup.code ++ rest).toArray ∧ out' = front ++ full ∧
          (full.toList.filter fun i => !i.isStop) =
            p.contextCheckCode options ++ (p.setup.code ++ p.viewsCode options) ++
              (rest.map (Instr.shift (p.views options).length) ++
                (p.views options).map fun v => .freeTemp v.2) := by
  have hok : ∀ out sum, p.lowerInto options.plain strategy front = (out, .ok sum) →
      ∃ out₀, out = front ++ out₀ ∧ p.lowerInto options.plain strategy #[] = (out₀, .ok sum) := by
    intro out sum h
    rw [lowerInto_eq] at h
    obtain ⟨rfl, hsum⟩ := Prod.mk.inj h
    exact ⟨_, rfl, Prod.ext rfl hsum⟩
  refine ⟨fun e => ⟨fun h => ?_, lowerInto_plain_eq_error⟩, fun out sum h => ?_⟩
  · cases hplain : (p.lowerInto options.plain strategy front).2 with
    | error e' =>
      rw [lowerInto_plain_eq_error hplain] at h
      exact h
    | ok sum =>
      obtain ⟨_, -, hempty⟩ := hok _ sum (Prod.ext rfl hplain)
      obtain ⟨out', sum', hfull, -⟩ := lowerInto_plain_eq_ok hempty
      rw [lowerInto_eq, hfull] at h
      cases h
  · obtain ⟨out₀, rfl, hempty⟩ := hok out sum h
    obtain ⟨full, sum', hfull, hlabels, hpoints, hviews, htemps, rest, hrest, hfilter⟩ :=
      lowerInto_plain_eq_ok hempty
    refine ⟨front ++ full, sum', ?_, hlabels, hpoints, hviews, htemps, rest, full, ?_, rfl, hfilter⟩
    · rw [lowerInto_eq, hfull]
    · rw [← hrest]

end Procedure

end StackCode
