import StackCode.Lowering
import StackCode.Proofs.Assembly.Assembles
import StackCode.Proofs.Draft.Gives
import StackCode.Proofs.Plan.Made

/-!
# Finished code

The code of a procedure is finished if the plan was made, the draft got to its end, what it drafted
came to the code, every label that is branched to is marked, and no temporary is still in use.  Main
statement: `Procedure.lowerInto_eq_ok_iff`.
-/

namespace StackCode

namespace Plan

/-- The draft `ds` of the plan `c`, which begins with the labels `labels` and ends with the frame
`final`, comes to the code `code` and the flow `g` behind it. -/
structure Lowered (c : Plan) (labels : LabelTable) (ds : List Directive) (final : Frame)
    (code : List Instr) (g : Flow) : Prop where
  gives : c.draft.Gives { labels } ds final ()
  assembles : Assembles { labels := final.labels } ds code g
  finish : g.labels.finish = .ok ()
  unleaked : final.temps.firstLeaked? = none

theorem summary_eq_ok_iff {c : Plan} {base : Nat} {frame : Frame} {assembly : Assembly}
    {sum : Summary} :
    c.summary base frame assembly = .ok sum ↔
      assembly.flow.labels.finish = .ok () ∧ frame.temps.firstLeaked? = none ∧
        sum = { instrCount := assembly.code.size - base, temps := frame.temps.types.toList
                labelCount := frame.labels.size, resumePoints := c.resume.points
                debugLocals := frame.debugLocals } := by
  unfold summary
  cases assembly.flow.labels.finish with
  | error e => simp [bind, Except.bind]
  | ok u =>
    cases frame.temps.firstLeaked? with
    | some slot => simp [bind, Except.bind]
    | none => simp [bind, Except.bind, pure, Except.pure, eq_comm]

theorem appendTo_empty_eq_ok_iff {c : Plan} {labels : LabelTable} {out : Array Instr}
    {sum : Summary} :
    c.appendTo labels #[] = (out, .ok sum) ↔
      ∃ ds final g, c.Lowered labels ds final out.toList g ∧
        sum = { instrCount := out.size, temps := final.temps.types.toList
                labelCount := final.labels.size, resumePoints := c.resume.points
                debugLocals := final.debugLocals } := by
  have hgives {ds : List Directive} {final : Frame} (h : c.draft.Gives { labels } ds final ()) :
      (c.draft { labels }).code = ds ∧ (c.draft { labels }).frame = final ∧
        (c.draft { labels }).result = .ok () := by
    unfold Draft.Gives at h
    rw [h]
    exact ⟨rfl, rfl, rfl⟩
  unfold appendTo
  simp only
  constructor
  · intro h
    generalize hassembly : assemble #[] { labels := (c.draft { labels }).frame.labels }
      (c.draft { labels }).code = assembly at h
    obtain ⟨code, flow, fault⟩ := assembly
    cases fault with
    | some e => cases h
    | none =>
      cases hresult : (c.draft { labels }).result with
      | error e => rw [hresult] at h; cases h
      | ok u =>
        rw [hresult] at h
        simp only [Prod.mk.injEq] at h
        obtain ⟨rfl, hsum⟩ := h
        obtain ⟨hfinish, hunleaked, hsum⟩ := summary_eq_ok_iff.1 hsum
        obtain ⟨instrs, ha, hcode⟩ := assemble_eq_iff.1 hassembly
        refine ⟨_, _, flow, ⟨Draft.gives_of_result hresult, ?_, hfinish, hunleaked⟩, hsum⟩
        rw [hcode, Array.toList_appendList]
        exact ha
  · rintro ⟨ds, final, g, h, hsum⟩
    obtain ⟨hds, hfinal, hresult⟩ := hgives h.gives
    have hassembly : assemble #[] { labels := (c.draft { labels }).frame.labels }
        (c.draft { labels }).code = { code := out, flow := g, fault := none } := by
      rw [hds, hfinal]
      exact assemble_eq_iff.2 ⟨_, h.assembles, (Array.ext' (by simp))⟩
    simp only [hassembly, hresult, Prod.mk.injEq, true_and]
    refine summary_eq_ok_iff.2 ⟨h.finish, ?_, ?_⟩
    · rw [hfinal]
      exact h.unleaked
    · rw [hfinal]
      exact hsum

end Plan

namespace Procedure

variable {p : Procedure} {options : Options} {strategy : LayoutStrategy} {c : Plan}
  {labels : LabelTable} {code out : Array Instr} {sum : Summary}

/-- What has been planned is drafted and assembled. -/
theorem lowerInto_of_make (h : Plan.make p options strategy = .ok (c, labels)) (code : Array Instr) :
    p.lowerInto options strategy code = c.appendTo labels code := by
  unfold lowerInto
  rw [h]

/-- What is lowered has been planned. -/
theorem exists_make_of_lowerInto (h : p.lowerInto options strategy code = (out, .ok sum)) :
    ∃ c labels, Plan.make p options strategy = .ok (c, labels) ∧
      c.appendTo labels code = (out, .ok sum) := by
  cases hmake : Plan.make p options strategy with
  | error e =>
    unfold lowerInto at h
    rw [hmake] at h
    cases h
  | ok made =>
    rw [lowerInto_of_make hmake] at h
    exact ⟨made.1, made.2, rfl, h⟩

end Procedure

/-- Lowering a procedure succeeds where its code gets finished. -/
theorem Procedure.lowerInto_eq_ok_iff {p : Procedure} {options : Options}
    {strategy : LayoutStrategy} {out : Array Instr} {sum : Summary} :
    p.lowerInto options strategy #[] = (out, .ok sum) ↔
      ∃ c labels ds final g, Plan.make p options strategy = .ok (c, labels) ∧
        c.Lowered labels ds final out.toList g ∧
        sum = { instrCount := out.size, temps := final.temps.types.toList
                labelCount := final.labels.size, resumePoints := c.resume.points
                debugLocals := final.debugLocals } := by
  constructor
  · intro h
    obtain ⟨c, labels, hmake, happend⟩ := exists_make_of_lowerInto h
    obtain ⟨ds, final, g, hlowered, hsum⟩ := Plan.appendTo_empty_eq_ok_iff.1 happend
    exact ⟨c, labels, ds, final, g, hmake, hlowered, hsum⟩
  · rintro ⟨c, labels, ds, final, g, hmake, hlowered, hsum⟩
    rw [lowerInto_of_make hmake]
    exact Plan.appendTo_empty_eq_ok_iff.2 ⟨ds, final, g, hlowered, hsum⟩

/-! ## Appending -/

/-- The assembler does not look at the code that is there already. -/
theorem assemble_append (code front : Array Instr) (f : Flow) (ds : List Directive) :
    assemble (code ++ front) f ds =
      { assemble front f ds with code := code ++ (assemble front f ds).code } := by
  induction ds generalizing front f with
  | nil => rfl
  | cons d ds ih =>
    rw [assemble, assemble]
    cases f.step d with
    | error e => rfl
    | ok r =>
      have hassoc : code ++ front ++ r.1 = code ++ (front ++ r.1) := Array.ext' (by simp)
      simp only [hassoc, ih]

/-- What is appended does not depend on the code that is there already, and neither does what is known
of it. -/
theorem Plan.appendTo_eq (c : Plan) (labels : LabelTable) (code : Array Instr) :
    c.appendTo labels code = (code ++ (c.appendTo labels #[]).1, (c.appendTo labels #[]).2) := by
  have hassembly := assemble_append code #[] { labels := (c.draft { labels }).frame.labels }
    (c.draft { labels }).code
  rw [Array.append_empty] at hassembly
  unfold appendTo
  simp only [hassembly]
  generalize assemble #[] { labels := (c.draft { labels }).frame.labels }
    (c.draft { labels }).code = assembly
  cases assembly.fault with
  | some e => rfl
  | none =>
    cases (c.draft { labels }).result with
    | error e => rfl
    | ok u =>
      unfold summary
      simp only [Array.size_append, Nat.add_sub_cancel_left, Array.size_empty, Nat.sub_zero]

/-- A procedure is lowered alike whatever its code is appended to. -/
theorem Procedure.lowerInto_eq (p : Procedure) (options : Options) (strategy : LayoutStrategy)
    (code : Array Instr) : p.lowerInto options strategy code =
      (code ++ (p.lowerInto options strategy #[]).1, (p.lowerInto options strategy #[]).2) := by
  unfold lowerInto
  cases Plan.make p options strategy with
  | error e => simp only [Array.append_empty]
  | ok made => exact made.1.appendTo_eq made.2 code

end StackCode
