import StackCode.Proofs.Debugging.Drafts
import StackCode.Proofs.Draft.Meets
import StackCode.Proofs.Fragment.Carries

/-!
# What the debugging code comes to

The assembler takes no notice of places to stop, and none of the numbers of slots: it stops for the same
error, and otherwise the code differs by them alone.  The code of the views, the check of the context and
what hands the slots back leave the flow as it was.  Main statements: `Plan.through_debugged` and
`Plan.assembles_debugged`.
-/

namespace StackCode

theorem Directive.eq_instr_of_isStop {d : Directive} (h : d.isStop = true) : ∃ i, d = .instr i := by
  cases d with
  | instr i => exact ⟨i, rfl⟩
  | mark | endStatement | endBlock | stageReturn | returnPoint => cases h

namespace Flow

variable {f g : Flow}

/-! ## Places to stop -/

theorem isStop_of_emit {i : Instr} {instrs : List Instr} (h : f.emit i = .ok (instrs, g)) :
    ∀ j ∈ instrs, j.isStop = i.isStop := by
  cases hf : f.isLive with
  | false =>
    obtain ⟨rfl, -⟩ := (emit_dead hf).1 h
    split
    · exact List.forall_mem_singleton.2 rfl
    · nofun
  | true =>
    obtain ⟨rfl, -⟩ := (emit_live hf).1 h
    exact List.forall_mem_singleton.2 rfl

theorem isStop_of_mark {l : Label} {arrival : Arrival} {instrs : List Instr}
    (h : f.mark l arrival = .ok (instrs, g)) : ∀ j ∈ instrs, j.isStop = false := by
  obtain ⟨rfl, -⟩ := mark_eq_ok_iff.1 h
  exact List.forall_mem_singleton.2 rfl

/-- A directive comes to places to stop exactly if it is one. -/
theorem isStop_of_step {d : Directive} {instrs : List Instr} (h : f.step d = .ok (instrs, g)) :
    ∀ i ∈ instrs, i.isStop = d.isStop := by
  cases d with
  | instr i => exact isStop_of_emit h
  | mark l arrival => exact isStop_of_mark h
  | endStatement =>
    rw [(step_endStatement.1 h).2.1]
    nofun
  | endBlock b =>
    rw [(step_endBlock.1 h).2.1]
    nofun
  | stageReturn =>
    cases h
    nofun
  | returnPoint l slot =>
    have hpoint := step_returnPoint h
    split at hpoint
    · obtain ⟨f₁, f₂, c₁, c₂, c₃, hmark, hload, hret, rfl⟩ := hpoint
      exact List.forall_mem_append.2 ⟨List.forall_mem_append.2
        ⟨isStop_of_mark hmark, isStop_of_emit hload⟩, isStop_of_emit hret⟩
    · rw [hpoint.2.1]
      nofun

/-- A place to stop leaves the flow as it was. -/
theorem step_stop {i : Instr} (hi : i.isStop = true) (f : Flow) :
    ∃ instrs, f.step (.instr i) = .ok (instrs, f) := by
  cases hf : f.isLive with
  | false => exact ⟨_, (emit_dead hf).2 ⟨rfl, rfl⟩⟩
  | true =>
    refine ⟨[i], (emit_live hf).2 ⟨rfl, f.depth, f.labels, ?_, ?_, ?_⟩⟩
    · cases i <;> first | rfl | cases hi
    · cases i <;> first | rfl | cases hi
    · have hflow : i.endsFlow = false := by cases i <;> first | rfl | cases hi
      rw [hflow, ← hf]
      cases f
      cases hf
      rfl

theorem through_stopless (f : Flow) (ds : List Directive) :
    f.through (ds.filter fun d => !d.isStop) = f.through ds := by
  induction ds generalizing f with
  | nil => rfl
  | cons d ds ih =>
    cases hd : d.isStop with
    | true =>
      obtain ⟨i, rfl⟩ := Directive.eq_instr_of_isStop hd
      obtain ⟨instrs, hstep⟩ := step_stop hd f
      rw [List.filter_cons_of_neg (by simp [hd]), through_cons, hstep]
      exact ih f
    | false =>
      rw [List.filter_cons_of_pos (by simp [hd]), through_cons, through_cons]
      cases f.step d with
      | error e => rfl
      | ok r => exact ih r.2

/-! ## Numbers of slots -/

theorem depthAfter_shift (k : Nat) (i : Instr) (depth : Nat) :
    (i.shift k).depthAfter depth = i.depthAfter depth := by
  cases i <;> rfl

theorem emit_shift (k : Nat) (i : Instr) (f : Flow) :
    f.emit (i.shift k) = (f.emit i).map fun r => (r.1.map (Instr.shift k), r.2) := by
  have htargets : (i.shift k).targets = i.targets := by cases i <;> rfl
  have hflow : (i.shift k).endsFlow = i.endsFlow := by cases i <;> rfl
  have hnotes : (i.shift k).isBookkeeping = i.isBookkeeping := by cases i <;> rfl
  unfold emit
  rw [depthAfter_shift, htargets, hflow, hnotes]
  cases f.isLive with
  | false => cases i.isBookkeeping <;> rfl
  | true =>
    simp only [↓reduceIte]
    cases i.depthAfter f.depth with
    | error e => rfl
    | ok depth => cases f.labels.referenceAll i.targets <;> rfl

theorem mark_shift (k : Nat) (l : Label) (arrival : Arrival) (f : Flow) :
    f.mark l arrival = (f.mark l arrival).map fun r => (r.1.map (Instr.shift k), r.2) := by
  unfold mark
  split
  · rfl
  · cases f.labels.mark l <;> rfl

/-- What a directive comes to does not depend on the number of a slot, apart from the number. -/
theorem step_shift (k : Nat) (d : Directive) (f : Flow) :
    f.step (d.shift k) = (f.step d).map fun r => (r.1.map (Instr.shift k), r.2) := by
  cases d with
  | instr i => exact emit_shift k i f
  | mark l arrival => exact mark_shift k l arrival f
  | endStatement =>
    simp only [Directive.shift, step]
    split <;> rfl
  | endBlock b =>
    simp only [Directive.shift, step]
    split <;> rfl
  | stageReturn => rfl
  | returnPoint l slot =>
    have hmark := mark_shift k l .forward f
    simp only [Directive.shift, step]
    split
    · cases hm : f.mark l .forward with
      | error e => rfl
      | ok r₁ =>
        obtain ⟨label, f₁⟩ := r₁
        rw [hm] at hmark
        have hlabel : label = label.map (Instr.shift k) := congrArg Prod.fst (Except.ok.inj hmark)
        have hload : f₁.emit (.loadTemp (slot.shift k)) = _ := emit_shift k (.loadTemp slot) f₁
        simp only [bind, Except.bind, hload]
        cases f₁.emit (.loadTemp slot) with
        | error e => rfl
        | ok r₂ =>
          have hret : r₂.2.emit (.ret true) = _ := emit_shift k (.ret true) r₂.2
          cases hr : r₂.2.emit (.ret true) with
          | error e => simp only [Except.map, hr]
          | ok r₃ =>
            rw [hr] at hret
            have hcode : r₃.1 = r₃.1.map (Instr.shift k) := congrArg Prod.fst (Except.ok.inj hret)
            simp only [Except.map, hr, pure, Except.pure, List.map_append, ← hlabel, ← hcode]
    · split <;> rfl

theorem through_shift (k : Nat) (f : Flow) (ds : List Directive) :
    f.through (ds.map (Directive.shift k)) = f.through ds := by
  induction ds generalizing f with
  | nil => rfl
  | cons d ds ih =>
    rw [List.map_cons, through_cons, through_cons, step_shift]
    cases f.step d with
    | error e => rfl
    | ok r => exact ih r.2

end Flow

namespace Assembles

variable {f g : Flow} {ds : List Directive} {code : List Instr}

/-- With places to stop the code is the same after these are deleted. -/
theorem of_stopless (h : Assembles f (ds.filter fun d => !d.isStop) code g) :
    ∃ code', Assembles f ds code' g ∧ (code'.filter fun i => !i.isStop) = code := by
  induction ds generalizing f code with
  | nil =>
    obtain ⟨rfl, rfl⟩ := nil_iff.1 h
    exact ⟨[], .nil _, rfl⟩
  | cons d ds ih =>
    cases hd : d.isStop with
    | true =>
      obtain ⟨i, rfl⟩ := Directive.eq_instr_of_isStop hd
      obtain ⟨instrs, hstep⟩ := Flow.step_stop hd f
      rw [List.filter_cons_of_neg (by simp [hd])] at h
      obtain ⟨code', hcode', rfl⟩ := ih h
      refine ⟨instrs ++ code', .cons hstep hcode', ?_⟩
      have hdeleted : (instrs.filter fun i => !i.isStop) = [] :=
        List.filter_eq_nil_iff.2 fun j hj => by simp [Flow.isStop_of_step hstep j hj, hd]
      rw [List.filter_append, hdeleted, List.nil_append]
    | false =>
      rw [List.filter_cons_of_pos (by simp [hd])] at h
      obtain ⟨instrs, f', rest, hstep, hrest, rfl⟩ := cons_iff.1 h
      obtain ⟨rest', hrest', rfl⟩ := ih hrest
      refine ⟨instrs ++ rest', .cons hstep hrest', ?_⟩
      have hkept : (instrs.filter fun i => !i.isStop) = instrs :=
        List.filter_eq_self.2 fun j hj => by simp [Flow.isStop_of_step hstep j hj, hd]
      rw [List.filter_append, hkept]

/-- Directives about other slots come to the same code on those. -/
theorem shift (k : Nat) (h : Assembles f ds code g) :
    Assembles f (ds.map (Directive.shift k)) (code.map (Instr.shift k)) g := by
  induction h with
  | nil f => exact .nil f
  | @cons f g' g d ds instrs code step _ ih =>
    rw [List.map_cons, List.map_append]
    refine .cons ?_ ih
    rw [Flow.step_shift, step]
    rfl

/-- Notes come to themselves, also where control does not get. -/
theorem of_notes_self {is : List Instr} (his : ∀ i ∈ is, i.isNote = true) (f : Flow) :
    Assembles f (is.map .instr) is f := by
  induction is with
  | nil => exact .nil f
  | cons i is ih =>
    obtain ⟨hi, his⟩ := List.forall_mem_cons.1 his
    exact .cons (Flow.step_of_isNote hi f) (ih his)

end Assembles

namespace Procedure

variable (p : Procedure) (o : Options)

/-- The check of the context leaves the flow as it was. -/
theorem contextCheck_assembles {f : Flow} (hf : f.isLive = true) :
    Assembles f ((p.contextCheckCode o).map .instr) (p.contextCheckCode o) f := by
  unfold contextCheckCode
  split
  · refine Assembles.of_depthThrough (List.forall_mem_cons.2 ⟨rfl, List.forall_mem_singleton.2 rfl⟩)
      hf ?_
    refine Instr.depthThrough_cons_iff.2 ⟨f.depth + 1, rfl, ?_⟩
    rw [Instr.depthThrough_singleton]
    exact Instr.depthAfter_of_pops_le rfl rfl (Nat.le_add_left 1 f.depth)
  · exact .nil f

theorem depthThrough_viewCode (array : LocalId) (view : Name × TempSlot) (depth : Nat) :
    Instr.depthThrough (viewCode array view) depth = .ok depth := by
  refine Instr.depthThrough_cons_iff.2 ⟨depth, Instr.depthAfter_of_isNote rfl depth, ?_⟩
  refine Instr.depthThrough_cons_iff.2 ⟨depth + 1, rfl, ?_⟩
  refine Instr.depthThrough_cons_iff.2 ⟨depth + 2, rfl, ?_⟩
  have hcall : (Instr.callIntrinsic .indirectLocal).depthAfter (depth + 2) = .ok (depth + 1) :=
    Instr.depthAfter_of_pops_le rfl rfl (Nat.le_add_left 2 depth)
  refine Instr.depthThrough_cons_iff.2 ⟨depth + 1, hcall, ?_⟩
  rw [Instr.depthThrough_singleton]
  exact Instr.depthAfter_of_pops_le rfl rfl (Nat.le_add_left 1 depth)

theorem viewCode_passes (array : LocalId) (view : Name × TempSlot) :
    ∀ i ∈ viewCode array view, i.passes = true := by
  simp [viewCode, Instr.passes, Instr.isNote, Instr.isStraight, Instr.targets,
    Instr.isBookkeeping, Instr.endsFlow, Instr.callIntrinsic]

theorem viewsCode_passes (p : Procedure) (o : Options) : ∀ i ∈ p.viewsCode o, i.passes = true := by
  unfold viewsCode
  cases p.localsArray with
  | none => nofun
  | some array =>
    intro i hi
    obtain ⟨view, -, hi⟩ := List.mem_flatMap.1 hi
    exact viewCode_passes array view i hi

/-- The code of the views leaves the flow as it was. -/
theorem views_assemble {f : Flow} (hf : f.isLive = true) :
    Assembles f ((p.viewsCode o).map .instr) (p.viewsCode o) f := by
  have hall (array : LocalId) (views : List (Name × TempSlot)) :
      Assembles f ((views.flatMap (viewCode array)).map .instr) (views.flatMap (viewCode array)) f := by
    induction views with
    | nil => exact .nil f
    | cons view views ih =>
      have hview := Assembles.of_depthThrough (viewCode_passes array view) hf
        (depthThrough_viewCode array view f.depth)
      rw [List.flatMap_cons, List.map_append]
      exact hview.append ih
  unfold viewsCode
  cases p.localsArray with
  | none => exact .nil f
  | some array => exact hall array _

end Procedure

namespace Plan

variable {c : Plan} {plain full : Drafted Unit} {shown freed : List Instr} {rest : List Directive}
  {f g : Flow}

/-- With and without debugging, the assembler stops for the same error or gets to the same flow. -/
theorem through_debugged
    (h : Debugged (c.procedure.views c.options) plain full c.procedure.setup.code
      (c.procedure.contextCheckCode c.options ++ (c.procedure.setup.code ++ shown)) rest freed)
    (hshown : shown = [] ∨ shown = c.procedure.viewsCode c.options) (hf : f.isLive = true) :
    f.through full.code = f.through plain.code := by
  have hcheck := Flow.through_eq_of_assembles (c.procedure.contextCheck_assembles c.options hf)
  have hfreed (g : Flow) : g.through (freed.map .instr) = .ok g :=
    Flow.through_eq_of_assembles (Assembles.of_notes_self h.isNote_of_freed g)
  rw [← Flow.through_stopless, h.full_code, h.plain_code, List.map_append, List.map_append,
    List.append_assoc, List.append_assoc, Flow.through_append, hcheck]
  change f.through _ = _
  rw [Flow.through_append, Flow.through_append,
    Flow.through_of_live c.procedure.isWork_setup.isPlain hf]
  cases Instr.depthThrough c.procedure.setup.code f.depth with
  | error e => rfl
  | ok depth =>
    have hviews : ({ f with depth } : Flow).through (shown.map .instr) = .ok { f with depth } := by
      rcases hshown with rfl | rfl
      · rfl
      · exact Flow.through_eq_of_assembles (c.procedure.views_assemble c.options hf)
    change ({ f with depth } : Flow).through _ = ({ f with depth } : Flow).through rest
    rw [Flow.through_append, hviews]
    change ({ f with depth } : Flow).through _ = _
    rw [Flow.through_append, Flow.through_shift]
    cases ({ f with depth } : Flow).through rest with
    | error e => rfl
    | ok g => exact hfreed g

/-- What the draft without debugging comes to, the one with it comes to as well, and the code differs by
what debugging adds. -/
theorem assembles_debugged {out : List Instr}
    (h : Debugged (c.procedure.views c.options) plain full c.procedure.setup.code
      (c.procedure.contextCheckCode c.options ++
        (c.procedure.setup.code ++ c.procedure.viewsCode c.options)) rest freed)
    (hf : f.isLive = true) (ha : Assembles f plain.code out g) :
    ∃ code out', out = c.procedure.setup.code ++ code ∧ Assembles f full.code out' g ∧
      (out'.filter fun i => !i.isStop) =
        c.procedure.contextCheckCode c.options ++
          (c.procedure.setup.code ++ c.procedure.viewsCode c.options) ++
        (code.map (Instr.shift (c.procedure.views c.options).length) ++ freed) := by
  rw [h.plain_code] at ha
  obtain ⟨f₁, _, code, hsetup, hrest, rfl⟩ := Assembles.append_iff.1 ha
  have hpasses : ∀ i ∈ c.procedure.setup.code, i.passes = true := fun i hi =>
    Instr.passes_of_isPlain (c.procedure.isWork_setup.isPlain i hi)
  obtain ⟨rfl, hf₁, -⟩ := Assembles.of_passes hpasses hf hsetup
  have hfront := (c.procedure.contextCheck_assembles c.options hf).append
    (hsetup.append (c.procedure.views_assemble c.options hf₁))
  have hback := (hrest.shift (c.procedure.views c.options).length).append
    (Assembles.of_notes_self h.isNote_of_freed g)
  have hall := hfront.append hback
  rw [← List.map_append, ← List.map_append, ← h.full_code] at hall
  obtain ⟨out', hout', hfilter⟩ := Assembles.of_stopless hall
  exact ⟨code, out', rfl, hout', hfilter⟩

end Plan

end StackCode
