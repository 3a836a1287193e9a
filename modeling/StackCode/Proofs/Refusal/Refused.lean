import StackCode.Proofs.Refusal.Block

/-!
# Refused procedures

A procedure is refused only for what it gives reason for: whatever the options and the layout are, no
error says that the code generator is broken, and a value is missing from the stack only where a
variable is declared that has none.  Main statement: `Procedure.refusal_of_lowerInto`.
-/

namespace StackCode

/-- Suspension points that are not numbered densely are a fault of the procedure. -/
theorem ResumePlan.not_internal_of_firstFault? {expected : Int} {previous : Option Int}
    {indices : List Int} {e : LowerError} (h : firstFault? expected previous indices = some e) :
    e.isInternal = false ∧ e.isUnderflow = false := by
  induction indices generalizing expected previous with
  | nil => cases h
  | cons index rest ih =>
    rw [firstFault?] at h
    split at h
    · next e' hfault =>
      cases h
      unfold indexFault? at hfault
      repeat' split at hfault
      all_goals cases hfault
      all_goals exact ⟨rfl, rfl⟩
    · exact ih h

namespace Plan

variable {c : Plan}

/-! ## Where every variable has a value -/

theorem finds_of_voidFree (h : c.procedure.VoidFree) (s : Stmt) : c.Finds s := by
  have hexact : True → c.procedure.VoidFree := fun _ => h
  cases s with
  | expr e => exact (Procedure.discardValue_carries hexact e).found trivial
  | ret value => exact (Outline.returned_carries hexact value).found trivial
  | throw e => exact (Procedure.value_carries hexact e .value .thrown).found trivial
  | defineConst name e => exact (Procedure.defineConst_carries hexact name e).found trivial
  | bindStatic decl =>
    exact fun init _ => ⟨(Procedure.loadVar_carries hexact _).found trivial,
      (Outline.staticInit_carries hexact _ init).found trivial⟩
  | unset target => exact (Procedure.unset_carries hexact target).found trivial
  | yield y => exact (Procedure.publish_carries hexact y).found trivial
  | empty _ | declareFunction _ | declareType _ | bindGlobal _ | declare => exact trivial

theorem findsThrough_of_voidFree (h : c.procedure.VoidFree) (live : Bool) (ss : List Stmt) :
    c.FindsThrough live ss := by
  induction ss generalizing live with
  | nil => exact trivial
  | cons s ss ih => exact ⟨fun _ => finds_of_voidFree h s, ih _⟩

/-- Without variables of no value, the code finds the values it takes. -/
theorem steady_of_voidFree (h : c.procedure.VoidFree) : c.Steady where
  statements b _ := findsThrough_of_voidFree h _ _
  edge b _ _ _ := by
    have hexact : True → c.procedure.VoidFree := fun _ => h
    cases b.edge with
    | branch condition s t =>
      exact (Procedure.value_carries hexact condition .bool .branchCondition).found trivial
    | switch selector cases default =>
      exact (Procedure.value_carries hexact selector .int .switchSelector).found trivial
    | goto _ | protect _ _ _ | leave _ | none => exact trivial

/-! ## Refusals -/

/-- What the assembler or the draft of a made plan stops for, the procedure gives reason for. -/
theorem permits_of_appendTo (hmade : c.Made) {labels : LabelTable} (hsize : labels.size = c.bound)
    (hblank : labels.IsBlank) {code out : Array Instr} {e : LowerError}
    (h : c.appendTo labels code = (out, .error e)) : c.Permits e := by
  have hmeets := draft_meets hmade
  have hbegin : c.At (c.Books (c.blocks.flatMap c.owedByBlock) Frame.Tidy) true 0 { labels }
      { labels := (c.draft { labels }).frame.labels } :=
    ⟨keeps_of_make hmade hsize ((hmeets.grows _).isBlank hblank),
      fun _ => ⟨rfl, Nat.le_refl _, fun _ => rfl⟩⟩
  have hthrough := Flow.through_eq code { labels := (c.draft { labels }).frame.labels }
    (c.draft { labels }).code
  unfold appendTo at h
  simp only at h
  generalize assemble code { labels := (c.draft { labels }).frame.labels }
    (c.draft { labels }).code = assembly at h hthrough
  cases hfault : assembly.fault with
  | some e' =>
    rw [hfault] at h hthrough
    cases h
    exact hmeets.fault _ _ _ hbegin (Nat.le_refl _) (Draft.run_eq_error_iff.2 (.inl hthrough))
  | none =>
    rw [hfault] at h hthrough
    cases hresult : (c.draft { labels }).result with
    | error e' =>
      rw [hresult] at h
      cases h
      exact hmeets.fault _ _ _ hbegin (Nat.le_refl _)
        (Draft.run_eq_error_iff.2 (.inr ⟨⟨_, hthrough⟩, hresult⟩))
    | ok u =>
      -- the account is settled, so nothing is found missing in the end
      obtain ⟨⟨hsettled, hviews⟩, -⟩ := hmeets.post _ _ u _ _ hbegin (Nat.le_refl _)
        (Draft.run_eq_ok_iff.2 ⟨hthrough, hresult, rfl⟩)
      have hunleaked : (c.draft { labels }).frame.temps.firstLeaked? = none :=
        TempPool.firstLeaked?_eq_none_iff.2 fun s => eq_false_of_ne_true fun hs =>
          absurd ((hviews.inUse_iff s).1 hs) List.not_mem_nil
      rw [hresult] at h
      have hsummary : c.summary code.size (c.draft { labels }).frame assembly = .error e :=
        (Prod.mk.inj h).2
      unfold summary at hsummary
      rw [LabelTable.finish_eq_ok_iff.2 hsettled, hunleaked] at hsummary
      cases hsummary

/-- What makes a plan impossible is no fault of the code generator. -/
theorem not_internal_of_make {p : Procedure} {options : Options} {strategy : LayoutStrategy}
    {e : LowerError} (h : make p options strategy = .error e) :
    e.isInternal = false ∧ e.isUnderflow = false := by
  rcases make_eq_error h with ⟨-, rfl⟩ | ⟨_, _, hresume⟩
  · exact ⟨rfl, rfl⟩
  · exact ResumePlan.not_internal_of_firstFault? (ResumePlan.make_eq_error hresume).1

end Plan

/-- A procedure is refused only for what it gives reason for. -/
theorem Procedure.refusal_of_lowerInto {p : Procedure} {options : Options} {strategy : LayoutStrategy}
    {code out : Array Instr} {e : LowerError}
    (h : p.lowerInto options strategy code = (out, .error e)) :
    e.isInternal = false ∧ (p.VoidFree → e.isUnderflow = false) := by
  unfold lowerInto at h
  cases hmake : Plan.make p options strategy with
  | error e' =>
    rw [hmake] at h
    cases h
    obtain ⟨hinternal, hunderflow⟩ := Plan.not_internal_of_make hmake
    exact ⟨hinternal, fun _ => hunderflow⟩
  | ok made =>
    obtain ⟨c, labels⟩ := made
    rw [hmake] at h
    obtain ⟨hsize, hblank⟩ := Plan.labels_of_make hmake
    obtain ⟨-, -, rfl, -⟩ := Plan.make_eq_ok hmake
    have hpermits := Plan.permits_of_appendTo (Plan.made_of_make hmake) hsize hblank h
    exact ⟨hpermits.internal, fun hvoid => hpermits.underflow (Plan.steady_of_voidFree hvoid)⟩

/-- A procedure whose start block has no edge and does not return. -/
def dangling : Procedure where
  name := ⟨1⟩
  returnType := .int
  locals := { vars := #[{ id := ⟨0⟩, name := ⟨2⟩, ty := .int, kind := .user }] }
  graph :=
    { blocks := #[
        { id := ⟨0⟩, ordinal := 0, kind := .start
          statements := [.expr (.var { ty := .int } ⟨0⟩)], edge := .none },
        { id := ⟨1⟩, ordinal := 1, kind := .exit, statements := [], edge := .none }]
      wellFormed := wellFormed_of_fault?_eq_none (by decide) }

theorem lowerInto_dangling :
    dangling.lowerInto {} BlockOrder.ordinal.arrange #[] =
      (#[.constInt 0, .storeLocal ⟨0⟩, .loadLocal ⟨0⟩, .pop], .error (.fallsOffBlock ⟨0⟩)) := by
  have horder : dangling.graph.emissionOrder BlockOrder.ordinal.arrange dangling.liveBlocks =
      some [⟨0⟩, ⟨1⟩] := by cbv
  unfold Procedure.lowerInto Plan.make
  rw [horder]
  decide +kernel

theorem dangling_refusal :
    dangling.VoidFree ∧ (LowerError.fallsOffBlock ⟨0⟩).isInternal = false ∧
      (LowerError.fallsOffBlock ⟨0⟩).isUnderflow = false := by
  have hvoid : dangling.VoidFree := by
    intro v hv
    rw [List.mem_singleton.1 (Array.mem_toList_iff.2 hv)]
    nofun
  obtain ⟨hinternal, hunderflow⟩ := Procedure.refusal_of_lowerInto lowerInto_dangling
  exact ⟨hvoid, hinternal, hunderflow hvoid⟩

end StackCode
