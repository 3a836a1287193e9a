import StackCode.Proofs.Assembly.Within
import StackCode.Proofs.Debugging.Lowered
import StackCode.Proofs.Entry.Opened
import StackCode.Proofs.Entry.Setup
import StackCode.Proofs.Storage.Extended

/-!
# Procedures with missing variables

If a procedure would be lowered with some more variables declared, then it is lowered, or it is refused
because one of its variables is unknown.  Main statement: `Procedure.lowerInto_completed`.
-/

namespace StackCode

namespace Procedure

open Fragment

variable {p : Procedure} {more : Locals}

theorem Misses.isInternal {e : LowerError} (h : p.Misses e) : e.isInternal = false := by
  obtain ⟨id, rfl, -⟩ := h
  rfl

/-- The computation gets to its end, or it misses a variable. -/
def Finds (p : Procedure) (r : Except LowerError Unit) : Prop := p.LooksUp r (.ok ())

theorem Finds.of_until {x y : Fragment Unit} (h : x.Until p y) (hy : y.result = .ok ()) :
    p.Finds x.result := by
  rcases h with rfl | ⟨e, he, hresult, -⟩
  · exact .inl hy
  · exact .inr ⟨e, he, hresult⟩

theorem Finds.bind {x : Fragment Unit} {f : Unit → Fragment Unit} (hx : p.Finds x.result)
    (hf : p.Finds (f ()).result) : p.Finds (x >>= f).result := by
  rcases hx with hresult | ⟨e, he, hresult⟩
  · rw [bind_of_ok hresult]
    exact hf
  · rw [bind_of_error hresult]
    exact .inr ⟨e, he, rfl⟩

theorem Finds.forM {α : Type} {xs : List α} {f : α → Fragment Unit}
    (hf : ∀ a ∈ xs, p.Finds (f a).result) : p.Finds (xs.forM f).result := by
  induction xs with
  | nil => exact .inl rfl
  | cons a xs ih =>
    obtain ⟨ha, hxs⟩ := List.forall_mem_cons.1 hf
    exact Finds.bind (f := fun _ => xs.forM f) ha (ih hxs)

/-! ## The setup -/

section
variable (hmore : more.Extends p.locals)
include hmore

theorem initVar_until (v : Local) : (p.initVar v).Until p ((p.withLocals more).initVar v) := by
  have harray : (p.withLocals more).localsArray = p.localsArray := rfl
  unfold initVar
  rw [harray]
  split
  · exact .refl _
  · exact (until_lift (place_looksUp hmore v.id)).bind fun _ => .refl _

/-- How large the array is made depends on the variables; whether it can be made, only on its own. -/
theorem finds_initLocalsArray (h : (p.withLocals more).initLocalsArray.result = .ok ()) :
    p.Finds p.initLocalsArray.result := by
  have harray : (p.withLocals more).localsArray = p.localsArray := rfl
  unfold initLocalsArray at h ⊢
  rw [harray] at h
  generalize p.localsArray = held at h ⊢
  cases held with
  | none => exact .inl rfl
  | some array =>
    obtain ⟨_, hlook, -⟩ := bind_eq_ok h
    have huntil := (until_lift (getLocal_looksUp hmore array)).discard
    exact (Finds.of_until huntil hlook).bind (.inl rfl)

theorem finds_setup (h : (p.withLocals more).setup.result = .ok ()) : p.Finds p.setup.result := by
  have hinit : (p.withLocals more).localsInitialized = p.localsInitialized := rfl
  rw [setup_eq] at h ⊢
  cases hp : p.localsInitialized with
  | true =>
    unfold initLocals
    rw [hp]
    exact .inl rfl
  | false =>
    obtain ⟨harray, hvars, -⟩ := initLocals_eq_ok (hinit.trans hp) h
    have heq : p.initLocals = (p.initLocalsArray >>= fun _ => p.locals.toList.forM p.initVar) := by
      unfold initLocals
      rw [hp, if_neg Bool.false_ne_true]
    simp only [heq]
    refine (finds_initLocalsArray hmore harray).bind (Finds.forM fun v hv => ?_)
    have hv' : v ∈ (p.withLocals more).locals.toList :=
      Locals.mem_toList_iff.2 (hmore v.id v (Locals.mem_toList_iff.1 hv))
    exact Finds.of_until (initVar_until hmore v) (hvars v hv')

end

/-- The assembler gets through the setup, also where the setup stops. -/
theorem through_setup (p : Procedure) {f : Flow} (hf : f.isLive = true) :
    ∃ g, f.through (p.setup.code.map .instr) = .ok g ∧ (p.setup.result = .ok () → g = f) := by
  obtain ⟨after, hthrough, hafter⟩ := (p.setup_carries True).lands trivial f.depth
  refine ⟨{ f with depth := after }, ?_, fun h => ?_⟩
  · rw [Flow.through_of_live (fun i hi => p.isWork_setup.isPlain i hi) hf]
    rw [Nat.add_zero] at hthrough
    rw [hthrough]
    rfl
  · rw [hafter () h]
    rfl

end Procedure

/-! ## The code of a plan -/

namespace Plan

variable {c : Plan} {more : Locals} {labels : LabelTable}

theorem make_withLocals (p : Procedure) (more : Locals) (options : Options) (strategy : LayoutStrategy) :
    make (p.withLocals more) options strategy =
      (make p options strategy).map fun made => (made.1.withLocals more, made.2) := by
  have horder : (p.withLocals more).graph.emissionOrder strategy (p.withLocals more).liveBlocks =
      p.graph.emissionOrder strategy p.liveBlocks := rfl
  have hgen : (p.withLocals more).isGenerator = p.isGenerator := rfl
  have hgraph : (p.withLocals more).graph = p.graph := rfl
  unfold make
  rw [horder, hgen]
  cases p.graph.emissionOrder strategy p.liveBlocks with
  | none => rfl
  | some order =>
    cases p.isGenerator with
    | false => rfl
    | true =>
      simp only [↓reduceIte, hgraph]
      cases (ResumePlan.make (p.graph.yields.map (·.index))
        (LabelTable.reserve {} (targetsOf (order.filterMap p.graph.block?)).length)).1 <;> rfl

theorem Made.withLocals (h : c.Made) (more : Locals) : (c.withLocals more).Made :=
  ⟨h.block?, h.exists_block, h.live, h.nodup, h.ends, h.labelled, h.resume, h.dense⟩

/-- The labels that a draft adds are new ones. -/
theorem Made.isBlank_draft (h : c.Made) (hblank : labels.IsBlank) :
    (c.draft { labels }).frame.labels.IsBlank := ((draft_meets h).grows { labels }).isBlank hblank

/-- What is drafted up to where a variable is missing, or all that is drafted, behind the setup. -/
theorem draft_completed {first : Block} {others : List Block} (hopens : c.Opens first others)
    (hmore : more.Extends c.procedure.locals) {ds : List Directive} {final : Frame}
    (h : (c.withLocals more).plain.draft.Gives { labels } ds final ()) :
    ∃ own rest, ds = (c.procedure.withLocals more).setup.code.map .instr ++ rest ∧
      (c.procedure.withLocals more).setup.result = .ok () ∧
      (c.plain.draft { labels }).code = c.procedure.setup.code.map .instr ++ own ∧
      own <+: rest ∧ (own = [] ∨ c.procedure.setup.result = .ok ()) ∧
      ∀ e, (c.plain.draft { labels }).result = .error e → c.procedure.Misses e := by
  have hopens' : (c.withLocals more).Opens first others := ⟨hopens.blocks, hopens.start, hopens.others⟩
  rw [plain_draft_eq hopens', Draft.gives_ofFragment_bind_iff] at h
  obtain ⟨_, rest, hsetup, hinner, rfl⟩ := h
  rw [plain_draft_eq hopens]
  have huntil := @inner_until c.plain more hmore first others hopens.others
  obtain ⟨hbegins, hmisses⟩ := huntil.of_gives hinner
  rcases Procedure.finds_setup hmore hsetup with hfound | ⟨e, he, hmissed⟩
  · rw [Draft.bind_of_ok (x := Draft.ofFragment c.procedure.setup) (a := ()) hfound]
    exact ⟨_, rest, rfl, hsetup, rfl, hbegins, .inr hfound, hmisses⟩
  · rw [Draft.bind_of_error (x := Draft.ofFragment c.procedure.setup) (e := e) hmissed]
    refine ⟨[], rest, rfl, hsetup, (List.append_nil _).symm, List.nil_prefix, .inl rfl, ?_⟩
    rintro e' ⟨⟩
    exact he

/-- The assembler gets through what is drafted up to where a variable is missing, unless its labels are at
odds. -/
theorem isInternal_of_through (hmade : c.Made) (hblank : labels.IsBlank) {first : Block}
    {others : List Block} (hopens : c.Opens first others) (hmore : more.Extends c.procedure.locals)
    {ds : List Directive} {final : Frame} {code : List Instr} {g : Flow} {e : LowerError}
    (h : (c.withLocals more).plain.Lowered labels ds final code g)
    (herror : ({ labels := (c.plain.draft { labels }).frame.labels } : Flow).through
      (c.plain.draft { labels }).code = .error e) : e.isInternal = true := by
  obtain ⟨own, rest, rfl, hsetup, hcode, ⟨behind, rfl⟩, hown, -⟩ := draft_completed hopens hmore h.gives
  have hblank' : final.labels.IsBlank := by
    have hdraft := (hmade.withLocals more).plain.isBlank_draft hblank
    rwa [show (c.withLocals more).plain.draft { labels } = _ from h.gives] at hdraft
  have hwithin : ({ labels := (c.plain.draft { labels }).frame.labels } : Flow).Within
      { labels := final.labels } :=
    ⟨LabelTable.within_of_isBlank (hmade.plain.isBlank_draft hblank) hblank', rfl⟩
  obtain ⟨f, hf, hback⟩ :=
    c.procedure.through_setup (f := { labels := (c.plain.draft { labels }).frame.labels }) rfl
  rw [hcode, Flow.through_append, hf] at herror
  rcases hown with rfl | hfound
  · cases herror
  obtain rfl := hback hfound
  -- with all the variables, the assembler gets through what has been drafted
  obtain ⟨f', hf', hback'⟩ := Procedure.through_setup (c.procedure.withLocals more)
    (f := { labels := final.labels }) rfl
  obtain rfl := hback' hsetup
  have hwhole := Flow.through_eq_of_assembles h.assembles
  rw [Flow.through_append, hf', Except.bind, Flow.through_append] at hwhole
  cases hrest : ({ labels := final.labels } : Flow).through own with
  | error e' =>
    rw [hrest] at hwhole
    cases hwhole
  | ok f₁ =>
    obtain ⟨f₀, hf₀, -⟩ | ⟨e', he', hfault⟩ := Flow.through_within hwithin own f₁ hrest
    · rw [Except.bind, hf₀] at herror
      cases herror
    · obtain rfl := Except.error.inj (he'.symm.trans herror)
      exact hfault

/-- Where the code of a plan is finished with more variables declared, it is finished, or a variable is
missing. -/
theorem appendTo_completed (hmade : c.Made) (hsize : labels.size = c.bound) (hblank : labels.IsBlank)
    (hmore : more.Extends c.procedure.locals) {out : Array Instr} {sum : Summary}
    (h : (c.withLocals more).plain.appendTo labels #[] = (out, .ok sum)) :
    (∃ out sum, c.plain.appendTo labels #[] = (out, .ok sum)) ∨
      ∃ e, c.procedure.Misses e ∧ (c.plain.appendTo labels #[]).2 = .error e := by
  obtain ⟨first, others, hopens⟩ := hmade.opens
  obtain ⟨ds, final, g, hlowered, -⟩ := appendTo_empty_eq_ok_iff.1 h
  cases happend : c.plain.appendTo labels #[] with
  | mk out' result =>
    cases result with
    | ok sum' => exact .inl ⟨out', sum', rfl⟩
    | error e =>
      refine .inr ⟨e, ?_, rfl⟩
      have hinternal := (permits_of_appendTo hmade.plain hsize hblank happend).internal
      rcases (appendTo_eq_error_iff hinternal).1 (congrArg Prod.snd happend) with hthrough | ⟨-, hresult⟩
      · have hfault := isInternal_of_through hmade hblank hopens hmore hlowered hthrough
        rw [hinternal] at hfault
        cases hfault
      · obtain ⟨-, -, -, -, -, -, -, hmisses⟩ := draft_completed hopens hmore hlowered.gives
        exact hmisses e hresult

end Plan

namespace Procedure

variable {p : Procedure} {more : Locals} {options : Options} {strategy : LayoutStrategy}

/-- If a procedure would be lowered with more variables declared, then it is lowered, or it is refused
because a variable is unknown that it does not declare. -/
theorem lowerInto_completed (hmore : more.Extends p.locals) {out : Array Instr} {sum : Summary}
    (h : (p.withLocals more).lowerInto options strategy #[] = (out, .ok sum)) :
    (∃ out sum, p.lowerInto options strategy #[] = (out, .ok sum)) ∨
      ∃ id, p.locals.get? id = none ∧
        (p.lowerInto options strategy #[]).2 = .error (.unknownLocal id) := by
  obtain ⟨out', sum', hplain⟩ : ∃ out' sum',
      (p.withLocals more).lowerInto options.plain strategy #[] = (out', .ok sum') := by
    cases hplain : (p.withLocals more).lowerInto options.plain strategy #[] with
    | mk out' result =>
      cases result with
      | ok sum' => exact ⟨out', sum', rfl⟩
      | error e =>
        have herror := lowerInto_plain_eq_error (congrArg Prod.snd hplain)
        rw [h] at herror
        cases herror
  obtain ⟨c', labels', hmake', happend⟩ := exists_make_of_lowerInto hplain
  rw [Plan.make_withLocals, Plan.make_plain] at hmake'
  cases hmake : Plan.make p options strategy with
  | error e =>
    rw [hmake] at hmake'
    cases hmake'
  | ok made =>
    obtain ⟨c, labels⟩ := made
    rw [hmake] at hmake'
    cases hmake'
    obtain ⟨hsize, hblank⟩ := Plan.labels_of_make hmake
    obtain ⟨-, -, rfl, rfl, -⟩ := Plan.make_eq_ok hmake
    have hplan : Plan.make c.procedure c.options.plain strategy = .ok (c.plain, labels) := by
      rw [Plan.make_plain, hmake]
      rfl
    rcases Plan.appendTo_completed (Plan.made_of_make hmake) hsize hblank hmore happend with
      ⟨own, sum, hown⟩ | ⟨e, ⟨id, rfl, hid⟩, herror⟩
    · rw [← lowerInto_of_make hplan] at hown
      obtain ⟨out, sum, hok, -⟩ := lowerInto_plain_eq_ok hown
      exact .inl ⟨out, sum, hok⟩
    · rw [← lowerInto_of_make hplan] at herror
      exact .inr ⟨id, hid, lowerInto_plain_eq_error herror⟩

end Procedure

end StackCode
