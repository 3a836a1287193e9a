import StackCode.Proofs.Outline.Block
import StackCode.Proofs.Temps.History

/-!
# What temporaries are lent for

Behind the opening of a procedure, its draft asks for temporaries in three places.  The dispatch of a
generator and a handler whose exception goes to the locals array borrow a slot: they store a value in it,
load it once, and hand the slot back (`Plan.Errand`).  The first return statement reserves the return
slot, and every return statement stores to it.  Everything else abstains from temporaries.  Main
statement: `Plan.blocksFrom_lends`.
-/

namespace StackCode

/-- The temporary that a directive mentions. -/
def Directive.temp? : Directive → Option TempSlot
  | .instr i => i.temp?
  | .returnPoint _ slot => some slot
  | _ => none

/-- Two frames with the same slots checked out for the same. -/
structure Frame.SameSlots (frame frame' : Frame) : Prop where
  temps : frame'.temps = frame.temps
  debugLocals : frame'.debugLocals = frame.debugLocals
  returnSlot : frame'.returnSlot = frame.returnSlot

theorem Frame.SameSlots.refl (frame : Frame) : frame.SameSlots frame := ⟨rfl, rfl, rfl⟩

theorem Frame.SameSlots.trans {frame₁ frame₂ frame₃ : Frame} (h : frame₁.SameSlots frame₂)
    (h' : frame₂.SameSlots frame₃) : frame₁.SameSlots frame₃ :=
  ⟨h'.temps.trans h.temps, h'.debugLocals.trans h.debugLocals, h'.returnSlot.trans h.returnSlot⟩

/-! ## Drafts without temporaries -/

namespace Draft

/-- The draft has no use for temporaries. -/
def Abstains {α : Type} (x : Draft α) : Prop :=
  ∀ (frame : Frame) (ds : List Directive) (frame' : Frame) (a : α), x.Gives frame ds frame' a →
    frame.SameSlots frame' ∧ ∀ d ∈ ds, d.temp? = none

section
variable {α β : Type}

theorem Abstains.bind {x : Draft α} {f : α → Draft β} (hx : x.Abstains) (hf : ∀ a, (f a).Abstains) :
    (x >>= f).Abstains := by
  intro frame ds frame' b h
  obtain ⟨a, mid, ds₁, ds₂, h₁, h₂, rfl⟩ := gives_bind_iff.1 h
  obtain ⟨hsame₁, hnone₁⟩ := hx _ _ _ _ h₁
  obtain ⟨hsame₂, hnone₂⟩ := hf a _ _ _ _ h₂
  exact ⟨hsame₁.trans hsame₂, List.forall_mem_append.2 ⟨hnone₁, hnone₂⟩⟩

theorem abstains_pure (a : α) : (pure a : Draft α).Abstains := by
  intro frame ds frame' b h
  obtain ⟨rfl, rfl, -⟩ := gives_pure_iff.1 h
  exact ⟨.refl _, nofun⟩

theorem abstains_fail (e : LowerError) : (fail e : Draft α).Abstains :=
  fun _ _ _ _ h => absurd h not_gives_fail

theorem abstains_directive {d : Directive} (hd : d.temp? = none) : (directive d).Abstains := by
  intro frame ds frame' u h
  obtain ⟨rfl, rfl⟩ := gives_directive_iff.1 h
  exact ⟨.refl _, List.forall_mem_singleton.2 hd⟩

theorem abstains_emit {i : Instr} (hi : i.temp? = none) : (emit i).Abstains := abstains_directive hi

theorem abstains_mark (l : Label) (arrival : Arrival) : (mark l arrival).Abstains :=
  abstains_directive rfl

theorem abstains_ofFragment {x : Fragment α} (hx : x.IsPlain) : (ofFragment x).Abstains := by
  intro frame ds frame' a h
  obtain ⟨rfl, rfl, -⟩ := gives_ofFragment_iff.1 h
  refine ⟨.refl _, fun d hd => ?_⟩
  obtain ⟨i, hi, rfl⟩ := List.mem_map.1 hd
  exact Instr.temp?_of_isPlain (hx i hi)

theorem abstains_ofExcept (x : Except LowerError α) : (ofFragment (Fragment.ofExcept x)).Abstains :=
  abstains_ofFragment (Fragment.isWork_ofExcept x).isPlain

theorem abstains_freshLabel : freshLabel.Abstains := by
  intro frame ds frame' l h
  obtain ⟨rfl, rfl, -⟩ := gives_freshLabel_iff.1 h
  exact ⟨⟨rfl, rfl, rfl⟩, nofun⟩

theorem abstains_namedLabel (name : String) : (namedLabel name).Abstains := by
  intro frame ds frame' l h
  obtain ⟨rfl, rfl, -⟩ := gives_namedLabel_iff.1 h
  exact ⟨⟨rfl, rfl, rfl⟩, nofun⟩

theorem abstains_returnLabel : returnLabel.Abstains := by
  intro frame ds frame' l h
  obtain ⟨rfl, hlabel⟩ := gives_returnLabel_iff.1 h
  split at hlabel
  · obtain ⟨rfl, -⟩ := hlabel
    exact ⟨.refl _, nofun⟩
  · obtain ⟨rfl, -⟩ := hlabel
    exact ⟨⟨rfl, rfl, rfl⟩, nofun⟩

theorem abstains_returnBranch : (returnLabel >>= fun l => emit (.branch l)).Abstains :=
  abstains_returnLabel.bind fun _ => abstains_emit rfl

theorem abstains_finishGenerator (ty : Ty) : (finishGenerator ty).Abstains := by
  unfold finishGenerator
  split
  · exact abstains_returnBranch
  · exact (abstains_ofFragment (Fragment.isWork_convert _ _).isPlain).bind fun _ =>
      (abstains_ofFragment (Fragment.isWork_callIntrinsic _).isPlain).bind fun _ =>
        abstains_returnBranch

theorem abstains_setState (s : GeneratorState) : (setState s).Abstains :=
  (abstains_emit rfl).bind fun _ => abstains_emit rfl

theorem abstains_suspend (resume : ResumePlan) (index : Int) : (suspend resume index).Abstains := by
  unfold suspend
  cases resume.label? index with
  | none => exact abstains_fail _
  | some l =>
    exact (abstains_setState _).bind fun _ => (abstains_emit rfl).bind fun _ => abstains_mark _ _

end

end Draft

namespace Plan

open Draft

variable (c : Plan)

/-! ## Slots that are lent -/

/-- What the slot is borrowed for: the dispatch of a generator, or a handler whose exception is stored in
an entry of the locals array.  The code is that between the declaration of the slot and the end of its
use; `lead` is in front of the declaration. -/
inductive Errand (slot : TempSlot) : List Directive → List Instr → Prop
  | dispatch (start : Label) (hgen : c.procedure.isGenerator = true) :
      Errand slot [] [.loadState, .storeTemp slot, .constInt GeneratorState.running.toInt, .storeState,
        .loadTemp slot, .switch c.resume.points start]
  | receive {b : BlockId} {l : Label} {id array : LocalId} {key : Name} {ty : Ty}
      (hlabel : c.label? b = some l) (hcaught : c.caught? b = some (some id))
      (hplace : c.procedure.place id = .ok (.entry array key ty)) :
      Errand slot [.mark l .handler] [.storeTemp slot, .loadLocal array, .constStr key,
        .loadTemp slot, .callIntrinsic .arraySet]

/-- What the directives of a draft use temporaries for, from one frame to another. -/
inductive Lends : Frame → List Directive → Frame → Prop
  | abstain {frame frame' : Frame} {ds : List Directive} (hsame : frame.SameSlots frame')
      (hds : ∀ d ∈ ds, d.temp? = none) : Lends frame ds frame'
  | append {frame₁ frame₂ frame₃ : Frame} {ds ds' : List Directive}
      (first : Lends frame₁ ds frame₂) (rest : Lends frame₂ ds' frame₃) :
      Lends frame₁ (ds ++ ds') frame₃
  /-- A slot is checked out, used and handed back. -/
  | borrow {frame : Frame} {ty : Ty} {temps : TempPool} {lead : List Directive} {body : List Instr}
      (errand : c.Errand (frame.temps.acquire ty).1 lead body)
      (hrelease : (frame.temps.acquire ty).2.2.tryRelease (frame.temps.acquire ty).1 = (.ok (), temps)) :
      Lends frame (lead ++ (allocation (frame.temps.acquire ty).1 (frame.temps.acquire ty).2.1 ty ++
        (body.map .instr ++ [.instr (.freeTemp (frame.temps.acquire ty).1)]))) { frame with temps }
  /-- The return slot is checked out. -/
  | reserve {frame : Frame} (hnone : frame.returnSlot = none) (ty : Ty) :
      Lends frame (allocation (frame.temps.acquire ty).1 (frame.temps.acquire ty).2.1 ty)
        { frame with
          temps := (frame.temps.acquire ty).2.2
          returnSlot := some (frame.temps.acquire ty).1 }
  /-- A return value is stored. -/
  | store {frame : Frame} {slot : TempSlot} (hslot : frame.returnSlot = some slot) :
      Lends frame [.instr (.storeTemp slot)] frame

variable {c} {frame frame' : Frame} {ds : List Directive} {u : Unit}

theorem lends_of_abstains {α : Type} {x : Draft α} {a : α} (hx : x.Abstains)
    (h : x.Gives frame ds frame' a) : c.Lends frame ds frame' :=
  .abstain (hx _ _ _ _ h).1 (hx _ _ _ _ h).2

/-! ## The dispatch -/

theorem dispatch_lends (hgen : c.procedure.isGenerator = true)
    (h : (dispatch c.resume).Gives frame ds frame' u) : c.Lends frame ds frame' := by
  unfold dispatch at h
  obtain ⟨start, mid, ds₁, _, hl, h₁, rfl⟩ := gives_bind_iff.1 h
  obtain ⟨slot, _, _, _, hslot, h₂, rfl⟩ := gives_bind_iff.1 h₁
  obtain ⟨rfl, rfl, rfl⟩ := gives_acquireTemp_iff.1 hslot
  obtain ⟨_, h₃, rfl⟩ := gives_emit_bind_iff.1 h₂
  obtain ⟨_, h₄, rfl⟩ := gives_emit_bind_iff.1 h₃
  obtain ⟨_, h₅, rfl⟩ := gives_setState_bind_iff.1 h₄
  obtain ⟨_, h₆, rfl⟩ := gives_emit_bind_iff.1 h₅
  obtain ⟨_, h₇, rfl⟩ := gives_emit_bind_iff.1 h₆
  obtain ⟨_, _, _, _, h₈, hmark, rfl⟩ := gives_bind_iff.1 h₇
  obtain ⟨temps, hrelease, rfl, rfl⟩ := gives_releaseTemp_iff.1 h₈
  obtain ⟨rfl, rfl⟩ := gives_mark_iff.1 hmark
  refine (lends_of_abstains (abstains_namedLabel _) hl).append ?_
  have hmarked : c.Lends { mid with temps } [.mark start .forward] { mid with temps } :=
    .abstain (.refl _) (List.forall_mem_singleton.2 rfl)
  have hall := (Lends.borrow (.dispatch start hgen) hrelease).append hmarked
  simpa using hall

/-! ## Return statements -/

theorem returnSlot?_lends {ty : Ty} {slot : Option TempSlot}
    (h : (returnSlot? ty).Gives frame ds frame' slot) :
    c.Lends frame ds frame' ∧ ∀ s, slot = some s → frame'.returnSlot = some s := by
  have h := gives_returnSlot?_iff.1 h
  cases hslot : frame.returnSlot with
  | some s =>
    rw [hslot] at h
    obtain ⟨rfl, rfl, rfl⟩ := h
    exact ⟨.abstain (.refl _) nofun, fun _ hs => hslot.trans hs⟩
  | none =>
    rw [hslot] at h
    simp only at h
    split at h
    · obtain ⟨rfl, rfl, rfl⟩ := h
      exact ⟨.abstain (.refl _) nofun, nofun⟩
    · obtain ⟨rfl, rfl, rfl⟩ := h
      exact ⟨.reserve hslot ty, fun _ => id⟩

/-- The value of a return statement is stored, behind what brings it into the form in which it is kept. -/
theorem stored_lends {x : Fragment Unit} {slot : TempSlot} (hx : x.IsPlain)
    (hslot : frame.returnSlot = some slot)
    (h : (ofFragment x >>= fun _ => directive .stageReturn >>= fun _ => emit (.storeTemp slot) >>=
      fun _ => returnLabel >>= fun l => emit (.branch l)).Gives frame ds frame' u) :
    c.Lends frame ds frame' := by
  obtain ⟨_, mid, ds₁, _, h₁, hrest, rfl⟩ := gives_bind_iff.1 h
  obtain ⟨-, rfl, -⟩ := gives_ofFragment_iff.1 h₁
  obtain ⟨_, h₂, rfl⟩ := gives_directive_bind_iff.1 hrest
  obtain ⟨rest, h₃, rfl⟩ := gives_emit_bind_iff.1 h₂
  have hstaged : c.Lends mid [.stageReturn] mid :=
    .abstain (.refl _) (List.forall_mem_singleton.2 rfl)
  refine (lends_of_abstains (abstains_ofFragment hx) h₁).append ?_
  exact hstaged.append ((Lends.store hslot).append (lends_of_abstains abstains_returnBranch h₃))

theorem stageReturn_lends {returnType ty : Ty}
    (h : (stageReturn returnType ty).Gives frame ds frame' u) : c.Lends frame ds frame' := by
  unfold stageReturn at h
  obtain ⟨slot, mid, _, _, hslot, hrest, rfl⟩ := gives_bind_iff.1 h
  obtain ⟨hlends, hreserved⟩ := returnSlot?_lends (c := c) hslot
  refine hlends.append ?_
  cases slot with
  | some slot =>
    simp only [liftM_eq] at hrest
    split at hrest
    · exact stored_lends (Fragment.isWork_pushDefault _).isPlain (hreserved slot rfl) hrest
    · exact stored_lends (Fragment.isWork_convert _ _).isPlain (hreserved slot rfl) hrest
  | none =>
    simp only at hrest
    split at hrest
    · exact lends_of_abstains abstains_returnBranch hrest
    · exact lends_of_abstains ((abstains_emit rfl).bind fun _ => abstains_returnBranch) hrest

theorem returnValue_lends {value : Option Expr} (h : (c.returnValue value).Gives frame ds frame' u) :
    c.Lends frame ds frame' := by
  have hreturned : (ofFragment (c.outline.returned value) >>= fun ty =>
      if c.procedure.isGenerator then finishGenerator ty
      else stageReturn c.procedure.returnType ty).Gives frame ds frame' u := by
    cases value with
    | some e => exact h
    | none => exact h
  obtain ⟨ty, mid, _, _, hvalue, hrest, rfl⟩ := gives_bind_iff.1 hreturned
  refine (lends_of_abstains (abstains_ofFragment (c.outline.isPlain_returned value)) hvalue).append ?_
  split at hrest
  · exact lends_of_abstains (abstains_finishGenerator ty) hrest
  · exact stageReturn_lends hrest

/-! ## Statements -/

theorem sequencePoint_abstains (c : Plan) (span : Option Span) : (c.sequencePoint span).Abstains := by
  unfold sequencePoint
  split
  · split
    · exact abstains_emit rfl
    · exact abstains_pure _
  · exact abstains_pure _

theorem bindStatic_abstains (c : Plan) (d : StaticDecl) : (c.bindStatic d).Abstains := by
  refine (abstains_ofFragment (c.procedure.isWork_bindHolder d.target d.key).isPlain).bind fun _ => ?_
  cases d.init with
  | none => exact abstains_pure _
  | some init =>
    have hload : (ofFragment (c.procedure.loadVar d.target)).Abstains :=
      abstains_ofFragment (c.procedure.isWork_loadVar d.target).isPlain
    have hcall (i : Intrinsic) : (ofFragment (Fragment.callIntrinsic i)).Abstains :=
      abstains_ofFragment (Fragment.isWork_callIntrinsic i).isPlain
    refine abstains_freshLabel.bind fun done => hload.bind fun _ => (hcall _).bind fun _ => ?_
    refine (abstains_emit rfl).bind fun _ => hload.bind fun _ => ?_
    refine (abstains_ofFragment (c.procedure.isWork_value init _ _).isPlain).bind fun _ => ?_
    exact (hcall _).bind fun _ => abstains_mark _ _

theorem yieldValue_abstains (c : Plan) (y : Yield) : (c.yieldValue y).Abstains := by
  unfold yieldValue
  split
  · exact abstains_fail _
  · split
    · exact abstains_fail _
    · exact (abstains_ofFragment (c.procedure.isWork_publish y).isPlain).bind fun _ =>
        abstains_suspend _ _

theorem throwValue_abstains (c : Plan) (e : Expr) :
    (ofFragment (c.procedure.throwValue e)).Abstains := by
  unfold Procedure.throwValue
  rw [ofFragment_bind]
  exact (abstains_ofFragment (c.procedure.isWork_value e _ _).isPlain).bind fun _ =>
    abstains_emit (i := .throw) rfl

theorem statementBody_lends {s : Stmt} (h : (c.statementBody s).Gives frame ds frame' u) :
    c.Lends frame ds frame' := by
  have hplain {x : Fragment Unit} (hx : x.IsWork) (h : (ofFragment x).Gives frame ds frame' u) :
      c.Lends frame ds frame' := lends_of_abstains (abstains_ofFragment hx.isPlain) h
  unfold statementBody at h
  cases s with
  | empty span =>
    simp only at h
    split at h
    · exact lends_of_abstains (abstains_emit rfl) h
    · exact lends_of_abstains (abstains_pure _) h
  | expr e => exact hplain (c.procedure.isWork_discardValue e) h
  | ret value => exact returnValue_lends h
  | throw e => exact lends_of_abstains (c.throwValue_abstains e) h
  | declareFunction name => exact hplain (Fragment.isWork_callWithName _ _) h
  | declareType name => exact hplain (Fragment.isWork_callWithName _ _) h
  | bindGlobal id => exact hplain (c.procedure.isWork_bindGlobal id) h
  | defineConst name e => exact hplain (c.procedure.isWork_defineConst name e) h
  | bindStatic d => exact lends_of_abstains (c.bindStatic_abstains d) h
  | unset target => exact hplain (c.procedure.isWork_unset target) h
  | yield y => exact lends_of_abstains (c.yieldValue_abstains y) h
  | declare => exact lends_of_abstains (abstains_pure _) h

theorem statement_lends {s : Stmt} (h : (c.statement s).Gives frame ds frame' u) :
    c.Lends frame ds frame' := by
  obtain ⟨_, _, _, _, hpoint, h₁, rfl⟩ := gives_bind_iff.1 h
  obtain ⟨_, _, _, _, hbody, hend, rfl⟩ := gives_bind_iff.1 h₁
  exact (lends_of_abstains (c.sequencePoint_abstains s.span) hpoint).append
    ((statementBody_lends hbody).append (lends_of_abstains (abstains_directive rfl) hend))

theorem statements_lend {ss : List Stmt} (h : (ss.forM c.statement).Gives frame ds frame' u) :
    c.Lends frame ds frame' := by
  induction ss generalizing frame ds with
  | nil => exact lends_of_abstains (abstains_pure _) h
  | cons s ss ih =>
    obtain ⟨_, _, _, _, hs, hss, rfl⟩ := gives_bind_iff.1 h
    exact (statement_lends hs).append (ih hss)

/-! ## Blocks -/

/-- A handler stores the exception in a variable. -/
theorem receive_lends {b : BlockId} {l : Label} {id : LocalId} (hlabel : c.label? b = some l)
    (hcaught : c.caught? b = some (some id))
    (h : (mark l .handler >>= fun _ => c.procedure.storePending id).Gives frame ds frame' u) :
    c.Lends frame ds frame' := by
  obtain ⟨rest, hstore, rfl⟩ := gives_directive_bind_iff.1 h
  unfold Procedure.storePending at hstore
  have hlift : (liftM (c.procedure.place id) : Draft Place) =
      ofFragment (Fragment.ofExcept (c.procedure.place id)) := rfl
  rw [hlift] at hstore
  obtain ⟨place, rest, hplace, h₁, rfl⟩ := gives_ofFragment_bind_iff.1 hstore
  have hplace : c.procedure.place id = .ok place := hplace
  cases place with
  | slot id =>
    obtain ⟨rfl, rfl⟩ := gives_emit_iff.1 h₁
    exact .abstain (.refl _) (List.forall_mem_cons.2 ⟨rfl, List.forall_mem_singleton.2 rfl⟩)
  | entry array key ty =>
    simp only [liftM_eq] at h₁
    obtain ⟨slot, _, _, _, hslot, h₂, rfl⟩ := gives_bind_iff.1 h₁
    obtain ⟨rfl, rfl, rfl⟩ := gives_acquireTemp_iff.1 hslot
    obtain ⟨_, h₃, rfl⟩ := gives_emit_bind_iff.1 h₂
    obtain ⟨-, _, -, h₄, rfl⟩ := gives_ofFragment_bind_iff.1 h₃
    obtain ⟨_, h₅, rfl⟩ := gives_emit_bind_iff.1 h₄
    obtain ⟨-, _, -, h₆, rfl⟩ := gives_ofFragment_bind_iff.1 h₅
    obtain ⟨temps, hrelease, rfl, rfl⟩ := gives_releaseTemp_iff.1 h₆
    exact .borrow (.receive hlabel hcaught hplace) hrelease

theorem enterBlock_lends {b : Block} (h : (c.enterBlock b).Gives frame ds frame' u) :
    c.Lends frame ds frame' := by
  unfold enterBlock at h
  split at h
  · exact lends_of_abstains (abstains_pure _) h
  · next l hlabel =>
    split at h
    · next exception hcaught =>
      cases exception with
      | none => exact lends_of_abstains ((abstains_mark _ _).bind fun _ => abstains_emit rfl) h
      | some id => exact receive_lends hlabel hcaught h
    · exact lends_of_abstains (abstains_mark _ _) h

theorem jump_abstains (c : Plan) (target : BlockId) (next : Option BlockId) :
    (c.jump target next).Abstains := by
  unfold jump
  split
  · exact abstains_pure _
  · exact (abstains_ofExcept (c.blockLabel target)).bind fun _ => abstains_emit rfl

theorem edge_abstains (c : Plan) (b : Block) (next : Option BlockId) : (c.edge b next).Abstains := by
  unfold edge
  cases b.edge with
  | goto target => exact c.jump_abstains target next
  | branch condition onTrue onFalse =>
    refine (abstains_ofFragment (c.procedure.isWork_value condition _ _).isPlain).bind fun _ => ?_
    split
    · exact (abstains_emit rfl).bind fun _ => c.jump_abstains onTrue next
    · split
      · exact (abstains_ofExcept (c.blockLabel onFalse)).bind fun _ => abstains_emit rfl
      · refine (abstains_ofExcept (c.blockLabel onTrue)).bind fun _ => ?_
        exact (abstains_emit rfl).bind fun _ => c.jump_abstains onFalse next
  | switch selector cases default =>
    refine (abstains_ofFragment (c.procedure.isWork_value selector _ _).isPlain).bind fun _ => ?_
    refine (abstains_ofExcept (c.jumpTable cases)).bind fun _ => ?_
    exact (abstains_ofExcept (c.blockLabel default)).bind fun _ => abstains_emit rfl
  | protect body handler exception =>
    refine (abstains_ofExcept (c.blockLabel handler)).bind fun _ => ?_
    exact (abstains_emit rfl).bind fun _ => c.jump_abstains body next
  | leave target => exact (abstains_ofExcept (c.blockLabel target)).bind fun _ => abstains_emit rfl
  | none => exact abstains_directive rfl

/-- The parts of a block in front of its edge. -/
theorem body_lends {b : Block} {α : Type} {x : Draft α} {a : α}
    (h : (c.enterBlock b >>= fun _ => b.statements.forM c.statement >>= fun _ => x).Gives frame ds
      frame' a) :
    ∃ mid ds₁ ds₂, ds = ds₁ ++ ds₂ ∧ c.Lends frame ds₁ mid ∧ x.Gives mid ds₂ frame' a := by
  obtain ⟨_, _, _, _, henter, h₁, rfl⟩ := gives_bind_iff.1 h
  obtain ⟨_, mid, _, ds₂, hss, hx, rfl⟩ := gives_bind_iff.1 h₁
  exact ⟨mid, _, ds₂, (List.append_assoc ..).symm,
    (enterBlock_lends henter).append (statements_lend hss), hx⟩

/-- The end of the exit block. -/
def exit (c : Plan) : Draft Unit :=
  if c.procedure.isGenerator then exitGenerator else exitOrdinary c.procedure.returnType

/-- What stands in front of the end of the exit block. -/
theorem blocksFrom_lends {mids : List Block} {last : Block} (hmids : ∀ b ∈ mids, b.kind = .normal)
    (hlast : last.kind = .exit) (h : (c.blocksFrom (mids ++ [last])).Gives frame ds frame' u) :
    ∃ mid ds₁ ds₂, ds = ds₁ ++ ds₂ ∧ c.Lends frame ds₁ mid ∧ c.exit.Gives mid ds₂ frame' () := by
  induction mids generalizing frame ds with
  | nil =>
    obtain ⟨_, _, _, _, hblock, hnil, rfl⟩ := gives_bind_iff.1 h
    obtain ⟨rfl, rfl, -⟩ := gives_pure_iff.1 hnil
    rw [block_eq, if_neg (by rw [hlast]; nofun), pure_bind] at hblock
    obtain ⟨mid, ds₁, ds₂, rfl, hlends, hexit⟩ := body_lends hblock
    unfold blockEnd at hexit
    rw [if_pos hlast] at hexit
    exact ⟨mid, ds₁, ds₂, List.append_nil _, hlends, hexit⟩
  | cons b mids ih =>
    obtain ⟨hb, hmids⟩ := List.forall_mem_cons.1 hmids
    obtain ⟨_, _, _, _, hblock, hrest, rfl⟩ := gives_bind_iff.1 h
    rw [block_eq, if_neg (by rw [hb]; nofun), pure_bind] at hblock
    obtain ⟨_, ds₁, ds₂, rfl, hlends, hend⟩ := body_lends hblock
    unfold blockEnd at hend
    rw [if_neg (by rw [hb]; nofun)] at hend
    obtain ⟨mid, ds₃, ds₄, rfl, hlends', hexit⟩ := ih hmids hrest
    refine ⟨mid, ds₁ ++ (ds₂ ++ ds₃), ds₄, by simp only [List.append_assoc], ?_, hexit⟩
    exact hlends.append ((lends_of_abstains (c.edge_abstains b _) hend).append hlends')

end Plan

end StackCode
