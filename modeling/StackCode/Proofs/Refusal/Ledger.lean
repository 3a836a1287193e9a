import StackCode.Proofs.Assembly.Steps
import StackCode.Proofs.Draft.Meets
import StackCode.Proofs.Fragment.Carries
import StackCode.Proofs.Layout.Slots

/-!
# What a procedure may be refused for

While a draft is assembled, a ledger is kept of the labels: which are still to be placed, and what
has been branched to (`Plan.Keeps`).  Together with what is known of the stack and of the reach of
control (`Plan.Stands`) it rules out every error that would mean that the code generator is broken,
and leaves the others only where the procedure gives reason for them (`Plan.Permits`).
-/

namespace StackCode

namespace LowerError

/-- The code generator itself is broken. -/
def isInternal : LowerError → Bool
  | .unlabeledBlock _ | .unknownLabel _ | .labelMarkedTwice _ | .unmarkedLabel _
  | .missingResumeLabel _ | .tempDoubleFree _ | .tempLeaked _ | .returnSlotUnassigned
  | .stackImbalance _ _ _ => true
  | _ => false

/-- An instruction does not find the values it takes. -/
def isUnderflow : LowerError → Bool
  | .stackUnderflow _ _ => true
  | _ => false

/-- No code can be planned: the blocks are not rearranged, or the suspension points are not numbered
densely. -/
def isOfPlan : LowerError → Bool
  | .invalidEmitOrder | .nonPositiveYieldIndex _ | .duplicateYieldIndex _ | .yieldIndexGap _ _ => true
  | _ => false

end LowerError

namespace Instr

/-- An instruction whose depth is bounded as it asks for stops the assembler only if it does not find
the values it takes. -/
theorem of_depthAfter_eq_error {i : Instr} {m depth : Nat} {e : LowerError}
    (hle : depth ≤ m + i.pops) (hret : ∀ r, i.returnDepth? = some r → r = m + i.pops)
    (hjump : i.isJump = true → m + i.pushes = 0) (h : i.depthAfter depth = .error e) :
    e.isUnderflow = true ∧ depth < i.pops := by
  by_cases hpops : depth < i.pops
  · unfold depthAfter at h
    rw [if_pos hpops] at h
    cases h
    exact ⟨rfl, hpops⟩
  · have hok : i.depthAfter depth = .ok (depth - i.pops + i.pushes) := by
      have hret' : ∀ r, i.returnDepth? = some r → r = i.pops := by
        intro r hr
        cases i <;> cases hr
        rfl
      refine depthAfter_eq_ok_iff.2 ⟨by omega, fun r hr => ?_, rfl, fun hj => ?_⟩
      · have h₁ := hret r hr
        have h₂ := hret' r hr
        omega
      · have := hjump hj
        omega
    rw [hok] at h
    cases h

/-- Plain code stops the assembler only if it does not find the values it takes. -/
theorem isUnderflow_of_depthThrough {is : List Instr} {depth : Nat} {e : LowerError}
    (hplain : ∀ i ∈ is, i.isPlain = true) (h : depthThrough is depth = .error e) :
    e.isUnderflow = true := by
  induction is generalizing depth with
  | nil => cases h
  | cons i is ih =>
    obtain ⟨hi, hplain⟩ := List.forall_mem_cons.1 hplain
    unfold depthThrough at h
    rw [List.foldlM_cons] at h
    cases hdepth : i.depthAfter depth with
    | error e' =>
      rw [hdepth] at h
      cases h
      refine (of_depthAfter_eq_error (m := depth) (Nat.le_add_right _ _) (fun r hr => ?_)
        (fun hj => ?_) hdepth).1
      · rw [returnDepth?_of_isPlain hi] at hr
        cases hr
      · rw [isJump_of_isPlain hi] at hj
        cases hj
    | ok d =>
      rw [hdepth] at h
      exact ih hplain h

end Instr

/-- The code of the fragment finds the values it takes, from a depth of the stack to another. -/
def Fragment.Lands {α : Type} (x : Fragment α) (n : Nat) (φ : α → Nat) : Prop :=
  ∃ after, Instr.depthThrough x.code n = .ok after ∧ ∀ a, x.result = .ok a → after = φ a

theorem Fragment.Carries.found {α : Type} {exact : Prop} {x : Fragment α} {n : Nat} {φ : α → Nat}
    (h : x.Carries exact n φ) (hexact : exact) : x.Lands n φ := by
  obtain ⟨after, hthrough, hafter⟩ := h.lands hexact 0
  rw [Nat.zero_add] at hthrough
  exact ⟨after, hthrough, fun a ha => by rw [hafter a ha, Nat.zero_add]⟩

namespace Plan

/-! ## Reasons for a refusal -/

/-- The code of a statement finds the values it takes. -/
def Finds (c : Plan) : Stmt → Prop
  | .expr e => (c.procedure.discardValue e).Lands 0 fun _ => 0
  | .ret value => (c.outline.returned value).Lands 0 Ty.width
  | .throw e => (c.procedure.value e .value .thrown).Lands 0 fun _ => 1
  | .defineConst name e => (c.procedure.defineConst name e).Lands 0 fun _ => 0
  | .bindStatic d => ∀ init, d.init = some init →
      (c.procedure.loadVar d.target).Lands 0 (fun _ => 1) ∧
        (c.outline.staticInit d.target init).Lands 0 fun _ => 0
  | .unset target => (c.procedure.unset target).Lands 0 fun _ => 0
  | .yield y => (c.procedure.publish y).Lands 0 fun _ => 0
  | .empty _ | .declareFunction _ | .declareType _ | .bindGlobal _ | .declare => True

/-- The code of some statements finds the values it takes, as far as control gets there. -/
def FindsThrough (c : Plan) (live : Bool) : List Stmt → Prop
  | [] => True
  | s :: ss => (live = true → c.Finds s) ∧ c.FindsThrough (s.liveAfter live) ss

/-- The code of an edge finds the values it takes. -/
def FindsEdge (c : Plan) : Edge → Prop
  | .branch condition _ _ =>
    (c.procedure.value condition .bool .branchCondition).Lands 0 fun _ => 1
  | .switch selector _ _ => (c.procedure.value selector .int .switchSelector).Lands 0 fun _ => 1
  | _ => True

/-- The code finds the values it takes wherever control gets to. -/
structure Steady (c : Plan) : Prop where
  statements : ∀ b ∈ c.blocks, c.FindsThrough (c.reachesBlock b) b.statements
  edge : ∀ b ∈ c.blocks, b.kind ≠ .exit → c.reachesEdge b = true → c.FindsEdge b.edge

/-- Control gets to the end of the block and has nowhere to go on to. -/
def Dangles (c : Plan) (b : Block) : Prop :=
  b ∈ c.blocks ∧ b.kind ≠ .exit ∧ c.reachesEdge b = true ∧ b.edge = .none

/-- The procedure gives reason for the error. -/
structure Permits (c : Plan) (e : LowerError) : Prop where
  internal : e.isInternal = false
  planned : e.isOfPlan = false
  underflow : c.Steady → e.isUnderflow = false
  falls : ∀ id, e = .fallsOffBlock id → ∃ b, c.Dangles b ∧ b.id = id

variable {c : Plan}

theorem Permits.of_isMissing {e : LowerError} (h : e.isMissing = true) : c.Permits e := by
  refine ⟨?_, ?_, fun _ => ?_, ?_⟩
  · cases e <;> first | rfl | cases h
  · cases e <;> first | rfl | cases h
  · cases e <;> first | rfl | cases h
  · rintro id rfl
    cases h

/-- Too few values on the stack, where that is no wonder. -/
theorem Permits.of_not_steady {e : LowerError} (h : e.isUnderflow = true) (hnot : ¬ c.Steady) :
    c.Permits e := by
  refine ⟨?_, ?_, fun hsteady => absurd hsteady hnot, ?_⟩
  · cases e <;> first | rfl | cases h
  · cases e <;> first | rfl | cases h
  · rintro id rfl
    cases h

/-! ## Where control stands -/

/-- Control does not get here unless `v`, and then the stack is no deeper than `d`. -/
def Stands (c : Plan) (v : Bool) (d : Nat) (f : Flow) : Prop :=
  f.isLive = true → v = true ∧ f.depth ≤ d ∧ (c.Steady → f.depth = d)

/-- What is kept account of besides where control stands: the frame, the labels and whether a return
value has been stored. -/
abbrev Account := Frame → LabelTable → Bool → Prop

/-- An account, and where control stands. -/
def At (c : Plan) (R : Account) (v : Bool) (d : Nat) (frame : Frame) (f : Flow) : Prop :=
  R frame f.labels f.hasStaged ∧ c.Stands v d f

theorem At.mono {R S : Account} {v v' : Bool} {d : Nat} {frame : Frame} {f : Flow}
    (h : c.At R v d frame f) (hR : ∀ frame labels staged, R frame labels staged → S frame labels staged)
    (hv : v = true → v' = true) : c.At S v' d frame f := by
  refine ⟨hR _ _ _ h.1, fun hlive => ?_⟩
  obtain ⟨hvalid, hdepth⟩ := h.2 hlive
  exact ⟨hv hvalid, hdepth⟩

/-- Where control does not get to, nothing is asked of the depth. -/
theorem At.of_dead {R : Account} {v v' : Bool} {d d' : Nat} {frame : Frame} {f : Flow}
    (h : c.At R v d frame f) (hv : v = false) : c.At R v' d' frame f := by
  refine ⟨h.1, fun hlive => ?_⟩
  rw [hv] at h
  cases (h.2 hlive).1

section
variable {α : Type} {R S : Account} {v : Bool} {d m : Nat}

/-- Straight-line code moves the depth and nothing else. -/
theorem fragment_meets {x : Fragment α} {φ : α → Nat} (hplain : x.IsPlain)
    (hcarries : x.Carries False d φ) (hlands : c.Steady → v = true → x.Lands d φ) :
    (Draft.ofFragment x).Meets c.Permits (c.At R v d) fun a => c.At R v (φ a) where
  grows _ := .refl _
  fault frame f e hp _ hrun := by
    rcases Draft.run_eq_error_iff.1 hrun with hthrough | ⟨-, hresult⟩
    · cases hlive : f.isLive with
      | false =>
        rw [Draft.ofFragment_apply, Flow.through_of_dead hplain hlive] at hthrough
        cases hthrough
      | true =>
        rw [Draft.ofFragment_apply, Flow.through_of_live hplain hlive] at hthrough
        obtain ⟨hv, -, hdepth⟩ := hp.2 hlive
        cases hdepths : Instr.depthThrough x.code f.depth with
        | ok after =>
          rw [hdepths] at hthrough
          cases hthrough
        | error e' =>
          rw [hdepths] at hthrough
          cases hthrough
          refine .of_not_steady (Instr.isUnderflow_of_depthThrough hplain hdepths) fun hsteady => ?_
          obtain ⟨after, hafter, -⟩ := hlands hsteady hv
          rw [← hdepth hsteady, hdepths] at hafter
          cases hafter
    · exact .of_isMissing (hcarries.missing e hresult)
  post frame f a frame' g hp _ hrun := by
    obtain ⟨hthrough, hresult, rfl⟩ := Draft.run_eq_ok_iff.1 hrun
    cases hlive : f.isLive with
    | false =>
      rw [Draft.ofFragment_apply, Flow.through_of_dead hplain hlive] at hthrough
      cases hthrough
      exact ⟨hp.1, fun h => by rw [hlive] at h; cases h⟩
    | true =>
      rw [Draft.ofFragment_apply, Flow.through_of_live hplain hlive] at hthrough
      cases hdepths : Instr.depthThrough x.code f.depth with
      | error e =>
        rw [hdepths] at hthrough
        cases hthrough
      | ok after =>
        rw [hdepths] at hthrough
        cases hthrough
        obtain ⟨hv, hle, hdepth⟩ := hp.2 hlive
        refine ⟨hp.1, fun _ => ⟨hv, ?_, fun hsteady => ?_⟩⟩
        · have := hcarries.le a hresult 0 f.depth after (by omega) hdepths
          rwa [Nat.zero_add] at this
        · obtain ⟨after', hafter', heq⟩ := hlands hsteady hv
          rw [← hdepth hsteady, hdepths] at hafter'
          cases hafter'
          exact heq a hresult

/-- Straight-line code that finds its values in any case. -/
theorem sure_meets {x : Fragment α} {φ : α → Nat} (hplain : x.IsPlain)
    (hcarries : ∀ {exact : Prop}, x.Carries exact d φ) :
    (Draft.ofFragment x).Meets c.Permits (c.At R v d) fun a => c.At R v (φ a) :=
  fragment_meets hplain hcarries fun _ _ => hcarries.found trivial

/-- An instruction, with what it branches to. -/
theorem emit_meets {i : Instr} (hd : ∀ frame labels staged, R frame labels staged → d = m + i.pops)
    (hret : ∀ r, i.returnDepth? = some r → r = m + i.pops) (hjump : i.isJump = true → m + i.pushes = 0)
    (hrefer : ∀ frame labels staged, R frame labels staged → frame.labels.size ≤ labels.size →
      S frame labels staged ∧ (v = true → (∀ l ∈ i.targets, l.index < labels.size) ∧
        ∀ labels', labels.referenceAll i.targets = .ok labels' → S frame labels' staged)) :
    (Draft.emit i).Meets c.Permits (c.At R v d) fun _ => c.At S (v && !i.endsFlow) (m + i.pushes) := by
  refine .directive (fun frame f e hp hsize hstep => ?_) fun frame f code g hp hsize hstep => ?_
  · cases hlive : f.isLive with
    | false =>
      rw [show f.step (.instr i) = .ok _ from (Flow.emit_dead hlive).2 ⟨rfl, rfl⟩] at hstep
      cases hstep
    | true =>
      obtain ⟨hv, hle, hdepth⟩ := hp.2 hlive
      obtain ⟨hlt, -⟩ := (hrefer _ _ _ hp.1 hsize).2 hv
      obtain ⟨labels, hlabels⟩ := LabelTable.exists_referenceAll hlt
      cases hafter : i.depthAfter f.depth with
      | ok after =>
        rw [show f.step (.instr i) = .ok _ from
          (Flow.emit_live hlive).2 ⟨rfl, after, labels, hafter, hlabels, rfl⟩] at hstep
        cases hstep
      | error e' =>
        have he : e' = e := by
          change f.emit i = _ at hstep
          unfold Flow.emit at hstep
          rw [if_pos hlive, hafter] at hstep
          cases hstep
          rfl
        subst he
        have hd := hd _ _ _ hp.1
        obtain ⟨hunder, hlack⟩ := Instr.of_depthAfter_eq_error (hd ▸ hle) hret hjump hafter
        refine .of_not_steady hunder fun hsteady => ?_
        rw [hdepth hsteady] at hlack
        omega
  · cases hlive : f.isLive with
    | false =>
      obtain ⟨-, rfl⟩ := (Flow.emit_dead hlive).1 hstep
      exact ⟨(hrefer _ _ _ hp.1 hsize).1, fun h => by rw [hlive] at h; cases h⟩
    | true =>
      obtain ⟨hv, hle, hdepth⟩ := hp.2 hlive
      obtain ⟨-, after, labels, hafter, hlabels, rfl⟩ := (Flow.emit_live hlive).1 hstep
      refine ⟨((hrefer _ _ _ hp.1 hsize).2 hv).2 labels hlabels, fun hpasses => ?_⟩
      have hends : i.endsFlow = false := by simpa using hpasses
      obtain ⟨hpops, hafter⟩ := Instr.depth_eq_of_passes hafter
      have hd := hd _ _ _ hp.1
      change (v && !i.endsFlow) = true ∧ (if i.endsFlow then 0 else after) ≤ m + i.pushes ∧
        (c.Steady → (if i.endsFlow then 0 else after) = m + i.pushes)
      rw [hv, hends]
      refine ⟨rfl, ?_, fun hsteady => ?_⟩
      · change after ≤ _
        omega
      · change after = _
        have := hdepth hsteady
        omega

/-- An instruction that names no label and demands no depth. -/
theorem step_meets_of {i : Instr}
    (hd : ∀ frame labels staged, R frame labels staged → d = m + i.pops)
    (hi : i.isStraight = true) (hends : i.endsFlow = false) :
    (Draft.emit i).Meets c.Permits (c.At R v d) fun _ => c.At R v (m + i.pushes) := by
  have htargets := Instr.targets_of_isStraight hi
  have hret : i.returnDepth? = none := by cases i <;> first | rfl | cases hends
  have hjump : i.isJump = false := Instr.isJump_of_passes (by simp [Instr.passes, hi, hends])
  refine (emit_meets hd (fun r hr => ?_) (fun hj => ?_) fun frame labels staged hR _ => ⟨hR, fun _ => ?_⟩).weaken
    fun _ frame f h => ?_
  · rw [hret] at hr
    cases hr
  · rw [hjump] at hj
    cases hj
  · rw [htargets]
    exact ⟨fun l hl => absurd hl List.not_mem_nil, fun labels' h => by cases h; exact hR⟩
  · rw [hends] at h
    exact h.mono (fun _ _ _ => id) fun hv => by simpa using hv

theorem step_meets (i : Instr) (m : Nat) (hi : i.isStraight = true) (hends : i.endsFlow = false) :
    (Draft.emit i).Meets c.Permits (c.At R v (m + i.pops)) fun _ => c.At R v (m + i.pushes) :=
  step_meets_of (fun _ _ _ _ => rfl) hi hends

/-- A return, which asks for exactly the value it returns. -/
theorem ret_meets (withValue : Bool) :
    (Draft.emit (.ret withValue)).Meets c.Permits (c.At R v withValue.toNat) fun _ =>
      c.At R false 0 := by
  have hemit : (Draft.emit (.ret withValue)).Meets c.Permits (c.At R v withValue.toNat) fun _ =>
      c.At R (v && false) (0 + 0) := by
    refine emit_meets (i := .ret withValue) (fun _ _ _ _ => (Nat.zero_add _).symm) (fun r hr => ?_)
      (fun hj => by cases hj) fun frame labels staged hR _ =>
        ⟨hR, fun _ => ⟨fun l hl => absurd hl List.not_mem_nil, fun labels' h => ?_⟩⟩
    · cases hr
      exact (Nat.zero_add _).symm
    · cases h
      exact hR
  rwa [Bool.and_false] at hemit

/-- A label, which control gets to by itself or by the branches to it. -/
theorem mark_meets {l : Label} {arrival : Arrival} {v' : Bool}
    (hlive : v = true → arrival ≠ .handler ∧ d = 0) (hv : v = true → v' = true)
    (hmark : ∀ frame labels staged, R frame labels staged → frame.labels.size ≤ labels.size →
      l.index < labels.size ∧ labels.isMarked l = false ∧
        (arrival ≠ .forward ∨ labels.isReferenced l = true → v' = true) ∧
          ∀ labels', labels.Grows labels' [l] [] → S frame labels' staged) :
    (Draft.mark l arrival).Meets c.Permits (c.At R v d) fun _ =>
      c.At S v' (Flow.entryDepth arrival) := by
  have henters {frame : Frame} {f : Flow} (hp : c.At R v d frame f) (hf : f.isLive = true) :
      arrival ≠ .handler ∧ f.depth = 0 := by
    obtain ⟨hvalid, hle, -⟩ := hp.2 hf
    obtain ⟨harrival, hd⟩ := hlive hvalid
    exact ⟨harrival, by omega⟩
  refine .directive (fun frame f e hp hsize hstep => ?_) fun frame f code g hp hsize hstep => ?_
  · obtain ⟨hlt, hfree, -⟩ := hmark _ _ _ hp.1 hsize
    obtain ⟨labels, hlabels⟩ := LabelTable.exists_mark hlt hfree
    rw [show f.step (.mark l arrival) = .ok _ from
      Flow.mark_eq_ok_iff.2 ⟨rfl, henters hp, labels, hlabels, rfl⟩] at hstep
    cases hstep
  · obtain ⟨-, -, labels, hlabels, rfl⟩ := Flow.mark_eq_ok_iff.1 hstep
    obtain ⟨-, -, hreach, hR⟩ := hmark _ _ _ hp.1 hsize
    refine ⟨hR labels (LabelTable.mark_grows hlabels).1, fun hafter => ⟨?_, Nat.le_refl _, fun _ => rfl⟩⟩
    simp only [Bool.or_eq_true, decide_eq_true_eq] at hafter
    rcases hafter with (hf | harrival) | href
    · exact hv (hp.2 hf).1
    · exact hreach (.inl harrival)
    · exact hreach (.inr href)

theorem endStatement_meets :
    (Draft.directive .endStatement).Meets c.Permits (c.At R v 0) fun _ => c.At R v 0 := by
  refine .directive (fun frame f e hp _ hstep => ?_) fun frame f code g hp _ hstep => ?_
  · rw [show f.step .endStatement = .ok _ from
      Flow.step_endStatement.2 ⟨fun hf => by have := (hp.2 hf).2.1; omega, rfl, rfl⟩] at hstep
    cases hstep
  · obtain ⟨-, -, rfl⟩ := Flow.step_endStatement.1 hstep
    exact hp

/-- Where control gets to, a return value is stored from here on. -/
theorem stageReturn_meets_of_live
    (hR : ∀ frame labels staged, R frame labels staged → S frame labels true) :
    (Draft.directive .stageReturn).Meets c.Permits
      (fun frame f => c.At R v d frame f ∧ f.isLive = true) fun _ => c.At S v d := by
  refine .directive (fun frame f e _ _ hstep => by cases hstep) fun frame f code g hp _ hstep => ?_
  obtain ⟨-, rfl⟩ := Flow.step_stageReturn hstep
  refine ⟨?_, hp.1.2⟩
  change S frame f.labels (f.hasStaged || f.isLive)
  rw [hp.2, Bool.or_true]
  exact hR _ _ _ hp.1.1

theorem stageReturn_meets_of_dead :
    (Draft.directive .stageReturn).Meets c.Permits
      (fun frame f => c.At R v d frame f ∧ ¬ f.isLive = true) fun _ => c.At R false d := by
  refine .directive (fun frame f e _ _ hstep => by cases hstep) fun frame f code g hp _ hstep => ?_
  obtain ⟨-, rfl⟩ := Flow.step_stageReturn hstep
  refine ⟨?_, fun hlive => absurd hlive hp.2⟩
  change R frame f.labels (f.hasStaged || f.isLive)
  rw [eq_false_of_ne_true hp.2, Bool.or_false]
  exact hp.1.1

/-- The end of a block that has no edge. -/
theorem endBlock_meets {b : Block} (hb : v = true → c.Dangles b) :
    (Draft.directive (.endBlock b.id)).Meets c.Permits (c.At R v d) fun _ => c.At R false 0 := by
  refine .directive (fun frame f e hp _ hstep => ?_) fun frame f code g hp _ hstep => ?_
  · change (if f.isLive then Except.error (LowerError.fallsOffBlock b.id) else .ok ([], f)) = _ at hstep
    split at hstep
    · next hf =>
      cases hstep
      refine ⟨rfl, rfl, fun _ => rfl, fun id hid => ?_⟩
      cases hid
      exact ⟨b, hb (hp.2 hf).1, rfl⟩
    · cases hstep
  · obtain ⟨hf, -, rfl⟩ := Flow.step_endBlock.1 hstep
    exact ⟨hp.1, fun h => by rw [hf] at h; cases h⟩

end

end Plan

end StackCode
