import StackCode.Proofs.Outline.Heads
import StackCode.Proofs.Refusal.Block

/-!
# Finished code is steady

Finished code finds the values it takes wherever control gets to (`Plan.Lowered.steady`), and no block
whose end control gets to lacks an edge (`Plan.Lowered.not_dangles`).  Execution follows the outline, and
where it does, the depth of the stack is known behind every statement: it is the depth that the next
operation asks for.
-/

namespace StackCode

variable {r : Reading} {code : List Instr}

/-! ## Depths along operations -/

namespace Follows

variable {pc depth : Nat} {ops : List Op}

/-- Where execution follows straight operations that control passes, they find what they take. -/
theorem runs_inv {is : List Instr} (his : ∀ i ∈ is, i.endsFlow = false)
    (h : Follows r code pc depth (is.map .run ++ ops)) :
    ∃ q after, Instr.depthThrough is depth = .ok after ∧ Follows r code q after ops := by
  induction is generalizing pc depth with
  | nil => exact ⟨pc, depth, rfl, h⟩
  | cons i is ih =>
    obtain ⟨hi, his⟩ := List.forall_mem_cons.1 his
    obtain ⟨q, j, d, -, -, -, hj, hdepth, hbehind⟩ := h.run_inv
    rw [← hj, Instr.endsFlow_erased] at hi
    obtain ⟨q', after, hthrough, hrest⟩ := ih his (hbehind hi)
    refine ⟨q', after, Instr.depthThrough_cons_iff.2 ⟨d, ?_, hthrough⟩, hrest⟩
    rw [← hj, Instr.depthAfter_erased]
    exact hdepth

theorem code_inv {is : List Instr} (his : ∀ i ∈ is, i.isPlain = true)
    (h : Follows r code pc depth (is.map (fun i => .run i.erased) ++ ops)) :
    ∃ q after, Instr.depthThrough is depth = .ok after ∧ Follows r code q after ops := by
  have hmap : is.map (fun i => Op.run i.erased) = is.map .run :=
    List.map_congr_left fun i hi => by rw [Instr.erased_of_isPlain (his i hi)]
  rw [hmap] at h
  exact h.runs_inv fun i hi => Instr.endsFlow_of_isPlain (his i hi)

theorem fragment_inv {α : Type} {x : Fragment α} (hx : x.IsPlain)
    (h : Follows r code pc depth (x.ops ++ ops)) :
    ∃ q after, Instr.depthThrough x.code depth = .ok after ∧ Follows r code q after ops :=
  h.code_inv hx

/-- A fragment before a place where the stack is empty leaves it so. -/
theorem lands_of_settle {α : Type} {x : Fragment α} (hx : x.IsPlain)
    (h : Follows r code pc depth (x.ops ++ .settle :: ops)) :
    x.Lands depth (fun _ => 0) ∧ ∃ q, Follows r code q 0 ops := by
  obtain ⟨q, after, hthrough, hsettle⟩ := h.fragment_inv hx
  obtain ⟨rfl, hrest⟩ := hsettle.settle_inv
  exact ⟨⟨0, hthrough, fun _ _ => rfl⟩, q, hrest⟩

end Follows

/-- From an empty stack, control gets through the operations to an empty stack. -/
def Level (r : Reading) (code : List Instr) (ops : List Op) : Prop :=
  ∀ pc k, Follows r code pc 0 (ops ++ k) → ∃ q, Follows r code q 0 k

namespace Level

variable {ops ops' : List Op}

theorem nil : Level r code [] := fun pc _ h => ⟨pc, h⟩

theorem append (h : Level r code ops) (h' : Level r code ops') : Level r code (ops ++ ops') := by
  intro pc k hfollows
  rw [List.append_assoc] at hfollows
  obtain ⟨q, hrest⟩ := h pc _ hfollows
  exact h' q k hrest

theorem flatMap {α : Type} {xs : List α} {f : α → List Op} (h : ∀ x, Level r code (f x)) :
    Level r code (xs.flatMap f) := by
  induction xs with
  | nil => exact nil
  | cons x xs ih =>
    rw [List.flatMap_cons]
    exact (h x).append ih

theorem runs (is : List Instr) (his : ∀ i ∈ is, i.endsFlow = false)
    (hdepth : Instr.depthThrough is 0 = .ok 0) : Level r code (is.map .run) := by
  intro pc k hfollows
  obtain ⟨q, after, hthrough, hrest⟩ := hfollows.runs_inv his
  rw [hdepth] at hthrough
  cases hthrough
  exact ⟨q, hrest⟩

/-- A fragment that has been written and leaves the depth as it is. -/
theorem fragment {x : Fragment Unit} (hx : x.IsPlain) (hsucceeds : x.Succeeds)
    (hcarries : x.Carries True 0 fun _ => 0) : Level r code x.ops := by
  intro pc k hfollows
  obtain ⟨q, after, hthrough, hrest⟩ := hfollows.fragment_inv hx
  obtain ⟨u, hu⟩ := hsucceeds
  obtain ⟨after', hthrough', hlands⟩ := hcarries.found trivial
  rw [hthrough] at hthrough'
  cases hthrough'
  rw [hlands u hu] at hrest
  exact ⟨q, hrest⟩

end Level

namespace Outline

variable {o : Outline}

theorem level_sequencePoint (span : Option Span) : Level r code (o.sequencePoint span) := by
  unfold sequencePoint
  split
  · next span =>
    split
    · exact .runs [.sequencePoint span] (by simp [Instr.endsFlow]) rfl
    · exact .nil
  · exact .nil

theorem level_callWithName {i : Intrinsic} (harity : i.arity = 2) (hreturns : i.returns = false)
    (name : Name) : Level r code (Fragment.callWithName i name).ops := by
  refine .fragment (Fragment.isPlain_callWithName _ _) (Fragment.succeeds_callWithName _ _) ?_
  have hcarries : (Fragment.callWithName i name).Carries True 0 _ :=
    Fragment.callWithName_carries harity name
  rw [hreturns] at hcarries
  exact hcarries

/-- What is done once per invocation leaves an empty stack. -/
theorem level_prologue (hinit : o.procedure.initLocals.Succeeds) : Level r code o.prologue := by
  unfold prologue
  refine .append (.append (.append (.append (.append ?_ ?_) ?_) ?_) ?_) ?_
  · split
    · exact .runs [.hiddenSequencePoint] (by simp [Instr.endsFlow]) rfl
    · exact .nil
  · split
    · exact .runs [.loadContext, .callIntrinsic .debugAssertNotNull]
        (by simp [Instr.endsFlow, Instr.callIntrinsic]) rfl
    · exact .nil
  · split
    · exact level_callWithName rfl rfl _
    · exact .nil
  · exact .fragment (o.procedure.isPlain_initLocals) hinit Procedure.initLocals_carries
  · unfold debugLocals
    split
    · next array _ =>
      split
      · exact .flatMap fun v => .runs [.loadLocal array, .constStr v.name, .callIntrinsic .indirectLocal, .storeTemp ⟨0⟩]
          (by simp [Instr.endsFlow, Instr.callIntrinsic]) rfl
      · exact .nil
    · exact .nil
  · unfold openingBrace
    split
    · split
      · exact (level_sequencePoint _).append (.runs [.nop] (by simp [Instr.endsFlow]) rfl)
      · exact .nil
    · exact .nil

end Outline

namespace Plan

variable {c : Plan} {pc : Nat} {k : List Op}

/-! ## Statements -/

/-- A value is there where it is kept and the stack is empty then. -/
theorem returned_lands {value : Option Expr} (hwrites : c.outline.Writes (.ret value))
    (h : Follows r code pc 0 (c.outline.returnValue value ++ k)) : c.Finds (.ret value) := by
  obtain ⟨ty, hty, hkeep⟩ := Fragment.succeeds_bind_iff.1 hwrites
  unfold Outline.returnValue Fragment.opsThen at h
  rw [hty, List.append_assoc] at h
  obtain ⟨q, after, hthrough, hfollows⟩ := h.fragment_inv (c.outline.isPlain_returned value)
  simp only [List.append_assoc] at hfollows
  obtain ⟨q', kept, hkept, hstage⟩ := hfollows.fragment_inv (c.outline.isPlain_keep ty)
  have hdepth : kept = c.outline.stages.toNat := by
    cases hstages : c.outline.stages with
    | true =>
      rw [hstages] at hstage
      obtain ⟨_, _, rest, -, -, -, rfl, hgoto⟩ := hstage.stage_inv
      obtain ⟨-, -, -, rfl, -⟩ := hgoto.goto_inv
      rfl
    | false =>
      rw [hstages] at hstage
      obtain ⟨-, -, -, rfl, -⟩ := hstage.goto_inv
      rfl
  -- the keeping of the value gets to its end from one depth only
  have hcarries : (c.outline.keep ty).Carries True ty.width _ := c.outline.keep_carries ty
  obtain ⟨after', hthrough', hlands⟩ := hcarries.found trivial
  obtain ⟨u, hu⟩ := hkeep
  rw [hlands u hu, ← hdepth] at hthrough'
  refine ⟨after, hthrough, fun ty' hty' => ?_⟩
  rw [hty] at hty'
  cases hty'
  exact Instr.depthThrough_inj hkept hthrough'

theorem thrown_lands {e : Expr} (hwrites : c.outline.Writes (.throw e))
    (h : Follows r code pc 0 ((c.procedure.throwValue e).ops ++ k)) : c.Finds (.throw e) := by
  obtain ⟨u, hu, -⟩ := Fragment.succeeds_bind_iff.1 hwrites
  have hu : (c.procedure.value e .value .thrown).result = .ok u := hu
  have hops : (c.procedure.throwValue e).ops =
      (c.procedure.value e .value .thrown).ops ++ [.run .throw] := by
    unfold Procedure.throwValue Fragment.ops
    rw [Fragment.bind_of_ok hu, List.map_append]
    rfl
  rw [hops, List.append_assoc] at h
  obtain ⟨q, after, hthrough, hfollows⟩ := h.fragment_inv (c.procedure.isPlain_value e _ _)
  obtain ⟨_, j, d, -, -, -, hj, hdepth, -⟩ := hfollows.run_inv
  rw [← Instr.depthAfter_erased, hj] at hdepth
  have hpops : 1 ≤ after := (Instr.depth_eq_of_passes hdepth).1
  have hle : after ≤ 1 := (c.procedure.value_carries (fun h : False => h.elim) e .value .thrown).le
    u hu 0 0 after (Nat.le_refl _) hthrough
  exact ⟨after, hthrough, fun _ _ => Nat.le_antisymm hle hpops⟩

/-- Static storage is asked for with the holder on the stack, and initialized from an empty stack. -/
theorem bindStatic_lands {d : StaticDecl} (hwrites : c.outline.Writes (.bindStatic d))
    (h : Follows r code pc 0 (c.outline.bindStatic d ++ .settle :: k)) :
    c.Finds (.bindStatic d) ∧ ∃ q, Follows r code q 0 k := by
  unfold Outline.bindStatic at h
  rw [List.append_assoc] at h
  obtain ⟨q, hbound⟩ := Level.fragment (c.procedure.isPlain_bindHolder d.target d.key) hwrites.1
    (Procedure.bindHolder_carries d.target d.key) pc _ h
  cases hinit : d.init with
  | none =>
    rw [hinit] at hbound
    refine ⟨fun init h => ?_, q, hbound.settle_inv.2⟩
    rw [hinit] at h
    cases h
  | some init =>
    rw [hinit] at hbound
    simp only [List.append_assoc] at hbound
    obtain ⟨q₁, after, hthrough, hasked⟩ := hbound.fragment_inv (c.procedure.isPlain_loadVar d.target)
    obtain ⟨q₂, asked, hask, hguard⟩ := hasked.fragment_inv (Fragment.isPlain_callIntrinsic _)
    obtain ⟨q₃, l, dest, -, -, -, rfl, hskip, hbody⟩ := hguard.guard_inv
    obtain ⟨q₄, inner, hinner, hsettle⟩ :=
      hbody.code_inv (c.outline.isPlain_staticInit d.target init)
    obtain ⟨rfl, -⟩ := hsettle.settle_inv
    obtain ⟨hpops, hasked⟩ := Instr.depth_eq_of_passes ((Instr.depthThrough_singleton _ _).symm.trans hask)
    have hafter : after = 1 := by
      change 1 ≤ after at hpops
      change 1 = after - 1 + 1 at hasked
      omega
    refine ⟨fun init' h => ?_, _, hskip.settle_inv.2⟩
    rw [hinit] at h
    cases h
    exact ⟨⟨after, hthrough, fun _ _ => hafter⟩, 0, hinner, fun _ _ => rfl⟩

theorem published_lands {y : Yield}
    (h : Follows r code pc 0 (c.outline.statementBody (.yield y) ++ k)) : c.Finds (.yield y) := by
  change Follows r code pc 0 ((c.procedure.publish y).ops ++
    Outline.setState (.suspendedAt y.index) ++ [.suspend y.index] ++ k) at h
  simp only [List.append_assoc] at h
  obtain ⟨q, after, hthrough, hstate⟩ := h.fragment_inv (c.procedure.isPlain_publish y)
  have hstate : Follows r code q after
      ([.constInt (GeneratorState.suspendedAt y.index).toInt, .storeState].map .run ++
        .suspend y.index :: k) := hstate
  obtain ⟨q', d, hset, hsuspend⟩ := hstate.runs_inv (by simp [Instr.endsFlow])
  obtain ⟨-, -, rfl, -⟩ := hsuspend.suspend_inv
  refine ⟨after, hthrough, fun _ _ => ?_⟩
  exact Instr.depthThrough_inj hset rfl

/-- Behind a statement that control passes, or is resumed behind, the stack is empty. -/
theorem statement_finds {s : Stmt} (hwrites : c.outline.Writes s)
    (h : Follows r code pc 0 (c.outline.statement s ++ k)) :
    c.Finds s ∧ (s.liveAfter false = false → s.liveAfter true = true → ∃ q, Follows r code q 0 k) := by
  unfold Outline.statement at h
  rw [List.append_assoc, List.append_assoc] at h
  obtain ⟨q, h⟩ := Outline.level_sequencePoint _ pc _ h
  have hlevel {ops : List Op} (hops : Level r code ops) (h : Follows r code q 0 (ops ++ .settle :: k)) :
      ∃ q, Follows r code q 0 k := by
    obtain ⟨q', hsettle⟩ := hops q _ h
    exact ⟨q', hsettle.settle_inv.2⟩
  cases s with
  | empty span =>
    refine ⟨trivial, fun _ _ => hlevel ?_ h⟩
    change Level r code (if span.isSome && c.options.sequencePoints then [.run .nop] else [])
    split
    · exact .runs [.nop] (by simp [Instr.endsFlow]) rfl
    · exact .nil
  | expr e =>
    obtain ⟨hlands, hrest⟩ := Follows.lands_of_settle (c.procedure.isPlain_discardValue e) h
    exact ⟨hlands, fun _ _ => hrest⟩
  | ret value => exact ⟨returned_lands hwrites h, fun _ h => absurd h Bool.false_ne_true⟩
  | throw e => exact ⟨thrown_lands hwrites h, fun _ h => absurd h Bool.false_ne_true⟩
  | declareFunction name => exact ⟨trivial, fun _ _ => hlevel (Outline.level_callWithName rfl rfl name) h⟩
  | declareType name => exact ⟨trivial, fun _ _ => hlevel (Outline.level_callWithName rfl rfl name) h⟩
  | bindGlobal id =>
    exact ⟨trivial, fun _ _ => hlevel (.fragment (c.procedure.isPlain_bindGlobal id) hwrites
      (Procedure.bindGlobal_carries id)) h⟩
  | defineConst name e =>
    obtain ⟨hlands, hrest⟩ := Follows.lands_of_settle (c.procedure.isPlain_defineConst name e) h
    exact ⟨hlands, fun _ _ => hrest⟩
  | bindStatic d =>
    obtain ⟨hlands, hrest⟩ := bindStatic_lands hwrites h
    exact ⟨hlands, fun _ _ => hrest⟩
  | unset target =>
    obtain ⟨hlands, hrest⟩ := Follows.lands_of_settle (c.procedure.isPlain_unset target) h
    exact ⟨hlands, fun _ _ => hrest⟩
  | yield y => exact ⟨published_lands h, fun h => absurd h Bool.false_ne_true.symm⟩
  | declare => exact ⟨trivial, fun _ _ => hlevel .nil h⟩

/-! ## Blocks -/

theorem rest_cons (b : Block) (s : Stmt) (ss : List Stmt) :
    c.outline.rest b (s :: ss) = c.outline.statement s ++ c.outline.rest b ss := by
  unfold Outline.rest Outline.statements
  rw [List.flatMap_cons, List.append_assoc]

/-- Control that gets to some statements of a block finds what they take, and gets behind them. -/
theorem statements_find {b : Block} {ss : List Stmt} {live : Bool}
    (hwrites : ∀ s ∈ ss, c.outline.Writes s)
    (hresumes : ∀ index front back, c.outline.rest b ss = front ++ .suspend index :: back →
      FollowsResumed r code index back)
    (hlive : live = true → ∃ pc, Follows r code pc 0 (c.outline.rest b ss)) :
    c.FindsThrough live ss ∧ (Stmt.liveThrough live ss = true →
      ∃ pc, Follows r code pc 0 (c.outline.blockEnd b)) := by
  induction ss generalizing live with
  | nil => exact ⟨trivial, hlive⟩
  | cons s ss ih =>
    obtain ⟨hs, hss⟩ := List.forall_mem_cons.1 hwrites
    rw [rest_cons] at hresumes hlive
    have hfinds (h : live = true) : c.Finds s := by
      obtain ⟨pc, hpc⟩ := hlive h
      exact (statement_finds hs hpc).1
    have hresumes' (index : Int) (front back : List Op)
        (h : c.outline.rest b ss = front ++ .suspend index :: back) :
        FollowsResumed r code index back :=
      hresumes index (c.outline.statement s ++ front) back (by rw [h, List.append_assoc])
    have hbehind (h : s.liveAfter live = true) : ∃ pc, Follows r code pc 0 (c.outline.rest b ss) := by
      cases hyield : s.liveAfter false with
      | true =>
        obtain ⟨y, rfl⟩ : ∃ y, s = .yield y := by
          cases s <;> first | exact ⟨_, rfl⟩ | cases hyield
        obtain ⟨l, q, -, -, hfollows⟩ := hresumes y.index
          (c.outline.sequencePoint (Stmt.yield y).span ++
            ((c.procedure.publish y).ops ++ Outline.setState (.suspendedAt y.index)))
          (.settle :: c.outline.rest b ss)
          (by simp only [Outline.statement, Outline.statementBody, List.append_assoc, List.cons_append,
            List.nil_append, outline])
        exact ⟨q + 1, hfollows.settle_inv.2⟩
      | false =>
        cases live with
        | false =>
          rw [hyield] at h
          cases h
        | true =>
          obtain ⟨pc, hpc⟩ := hlive rfl
          exact (statement_finds hs hpc).2 hyield h
    obtain ⟨hthrough, hend⟩ := ih hss hresumes' hbehind
    exact ⟨⟨hfinds, hthrough⟩, hend⟩

/-- Control that gets to an edge finds what the edge takes, and somewhere to go. -/
theorem edge_finds {e : Edge} (h : Follows r code pc 0 (c.outline.edge e)) :
    c.FindsEdge e ∧ e ≠ .none := by
  cases e with
  | branch condition onTrue onFalse =>
    obtain ⟨q, after, hthrough, hfork⟩ := h.fragment_inv (c.procedure.isPlain_value condition _ _)
    refine ⟨⟨after, hthrough, fun _ _ => ?_⟩, nofun⟩
    split at hfork
    · obtain ⟨_, j, d, -, -, -, hj, hdepth, hgoto⟩ := hfork.run_inv
      rw [← Instr.depthAfter_erased, hj] at hdepth
      have hflow : j.endsFlow = false := by
        rw [← Instr.endsFlow_erased, hj]
        rfl
      obtain ⟨-, -, -, rfl, -⟩ := (hgoto hflow).goto_inv
      obtain ⟨hpops, hafter⟩ := Instr.depth_eq_of_passes hdepth
      change 1 ≤ after at hpops
      change 0 = after - 1 + 0 at hafter
      change after = 1
      omega
    · obtain ⟨-, -, -, -, rfl, -⟩ := hfork.fork_inv
      rfl
  | switch selector cases default =>
    obtain ⟨q, after, hthrough, hselect⟩ := h.fragment_inv (c.procedure.isPlain_value selector _ _)
    obtain ⟨-, -, -, -, rfl, -⟩ := hselect.select_inv
    exact ⟨⟨1, hthrough, fun _ _ => rfl⟩, nofun⟩
  | none => exact (h.not_dangle).elim
  | goto _ | protect _ _ _ | leave _ => exact ⟨trivial, nofun⟩

/-- A handler takes the exception from the stack. -/
theorem receive_follows {b : Block} (hwrites : c.outline.WritesBlock b) (hcaught : (c.caught? b.id).isSome = true)
    (h : Follows r code pc 1 (c.outline.receive b.id ++ k)) : ∃ q, Follows r code q 0 k := by
  have hruns (is : List Instr) (his : ∀ i ∈ is, i.endsFlow = false)
      (hdepth : Instr.depthThrough is 1 = .ok 0) (h : Follows r code pc 1 (is.map .run ++ k)) :
      ∃ q, Follows r code q 0 k := by
    obtain ⟨q, after, hthrough, hrest⟩ := h.runs_inv his
    rw [hdepth] at hthrough
    cases hthrough
    exact ⟨q, hrest⟩
  unfold Outline.receive at h
  rw [show c.outline.caught = c.caught? from rfl] at h
  obtain ⟨exception, hexception⟩ := Option.isSome_iff_exists.1 hcaught
  rw [hexception] at h
  cases exception with
  | none => exact hruns [.pop] (by simp [Instr.endsFlow]) rfl h
  | some id =>
    obtain ⟨place, hplace⟩ := hwrites.receive id hexception
    change Follows r code pc 1 (c.outline.storePending id ++ k) at h
    unfold Outline.storePending at h
    rw [hplace] at h
    cases place with
    | slot id => exact hruns [.storeLocal id] (by simp [Instr.endsFlow]) rfl h
    | entry array key ty =>
      exact hruns [.storeTemp ⟨0⟩, .loadLocal array, .constStr key, .loadTemp ⟨0⟩,
        .callIntrinsic .arraySet] (by simp [Instr.endsFlow, Instr.callIntrinsic]) rfl h

section
variable {labels : LabelTable} {ds : List Directive} {final : Frame} {g : Flow} {b : Block}
  (hmade : c.Made) (hsize : labels.size = c.bound) (h : c.Lowered labels ds final code g)
  (hb : b ∈ c.blocks)
include hmade hsize h hb

/-- Control that gets to the statements of a block finds an empty stack there. -/
theorem Lowered.enters (hreach : c.reachesBlock b = true) :
    ∃ pc, Follows (c.reading final) code pc 0 (c.outline.rest b b.statements) := by
  obtain ⟨hentry, hbody, hhas⟩ := h.blocks hmade hsize
  obtain ⟨hwrites, hinit⟩ := h.writes hmade hsize
  by_cases hk : b.kind = .start
  · have hreceive : c.outline.receive b.id = [] := by
      unfold Outline.receive
      rw [show c.outline.caught b.id = none from ((arrives_start hmade hb hk) rfl).2]
    have hops : c.outline.opsAt .body = c.outline.rest b b.statements := by
      change (c.procedure.graph.block? c.procedure.graph.start).elim [] c.outline.block = _
      rw [← (hmade.kind_eq_start_iff hb).1 hk, hmade.block? b hb]
      change c.outline.receive b.id ++ _ = _
      rw [hreceive, List.nil_append]
    cases hgen : c.procedure.isGenerator with
    | true =>
      obtain ⟨l, q, -, -, hfollows⟩ := hbody hgen
      rw [hops] at hfollows
      exact ⟨q + 1, hfollows⟩
    | false =>
      have heq : c.outline.entry = c.outline.prologue ++ c.outline.rest b b.statements := by
        unfold Outline.entry
        rw [show c.outline.procedure.isGenerator = false from hgen, if_neg Bool.false_ne_true, hops]
      rw [heq] at hentry
      exact Outline.level_prologue hinit 0 _ hentry
  · -- control gets to another block by its label
    have hlabelled : (c.label? b.id).isSome = true := by
      unfold reachesBlock at hreach
      split at hreach
      · next hexit =>
        obtain ⟨b', hb', hedge⟩ := List.any_eq_true.1 hreach
        simp only [Bool.and_eq_true, decide_eq_true_eq] at hedge
        obtain ⟨-, l, hl⟩ := hmade.target hb' hedge.2
        rw [(hmade.kind_eq_exit_iff hb).1 hexit, hl]
        rfl
      · rw [decide_eq_false hk, Bool.false_or] at hreach
        exact hreach
    obtain ⟨l, hl⟩ := Option.isSome_iff_exists.1 hlabelled
    obtain ⟨f, start, hfollows, hlabel⟩ := hhas b hb
    have hblock := hfollows.follows hreach
    rw [(hlabel l hl).1] at hblock
    cases hcaught : c.caught? b.id with
    | none =>
      rw [entryDepth_eq_zero hcaught] at hblock
      unfold Outline.block Outline.receive at hblock
      rw [show c.outline.caught b.id = none from hcaught] at hblock
      exact ⟨start, hblock⟩
    | some exception =>
      have hsome : (c.caught? b.id).isSome = true := by
        rw [hcaught]
        rfl
      rw [show c.outline.entryDepth (.block b.id) = 1 from if_pos hsome] at hblock
      exact receive_follows (hwrites b hb) hsome hblock

theorem Lowered.finds : c.FindsThrough (c.reachesBlock b) b.statements ∧
    (Stmt.liveThrough (c.reachesBlock b) b.statements = true →
      ∃ pc, Follows (c.reading final) code pc 0 (c.outline.blockEnd b)) := by
  obtain ⟨f, start, hfollows, -⟩ := (h.blocks hmade hsize).2.2 b hb
  refine statements_find ((h.writes hmade hsize).1 b hb).statements ?_ (h.enters hmade hsize hb)
  intro index front back hback
  refine hfollows.resumed index (c.outline.receive b.id ++ front) back ?_
  unfold Outline.block
  rw [hback, List.append_assoc]

theorem Lowered.edge_finds (hk : b.kind ≠ .exit) (hreach : c.reachesEdge b = true) :
    c.FindsEdge b.edge ∧ b.edge ≠ .none := by
  rw [reachesEdge_eq hk] at hreach
  obtain ⟨pc, hpc⟩ := (h.finds hmade hsize hb).2 hreach
  unfold Outline.blockEnd at hpc
  rw [if_neg hk] at hpc
  exact Plan.edge_finds hpc

end

section
variable {labels : LabelTable} {ds : List Directive} {final : Frame} {g : Flow}
  (hmade : c.Made) (hsize : labels.size = c.bound) (h : c.Lowered labels ds final code g)
include hmade hsize h

/-- Finished code finds the values it takes. -/
theorem Lowered.steady : c.Steady where
  statements _ hb := (h.finds hmade hsize hb).1
  edge _ hb hk hreach := (h.edge_finds hmade hsize hb hk hreach).1

/-- In finished code, control that gets to the end of a block has an edge to follow. -/
theorem Lowered.not_dangles (b : Block) : ¬ c.Dangles b := by
  rintro ⟨hb, hk, hreach, hnone⟩
  exact (h.edge_finds hmade hsize hb hk hreach).2 hnone

end

end Plan

end StackCode
