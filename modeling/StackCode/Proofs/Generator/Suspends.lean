import StackCode.Proofs.Outline.Reading

/-!
# Where a generator sets its state

Behind the dispatch a generator sets its state in two ways: at a suspension point to its index, and
at the exit to closed.  Both times the return follows, and behind a suspension the resume label; no
other code sets the state or returns.  Main statements: `Plan.blocksFrom_setsStates`,
`SetsStates.assembles`, `StateCode.of_store`, `StateCode.of_ret`.
-/

namespace StackCode

/-! ## Quiet code -/

/-- Neither sets the state of the generator nor returns. -/
def Instr.isQuiet : Instr → Bool
  | .storeState | .ret _ => false
  | _ => true

@[simp] theorem Instr.isQuiet_erased (i : Instr) : i.erased.isQuiet = i.isQuiet := by
  cases i <;> rfl

theorem Instr.isQuiet_of_isNote {i : Instr} (h : i.isNote = true) : i.isQuiet = true := by
  cases i <;> first | rfl | cases h

theorem Instr.isQuiet_of_isPlain {i : Instr} (h : i.isPlain = true) : i.isQuiet = true := by
  cases i <;> first | rfl | cases h

def Directive.isQuiet : Directive → Bool
  | .instr i => i.isQuiet
  | .returnPoint _ _ => false
  | _ => true

def Op.isQuiet : Op → Bool
  | .run i => i.isQuiet
  | .guard body => body.all Instr.isQuiet
  | .suspend _ => false
  | _ => true

theorem Fragment.IsPlain.isQuiet_ops {α : Type} {x : Fragment α} (hx : x.IsPlain) :
    ∀ op ∈ x.ops, op.isQuiet = true := by
  intro op hop
  obtain ⟨i, hi, rfl⟩ := List.mem_map.1 hop
  exact (Instr.isQuiet_erased i).trans (Instr.isQuiet_of_isPlain (hx i hi))

theorem Fragment.IsPlain.isQuiet_code {α : Type} {x : Fragment α} (hx : x.IsPlain) :
    ∀ d ∈ x.code.map Directive.instr, d.isQuiet = true := by
  intro d hd
  obtain ⟨i, hi, rfl⟩ := List.mem_map.1 hd
  exact Instr.isQuiet_of_isPlain (hx i hi)

/-- Quiet operations are rendered by quiet directives. -/
theorem Renders.isQuiet {r : Reading} {v w : Bool} {ds : List Directive} {ops : List Op}
    (h : Renders r v ds ops w) (hops : ∀ op ∈ ops, op.isQuiet = true) :
    ∀ d ∈ ds, d.isQuiet = true := by
  induction h with
  | nil => exact nofun
  | note hi _ ih => exact List.forall_mem_cons.2 ⟨Instr.isQuiet_of_isNote hi, ih hops⟩
  | @run _ _ i _ _ _ _ ih =>
    obtain ⟨hop, hops⟩ := List.forall_mem_cons.1 hops
    exact List.forall_mem_cons.2 ⟨(Instr.isQuiet_erased i).symm.trans hop, ih hops⟩
  | stage _ _ ih =>
    have hrest := ih (List.forall_mem_cons.1 hops).2
    exact List.forall_mem_cons.2 ⟨rfl, List.forall_mem_cons.2 ⟨rfl, hrest⟩⟩
  | @guard _ _ _ body _ _ _ _ _ ihb ih =>
    obtain ⟨hbody, hops⟩ := List.forall_mem_cons.1 hops
    have hinner : ∀ op ∈ body.map fun i => Op.run i.erased, op.isQuiet = true := by
      intro op hop
      obtain ⟨i, hi, rfl⟩ := List.mem_map.1 hop
      exact (Instr.isQuiet_erased i).trans (List.all_eq_true.1 hbody i hi)
    refine List.forall_mem_cons.2 ⟨rfl, List.forall_mem_append.2 ⟨ihb hinner, ?_⟩⟩
    exact List.forall_mem_cons.2 ⟨rfl, ih hops⟩
  | enter _ _ _ ih => exact List.forall_mem_cons.2 ⟨rfl, ih (List.forall_mem_cons.1 hops).2⟩
  | goto _ _ _ ih => exact List.forall_mem_cons.2 ⟨rfl, ih (List.forall_mem_cons.1 hops).2⟩
  | suspend => cases (List.forall_mem_cons.1 hops).1
  | settle _ ih => exact List.forall_mem_cons.2 ⟨rfl, ih (List.forall_mem_cons.1 hops).2⟩

theorem RendersEnd.isQuiet {r : Reading} {next : Option Spot} {v w : Bool} {ds : List Directive}
    {ops : List Op} (h : RendersEnd r next v ds ops w) (hops : ∀ op ∈ ops, op.isQuiet = true) :
    ∀ d ∈ ds, d.isQuiet = true := by
  obtain ⟨front, back⟩ := h
  refine List.forall_mem_append.2 ⟨front.isQuiet (List.forall_mem_append.1 hops).1, ?_⟩
  intro d hd
  cases back with
  | fall => cases hd
  | forkJump =>
    rcases List.mem_cons.1 hd with rfl | hd
    · rfl
    · cases List.mem_singleton.1 hd
      rfl
  | _ =>
    cases List.mem_singleton.1 hd
    rfl

namespace Outline

variable (o : Outline)

theorem isQuiet_sequencePoint (span : Option Span) :
    ∀ op ∈ o.sequencePoint span, op.isQuiet = true := by
  unfold sequencePoint
  cases span with
  | none => exact nofun
  | some span =>
    simp only
    split
    · exact List.forall_mem_singleton.2 rfl
    · exact nofun

theorem isQuiet_returnValue (value : Option Expr) : ∀ op ∈ o.returnValue value, op.isQuiet = true := by
  unfold returnValue Fragment.opsThen
  refine List.forall_mem_append.2 ⟨(o.isPlain_returned value).isQuiet_ops, ?_⟩
  cases (o.returned value).result with
  | error e => exact nofun
  | ok ty =>
    have hkeep := (o.isPlain_keep ty).isQuiet_ops
    refine List.forall_mem_append.2 ⟨List.forall_mem_append.2 ⟨hkeep, ?_⟩,
      List.forall_mem_singleton.2 rfl⟩
    split
    · exact List.forall_mem_singleton.2 rfl
    · exact nofun

theorem isQuiet_bindStatic (d : StaticDecl) : ∀ op ∈ o.bindStatic d, op.isQuiet = true := by
  unfold bindStatic
  refine List.forall_mem_append.2 ⟨(o.procedure.isPlain_bindHolder _ _).isQuiet_ops, ?_⟩
  cases d.init with
  | none => exact nofun
  | some init =>
    have hload := (o.procedure.isPlain_loadVar d.target).isQuiet_ops
    have hcheck := (Fragment.isPlain_callIntrinsic .staticIsInitialized).isQuiet_ops
    refine List.forall_mem_append.2 ⟨List.forall_mem_append.2 ⟨hload, hcheck⟩,
      List.forall_mem_singleton.2 (List.all_eq_true.2 fun i hi => ?_)⟩
    exact Instr.isQuiet_of_isPlain (o.isPlain_staticInit _ _ i hi)

theorem isQuiet_throwValue (e : Expr) :
    ∀ op ∈ (o.procedure.throwValue e).ops, op.isQuiet = true := by
  intro op hop
  obtain ⟨i, hi, rfl⟩ := List.mem_map.1 hop
  have hcode : ∀ i ∈ (o.procedure.throwValue e).code, i.isQuiet = true := by
    refine Fragment.forall_code_bind (fun i hi => ?_) fun _ => List.forall_mem_singleton.2 rfl
    exact Instr.isQuiet_of_isPlain (o.procedure.isPlain_value e _ _ i hi)
  exact (Instr.isQuiet_erased i).trans (hcode i hi)

theorem isQuiet_statementBody {s : Stmt} (hs : s.yieldIndex? = none) :
    ∀ op ∈ o.statementBody s, op.isQuiet = true := by
  cases s with
  | empty span =>
    change ∀ op ∈ (if span.isSome && o.options.sequencePoints then [Op.run .nop] else []),
      op.isQuiet = true
    split
    · exact List.forall_mem_singleton.2 rfl
    · exact nofun
  | expr e => exact (o.procedure.isPlain_discardValue e).isQuiet_ops
  | ret value => exact o.isQuiet_returnValue value
  | throw e => exact o.isQuiet_throwValue e
  | declareFunction name => exact (Fragment.isPlain_callWithName _ _).isQuiet_ops
  | declareType name => exact (Fragment.isPlain_callWithName _ _).isQuiet_ops
  | bindGlobal id => exact (o.procedure.isPlain_bindGlobal id).isQuiet_ops
  | defineConst name e => exact (o.procedure.isPlain_defineConst name e).isQuiet_ops
  | bindStatic d => exact o.isQuiet_bindStatic d
  | unset target => exact (o.procedure.isPlain_unset target).isQuiet_ops
  | yield y => cases hs
  | declare => exact nofun

theorem isQuiet_statement {s : Stmt} (hs : s.yieldIndex? = none) :
    ∀ op ∈ o.statement s, op.isQuiet = true :=
  List.forall_mem_append.2 ⟨List.forall_mem_append.2
    ⟨o.isQuiet_sequencePoint s.span, o.isQuiet_statementBody hs⟩, List.forall_mem_singleton.2 rfl⟩

theorem isQuiet_storePending (id : LocalId) : ∀ op ∈ o.storePending id, op.isQuiet = true := by
  unfold storePending
  split
  · exact List.forall_mem_singleton.2 rfl
  · next array key ty _ =>
    have hkey := (Place.isPlain_pushKey (.entry array key ty)).isQuiet_ops
    refine List.forall_mem_append.2 ⟨List.forall_mem_append.2
      ⟨List.forall_mem_singleton.2 rfl, hkey⟩, ?_⟩
    exact List.forall_mem_cons.2 ⟨rfl, List.forall_mem_singleton.2 rfl⟩
  · exact nofun

theorem isQuiet_receive (b : BlockId) : ∀ op ∈ o.receive b, op.isQuiet = true := by
  unfold receive
  split
  · exact o.isQuiet_storePending _
  · exact List.forall_mem_singleton.2 rfl
  · exact nofun

theorem isQuiet_edge (e : Edge) : ∀ op ∈ o.edge e, op.isQuiet = true := by
  cases e with
  | branch condition onTrue onFalse =>
    have hvalue := (o.procedure.isPlain_value condition .bool .branchCondition).isQuiet_ops
    refine List.forall_mem_append.2 ⟨hvalue, ?_⟩
    split
    · exact List.forall_mem_cons.2 ⟨rfl, List.forall_mem_singleton.2 rfl⟩
    · exact List.forall_mem_singleton.2 rfl
  | switch selector cases default =>
    have hvalue := (o.procedure.isPlain_value selector .int .switchSelector).isQuiet_ops
    exact List.forall_mem_append.2 ⟨hvalue, List.forall_mem_singleton.2 rfl⟩
  | protect body handler exception =>
    exact List.forall_mem_cons.2 ⟨rfl, List.forall_mem_singleton.2 rfl⟩
  | goto | leave | none => exact List.forall_mem_singleton.2 rfl

end Outline

/-! ## Drafts that set the state -/

/-- Directives that set the state where the generator stops: to the index of a suspension point, in
front of its resume label, or to closed. -/
inductive SetsStates (points : List (Int × Label)) : List Directive → Prop
  | nil : SetsStates points []
  | quiet {d : Directive} {ds : List Directive} (hd : d.isQuiet = true)
      (rest : SetsStates points ds) : SetsStates points (d :: ds)
  | suspend {index : Int} {l : Label} {ds : List Directive} (hl : (index, l) ∈ points)
      (rest : SetsStates points ds) :
      SetsStates points (.instr (.constInt index) :: .instr .storeState :: .instr (.ret false) ::
        .mark l .forward :: ds)
  | close {ds : List Directive} (rest : SetsStates points ds) :
      SetsStates points (.instr (.constInt GeneratorState.closed.toInt) :: .instr .storeState ::
        .instr (.ret false) :: ds)

namespace SetsStates

variable {points : List (Int × Label)} {ds ds' : List Directive}

theorem append (h : SetsStates points ds) (h' : SetsStates points ds') :
    SetsStates points (ds ++ ds') := by
  induction h with
  | nil => exact h'
  | quiet hd _ ih => exact .quiet hd ih
  | suspend hl _ ih => exact .suspend hl ih
  | close _ ih => exact .close ih

theorem of_isQuiet (h : ∀ d ∈ ds, d.isQuiet = true) : SetsStates points ds := by
  induction ds with
  | nil => exact .nil
  | cons d ds ih =>
    obtain ⟨hd, hds⟩ := List.forall_mem_cons.1 h
    exact .quiet hd (ih hds)

end SetsStates

namespace Plan

variable {c : Plan} {frame frame' : Frame} {ds : List Directive} {u : Unit}

theorem statement_setsStates (hmade : c.Made) (hgen : c.procedure.isGenerator = true) {s : Stmt}
    (hfits : frame.Fits c)
    (h : (c.statement s).Gives frame ds frame' u) : SetsStates c.resume.points ds := by
  cases s with
  | yield y =>
    unfold statement at h
    obtain ⟨_, mid, _, _, hpoint, h₁, rfl⟩ := Draft.gives_bind_iff.1 h
    obtain ⟨rfl, hrenders⟩ := sequencePoint_renders hpoint
    obtain ⟨_, mid', _, _, hyield, hend, rfl⟩ := Draft.gives_bind_iff.1 h₁
    obtain ⟨rfl, l, hl, rfl⟩ := yieldValue_gives hyield
    obtain ⟨rfl, rfl⟩ := Draft.gives_directive_iff.1 hend
    have hquiet := c.outline.isQuiet_sequencePoint (Stmt.yield y).span
    have hpublish := (c.procedure.isPlain_publish y).isQuiet_code
    refine (SetsStates.of_isQuiet ((hrenders (c.reading frame') false).isQuiet hquiet)).append ?_
    refine ((SetsStates.of_isQuiet hpublish).append
      (.suspend ((mem_points_iff hmade hgen).2 hl) .nil)).append ?_
    exact .quiet rfl .nil
  | _ =>
    have hrenders := (statement_renders hfits h).renders (c.reading frame') false
      (reading_covers (.refl _)) nofun
    exact .of_isQuiet (hrenders.isQuiet (c.outline.isQuiet_statement rfl))

theorem statements_setsStates (hmade : c.Made) (hgen : c.procedure.isGenerator = true)
    {ss : List Stmt} (hfits : frame.Fits c)
    (h : (ss.forM c.statement).Gives frame ds frame' u) : SetsStates c.resume.points ds := by
  induction ss generalizing frame ds with
  | nil =>
    obtain ⟨rfl, -, -⟩ := Draft.gives_pure_iff.1 h
    exact .nil
  | cons s ss ih =>
    obtain ⟨_, mid, ds₁, ds₂, hs, hss, rfl⟩ := Draft.gives_bind_iff.1 h
    exact (statement_setsStates hmade hgen hfits hs).append (ih (statement_renders hfits hs).fits hss)

theorem enterBlock_setsStates {b : Block} (h : (c.enterBlock b).Gives frame ds frame' u) :
    SetsStates c.resume.points ds := by
  obtain ⟨-, hlabel⟩ := enterBlock_gives h
  split at hlabel
  · subst hlabel
    exact .nil
  · obtain ⟨rest, rfl, -, hrest⟩ := hlabel
    have hquiet := (hrest (c.reading frame') false).isQuiet (c.outline.isQuiet_receive b.id)
    exact .quiet rfl (.of_isQuiet hquiet)

theorem blockEnd_setsStates (hmade : c.Made) (hgen : c.procedure.isGenerator = true) {b : Block}
    (hb : b ∈ c.blocks) {next : Option BlockId} (h : (c.blockEnd b next).Gives frame ds frame' u) :
    SetsStates c.resume.points ds := by
  unfold blockEnd at h
  by_cases hk : b.kind = .exit
  · rw [if_pos hk, hgen, if_pos rfl] at h
    obtain ⟨rfl, rfl⟩ := exitGenerator_gives h
    refine (SetsStates.of_isQuiet ?_).append (.close .nil)
    intro d hd
    obtain ⟨l, -, rfl⟩ := Option.map_eq_some_iff.1 (Option.mem_toList.1 hd)
    rfl
  · rw [if_neg hk] at h
    obtain ⟨rfl, hrenders⟩ := edge_renders h
    have hrenders := hrenders (c.reading frame') _ (reading_covers (.refl _))
      (reading_admits hmade hb hk)
    exact .of_isQuiet (hrenders.isQuiet (c.outline.isQuiet_edge b.edge))

/-- The code of blocks sets the state where the generator stops. -/
theorem blocksFrom_setsStates (hmade : c.Made) (hgen : c.procedure.isGenerator = true)
    {bs : List Block} (hbs : ∀ b ∈ bs, b ∈ c.blocks ∧ b.kind ≠ .start) (hfits : frame.Fits c)
    (h : (c.blocksFrom bs).Gives frame ds frame' u) : SetsStates c.resume.points ds := by
  induction bs generalizing frame ds with
  | nil =>
    obtain ⟨rfl, -, -⟩ := Draft.gives_pure_iff.1 h
    exact .nil
  | cons b bs ih =>
    obtain ⟨⟨hb, hk⟩, hbs⟩ := List.forall_mem_cons.1 hbs
    obtain ⟨_, mid, ds₁, ds₂, hblock, hrest, rfl⟩ := Draft.gives_bind_iff.1 h
    refine SetsStates.append ?_ (ih hbs (block_sound hmade hb hfits hblock).2.1 hrest)
    obtain ⟨mid₁, mid₂, mid₃, d₁, d₂, d₃, d₄, rfl, h₁, -, h₂, hfits₂, h₃, h₄⟩ :=
      block_parts hfits hblock
    rw [if_neg hk] at h₁
    obtain ⟨rfl, -, -⟩ := Draft.gives_pure_iff.1 h₁
    exact (enterBlock_setsStates h₂).append
      ((statements_setsStates hmade hgen hfits₂ h₃).append (blockEnd_setsStates hmade hgen hb h₄))

end Plan

/-! ## Code that sets the state -/

/-- Code that sets the state where the generator stops. -/
inductive StateCode (points : List (Int × Label)) : List Instr → Prop
  | nil : StateCode points []
  | quiet {i : Instr} {code : List Instr} (hi : i.isQuiet = true) (rest : StateCode points code) :
      StateCode points (i :: code)
  | suspend {index : Int} {l : Label} {code : List Instr} (hl : (index, l) ∈ points)
      (rest : StateCode points code) :
      StateCode points (.constInt index :: .storeState :: .ret false :: .markLabel l :: code)
  | close {code : List Instr} (rest : StateCode points code) :
      StateCode points (.constInt GeneratorState.closed.toInt :: .storeState :: .ret false :: code)

theorem StateCode.append {points : List (Int × Label)} {code code' : List Instr}
    (h : StateCode points code) (h' : StateCode points code') : StateCode points (code ++ code') := by
  induction h with
  | nil => exact h'
  | quiet hi _ ih => exact .quiet hi ih
  | suspend hl _ ih => exact .suspend hl ih
  | close _ ih => exact .close ih

theorem StateCode.of_isQuiet {points : List (Int × Label)} {code : List Instr}
    (h : ∀ i ∈ code, i.isQuiet = true) : StateCode points code := by
  induction code with
  | nil => exact .nil
  | cons i code ih =>
    obtain ⟨hi, hcode⟩ := List.forall_mem_cons.1 h
    exact .quiet hi (ih hcode)

/-- The three instructions where a generator stops are all there, or, in dead code, none of them. -/
theorem stop_assembles {f g : Flow} {index : Int} {ds : List Directive} {code : List Instr}
    (ha : Assembles f (.instr (.constInt index) :: .instr .storeState :: .instr (.ret false) :: ds)
      code g) :
    ∃ front f' code', (front = [.constInt index, .storeState, .ret false] ∨ front = []) ∧
      Assembles f' ds code' g ∧ code = front ++ code' := by
  obtain ⟨_, f₁, _, h₁, ha₁, rfl⟩ := Assembles.cons_iff.1 ha
  obtain ⟨_, f₂, _, h₂, ha₂, rfl⟩ := Assembles.cons_iff.1 ha₁
  obtain ⟨_, f₃, code', h₃, ha₃, rfl⟩ := Assembles.cons_iff.1 ha₂
  cases hf : f.isLive with
  | true =>
    obtain ⟨rfl, _, hpass₁⟩ := Flow.step_live hf h₁
    obtain ⟨rfl, _, hpass₂⟩ := Flow.step_live hpass₁.isLive h₂
    obtain ⟨rfl, -⟩ := Flow.step_live hpass₂.isLive h₃
    exact ⟨_, f₃, code', .inl rfl, ha₃, rfl⟩
  | false =>
    obtain ⟨rfl, rfl⟩ := (Flow.emit_dead hf).1 h₁
    obtain ⟨rfl, rfl⟩ := (Flow.emit_dead hf).1 h₂
    obtain ⟨rfl, rfl⟩ := (Flow.emit_dead hf).1 h₃
    exact ⟨[], _, code', .inr rfl, ha₃, rfl⟩

theorem Flow.isQuiet_step {f f' : Flow} {d : Directive} {instrs : List Instr}
    (hd : d.isQuiet = true) (h : f.step d = .ok (instrs, f')) :
    ∀ i ∈ instrs, i.isQuiet = true := by
  cases d with
  | instr i =>
    cases hf : f.isLive with
    | true =>
      obtain ⟨rfl, -⟩ := Flow.step_live hf h
      exact List.forall_mem_singleton.2 hd
    | false =>
      obtain ⟨rfl, -⟩ := (Flow.emit_dead hf).1 h
      split
      · exact List.forall_mem_singleton.2 hd
      · exact nofun
  | mark l arrival =>
    obtain ⟨rfl, -⟩ := Flow.step_mark h
    exact List.forall_mem_singleton.2 rfl
  | endStatement =>
    obtain ⟨-, rfl, -⟩ := Flow.step_endStatement.1 h
    exact nofun
  | endBlock b =>
    obtain ⟨-, rfl, -⟩ := Flow.step_endBlock.1 h
    exact nofun
  | stageReturn =>
    obtain ⟨rfl, -⟩ := Flow.step_stageReturn h
    exact nofun
  | returnPoint => cases hd

/-- The code of a draft sets the state as the draft does. -/
theorem SetsStates.assembles {points : List (Int × Label)} {ds : List Directive}
    (h : SetsStates points ds) {f g : Flow} {code : List Instr} (ha : Assembles f ds code g) :
    StateCode points code := by
  induction h generalizing f code with
  | nil =>
    obtain ⟨rfl, -⟩ := Assembles.nil_iff.1 ha
    exact .nil
  | quiet hd _ ih =>
    obtain ⟨instrs, f₁, rest, hstep, hrest, rfl⟩ := Assembles.cons_iff.1 ha
    exact (StateCode.of_isQuiet (Flow.isQuiet_step hd hstep)).append (ih hrest)
  | suspend hl _ ih =>
    obtain ⟨_, f₁, _, hstop, ha₁, rfl⟩ := stop_assembles ha
    obtain ⟨_, f₂, rest, hmark, hrest, rfl⟩ := Assembles.cons_iff.1 ha₁
    obtain ⟨rfl, -⟩ := Flow.step_mark hmark
    rcases hstop with rfl | rfl
    · exact .suspend hl (ih hrest)
    · exact .quiet rfl (ih hrest)
  | close _ ih =>
    obtain ⟨_, f₁, rest, hstop, hrest, rfl⟩ := stop_assembles ha
    rcases hstop with rfl | rfl
    · exact .close (ih hrest)
    · exact ih hrest

/-- From position `p` on, the code stops with this state: it stores it, returns, and places the
resume label if the state is the index of a suspension point. -/
structure StopsAt (points : List (Int × Label)) (code : List Instr) (p : Nat) (state : Int) : Prop where
  const : code[p]? = some (.constInt state)
  store : code[p + 1]? = some .storeState
  ret : code[p + 2]? = some (.ret false)
  label : state = GeneratorState.closed.toInt ∨
    ∃ l, (state, l) ∈ points ∧ code[p + 3]? = some (.markLabel l)

theorem StopsAt.append {points : List (Int × Label)} {code : List Instr} {p : Nat} {state : Int}
    (h : StopsAt points code p state) (front : List Instr) :
    StopsAt points (front ++ code) (front.length + p) state := by
  have hget (k : Nat) : (front ++ code)[front.length + p + k]? = code[p + k]? := by
    rw [Nat.add_assoc, List.getElem?_append_right (Nat.le_add_right _ _), Nat.add_sub_cancel_left]
  refine ⟨(hget 0).trans h.const, (hget 1).trans h.store, (hget 2).trans h.ret, ?_⟩
  refine h.label.imp_right ?_
  rintro ⟨l, hl, hlabel⟩
  exact ⟨l, hl, (hget 3).trans hlabel⟩

/-- The state is set, and control returns, only where the generator stops. -/
theorem StateCode.stopsAt {points : List (Int × Label)} {code : List Instr} (h : StateCode points code)
    {q : Nat} {i : Instr} (hq : code[q]? = some i) (hi : i.isQuiet = false) :
    ∃ p state, StopsAt points code p state ∧ (q = p + 1 ∨ q = p + 2) := by
  -- behind some instructions that stand in front
  have hshift (front : List Instr) {rest : List Instr} {k : Nat} (hk : (front ++ rest)[front.length + k]? = some i)
      (ih : ∀ {q : Nat}, rest[q]? = some i →
        ∃ p state, StopsAt points rest p state ∧ (q = p + 1 ∨ q = p + 2)) :
      ∃ p state, StopsAt points (front ++ rest) p state ∧
        (front.length + k = p + 1 ∨ front.length + k = p + 2) := by
    rw [List.getElem?_append_right (Nat.le_add_right _ _), Nat.add_sub_cancel_left] at hk
    obtain ⟨p, state, hstops, hp⟩ := ih hk
    exact ⟨_, state, hstops.append front, by omega⟩
  induction h generalizing q with
  | nil => cases hq
  | @quiet j code hj _ ih =>
    cases q with
    | zero =>
      cases hq
      rw [hj] at hi
      cases hi
    | succ k =>
      rw [Nat.add_comm] at hq ⊢
      exact hshift [j] hq ih
  | @suspend index l code hl _ ih =>
    match q, hq with
    | 0, hq | 3, hq =>
      cases hq
      cases hi
    | 1, _ | 2, _ => exact ⟨0, index, ⟨rfl, rfl, rfl, .inr ⟨l, hl, rfl⟩⟩, by omega⟩
    | k + 4, hq =>
      rw [Nat.add_comm] at hq ⊢
      exact hshift [_, _, _, _] hq ih
  | @close code _ ih =>
    match q, hq with
    | 0, hq =>
      cases hq
      cases hi
    | 1, _ | 2, _ => exact ⟨0, _, ⟨rfl, rfl, rfl, .inl rfl⟩, by omega⟩
    | k + 3, hq =>
      rw [Nat.add_comm] at hq ⊢
      exact hshift [_, _, _] hq ih

end StackCode
