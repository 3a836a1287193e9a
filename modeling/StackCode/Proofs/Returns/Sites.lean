import StackCode.Proofs.Fragment.Carries
import StackCode.Proofs.Generator.Entry
import StackCode.Proofs.Returns.Apart

/-!
# Return statements in the code

A return statement that control gets to comes to the code of its value, to what brings the value into
the form in which it is kept, to the store in the return slot, and to a branch to the return label.
Where control does not get to it, nothing is left of it.  Whatever goes to the return label is one
of these branches, and a return value has been stored only if there is one.  Main statements:
`Plan.return_lays`, `Plan.upTo_holds`.
-/

namespace StackCode

/-! ## Drafts that lay code -/

/-- From a frame and a flow, the draft comes to the code and leaves another frame and flow. -/
def Draft.Lays (x : Draft Unit) (frame : Frame) (f : Flow) (code : List Instr) (frame' : Frame)
    (g : Flow) : Prop := ∃ ds, x.Gives frame ds frame' () ∧ Assembles f ds code g

namespace Draft

variable {x y : Draft Unit} {frame frame' frame₁ frame₂ : Frame} {f g g₁ g₂ : Flow}
  {code code₁ code₂ : List Instr}

theorem lays_bind_iff :
    (x >>= fun _ => y).Lays frame f code frame' g ↔ ∃ mid h code₁ code₂,
      x.Lays frame f code₁ mid h ∧ y.Lays mid h code₂ frame' g ∧ code = code₁ ++ code₂ := by
  constructor
  · rintro ⟨ds, hgives, ha⟩
    obtain ⟨_, mid, ds₁, ds₂, h₁, h₂, rfl⟩ := gives_bind_iff.1 hgives
    obtain ⟨h, code₁, code₂, ha₁, ha₂, rfl⟩ := Assembles.append_iff.1 ha
    exact ⟨mid, h, code₁, code₂, ⟨ds₁, h₁, ha₁⟩, ⟨ds₂, h₂, ha₂⟩, rfl⟩
  · rintro ⟨mid, h, code₁, code₂, ⟨ds₁, h₁, ha₁⟩, ⟨ds₂, h₂, ha₂⟩, rfl⟩
    exact ⟨ds₁ ++ ds₂, gives_bind_iff.2 ⟨(), mid, ds₁, ds₂, h₁, h₂, rfl⟩, ha₁.append ha₂⟩

theorem lays_pure_iff :
    (pure () : Draft Unit).Lays frame f code frame' g ↔ code = [] ∧ frame' = frame ∧ g = f := by
  constructor
  · rintro ⟨ds, hgives, ha⟩
    obtain ⟨rfl, rfl, -⟩ := gives_pure_iff.1 hgives
    obtain ⟨rfl, rfl⟩ := Assembles.nil_iff.1 ha
    exact ⟨rfl, rfl, rfl⟩
  · rintro ⟨rfl, rfl, rfl⟩
    exact ⟨[], gives_pure_iff.2 ⟨rfl, rfl, rfl⟩, .nil _⟩

/-- A draft lays one code. -/
theorem Lays.unique (h₁ : x.Lays frame f code₁ frame₁ g₁) (h₂ : x.Lays frame f code₂ frame₂ g₂) :
    code₁ = code₂ ∧ frame₁ = frame₂ ∧ g₁ = g₂ := by
  obtain ⟨ds, hgives, ha⟩ := h₁
  obtain ⟨ds', hgives', ha'⟩ := h₂
  unfold Gives at hgives hgives'
  rw [hgives] at hgives'
  cases hgives'
  refine ⟨?_, rfl, ?_⟩
  all_goals
    clear hgives
    induction ha generalizing code₂ with
    | nil =>
      obtain ⟨rfl, rfl⟩ := Assembles.nil_iff.1 ha'
      rfl
    | cons hstep _ ih =>
      obtain ⟨_, _, _, hstep', hrest, rfl⟩ := Assembles.cons_iff.1 ha'
      rw [hstep] at hstep'
      cases hstep'
      rw [ih hrest]

end Draft

namespace Plan

variable (c : Plan)

/-! ## Where a statement begins -/

/-- The draft of blocks with others behind them, the first of which is `next`. -/
def blocksTo (next : BlockId) : List Block → Draft Unit
  | [] => pure ()
  | b :: rest => do
    c.block b (some ((rest.head?.map (·.id)).getD next))
    blocksTo next rest

/-- The draft up to a statement of a block: the blocks before it and the statements before it. -/
def upTo (bs : List Block) (b : Block) (ss : List Stmt) : Draft Unit := do
  c.blocksTo b.id bs
  c.openBlock b
  ss.forM c.statement

/-- Among some statements, control gets to this return statement, behind `q` instructions and with
`d` values on the stack. -/
def ReturnsAmong (ss : List Stmt) (frame : Frame) (f : Flow) (value : Option Expr) (q d : Nat) :
    Prop :=
  ∃ before after code mid g, ss = before ++ .ret value :: after ∧
    (before.forM c.statement).Lays frame f code mid g ∧ g.isLive = true ∧ q = code.length ∧
      d = g.depth

/-- Among some blocks, control gets to this return statement, behind `q` instructions and with `d`
values on the stack. -/
def ReturnsIn (blocks : List Block) (frame : Frame) (f : Flow) (value : Option Expr) (q d : Nat) :
    Prop :=
  ∃ bs b bs' ss ss' code mid g, blocks = bs ++ b :: bs' ∧ b.statements = ss ++ .ret value :: ss' ∧
    (c.upTo bs b ss).Lays frame f code mid g ∧ g.isLive = true ∧ q = code.length ∧ d = g.depth

/-! ## The code of a return statement -/

/-- Puts the returned value into the return slot, if the procedure returns any. -/
def storeReturn (slot : TempSlot) : List Instr := if c.outline.stages then [.storeTemp slot] else []

/-- The code of a return statement with its value, behind a place for a debugger, if any. -/
structure ReturnCode (l : Label) (slot : TempSlot) (value : Option Expr) (code : List Instr) :
    Prop where
  parts : ∃ ty point notes,
    (∀ i ∈ point, ∃ span, i = .sequencePoint span) ∧ (∀ i ∈ notes, i.isNote = true) ∧
    (c.outline.returned value).result = .ok ty ∧ (∃ a, (c.outline.keep ty).result = .ok a) ∧
    code = point ++ (c.outline.returned value).code ++ notes ++ (c.outline.keep ty).code ++
      (c.storeReturn slot ++ [.branch l])

variable {c}

theorem head?_append_cons (bs : List Block) (b : Block) (bs' : List Block) :
    (bs ++ b :: bs').head?.map (·.id) = some ((bs.head?.map (·.id)).getD b.id) := by
  cases bs <;> rfl

theorem blocksFrom_append (bs : List Block) (b : Block) (bs' : List Block) :
    c.blocksFrom (bs ++ b :: bs') =
      (c.blocksTo b.id bs >>= fun _ => c.blocksFrom (b :: bs')) := by
  induction bs with
  | nil => rfl
  | cons b₁ bs ih =>
    change (c.block b₁ ((bs ++ b :: bs').head?.map (·.id)) >>= fun _ =>
      c.blocksFrom (bs ++ b :: bs')) = _
    rw [ih, head?_append_cons, ← bind_assoc]
    rfl

end Plan

/-! ## Dead code -/

/-- Brings a dead flow back to life, or may do so. -/
def Directive.revives : Directive → Bool
  | .instr i => i.placed?.isSome
  | .mark _ _ | .returnPoint _ _ => true
  | _ => false

/-- Of dead code the notes remain. -/
theorem Assembles.of_dead {f g : Flow} {ds : List Directive} {code : List Instr}
    (ha : Assembles f ds code g) (hf : f.isLive = false) (hds : ∀ d ∈ ds, d.revives = false) :
    g = f ∧ ∀ i ∈ code, i.isNote = true := by
  induction ha with
  | nil => exact ⟨rfl, nofun⟩
  | @cons f m g d ds instrs code hstep _ ih =>
    obtain ⟨hd, hds⟩ := List.forall_mem_cons.1 hds
    have hfirst : m = f ∧ ∀ i ∈ instrs, i.isNote = true := by
      cases d with
      | instr i =>
        obtain ⟨rfl, rfl⟩ := (Flow.emit_dead hf).1 hstep
        refine ⟨rfl, fun j hj => ?_⟩
        split at hj
        · next hi =>
          rw [List.mem_singleton.1 hj]
          exact Instr.isNote_of_isBookkeeping hi (Option.isSome_eq_false_iff.1 hd |> Option.isNone_iff_eq_none.1)
        · cases hj
      | endStatement =>
        obtain ⟨-, rfl, rfl⟩ := Flow.step_endStatement.1 hstep
        exact ⟨rfl, nofun⟩
      | endBlock b =>
        obtain ⟨-, rfl, rfl⟩ := Flow.step_endBlock.1 hstep
        exact ⟨rfl, nofun⟩
      | stageReturn =>
        obtain ⟨rfl, rfl⟩ := Flow.step_stageReturn hstep
        have hsame : (f.hasStaged || f.isLive) = f.hasStaged := by rw [hf, Bool.or_false]
        rw [hsame]
        exact ⟨rfl, nofun⟩
      | mark | returnPoint => cases hd
    obtain ⟨rfl, hnotes⟩ := hfirst
    obtain ⟨rfl, hrest⟩ := ih hf hds
    exact ⟨rfl, List.forall_mem_append.2 ⟨hnotes, hrest⟩⟩

/-- A label that is marked stands in the code. -/
theorem Assembles.mem_of_mark {f g : Flow} {ds : List Directive} {code : List Instr}
    (ha : Assembles f ds code g) {l : Label} {arrival : Arrival} (hd : .mark l arrival ∈ ds) :
    .markLabel l ∈ code := by
  induction ha with
  | nil => cases hd
  | cons hstep _ ih =>
    rcases List.mem_cons.1 hd with rfl | hd
    · obtain ⟨rfl, -⟩ := Flow.step_mark hstep
      exact List.mem_cons_self
    · exact List.mem_append_right _ (ih hd)

theorem Flow.StaysApart.of_notes {code : List Instr} (h : ∀ i ∈ code, i.isNote = true) (l : Label)
    (f : Flow) : f.StaysApart l f code where
  isQuiet i hi := Instr.isQuiet_of_isNote (h i hi)
  targets i hi := by
    rw [Instr.targets_of_isNote (h i hi)]
    exact List.not_mem_nil
  hasStaged := rfl

theorem Directive.isApart_of_passes {l : Label} {i : Instr} (hi : i.passes = true)
    (hquiet : i.isQuiet = true) : (Directive.instr i).IsApart l := by
  refine ⟨hquiet, ?_⟩
  rw [Instr.targets_of_passes hi]
  exact List.not_mem_nil

namespace Plan

variable {c : Plan} {frame frame' : Frame} {f g : Flow} {code : List Instr}

/-! ## Laying a return statement -/

theorem sequencePoint_gives {span : Option Span} {ds : List Directive} {u : Unit}
    (h : (c.sequencePoint span).Gives frame ds frame' u) :
    frame' = frame ∧ ∃ point : List Instr, ds = point.map .instr ∧
      ∀ i ∈ point, ∃ span, i = .sequencePoint span := by
  unfold sequencePoint at h
  cases span with
  | some span =>
    simp only at h
    split at h
    · obtain ⟨rfl, rfl⟩ := Draft.gives_emit_iff.1 h
      exact ⟨rfl, [_], rfl, List.forall_mem_singleton.2 ⟨_, rfl⟩⟩
    · obtain ⟨rfl, rfl, -⟩ := Draft.gives_pure_iff.1 h
      exact ⟨rfl, [], rfl, nofun⟩
  | none =>
    obtain ⟨rfl, rfl, -⟩ := Draft.gives_pure_iff.1 h
    exact ⟨rfl, [], rfl, nofun⟩

theorem allocation_eq (slot : TempSlot) (isNew : Bool) (ty : Ty) :
    ∃ notes : List Instr, Draft.allocation slot isNew ty = notes.map .instr ∧
      ∀ i ∈ notes, i.isNote = true := by
  unfold Draft.allocation
  split
  · exact ⟨[_], rfl, List.forall_mem_singleton.2 rfl⟩
  · exact ⟨[], rfl, nofun⟩

/-- The directives of a return statement: instructions that control passes, the store, and the
branch. -/
theorem return_gives (hgen : c.procedure.isGenerator = false) (hfits : frame.Fits c)
    {value : Option Expr} {ds : List Directive} {u : Unit}
    (h : (c.statement (.ret value)).Gives frame ds frame' u) :
    frame'.Fits c ∧ frame'.returnSlot.isSome = c.outline.stages ∧
      ∃ l front, frame'.returnLabel = some l ∧
        ds = front.map .instr ++ (storing frame'.returnSlot ++ [.instr (.branch l), .endStatement]) ∧
        (∀ i ∈ front, i.passes = true ∧ i.isQuiet = true) ∧
        ∀ slot, c.ReturnCode l slot value (front ++ (c.storeReturn slot ++ [.branch l])) := by
  unfold statement at h
  obtain ⟨_, mid, _, _, hpoint, h₁, rfl⟩ := Draft.gives_bind_iff.1 h
  obtain ⟨_, _, dsBody, _, hbody, hend, rfl⟩ := Draft.gives_bind_iff.1 h₁
  obtain ⟨rfl, rfl⟩ := Draft.gives_directive_iff.1 hend
  obtain ⟨rfl, point, rfl, hspan⟩ := sequencePoint_gives hpoint
  have hreturned : (Draft.ofFragment (c.outline.returned value) >>= fun ty =>
      if c.procedure.isGenerator then Draft.finishGenerator ty
      else Draft.stageReturn c.procedure.returnType ty).Gives mid dsBody frame' () := by
    cases value with
    | some e => exact hbody
    | none => exact hbody
  simp only [hgen, Bool.false_eq_true, ↓reduceIte] at hreturned
  obtain ⟨ty, rest, hty, hrest, rfl⟩ := Draft.gives_ofFragment_bind_iff.1 hreturned
  obtain ⟨l, hstage⟩ := stageReturn_gives hgen hfits hrest
  obtain ⟨s, isNew, rfl⟩ := hstage.code
  obtain ⟨notes, hnotes_eq, hnotes⟩ := allocation_eq s isNew c.procedure.returnType
  refine ⟨hstage.fits, hstage.returnSlot, l, point ++ (c.outline.returned value).code ++ notes ++
    (c.outline.keep ty).code, hstage.returnLabel, ?_, ?_, fun slot =>
      ⟨ty, point, notes, hspan, hnotes, hty, hstage.result, rfl⟩⟩
  · rw [hnotes_eq]
    simp only [List.map_append, List.append_assoc, List.cons_append, List.nil_append]
  · have hplain {α : Type} {x : Fragment α} (hx : x.IsPlain) :
        ∀ i ∈ x.code, i.passes = true ∧ i.isQuiet = true := fun i hi =>
      ⟨Instr.passes_of_isPlain (hx i hi), Instr.isQuiet_of_isPlain (hx i hi)⟩
    simp only [List.forall_mem_append]
    refine ⟨⟨⟨fun i hi => ?_, hplain (c.outline.isPlain_returned value)⟩, fun i hi => ?_⟩,
      hplain (c.outline.isPlain_keep ty)⟩
    · obtain ⟨span, rfl⟩ := hspan i hi
      exact ⟨rfl, rfl⟩
    · exact ⟨Instr.passes_of_isNote (hnotes i hi), Instr.isQuiet_of_isNote (hnotes i hi)⟩

/-- Where control gets to it, a return statement stores the value, if there is a slot, and branches. -/
theorem return_assembles {l : Label} {slot? : Option TempSlot} {front : List Instr}
    (hfront : ∀ i ∈ front, i.passes = true ∧ i.isQuiet = true) (hlive : f.isLive = true)
    (ha : Assembles f (front.map .instr ++ (storing slot? ++ [.instr (.branch l), .endStatement]))
      code g) :
    code = front ++ (slot?.toList.map .storeTemp ++ [.branch l]) ∧
      Instr.depthThrough (front ++ slot?.toList.map .storeTemp) f.depth = .ok 0 ∧
      g.labels.isReferenced l = true ∧ g.hasStaged = (f.hasStaged || slot?.isSome) := by
  obtain ⟨f₁, _, _, hpass, hrest, rfl⟩ := Assembles.append_iff.1 ha
  have hapart := hpass.isApart (l := l) fun d hd => by
    obtain ⟨i, hi, rfl⟩ := List.mem_map.1 hd
    exact Directive.isApart_of_passes (hfront i hi).1 (hfront i hi).2
  obtain ⟨rfl, hlive₁, hdepth⟩ := Assembles.of_passes (fun i hi => (hfront i hi).1) hlive hpass
  obtain ⟨f₂, code₂, code₃, hstore, hbranch, rfl⟩ := Assembles.append_iff.1 hrest
  have hstored : code₂ = slot?.toList.map .storeTemp ∧ f₂.isLive = true ∧
      Instr.depthThrough code₂ f₁.depth = .ok f₂.depth ∧
      f₂.hasStaged = (f₁.hasStaged || slot?.isSome) := by
    cases slot? with
    | none =>
      obtain ⟨rfl, rfl⟩ := Assembles.nil_iff.1 hstore
      exact ⟨rfl, hlive₁, rfl, (Bool.or_false _).symm⟩
    | some slot =>
      obtain ⟨_, f₃, _, hstage, htemp, rfl⟩ := Assembles.cons_iff.1 hstore
      obtain ⟨rfl, rfl⟩ := Flow.step_stageReturn hstage
      obtain ⟨rfl, _, hpass⟩ := Flow.step_live (by exact hlive₁) (Assembles.singleton_iff.1 htemp)
      refine ⟨rfl, hpass.isLive, ?_, hpass.hasStaged.trans ?_⟩
      · rw [hpass.depth rfl]
        exact (Instr.depthThrough_singleton _ _).trans hpass.depthAfter
      · rw [hlive₁]
        rfl
  obtain ⟨rfl, hlive₂, hdepth₂, hstaged⟩ := hstored
  obtain ⟨_, f₄, _, hstep, hend, rfl⟩ := Assembles.cons_iff.1 hbranch
  obtain ⟨rfl, _, hpass⟩ := Flow.step_live hlive₂ hstep
  obtain ⟨-, rfl, rfl⟩ := Flow.step_endStatement.1 (Assembles.singleton_iff.1 hend)
  refine ⟨rfl, ?_, hpass.referenced l (List.mem_singleton.2 rfl), ?_⟩
  · rw [(Instr.depth_eq_of_isJump rfl hpass.depthAfter).1] at hdepth₂
    exact Instr.depthThrough_append_iff.2 ⟨f₁.depth, hdepth, hdepth₂⟩
  · rw [hpass.hasStaged, hstaged, hapart.hasStaged]

/-- What a return statement comes to: its code where control gets to it, and nothing elsewhere. -/
structure ReturnLays (c : Plan) (value : Option Expr) (frame' : Frame) (f g : Flow) (code : List Instr) :
    Prop where
  fits : frame'.Fits c
  live : f.isLive = true → ∃ l, frame'.returnLabel = some l ∧ g.labels.isReferenced l = true ∧
    g.hasStaged = (f.hasStaged || c.outline.stages) ∧
      ∀ slot, (∀ s, frame'.returnSlot = some s → s = slot) →
        c.ReturnCode l slot value code ∧ ∃ front, (∀ i ∈ front, i.passes = true ∧ i.isQuiet = true) ∧
          Instr.depthThrough (front ++ c.storeReturn slot) f.depth = .ok 0 ∧
          code = front ++ (c.storeReturn slot ++ [.branch l])
  dead : f.isLive = false → g = f ∧ ∀ i ∈ code, i.isNote = true

theorem return_lays (hgen : c.procedure.isGenerator = false) (hfits : frame.Fits c)
    {value : Option Expr} (h : (c.statement (.ret value)).Lays frame f code frame' g) :
    c.ReturnLays value frame' f g code := by
  obtain ⟨ds, hgives, ha⟩ := h
  obtain ⟨hfits', hslot, l, front, hlabel, rfl, hfront, hcode⟩ := return_gives hgen hfits hgives
  refine ⟨hfits', fun hlive => ?_, fun hdead => ha.of_dead hdead ?_⟩
  · obtain ⟨rfl, hdepth, href, hstaged⟩ := return_assembles hfront hlive ha
    refine ⟨l, hlabel, href, by rw [hstaged, hslot], fun slot hs => ?_⟩
    have hstore : frame'.returnSlot.toList.map Instr.storeTemp = c.storeReturn slot := by
      unfold storeReturn
      rw [← hslot]
      cases hs' : frame'.returnSlot with
      | none => rfl
      | some s =>
        rw [hs s hs']
        rfl
    rw [hstore] at hdepth ⊢
    exact ⟨hcode slot, front, hfront, hdepth, rfl⟩
  · simp only [List.forall_mem_append, List.forall_mem_cons]
    refine ⟨fun d hd => ?_, fun d hd => ?_, rfl, rfl, nofun⟩
    · obtain ⟨i, hi, rfl⟩ := List.mem_map.1 hd
      have hpasses := (hfront i hi).1
      cases i <;> first | rfl | cases hpasses
    · cases hs : frame'.returnSlot with
      | none => rw [hs] at hd; cases hd
      | some slot =>
        rw [hs] at hd
        rcases List.mem_cons.1 hd with rfl | hd
        · rfl
        · cases List.mem_singleton.1 hd
          rfl

/-! ## Laying the rest -/

section
variable (hmade : c.Made) (hgen : c.procedure.isGenerator = false) {l : Label} (hl : c.bound ≤ l.index)
include hmade hgen hl

/-- The labels of blocks are not the return label. -/
theorem eq_ret_of_label? {final : Frame} {s : Spot} (hs : (c.reading final).label? s = some l) :
    s = .ret := by
  have hbound : c.bound = c.labelled.length + c.resume.labels.length := rfl
  cases s with
  | block b =>
    have hlt := label?_lt hs
    omega
  | resume index =>
    obtain ⟨hpos, hle, hindex⟩ := hmade.resume_label?_eq_some_iff.1 hs
    omega
  | body =>
    change (if c.procedure.isGenerator then some (Label.mk c.bound) else none) = some l at hs
    rw [hgen] at hs
    cases hs
  | ret => rfl

/-- What renders operations that neither return nor go home has no part in returning. -/
theorem apart_of_renders {final : Frame} {v w : Bool} {ds : List Directive} {ops : List Op}
    (hrenders : Renders (c.reading final) v ds ops w) (hquiet : ∀ op ∈ ops, op.isQuiet = true)
    (hhome : ∀ op ∈ ops, op.goesHome = false) (ha : Assembles f ds code g)
    (hmark : .markLabel l ∉ code) : f.StaysApart l g code :=
  ha.isApart (hrenders.isApart (fun _ => eq_ret_of_label? hmade hgen hl)
    (fun _ hd => hmark (ha.mem_of_mark hd)) hquiet hhome)

omit hmade hl in
/-- An ordinary procedure does not suspend. -/
theorem not_gives_yield {y : Yield} {ds : List Directive} {u : Unit} :
    ¬ (c.statementBody (.yield y)).Gives frame ds frame' u := by
  change ¬ (c.yieldValue y).Gives frame ds frame' u
  unfold yieldValue
  rw [if_pos (by rw [hgen]; rfl)]
  exact Draft.not_gives_fail

theorem statement_apart (hfits : frame.Fits c) {s : Stmt} (hs : s.isReturn = false)
    (h : (c.statement s).Lays frame f code frame' g) (hmark : .markLabel l ∉ code) :
    f.StaysApart l g code := by
  obtain ⟨ds, hgives, ha⟩ := h
  have hyield : s.yieldIndex? = none := by
    cases s with
    | yield y =>
      unfold statement at hgives
      obtain ⟨_, _, _, _, -, h₁, -⟩ := Draft.gives_bind_iff.1 hgives
      obtain ⟨_, _, _, _, hbody, -, -⟩ := Draft.gives_bind_iff.1 h₁
      exact absurd hbody (not_gives_yield hgen)
    | _ => rfl
  have hrenders := (statement_renders hfits hgives).renders (c.reading frame') false
    (reading_covers (.refl _)) nofun
  exact apart_of_renders hmade hgen hl hrenders (c.outline.isQuiet_statement hyield)
    (c.outline.goesHome_statement hyield hs) ha hmark

theorem openBlock_apart {b : Block}
    (h : (c.openBlock b).Lays frame f code frame' g) (hmark : .markLabel l ∉ code) :
    f.StaysApart l g code := by
  obtain ⟨mid, f₁, code₁, code₂, ⟨ds₁, hentry, ha₁⟩, ⟨ds₂, henter, ha₂⟩, rfl⟩ :=
    Draft.lays_bind_iff.1 (openBlock_eq b ▸ h)
  rw [List.mem_append, not_or] at hmark
  have hfirst : f.StaysApart l f₁ code₁ := by
    split at hentry
    · obtain ⟨mid', ds₃, ds₄, rfl, -, hprologue, hdispatch⟩ := entry_gives hentry
      rw [hgen, if_neg Bool.false_ne_true] at hdispatch
      obtain ⟨rfl, -, -⟩ := Draft.gives_pure_iff.1 hdispatch
      rw [List.append_nil] at ha₁
      refine apart_of_renders hmade hgen hl (hprologue (c.reading frame') true) ?_ ?_ ha₁ hmark.1
      · intro op hop
        obtain ⟨i, rfl, -, hflow, hstate⟩ := prologue_passes c op hop
        cases i <;> first | rfl | (cases hflow; done) | cases hstate
      · intro op hop
        obtain ⟨i, rfl, -⟩ := prologue_passes c op hop
        rfl
    · obtain ⟨rfl, -, -⟩ := Draft.gives_pure_iff.1 hentry
      obtain ⟨rfl, rfl⟩ := Assembles.nil_iff.1 ha₁
      exact .refl l _
  refine hfirst.trans ?_
  obtain ⟨-, hlabel⟩ := enterBlock_gives henter
  split at hlabel
  · subst hlabel
    obtain ⟨rfl, rfl⟩ := Assembles.nil_iff.1 ha₂
    exact .refl l _
  · obtain ⟨rest, rfl, -, hrest⟩ := hlabel
    obtain ⟨instrs, f₂, code₃, hstep, ha₃, rfl⟩ := Assembles.cons_iff.1 ha₂
    rw [List.mem_append, not_or] at hmark
    refine (Flow.step_isApart (by trivial) hstep).trans ?_
    exact apart_of_renders hmade hgen hl (hrest (c.reading frame') false)
      (c.outline.isQuiet_receive b.id) (c.outline.goesHome_receive b.id) ha₃ hmark.2.2

theorem edge_apart {b : Block} (hb : b ∈ c.blocks) (hk : b.kind ≠ .exit) {next : Option BlockId}
    (h : (c.blockEnd b next).Lays frame f code frame' g) (hmark : .markLabel l ∉ code) :
    f.StaysApart l g code := by
  obtain ⟨ds, hgives, ha⟩ := h
  unfold blockEnd at hgives
  rw [if_neg hk] at hgives
  obtain ⟨rfl, hrenders⟩ := edge_renders hgives
  have hrenders := hrenders (c.reading frame') _ (reading_covers (.refl _))
    (reading_admits hmade hb hk)
  exact ha.isApart (hrenders.isApart (fun _ => eq_ret_of_label? hmade hgen hl)
    (fun _ hd => hmark (ha.mem_of_mark hd)) (c.outline.isQuiet_edge b.edge)
    (c.outline.goesHome_edge b.edge))

end

end Plan

/-! ## Code that holds return statements -/

/-- Return statements in some code: each with its value, its position, and the number of values on
the stack there. -/
abbrev ReturnSites := Option Expr → Nat → Nat → Prop

/-- The instruction at a position of the code is the end of one of these return statements. -/
def Plan.EndsReturn (c : Plan) (l : Label) (slot : TempSlot) (sites : ReturnSites) (code : List Instr)
    (q : Nat) : Prop :=
  ∃ value start d is post, sites value start d ∧ c.ReturnCode l slot value is ∧
    Instr.depthThrough is.dropLast d = .ok 0 ∧ code.drop start = is ++ post ∧ q + 1 = start + is.length

theorem Plan.EndsReturn.append {c : Plan} {l : Label} {slot : TempSlot} {sites : ReturnSites}
    {code : List Instr} {q : Nat} (h : c.EndsReturn l slot sites code q) (hq : q < code.length)
    (code' : List Instr) : c.EndsReturn l slot sites (code ++ code') q := by
  obtain ⟨value, start, d, is, post, hsite, hcode, hdepth, hdrop, hend⟩ := h
  refine ⟨value, start, d, is, post ++ code', hsite, hcode, hdepth, ?_, hend⟩
  rw [List.drop_append_of_le_length (by omega), hdrop, List.append_assoc]

/-- From the flow `f`, the code comes to the flow `g`.  What goes to the label `l` in it are the ends of
return statements, and if a value has been stored, there are return statements. -/
structure Plan.HoldsReturns (c : Plan) (l : Label) (slot : TempSlot) (sites : ReturnSites)
    (f g : Flow) (code : List Instr) : Prop where
  isQuiet : ∀ i ∈ code, i.isQuiet = true
  goes : ∀ q i, code[q]? = some i → l ∈ i.targets → c.EndsReturn l slot sites code q
  hasStaged : g.hasStaged = true → f.hasStaged = true ∨ ∃ value start d, sites value start d

namespace Plan.HoldsReturns

variable {c : Plan} {l : Label} {slot : TempSlot} {sites sites' : ReturnSites}
  {f g h : Flow} {code code' : List Instr}

theorem of_apart (hapart : f.StaysApart l g code) : c.HoldsReturns l slot sites f g code where
  isQuiet := hapart.isQuiet
  goes _ i hq hl := absurd hl (hapart.targets i (List.mem_of_getElem? hq))
  hasStaged hg := .inl (hapart.hasStaged ▸ hg)

theorem append (h₁ : c.HoldsReturns l slot sites f g code)
    (h₂ : c.HoldsReturns l slot sites' g h code')
    (hsites : ∀ value q d, sites' value q d → sites value (code.length + q) d) :
    c.HoldsReturns l slot sites f h (code ++ code') where
  isQuiet := List.forall_mem_append.2 ⟨h₁.isQuiet, h₂.isQuiet⟩
  goes q i hq hl := by
    by_cases hlt : q < code.length
    · rw [List.getElem?_append_left hlt] at hq
      exact (h₁.goes q i hq hl).append hlt code'
    · obtain ⟨k, rfl⟩ := Nat.exists_eq_add_of_le (Nat.not_lt.1 hlt)
      rw [List.getElem?_append_right (Nat.le_add_right _ _), Nat.add_sub_cancel_left] at hq
      obtain ⟨value, start, d, is, post, hsite, hcode, hdepth, hdrop, hend⟩ := h₂.goes k i hq hl
      refine ⟨value, code.length + start, d, is, post, hsites _ _ _ hsite, hcode, hdepth, ?_, by omega⟩
      rw [List.drop_append, List.drop_of_length_le (Nat.le_add_right _ _), Nat.add_sub_cancel_left,
        List.nil_append, hdrop]
  hasStaged hh := by
    rcases h₂.hasStaged hh with hg | ⟨value, q, d, hsite⟩
    · exact h₁.hasStaged hg
    · exact .inr ⟨value, _, d, hsites _ _ _ hsite⟩

theorem mono (h₁ : c.HoldsReturns l slot sites' f g code)
    (hsites : ∀ value q d, sites' value q d → sites value q d) :
    c.HoldsReturns l slot sites f g code where
  isQuiet := h₁.isQuiet
  goes q i hq hl := by
    obtain ⟨value, start, d, is, post, hsite, hrest⟩ := h₁.goes q i hq hl
    exact ⟨value, start, d, is, post, hsites _ _ _ hsite, hrest⟩
  hasStaged hg := (h₁.hasStaged hg).imp_right fun ⟨value, q, d, hsite⟩ =>
    ⟨value, q, d, hsites _ _ _ hsite⟩

end Plan.HoldsReturns

namespace Plan

variable {c : Plan} {frame frame' : Frame} {f g : Flow} {code : List Instr} {l : Label}
  {slot : TempSlot}

/-- A return statement holds itself. -/
theorem return_holds (hgen : c.procedure.isGenerator = false) (hfits : frame.Fits c)
    {value : Option Expr} (hslot : ∀ s, frame'.returnSlot = some s → s = slot)
    (h : (c.statement (.ret value)).Lays frame f code frame' g) {sites : ReturnSites}
    (hsite : f.isLive = true → sites value 0 f.depth) : c.HoldsReturns l slot sites f g code := by
  have hlays := return_lays hgen hfits h
  cases hf : f.isLive with
  | false =>
    obtain ⟨rfl, hnotes⟩ := hlays.dead hf
    exact .of_apart (.of_notes hnotes l _)
  | true =>
    obtain ⟨l', -, -, -, hcode⟩ := hlays.live hf
    obtain ⟨hreturn, front, hfront, hdepth, rfl⟩ := hcode slot hslot
    have hstore : ∀ i ∈ c.storeReturn slot, i.isQuiet = true ∧ i.targets = [] := by
      unfold storeReturn
      split
      · exact List.forall_mem_singleton.2 ⟨rfl, rfl⟩
      · exact nofun
    refine ⟨?_, fun q i hq hl => ?_, fun _ => .inr ⟨value, 0, f.depth, hsite hf⟩⟩
    · simp only [List.forall_mem_append]
      exact ⟨fun i hi => (hfront i hi).2, fun i hi => (hstore i hi).1, List.forall_mem_singleton.2 rfl⟩
    · -- of the instructions of a return statement only the last one names a label
      rw [← List.append_assoc] at hq hreturn ⊢
      have hlast : q = (front ++ c.storeReturn slot).length ∧ i = .branch l' := by
        by_cases hlt : q < (front ++ c.storeReturn slot).length
        · rw [List.getElem?_append_left hlt] at hq
          have htargets : i.targets = [] := by
            rcases List.mem_append.1 (List.mem_of_getElem? hq) with hi | hi
            · exact Instr.targets_of_passes (hfront i hi).1
            · exact (hstore i hi).2
          rw [htargets] at hl
          cases hl
        · rw [List.getElem?_append_right (Nat.not_lt.1 hlt), List.getElem?_singleton] at hq
          split at hq
          · exact ⟨by omega, (Option.some_inj.1 hq).symm⟩
          · cases hq
      obtain ⟨rfl, rfl⟩ := hlast
      obtain rfl := List.mem_singleton.1 hl
      refine ⟨value, 0, f.depth, _, [], hsite hf, hreturn, by rwa [List.dropLast_concat],
        by rw [List.drop_zero, List.append_nil], ?_⟩
      simp only [List.length_append, List.length_singleton, Nat.zero_add]

/-! ### Statements -/

theorem ReturnsAmong.cons {s : Stmt} {ss : List Stmt} {mid : Frame} {f₁ : Flow} {code₁ : List Instr}
    (hs : (c.statement s).Lays frame f code₁ mid f₁) {value : Option Expr} {q d : Nat}
    (h : c.ReturnsAmong ss mid f₁ value q d) :
    c.ReturnsAmong (s :: ss) frame f value (code₁.length + q) d := by
  obtain ⟨before, after, code, mid', g, rfl, hlays, hlive, rfl, rfl⟩ := h
  refine ⟨s :: before, after, code₁ ++ code, mid', g, rfl, ?_, hlive, List.length_append.symm, rfl⟩
  exact Draft.lays_bind_iff.2 ⟨mid, f₁, code₁, code, hs, hlays, rfl⟩

section
variable (hmade : c.Made) (hgen : c.procedure.isGenerator = false) (hl : c.bound ≤ l.index)
include hmade hgen hl

theorem statements_hold {ss : List Stmt} (hfits : frame.Fits c)
    (hslot : ∀ s, frame'.returnSlot = some s → s = slot)
    (h : (ss.forM c.statement).Lays frame f code frame' g) (hmark : .markLabel l ∉ code) :
    c.HoldsReturns l slot (c.ReturnsAmong ss frame f) f g code := by
  induction ss generalizing frame f code with
  | nil =>
    obtain ⟨rfl, -, rfl⟩ := Draft.lays_pure_iff.1 h
    exact .of_apart (.refl l _)
  | cons s ss ih =>
    obtain ⟨mid, f₁, code₁, code₂, hs, hss, rfl⟩ := Draft.lays_bind_iff.1
      (show (c.statement s >>= fun _ => ss.forM c.statement).Lays frame f code frame' g from h)
    rw [List.mem_append, not_or] at hmark
    have ⟨ds₁, hgives₁, _⟩ := hs
    have ⟨ds₂, hgives₂, _⟩ := hss
    have hstatement := statement_renders hfits hgives₁
    have hgrows := (statements_render hstatement.fits hgives₂).grows
    have hfirst : c.HoldsReturns l slot (c.ReturnsAmong (s :: ss) frame f) f f₁ code₁ := by
      cases hr : s.isReturn with
      | false => exact .of_apart (statement_apart hmade hgen hl hfits hr hs hmark.1)
      | true =>
        obtain ⟨value, rfl⟩ : ∃ value, s = .ret value := by
          cases s <;> first | exact ⟨_, rfl⟩ | cases hr
        refine return_holds hgen hfits (fun s hs => hslot s (hgrows.returnSlot s hs)) hs fun hlive => ?_
        exact ⟨[], ss, [], frame, f, rfl, Draft.lays_pure_iff.2 ⟨rfl, rfl, rfl⟩, hlive, rfl, rfl⟩
    exact hfirst.append (ih hstatement.fits hss hmark.2) fun _ _ _ hsite => hsite.cons hs

/-! ### Blocks -/

omit hmade hgen hl in
theorem ReturnsAmong.returnsIn {bs bs₁ : List Block} {b : Block} {mid mid₁ : Frame} {f₁ f₂ : Flow}
    {code₁ code₂ : List Instr} (h₁ : (c.blocksTo b.id bs).Lays frame f code₁ mid f₁)
    (h₂ : (c.openBlock b).Lays mid f₁ code₂ mid₁ f₂) {value : Option Expr} {q d : Nat}
    (h : c.ReturnsAmong b.statements mid₁ f₂ value q d) :
    c.ReturnsIn (bs ++ b :: bs₁) frame f value (code₁.length + (code₂.length + q)) d := by
  obtain ⟨before, after, code, mid₂, g, hstatements, hlays, hlive, rfl, rfl⟩ := h
  refine ⟨bs, b, bs₁, before, after, code₁ ++ (code₂ ++ code), mid₂, g, rfl, hstatements, ?_, hlive, ?_,
    rfl⟩
  · exact Draft.lays_bind_iff.2 ⟨mid, f₁, code₁, _, h₁,
      Draft.lays_bind_iff.2 ⟨mid₁, f₂, code₂, code, h₂, hlays, rfl⟩, rfl⟩
  · simp only [List.length_append]

omit hmade hgen hl in
theorem ReturnsIn.cons {b : Block} {bs : List Block} {mid : Frame} {f₁ : Flow} {code₁ : List Instr}
    (h₁ : (c.block b (bs.head?.map (·.id))).Lays frame f code₁ mid f₁) {value : Option Expr} {q d : Nat}
    (h : c.ReturnsIn bs mid f₁ value q d) :
    c.ReturnsIn (b :: bs) frame f value (code₁.length + q) d := by
  obtain ⟨before, b', after, ss, ss', code, mid', g, rfl, hstatements, hlays, hlive, rfl, rfl⟩ := h
  refine ⟨b :: before, b', after, ss, ss', code₁ ++ code, mid', g, rfl, hstatements, ?_, hlive,
    List.length_append.symm, rfl⟩
  obtain ⟨mid₁, f₂, code₂, code₃, hblocks, hrest, rfl⟩ := Draft.lays_bind_iff.1 hlays
  rw [head?_append_cons] at h₁
  refine Draft.lays_bind_iff.2 ⟨mid₁, f₂, code₁ ++ code₂, code₃, ?_, hrest,
    (List.append_assoc ..).symm⟩
  exact Draft.lays_bind_iff.2 ⟨mid, f₁, code₁, code₂, h₁, hblocks, rfl⟩

omit hmade hgen hl in
theorem openBlock_keeps {b : Block} {code : List Instr}
    (h : (c.openBlock b).Lays frame f code frame' g) :
    frame.Grows frame' ∧ (frame.Fits c → frame'.Fits c) ∧ frame'.returnSlot = frame.returnSlot := by
  obtain ⟨ds, hgives, -⟩ := h
  rw [openBlock_eq] at hgives
  obtain ⟨_, mid, _, _, hentry, henter, rfl⟩ := Draft.gives_bind_iff.1 hgives
  have hkeeps := (enterBlock_gives henter).1
  have hfirst : frame.Grows mid ∧ mid.returnSlot = frame.returnSlot ∧
      mid.returnLabel = frame.returnLabel := by
    split at hentry
    · exact entry_keeps hentry
    · obtain ⟨-, rfl, -⟩ := Draft.gives_pure_iff.1 hentry
      exact ⟨.refl _, rfl, rfl⟩
  refine ⟨hfirst.1.trans hkeeps.grows, fun hfits => ?_, hkeeps.returnSlot.trans hfirst.2.1⟩
  exact (hfits.mono hfirst.1 hfirst.2.2 hfirst.2.1).mono hkeeps.grows hkeeps.returnLabel
    hkeeps.returnSlot

/-- The code of a block up to its end holds its return statements. -/
theorem body_holds {bs : List Block} {b : Block} {mid mid₁ : Frame} {f₁ f₂ : Flow}
    {code₁ code₂ code₃ : List Instr} (hfits : mid.Fits c)
    (hslot : ∀ s, frame'.returnSlot = some s → s = slot)
    (hblocks : (c.blocksTo b.id bs).Lays frame f code₁ mid f₁)
    (hopen : (c.openBlock b).Lays mid f₁ code₂ mid₁ f₂)
    (hss : (b.statements.forM c.statement).Lays mid₁ f₂ code₃ frame' g)
    (hmark : .markLabel l ∉ code₂ ++ code₃) (bs' : List Block) :
    c.HoldsReturns l slot
      (fun value q => c.ReturnsIn (bs ++ b :: bs') frame f value (code₁.length + q)) f₁ g
      (code₂ ++ code₃) := by
  rw [List.mem_append, not_or] at hmark
  have hfits₁ := (openBlock_keeps hopen).2.1 hfits
  refine (HoldsReturns.of_apart (openBlock_apart hmade hgen hl hopen hmark.1)).append
    (statements_hold hmade hgen hl hfits₁ hslot hss hmark.2) fun value q d hsite => ?_
  exact hsite.returnsIn hblocks hopen

omit hgen hl in
/-- Blocks only add to the frame. -/
theorem blocksTo_keeps {next : BlockId} {bs : List Block} (hbs : ∀ b ∈ bs, b ∈ c.blocks)
    (hfits : frame.Fits c) (h : (c.blocksTo next bs).Lays frame f code frame' g) :
    frame.Grows frame' ∧ frame'.Fits c := by
  induction bs generalizing frame f code with
  | nil =>
    obtain ⟨-, rfl, -⟩ := Draft.lays_pure_iff.1 h
    exact ⟨.refl _, hfits⟩
  | cons b bs ih =>
    obtain ⟨hb, hbs⟩ := List.forall_mem_cons.1 hbs
    obtain ⟨mid, f₁, _, _, ⟨ds, hgives, -⟩, hrest, -⟩ := Draft.lays_bind_iff.1 h
    obtain ⟨hgrows, hfits₁, -⟩ := block_sound hmade hb hfits hgives
    obtain ⟨hgrows₁, hfits'⟩ := ih hbs hfits₁ hrest
    exact ⟨hgrows.trans hgrows₁, hfits'⟩

/-- The code of blocks other than the exit holds the return statements in them. -/
theorem blocksTo_hold {bs : List Block} {last : Block} {rest : List Block}
    (hbs : ∀ b ∈ bs, b ∈ c.blocks ∧ b.kind ≠ .exit) (hfits : frame.Fits c)
    (hslot : ∀ s, frame'.returnSlot = some s → s = slot)
    (h : (c.blocksTo last.id bs).Lays frame f code frame' g) (hmark : .markLabel l ∉ code) :
    c.HoldsReturns l slot (c.ReturnsIn (bs ++ last :: rest) frame f) f g code := by
  induction bs generalizing frame f code with
  | nil =>
    obtain ⟨rfl, rfl, rfl⟩ := Draft.lays_pure_iff.1 h
    exact .of_apart (.refl l _)
  | cons b bs ih =>
    obtain ⟨⟨hb, hk⟩, hbs⟩ := List.forall_mem_cons.1 hbs
    obtain ⟨mid, f₁, code₁, code₂, hblock, hrest, rfl⟩ := Draft.lays_bind_iff.1 h
    rw [List.mem_append, not_or] at hmark
    have ⟨ds, hgives, _⟩ := hblock
    obtain ⟨-, hfits₁, -⟩ := block_sound hmade hb hfits hgives
    have hgrows₁ := (blocksTo_keeps hmade (fun b hb => (hbs b hb).1) hfits₁ hrest).1
    rw [← head?_append_cons bs last rest] at hblock
    refine HoldsReturns.append ?_ (ih hbs hfits₁ hrest hmark.2) fun _ _ _ hsite => hsite.cons hblock
    rw [block_eq_openBlock] at hblock
    obtain ⟨mid₁, f₂, code₃, _, hopen, hbody, rfl⟩ := Draft.lays_bind_iff.1 hblock
    obtain ⟨mid₂, f₃, code₄, code₅, hss, hend, rfl⟩ := Draft.lays_bind_iff.1 hbody
    rw [← List.append_assoc, List.mem_append, not_or] at hmark
    have hsame : mid = mid₂ := by
      have ⟨ds, hgives, _⟩ := hend
      unfold blockEnd at hgives
      rw [if_neg hk] at hgives
      exact (edge_renders hgives).1
    subst hsame
    have hstart : (c.blocksTo b.id []).Lays frame f [] frame f := Draft.lays_pure_iff.2 ⟨rfl, rfl, rfl⟩
    have hslot₂ : ∀ s, mid.returnSlot = some s → s = slot := fun s hs =>
      hslot s (hgrows₁.returnSlot s hs)
    have hbody := body_holds hmade hgen hl hfits hslot₂ hstart hopen hss hmark.1.1
    rw [← List.append_assoc]
    refine ((hbody (bs ++ last :: rest)).mono fun value q d hsite => ?_).append
      (.of_apart (edge_apart hmade hgen hl hb hk hend hmark.1.2)) fun _ _ _ hsite => hsite
    exact Nat.zero_add q ▸ hsite

omit hgen hl in
theorem upTo_keeps {bs : List Block} {b : Block} {ss : List Stmt} (hbs : ∀ b ∈ bs, b ∈ c.blocks)
    (hfits : frame.Fits c) (h : (c.upTo bs b ss).Lays frame f code frame' g) :
    frame.Grows frame' ∧ frame'.Fits c := by
  obtain ⟨mid₁, _, _, _, hblocks, hbody, -⟩ := Draft.lays_bind_iff.1 h
  obtain ⟨mid₂, _, _, _, hopen, ⟨ds, hgives, -⟩, -⟩ := Draft.lays_bind_iff.1 hbody
  obtain ⟨hgrows₁, hfits₁⟩ := blocksTo_keeps hmade hbs hfits hblocks
  obtain ⟨hgrows₂, hfits₂, -⟩ := openBlock_keeps hopen
  have hss := statements_render (hfits₂ hfits₁) hgives
  exact ⟨hgrows₁.trans (hgrows₂.trans hss.grows), hss.fits⟩

/-- The code up to the end of a block holds the return statements there. -/
theorem upTo_holds {bs : List Block} {b : Block} {rest : List Block}
    (hbs : ∀ b ∈ bs, b ∈ c.blocks ∧ b.kind ≠ .exit) (hfits : frame.Fits c)
    (hslot : ∀ s, frame'.returnSlot = some s → s = slot)
    (h : (c.upTo bs b b.statements).Lays frame f code frame' g) (hmark : .markLabel l ∉ code) :
    c.HoldsReturns l slot (c.ReturnsIn (bs ++ b :: rest) frame f) f g code := by
  obtain ⟨mid₁, f₁, code₁, _, hblocks, hbody, rfl⟩ := Draft.lays_bind_iff.1 h
  obtain ⟨mid₂, f₂, code₂, code₃, hopen, hss, rfl⟩ := Draft.lays_bind_iff.1 hbody
  rw [List.mem_append, not_or] at hmark
  have hfits₁ := (blocksTo_keeps hmade (fun b hb => (hbs b hb).1) hfits hblocks).2
  have ⟨ds, hgives, _⟩ := hss
  have hgrows := (openBlock_keeps hopen).1.trans
    (statements_render ((openBlock_keeps hopen).2.1 hfits₁) hgives).grows
  have hfront : c.HoldsReturns l slot (c.ReturnsIn (bs ++ b :: rest) frame f) f f₁ code₁ :=
    blocksTo_hold hmade hgen hl hbs hfits (fun s hs => hslot s (hgrows.returnSlot s hs)) hblocks
      hmark.1
  exact hfront.append (body_holds hmade hgen hl hfits₁ hslot hblocks hopen hss hmark.2 rest)
    fun _ _ _ hsite => hsite

end

end Plan

end StackCode
