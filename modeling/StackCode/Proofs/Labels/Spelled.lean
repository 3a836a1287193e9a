import StackCode.Proofs.Generator.Entry
import StackCode.Proofs.Labels.Landmarks

/-!
# Statements in full

Slots and notes about them apart, a draft is its outline with the labels written out.  Which label a
landmark has is the only thing that depends on what has been drafted before, so the directives are a
function of the labels; those of statements are the first part.  Main statement:
`Plan.statements_spell`.
-/

namespace StackCode

open Landmark

/-! ## Directives without slots -/

/-- What is left of a directive without the number of its slot; nothing is left of a note. -/
def Directive.bare? : Directive → Option Directive
  | .instr i => if i.isNote then none else some (.instr i.erased)
  | .returnPoint l _ => some (.returnPoint l ⟨0⟩)
  | d => some d

theorem Directive.bare?_instr {i : Instr} {d : Directive} :
    (Directive.instr i).bare? = some d ↔ i.isNote = false ∧ .instr i.erased = d := by
  cases hi : i.isNote <;> simp [bare?, hi]

/-- Directives without slots. -/
def bare (ds : List Directive) : List Directive := ds.filterMap Directive.bare?

theorem bare_append (ds ds' : List Directive) : bare (ds ++ ds') = bare ds ++ bare ds' :=
  List.filterMap_append

theorem bare_cons {d d' : Directive} (h : d.bare? = some d') (ds : List Directive) :
    bare (d :: ds) = d' :: bare ds := List.filterMap_cons_some h

theorem bare_note {i : Instr} (hi : i.isNote = true) (ds : List Directive) :
    bare (.instr i :: ds) = bare ds := List.filterMap_cons_none (if_pos hi)

theorem bare_instr {i : Instr} (hi : i.isNote = false) (ds : List Directive) :
    bare (.instr i :: ds) = .instr i.erased :: bare ds :=
  bare_cons (Directive.bare?_instr.2 ⟨hi, rfl⟩) ds

theorem bare_of_notes {ds : List Directive} (h : ∀ d ∈ ds, ∃ i, d = .instr i ∧ i.isNote = true) :
    bare ds = [] := by
  refine List.filterMap_eq_nil_iff.2 fun d hd => ?_
  obtain ⟨i, rfl, hi⟩ := h d hd
  exact if_pos hi

theorem bare_map_instr {is : List Instr} (h : ∀ i ∈ is, i.isNote = false) :
    bare (is.map .instr) = is.map fun i => .instr i.erased := by
  induction is with
  | nil => rfl
  | cons i is ih =>
    obtain ⟨hi, his⟩ := List.forall_mem_cons.1 h
    rw [List.map_cons, bare_instr hi, ih his, List.map_cons]

/-! ## Operations with labels -/

/-- The directives of an operation; `own` is the label behind instructions that may be left out. -/
def Op.spell (label : Landmark → Label) (own : Label) : Op → List Directive
  | .run i => [.instr i]
  | .stage => [.stageReturn, .instr (.storeTemp ⟨0⟩)]
  | .guard code =>
    .instr (.branchIf true own) :: (code.map (fun i => .instr i.erased) ++ [.mark own .forward])
  | .goto s => [.instr (.branch (label (.spot s)))]
  | .suspend index => [.instr (.ret false), .mark (label (.spot (.resume index))) .forward]
  | .enter h => [.instr (.enterTry (label (.spot (.block h))))]
  | .settle => [.endStatement]
  | .unstage | .fork _ _ | .select _ _ | .leave _ | .dangle => []

def Op.isGuard : Op → Bool
  | .guard _ => true
  | _ => false

/-- An instruction that names no label. -/
def Op.isStraight : Op → Bool
  | .run i => i.isStraight
  | _ => false

/-- Where a landmark has its label, `own` being the one behind instructions that may be left out. -/
def Op.marked (own : Landmark) : Op → List Landmark
  | .guard _ => [own]
  | .suspend index => [.spot (.resume index)]
  | _ => []

/-- The directives of some operations. -/
def spell (label : Landmark → Label) (own : Label) (ops : List Op) : List Directive :=
  ops.flatMap (Op.spell label own)

section
variable {label : Landmark → Label} {own : Label}

theorem spell_append (ops ops' : List Op) :
    spell label own (ops ++ ops') = spell label own ops ++ spell label own ops' :=
  List.flatMap_append

/-- Directives that render operations are these operations, with the labels of the reading. -/
theorem Renders.bare_eq {r : Reading} {v w : Bool} {ds : List Directive} {ops : List Op}
    (h : Renders r v ds ops w) (hlabel : ∀ s l, r.label? s = some l → label (.spot s) = l)
    (hops : ∀ op ∈ ops, op.isGuard = false) : bare ds = spell label own ops := by
  induction h with
  | nil => rfl
  | note hi _ ih => rw [bare_note hi, ih hops]
  | @run _ _ i ds ops hi _ ih =>
    have hnote : i.isNote = false := by
      cases i <;> first | rfl | cases hi
    rw [bare_instr hnote, ih fun op hop => hops op (List.mem_cons_of_mem _ hop)]
    rfl
  | stage _ _ ih =>
    rw [bare_cons rfl, bare_instr rfl, ih fun op hop => hops op (List.mem_cons_of_mem _ hop)]
    rfl
  | guard => cases hops _ List.mem_cons_self
  | enter hl _ _ ih =>
    rw [bare_instr rfl, ih fun op hop => hops op (List.mem_cons_of_mem _ hop), ← hlabel _ _ hl]
    rfl
  | goto hl _ _ ih =>
    rw [bare_instr rfl, ih fun op hop => hops op (List.mem_cons_of_mem _ hop), ← hlabel _ _ hl]
    rfl
  | suspend hl _ ih =>
    rw [bare_instr rfl, bare_cons rfl, ih fun op hop => hops op (List.mem_cons_of_mem _ hop),
      ← hlabel _ _ hl]
    rfl
  | settle _ ih =>
    rw [bare_cons rfl, ih fun op hop => hops op (List.mem_cons_of_mem _ hop)]
    rfl

theorem exists_run_of_isStraight {ops : List Op} (h : ∀ op ∈ ops, op.isStraight = true) :
    ∀ op ∈ ops, ∃ i, op = .run i := by
  intro op hop
  have hop := h op hop
  cases op with
  | run i => exact ⟨i, rfl⟩
  | _ => cases hop

/-- Straight code has no labels. -/
theorem bare_of_straight {ds : List Directive} {ops : List Op} {v w : Bool}
    (h : ∀ r, Renders r v ds ops w) (hops : ∀ op ∈ ops, op.isStraight = true) :
    bare ds = spell label own ops := by
  let silent : Reading :=
    { label? := fun _ => none, slot? := none, bound := 0, joins := fun _ => True
      catches := fun _ => True }
  refine (h silent).bare_eq nofun fun op hop => ?_
  obtain ⟨i, rfl⟩ := exists_run_of_isStraight hops op hop
  rfl

end

theorem isStraight_ops {α : Type} {x : Fragment α} (hx : ∀ i ∈ x.code, i.isStraight = true) :
    ∀ op ∈ x.ops, op.isStraight = true := by
  intro op hop
  obtain ⟨i, hi, rfl⟩ := List.mem_map.1 hop
  exact (Instr.isStraight_erased i).trans (hx i hi)

theorem isStraight_of_isPlain {α : Type} {x : Fragment α} (hx : x.IsPlain) :
    ∀ op ∈ x.ops, op.isStraight = true :=
  isStraight_ops fun i hi => Instr.isStraight_of_isPlain (hx i hi)

theorem bare_plain {α : Type} {x : Fragment α} (hx : x.IsPlain) (label : Landmark → Label)
    (own : Label) : bare (x.code.map .instr) = spell label own x.ops :=
  bare_of_straight (fun _ => Renders.ofPlain hx true) (isStraight_of_isPlain hx)

/-! ## Landmarks of operations -/

theorem marked_of_run {own : Landmark} {ops : List Op} (h : ∀ op ∈ ops, ∃ i, op = .run i) :
    ops.flatMap (Op.marked own) = [] := by
  refine List.flatMap_eq_nil_iff.2 fun op hop => ?_
  obtain ⟨i, rfl⟩ := h op hop
  rfl

/-- The landmarks that a statement at a position of a block has the labels of. -/
def Stmt.marks (b : BlockId) (position : Nat) : Stmt → List Landmark
  | .bindStatic d => if d.init.isSome then [.static b position] else []
  | .yield y => [.spot (.resume y.index)]
  | _ => []

def Stmt.marksFrom (b : BlockId) (position : Nat) : List Stmt → List Landmark
  | [] => []
  | s :: ss => s.marks b position ++ marksFrom b (position + 1) ss

theorem Outline.marked_statement (o : Outline) (s : Stmt) (b : BlockId) (position : Nat) :
    (o.statement s).flatMap (Op.marked (.static b position)) = s.marks b position := by
  have hrun {α : Type} (x : Fragment α) : x.ops.flatMap (Op.marked (.static b position)) = [] :=
    marked_of_run exists_run_of_mem
  have hpoint : (o.sequencePoint s.span).flatMap (Op.marked (.static b position)) = [] := by
    unfold sequencePoint
    cases s.span with
    | none => rfl
    | some span =>
      simp only
      split <;> rfl
  unfold statement
  rw [List.flatMap_append, List.flatMap_append, hpoint, List.nil_append]
  change _ ++ [] = _
  rw [List.append_nil]
  unfold statementBody
  cases s with
  | empty span =>
    simp only
    split <;> rfl
  | ret value =>
    simp only [returnValue, Fragment.opsThen, List.flatMap_append, hrun, List.nil_append]
    cases (o.returned value).result with
    | error e => rfl
    | ok ty =>
      simp only [List.flatMap_append, hrun, List.nil_append]
      split <;> rfl
  | bindStatic d =>
    simp only [bindStatic, List.flatMap_append, hrun, List.nil_append]
    cases hinit : d.init with
    | none => simp [Stmt.marks, hinit]
    | some init =>
      simp only [List.flatMap_append, hrun, List.nil_append]
      simp [Stmt.marks, hinit, Op.marked]
  | yield y =>
    simp only [List.flatMap_append, hrun, List.nil_append]
    rfl
  | declare => rfl
  | expr | throw | declareFunction | declareType | bindGlobal | defineConst | unset => exact hrun _

/-! ## What a plan knows -/

namespace Plan

variable (c : Plan)

/-- The landmarks that are known before anything is drafted. -/
def planned : List Landmark :=
  c.labelled.map (fun b => .spot (.block b)) ++
    (List.range c.resume.labels.length).map fun (i : Nat) => .spot (.resume ((i : Int) + 1))

/-- The landmarks that a block asks for. -/
def landmarksOf (b : Block) : List Landmark :=
  (if b.kind = .start ∧ c.procedure.isGenerator = true then [.spot .body] else []) ++
    Stmt.landmarksFrom b.id 0 b.statements

/-- All landmarks of a plan, in the order in which they come to be known. -/
def known : List Landmark := addAll c.planned (c.blocks.flatMap c.landmarksOf)

/-- The label of a landmark. -/
def labelOf (x : Landmark) : Label := labelIn c.known x

/-! ## The draft in full -/

section
variable (label : Landmark → Label)

/-- A statement at a position of a block. -/
def spellStatement (b : BlockId) (position : Nat) (s : Stmt) : List Directive :=
  spell label (label (.static b position)) (c.outline.statement s)

/-- Statements of a block, the first of which stands at this position. -/
def spellFrom (b : BlockId) (position : Nat) : List Stmt → List Directive
  | [] => []
  | s :: ss => c.spellStatement label b position s ++ spellFrom b (position + 1) ss

/-- The jump to where a generator stopped. -/
def spellDispatch : List Directive :=
  [.instr .loadState, .instr (.storeTemp ⟨0⟩), .instr (.constInt GeneratorState.running.toInt),
    .instr .storeState, .instr (.loadTemp ⟨0⟩),
    .instr (.switch c.resume.points (label (.spot .body))), .mark (label (.spot .body)) .forward]

/-- What stands in front of the label of the start. -/
def spellEntry : List Directive :=
  spell label ⟨0⟩ c.outline.prologue ++
    if c.procedure.isGenerator then c.spellDispatch label else []

/-- What stands in front of the statements of a block. -/
def spellFront (b : Block) : List Directive :=
  (if b.kind = .start then c.spellEntry label else []) ++
    ((if b.id ∈ c.labelled then [.mark (label (.spot (.block b.id))) (c.arrival b)] else []) ++
      spell label ⟨0⟩ (c.outline.receive b.id))

/-- The end of the exit, in a procedure with a return statement or without one. -/
def spellExit (returns : Bool) : List Directive :=
  if returns && c.outline.stages then
    spell label ⟨0⟩ c.outline.exit ++ [.returnPoint (label (.spot .ret)) ⟨0⟩]
  else
    (if returns then [.mark (label (.spot .ret)) .forward] else []) ++ spell label ⟨0⟩ c.outline.exit

/-- An edge, whose labels are those of the plan. -/
def spellEdge (b : Block) (next : Option BlockId) : List Directive :=
  bare (c.edge b next { labels := {} }).code

def spellEnd (returns : Bool) (b : Block) (next : Option BlockId) : List Directive :=
  if b.kind = .exit then c.spellExit label returns else c.spellEdge b next

/-- A block in front of the block `next`. -/
def spellBlock (returns : Bool) (b : Block) (next : Option BlockId) : List Directive :=
  c.spellFront label b ++ (c.spellFrom label b.id 0 b.statements ++ c.spellEnd label returns b next)

/-- Blocks in their order. -/
def spellBlocks (returns : Bool) : List Block → List Directive
  | [] => []
  | b :: bs => c.spellBlock label returns b (bs.head?.map (·.id)) ++ spellBlocks returns bs

/-- A block in front of its end. -/
def spellBody (b : Block) : List Directive :=
  c.spellFront label b ++ c.spellFrom label b.id 0 b.statements

/-- Blocks in their order, without the end of the exit. -/
def spellOpen : List Block → List Directive
  | [] => []
  | b :: bs => c.spellBody label b ++
    ((if b.kind = .exit then [] else c.spellEdge b (bs.head?.map (·.id))) ++ spellOpen bs)

end

/-! ## Known landmarks -/

variable {c}

theorem getElem?_planned {i : Nat} {b : BlockId} (h : c.labelled[i]? = some b) :
    c.planned[i]? = some (.spot (.block b)) := by
  have hlt := (List.getElem?_eq_some_iff.1 h).1
  unfold planned
  rw [List.getElem?_append_left (by simpa using hlt), List.getElem?_map, h]
  rfl

theorem getElem?_planned_resume {i : Nat} (h : i < c.resume.labels.length) :
    c.planned[c.labelled.length + i]? = some (.spot (.resume ((i : Int) + 1))) := by
  unfold planned
  rw [List.getElem?_append_right (by simp), List.length_map, Nat.add_sub_cancel_left,
    List.getElem?_map, List.getElem?_range h]
  rfl

theorem length_planned : c.planned.length = c.bound := by
  simp [planned, bound]

theorem Made.nodup_planned (h : c.Made) : c.planned.Nodup := by
  unfold planned
  rw [List.nodup_append]
  refine ⟨?_, ?_, ?_⟩
  · refine List.Nodup.map (fun b b' hb => ?_) (h.labelled ▸ nodup_eraseDups _)
    cases hb
    rfl
  · refine List.Nodup.map (fun i j hij => ?_) List.nodup_range
    simp only [Landmark.spot.injEq, Spot.resume.injEq] at hij
    omega
  · intro x hx y hy
    obtain ⟨b, -, rfl⟩ := List.mem_map.1 hx
    obtain ⟨i, -, rfl⟩ := List.mem_map.1 hy
    nofun

theorem labelIn_of_getElem? {known : List Landmark} (h : known.Nodup) {i : Nat} {x : Landmark}
    (hx : known[i]? = some x) : labelIn known x = ⟨i⟩ := by
  obtain ⟨hlt, rfl⟩ := List.getElem?_eq_some_iff.1 hx
  unfold labelIn
  rw [h.idxOf_getElem]

section
variable {known : List Landmark} {label : Landmark → Label} (hmade : c.Made)
  (hplanned : c.planned <+: known) (hlabel : Agrees label known)
include hmade hplanned hlabel

theorem label_of_getElem? {i : Nat} {x : Landmark} (h : c.planned[i]? = some x) : label x = ⟨i⟩ :=
  (hlabel.of_isPrefix hplanned x (List.mem_of_getElem? h)).trans
    (labelIn_of_getElem? hmade.nodup_planned h)

/-- The label that the plan gives a block. -/
theorem label_block {b : BlockId} {l : Label} (hl : c.label? b = some l) :
    label (.spot (.block b)) = l := by
  obtain ⟨hlt, hb, -⟩ := List.idxOf?_eq_some_iff.1 (label?_eq_some_iff.1 hl)
  exact label_of_getElem? hmade hplanned hlabel
    (getElem?_planned (List.getElem?_eq_some_iff.2 ⟨hlt, hb⟩))

/-- The label that the plan gives a suspension point. -/
theorem label_resume {index : Int} {l : Label} (hl : c.resume.label? index = some l) :
    label (.spot (.resume index)) = l := by
  obtain ⟨hpos, hle, hindex⟩ := hmade.resume_label?_eq_some_iff.1 hl
  have hget := getElem?_planned_resume (c := c) (i := index.toNat - 1) (by omega)
  rw [show ((index.toNat - 1 : Nat) : Int) + 1 = index by omega, ← hindex] at hget
  exact label_of_getElem? hmade hplanned hlabel hget

end

/-- The reading of a frame. -/
def spelling (c : Plan) (frame : Frame) : Reading where
  label?
    | .block b => c.label? b
    | .resume index => c.resume.label? index
    | .ret => frame.returnLabel
    | .body => none
  slot? := frame.returnSlot
  bound := c.bound
  joins _ := True
  catches _ := True

theorem spelling_covers (c : Plan) (frame : Frame) : (c.spelling frame).Covers c frame :=
  ⟨rfl, fun _ => rfl, fun _ => rfl, fun _ => id, fun _ => id⟩

theorem label_of_spelling {known : List Landmark} {label : Landmark → Label} {frame : Frame}
    (hmade : c.Made) (hplanned : c.planned <+: known) (hlists : frame.Lists known)
    (hlabel : Agrees label known) :
    ∀ s l, (c.spelling frame).label? s = some l → label (.spot s) = l := by
  intro s l hl
  cases s with
  | block b => exact label_block hmade hplanned hlabel hl
  | resume index => exact label_resume hmade hplanned hlabel hl
  | body => cases hl
  | ret =>
    change frame.returnLabel = some l at hl
    rw [hlists.returnLabel] at hl
    split at hl
    · next hret =>
      cases hl
      exact hlabel _ hret
    · cases hl

/-- The directives are what the function says of the labels, and the frame behind them knows these
landmarks. -/
structure Spells (c : Plan) (frame' : Frame) (ds : List Directive) (known' : List Landmark)
    (code : (Landmark → Label) → List Directive) : Prop where
  fits : frame'.Fits c
  lists : frame'.Lists known'
  bare_eq : ∀ label, Agrees label known' → bare ds = code label

variable {frame frame' mid : Frame} {ds ds' : List Directive} {known known' : List Landmark} {u : Unit}

theorem Spells.append {code code' : (Landmark → Label) → List Directive}
    (h : Spells c mid ds known code) (h' : Spells c frame' ds' known' code')
    (hextends : known <+: known') :
    Spells c frame' (ds ++ ds') known' fun label => code label ++ code' label where
  fits := h'.fits
  lists := h'.lists
  bare_eq label hlabel := by
    rw [bare_append, h.bare_eq label (hlabel.of_isPrefix hextends), h'.bare_eq label hlabel]

/-! ## Statements -/

/-- Apart from initializations of static storage, nothing is left out. -/
theorem isGuard_statement {s : Stmt} (hs : s.initializes = false) :
    ∀ op ∈ c.outline.statement s, op.isGuard = false := by
  intro op hop
  cases op with
  | guard code =>
    have hmem : .static ⟨0⟩ 0 ∈ (c.outline.statement s).flatMap (Op.marked (.static ⟨0⟩ 0)) :=
      List.mem_flatMap.2 ⟨_, hop, List.mem_singleton_self _⟩
    rw [c.outline.marked_statement] at hmem
    cases s with
    | bindStatic d =>
      rw [Stmt.marks, if_neg (by rw [show d.init.isSome = false from hs]; nofun)] at hmem
      cases hmem
    | yield y => cases List.mem_singleton.1 hmem
    | _ => cases hmem
  | _ => rfl

theorem bindStatic_bare {d : StaticDecl} {init : Expr} (hinit : d.init = some init)
    (h : (c.statement (.bindStatic d)).Gives frame ds frame' u) {label : Landmark → Label} :
    bare ds = spell label ⟨frame.labels.size⟩ (c.outline.statement (.bindStatic d)) := by
  unfold statement at h
  obtain ⟨_, mid, _, _, hp, h₁, rfl⟩ := Draft.gives_bind_iff.1 h
  obtain ⟨rfl, rfl, -⟩ := Draft.gives_pure_iff.1 hp
  obtain ⟨_, mid', _, _, hbody, hend, rfl⟩ := Draft.gives_bind_iff.1 h₁
  obtain ⟨rfl, rfl⟩ := Draft.gives_directive_iff.1 hend
  obtain ⟨-, rfl⟩ := bindStatic_gives hinit hbody
  have hcode : ∀ i ∈ (c.outline.staticInit d.target init).code, i.isNote = false := fun i hi =>
    Instr.isNote_of_isPlain (c.outline.isPlain_staticInit d.target init i hi)
  have hops : c.outline.statement (.bindStatic d) =
      (c.procedure.bindHolder d.target d.key).ops ++ ((c.procedure.loadVar d.target).ops ++
        ((Fragment.callIntrinsic .staticIsInitialized).ops ++
          [.guard (c.outline.staticInit d.target init).code, .settle])) := by
    have hbind : c.outline.bindStatic d = (c.procedure.bindHolder d.target d.key).ops ++
        ((c.procedure.loadVar d.target).ops ++ (Fragment.callIntrinsic .staticIsInitialized).ops ++
          [.guard (c.outline.staticInit d.target init).code]) := by
      unfold Outline.bindStatic
      rw [hinit]
      rfl
    change ([] ++ c.outline.bindStatic d) ++ [.settle] = _
    rw [hbind]
    simp only [List.nil_append, List.append_assoc, List.cons_append]
  have hguard : spell label ⟨mid.labels.size⟩ [.guard (c.outline.staticInit d.target init).code, .settle] =
      .instr (.branchIf true ⟨mid.labels.size⟩) ::
        ((c.outline.staticInit d.target init).code.map (fun i => .instr i.erased) ++
          [.mark ⟨mid.labels.size⟩ .forward, .endStatement]) := by
    simp [spell, Op.spell]
  rw [hops]
  simp only [bare_append, spell_append, List.nil_append, List.append_assoc, List.cons_append]
  rw [bare_plain (c.procedure.isPlain_bindHolder d.target d.key) label ⟨mid.labels.size⟩,
    bare_plain (c.procedure.isPlain_loadVar d.target) label ⟨mid.labels.size⟩,
    bare_plain (Fragment.isPlain_callIntrinsic _) label ⟨mid.labels.size⟩, bare_instr rfl,
    bare_append, bare_map_instr hcode, hguard]
  rfl

theorem statement_spells (hmade : c.Made) (hplanned : c.planned <+: known) (hfits : frame.Fits c)
    (hlists : frame.Lists known) {b : BlockId} {position : Nat} (hnew : .static b position ∉ known)
    {s : Stmt} (h : (c.statement s).Gives frame ds frame' u) :
    Spells c frame' ds (addAll known (s.landmarks b position))
      fun label => c.spellStatement label b position s := by
  have hrenders := statement_renders hfits h
  have hlists' := hlists.statement hrenders.grows hnew (statement_allots hfits h)
  refine ⟨hrenders.fits, hlists', fun label hlabel => ?_⟩
  cases hs : s.initializes with
  | false =>
    exact (hrenders.renders (c.spelling frame') true (c.spelling_covers frame')
      fun _ _ => trivial).bare_eq
        (label_of_spelling hmade (hplanned.trans (prefix_addAll _ _)) hlists' hlabel)
        (isGuard_statement hs)
  | true =>
    cases s <;> try cases hs
    rename_i d
    obtain ⟨init, hinit⟩ := Option.isSome_iff_exists.1 hs
    have hasks : (Stmt.bindStatic d).landmarks b position = [.static b position] := if_pos hs
    rw [hasks, addAll_cons, addAll_nil, add_of_not_mem hnew] at hlabel
    have hown : label (.static b position) = ⟨frame.labels.size⟩ := by
      rw [hlabel _ (by simp), labelIn_append_self hnew, hlists.size]
    unfold spellStatement
    rw [hown]
    exact bindStatic_bare hinit h

theorem statements_spell (hmade : c.Made) (hplanned : c.planned <+: known) (hfits : frame.Fits c)
    (hlists : frame.Lists known) (b : BlockId) (position : Nat)
    (hnew : ∀ k, position ≤ k → .static b k ∉ known) {ss : List Stmt}
    (h : (ss.forM c.statement).Gives frame ds frame' u) :
    Spells c frame' ds (addAll known (Stmt.landmarksFrom b position ss))
      fun label => c.spellFrom label b position ss := by
  induction ss generalizing frame ds known position with
  | nil =>
    obtain ⟨rfl, rfl, -⟩ := Draft.gives_pure_iff.1 h
    exact ⟨hfits, hlists, fun _ _ => rfl⟩
  | cons s ss ih =>
    obtain ⟨_, mid, ds₁, ds₂, hs, hss, rfl⟩ := Draft.gives_bind_iff.1 h
    have hfirst := statement_spells hmade hplanned hfits hlists (hnew position (Nat.le_refl _)) hs
    have hrest := ih (hplanned.trans (prefix_addAll _ _)) hfirst.fits hfirst.lists (position + 1)
      (fun k hk hmem => (mem_addAll.1 hmem).elim (hnew k (by omega)) fun hmem => by
        have := (Stmt.static_of_mem_landmarks hmem).2
        omega) hss
    rw [Stmt.landmarksFrom, addAll_append]
    exact hfirst.append hrest (prefix_addAll _ _)

end Plan

end StackCode
