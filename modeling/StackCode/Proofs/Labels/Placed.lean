import StackCode.Proofs.Labels.Drafted
import StackCode.Proofs.Returns.Layout

/-!
# Labels that are placed

A draft places the label of every landmark that its plan knows, in the order of the code, and so does
the code that it comes to.  The exception is where a stored value is returned: its label is left out if
no value has been stored, and then nothing leads to it.  Main statement: `Plan.Lowered.placedIn_eq`.
-/

namespace StackCode

open Landmark

/-! ## Labels of directives -/

/-- The labels that some directives place, in order. -/
def marksIn (ds : List Directive) : List Label := ds.filterMap Directive.marks?

/-- Fetches a stored return value, if there is one. -/
def Directive.isReturnPoint : Directive → Bool
  | .returnPoint _ _ => true
  | _ => false

theorem marksIn_append (ds ds' : List Directive) : marksIn (ds ++ ds') = marksIn ds ++ marksIn ds' :=
  List.filterMap_append

theorem marksIn_bare (ds : List Directive) : marksIn (bare ds) = marksIn ds := by
  unfold marksIn bare
  rw [List.filterMap_filterMap]
  refine List.filterMap_congr fun d _ => ?_
  cases d with
  | instr i =>
    unfold Directive.bare?
    simp only
    split <;> rfl
  | _ => rfl

theorem isReturnPoint_of_bare? {d d' : Directive} (h : d.bare? = some d') :
    d'.isReturnPoint = d.isReturnPoint := by
  cases d with
  | instr i =>
    obtain ⟨-, rfl⟩ := Directive.bare?_instr.1 h
    rfl
  | _ =>
    cases h
    rfl

/-- What nothing is left of is a note. -/
theorem isNote_of_bare? {d : Directive} (h : d.bare? = none) :
    ∃ i, d = .instr i ∧ i.isNote = true := by
  cases d with
  | instr i =>
    refine ⟨i, rfl, ?_⟩
    unfold Directive.bare? at h
    simp only at h
    split at h
    · next hi => exact hi
    · cases h
  | _ => cases h

section
variable {label : Landmark → Label}

theorem marksIn_spell (own : Landmark) (ops : List Op) :
    marksIn (spell label (label own) ops) = (ops.flatMap (Op.marked own)).map label := by
  have hcode (code : List Instr) : marksIn (code.map fun i => .instr i.erased) = [] := by
    refine List.filterMap_eq_nil_iff.2 fun d hd => ?_
    obtain ⟨i, -, rfl⟩ := List.mem_map.1 hd
    rfl
  induction ops with
  | nil => rfl
  | cons op ops ih =>
    change marksIn (op.spell label (label own) ++ spell label (label own) ops) = _
    rw [marksIn_append, ih, List.flatMap_cons, List.map_append]
    congr 1
    cases op with
    | guard code =>
      change marksIn (.instr (.branchIf true (label own)) ::
        (code.map (fun i => .instr i.erased) ++ [.mark (label own) .forward])) = _
      rw [← List.singleton_append, marksIn_append, marksIn_append, hcode]
      rfl
    | _ => rfl

theorem marksIn_spell_straight {l : Label} {ops : List Op}
    (h : ∀ op ∈ ops, op.isStraight = true) : marksIn (spell label l ops) = [] := by
  refine List.filterMap_eq_nil_iff.2 fun d hd => ?_
  obtain ⟨op, hop, hd⟩ := List.mem_flatMap.1 hd
  obtain ⟨i, rfl⟩ := exists_run_of_isStraight h op hop
  rw [List.mem_singleton.1 hd]
  rfl

theorem isReturnPoint_spell {l : Label} (ops : List Op) :
    ∀ d ∈ spell label l ops, d.isReturnPoint = false := by
  intro d hd
  obtain ⟨op, -, hd⟩ := List.mem_flatMap.1 hd
  cases op <;> simp only [Op.spell, List.mem_cons, List.mem_append, List.mem_map, List.not_mem_nil,
    or_false] at hd
  case guard =>
    rcases hd with rfl | ⟨i, -, rfl⟩ | rfl <;> rfl
  all_goals rcases hd with rfl | rfl <;> rfl

end

/-! ## Labels of a draft -/

namespace Plan

variable (c : Plan)

/-- The landmarks with their labels in front of the statements of a block. -/
def marksBefore (b : Block) : List Landmark :=
  (if b.kind = .start ∧ c.procedure.isGenerator = true then [.spot .body] else []) ++
    if b.id ∈ c.labelled then [.spot (.block b.id)] else []

/-- The landmarks that a block has the labels of, the return label apart. -/
def marksOf (b : Block) : List Landmark := c.marksBefore b ++ Stmt.marksFrom b.id 0 b.statements

/-- All landmarks with their labels in the code, in its order, the return label apart. -/
def marked : List Landmark := c.blocks.flatMap c.marksOf

variable {c} {label : Landmark → Label}

theorem marksIn_spellFrom (b : BlockId) (position : Nat) (ss : List Stmt) :
    marksIn (c.spellFrom label b position ss) = (Stmt.marksFrom b position ss).map label := by
  induction ss generalizing position with
  | nil => rfl
  | cons s ss ih =>
    rw [spellFrom, marksIn_append, ih, Stmt.marksFrom, List.map_append, spellStatement, marksIn_spell,
      c.outline.marked_statement]

theorem marksIn_spellFront (b : Block) :
    marksIn (c.spellFront label b) = (c.marksBefore b).map label := by
  have hlabel : marksIn (if b.id ∈ c.labelled then
      [.mark (label (.spot (.block b.id))) (c.arrival b)] else []) =
      (if b.id ∈ c.labelled then [Landmark.spot (.block b.id)] else []).map label := by
    split <;> rfl
  have hentry : marksIn (if b.kind = .start then c.spellEntry label else []) =
      (if b.kind = .start ∧ c.procedure.isGenerator = true then [Landmark.spot .body] else []).map
        label := by
    by_cases hk : b.kind = .start
    · simp only [hk, if_true, true_and, spellEntry]
      rw [marksIn_append, marksIn_spell_straight (isStraight_prologue c), List.nil_append]
      split <;> rfl
    · rw [if_neg hk, if_neg fun h => hk h.1]
      rfl
  unfold spellFront marksBefore
  rw [marksIn_append, marksIn_append, hentry, hlabel, marksIn_spell_straight (isStraight_receive _ _),
    List.append_nil, List.map_append]

theorem isReturnPoint_spellFront (b : Block) :
    ∀ d ∈ c.spellFront label b, d.isReturnPoint = false := by
  have hdispatch : ∀ d ∈ c.spellDispatch label, d.isReturnPoint = false := by
    unfold spellDispatch
    simp [Directive.isReturnPoint]
  unfold spellFront spellEntry
  refine List.forall_mem_append.2 ⟨?_, List.forall_mem_append.2 ⟨?_, isReturnPoint_spell _⟩⟩
  · split
    · refine List.forall_mem_append.2 ⟨isReturnPoint_spell _, ?_⟩
      split
      · exact hdispatch
      · exact nofun
    · exact nofun
  · split
    · exact List.forall_mem_singleton.2 rfl
    · exact nofun

theorem isReturnPoint_spellFrom (b : BlockId) (position : Nat) (ss : List Stmt) :
    ∀ d ∈ c.spellFrom label b position ss, d.isReturnPoint = false := by
  induction ss generalizing position with
  | nil => exact nofun
  | cons s ss ih => exact List.forall_mem_append.2 ⟨isReturnPoint_spell _, ih _⟩

/-- An edge fetches no value to return. -/
theorem LeadsOn.isReturnPoint {d : Directive} (h : c.LeadsOn d) : d.isReturnPoint = false := by
  cases d with
  | returnPoint => cases h.marks?
  | _ => rfl

theorem marksIn_spellOpen (bs : List Block) :
    marksIn (c.spellOpen label bs) = (bs.flatMap c.marksOf).map label := by
  induction bs with
  | nil => rfl
  | cons b bs ih =>
    have hend : marksIn (if b.kind = .exit then [] else c.spellEdge b (bs.head?.map (·.id))) = [] := by
      refine List.filterMap_eq_nil_iff.2 fun d hd => ?_
      split at hd
      · cases hd
      · exact (leadsOn_of_mem_spellEdge hd).marks?
    rw [spellOpen, spellBody, marksIn_append, marksIn_append, marksIn_append, hend, ih,
      marksIn_spellFront, marksIn_spellFrom, List.flatMap_cons, marksOf, List.map_append,
      List.map_append]
    rfl

theorem isReturnPoint_spellOpen (bs : List Block) :
    ∀ d ∈ c.spellOpen label bs, d.isReturnPoint = false := by
  induction bs with
  | nil => exact nofun
  | cons b bs ih =>
    have hbody : ∀ d ∈ c.spellBody label b, d.isReturnPoint = false :=
      List.forall_mem_append.2 ⟨isReturnPoint_spellFront _, isReturnPoint_spellFrom _ _ _⟩
    refine List.forall_mem_append.2 ⟨hbody, List.forall_mem_append.2 ⟨fun d hd => ?_, ih⟩⟩
    split at hd
    · cases hd
    · exact (leadsOn_of_mem_spellEdge hd).isReturnPoint

theorem marksIn_spellExit (returns : Bool) :
    marksIn (c.spellExit label returns) = if returns then [label (.spot .ret)] else [] := by
  unfold spellExit
  cases returns with
  | false => exact marksIn_spell_straight (isStraight_exit _)
  | true =>
    simp only [Bool.true_and, if_true]
    split
    · rw [marksIn_append, marksIn_spell_straight (isStraight_exit _)]
      rfl
    · rw [marksIn_append, marksIn_spell_straight (isStraight_exit _)]
      rfl

end Plan

/-! ## Labels of the code -/

namespace Assembles

variable {f g : Flow} {ds : List Directive} {code : List Instr}

theorem placedIn_emit {i : Instr} (hi : i.placed? = none) (h : f.emit i = .ok (code, g)) :
    placedIn code = [] := by
  cases hf : f.isLive with
  | true =>
    obtain ⟨rfl, -⟩ := (Flow.emit_live hf).1 h
    exact List.filterMap_cons_none hi
  | false =>
    obtain ⟨rfl, -⟩ := (Flow.emit_dead hf).1 h
    split
    · exact List.filterMap_cons_none hi
    · rfl

/-- Labels are placed in dead code and in live code alike. -/
theorem placedIn_eq (ha : Assembles f ds code g) (hds : ∀ d ∈ ds, d.IsProper)
    (hpoints : ∀ d ∈ ds, d.isReturnPoint = false) : placedIn code = marksIn ds := by
  induction ha with
  | nil => rfl
  | @cons f m g d ds instrs code hstep _ ih =>
    obtain ⟨hd, hds⟩ := List.forall_mem_cons.1 hds
    obtain ⟨hpoint, hpoints⟩ := List.forall_mem_cons.1 hpoints
    rw [placedIn_append, ih hds hpoints, ← List.singleton_append, marksIn_append]
    congr 1
    cases d with
    | instr i => exact placedIn_emit hd hstep
    | mark l arrival =>
      obtain ⟨rfl, -⟩ := Flow.step_mark hstep
      rfl
    | endStatement =>
      obtain ⟨-, rfl, -⟩ := Flow.step_endStatement.1 hstep
      rfl
    | endBlock b =>
      obtain ⟨-, rfl, -⟩ := Flow.step_endBlock.1 hstep
      rfl
    | stageReturn =>
      obtain ⟨rfl, -⟩ := Flow.step_stageReturn hstep
      rfl
    | returnPoint => cases hpoint

/-- Whether a stored value is fetched is seen without slots. -/
theorem placedIn_eq_bare (ha : Assembles f ds code g) (hds : ∀ d ∈ ds, d.IsProper)
    (hpoints : ∀ d ∈ bare ds, d.isReturnPoint = false) : placedIn code = marksIn (bare ds) := by
  rw [marksIn_bare]
  refine ha.placedIn_eq hds fun d hd => ?_
  cases hd' : d.bare? with
  | none =>
    obtain ⟨i, rfl, -⟩ := isNote_of_bare? hd'
    rfl
  | some d' =>
    rw [← isReturnPoint_of_bare? hd']
    exact hpoints d' (List.mem_filterMap.2 ⟨d, hd, hd'⟩)

/-- Notes place no label and lead to none. -/
theorem labels_of_notes (ha : Assembles f ds code g)
    (hds : ∀ d ∈ ds, ∃ i, d = .instr i ∧ i.isNote = true) :
    placedIn code = [] ∧ ∀ l, g.labels.isReferenced l = f.labels.isReferenced l := by
  obtain ⟨notes, rfl, hnotes⟩ := exists_notes hds
  have hproper : ∀ d ∈ notes.map Directive.instr, d.IsProper := by
    intro d hd
    obtain ⟨i, hi, rfl⟩ := List.mem_map.1 hd
    exact Instr.placed?_of_isNote (hnotes i hi)
  have htargets : targetsIn code = [] := by
    obtain rfl := (ha.of_notes hnotes).1
    exact List.flatMap_eq_nil_iff.2 fun i hi => Instr.targets_of_isNote (hnotes i hi)
  refine ⟨?_, fun l => ?_⟩
  · rw [ha.placedIn_eq_bare hproper (by rw [bare_of_notes hds]; nofun), bare_of_notes hds]
    rfl
  · have hiff := (ha.advances hproper).grows.isReferenced_iff l
    rw [htargets] at hiff
    exact Bool.eq_iff_iff.2 (hiff.trans (or_iff_left List.not_mem_nil))

/-- A stored value is returned at its label; where none is stored, nothing leads to the label. -/
theorem placedIn_returnPoint {l : Label} {slot : TempSlot}
    (ha : Assembles f (.returnPoint l slot :: ds) code g)
    (hds : ∀ d ∈ ds, ∃ i, d = .instr i ∧ i.isNote = true) :
    placedIn code = (if g.hasStaged then [l] else []) ∧
      (g.hasStaged = false → g.labels.isReferenced l = false) := by
  have hsame : g.hasStaged = f.hasStaged := ha.hasStaged_eq fun hmem => by
    rcases List.mem_cons.1 hmem with heq | hmem
    · cases heq
    · obtain ⟨i, heq, -⟩ := hds _ hmem
      cases heq
  obtain ⟨point, m, rest, hpoint, hrest, rfl⟩ := cons_iff.1 ha
  obtain ⟨hplaced, hreferenced⟩ := hrest.labels_of_notes hds
  rw [placedIn_append, hplaced, List.append_nil, hsame]
  have hcases := Flow.step_returnPoint hpoint
  cases hf : f.hasStaged with
  | true =>
    rw [hf, if_pos rfl] at hcases
    obtain ⟨f₁, f₂, c₁, c₂, c₃, h₁, h₂, h₃, rfl⟩ := hcases
    obtain ⟨rfl, -⟩ := Flow.mark_eq_ok_iff.1 h₁
    rw [placedIn_append, placedIn_append, placedIn_emit rfl h₂, placedIn_emit rfl h₃]
    exact ⟨rfl, nofun⟩
  | false =>
    rw [hf, if_neg Bool.false_ne_true] at hcases
    obtain ⟨href, rfl, rfl⟩ := hcases
    exact ⟨rfl, fun _ => (hreferenced l).trans href⟩

end Assembles

/-- What a list of directives without slots begins and ends with comes from the directives. -/
theorem exists_of_bare_append {ds front back : List Directive} (h : bare ds = front ++ back) :
    ∃ ds₁ ds₂, ds = ds₁ ++ ds₂ ∧ bare ds₁ = front ∧ bare ds₂ = back := by
  obtain ⟨ds₁, ds₂, rfl, h₁, h₂⟩ := List.filterMap_eq_append_iff.1 h
  exact ⟨ds₁, ds₂, rfl, h₁, h₂⟩

theorem exists_of_bare_returnPoint {ds : List Directive} {l : Label}
    (h : bare ds = [.returnPoint l ⟨0⟩]) :
    ∃ notes slot notes', ds = notes ++ .returnPoint l slot :: notes' ∧
      (∀ d ∈ notes, ∃ i, d = .instr i ∧ i.isNote = true) ∧
        ∀ d ∈ notes', ∃ i, d = .instr i ∧ i.isNote = true := by
  obtain ⟨notes, d, notes', rfl, hnotes, hd, hnotes'⟩ := List.filterMap_eq_cons_iff.1 h
  refine ⟨notes, ?_⟩
  have hpoint : ∃ slot, d = .returnPoint l slot := by
    cases d with
    | returnPoint l' slot =>
      cases hd
      exact ⟨slot, rfl⟩
    | instr i =>
      have hmust := isReturnPoint_of_bare? hd
      cases hmust
    | _ => cases hd
  obtain ⟨slot, rfl⟩ := hpoint
  exact ⟨slot, notes', rfl, fun d hd => isNote_of_bare? (hnotes d hd),
    fun d hd => isNote_of_bare? (List.filterMap_eq_nil_iff.1 hnotes' d hd)⟩

namespace Plan

variable {c : Plan} {labels : LabelTable} {ds : List Directive} {final : Frame} {code : List Instr}
  {g : Flow}

/-- The return label stands in the code unless a value is due and none has been stored. -/
def returnsAt (c : Plan) (g : Flow) : Bool := returnsIn c.blocks && (!c.outline.stages || g.hasStaged)

/-- The end of the exit places the return label, unless no value has been stored where one is due. -/
theorem placedIn_exit {f : Flow} (hexit : bare ds = c.spellExit c.labelOf (returnsIn c.blocks))
    (hproper : ∀ d ∈ ds, d.IsProper) (ha : Assembles f ds code g) :
    placedIn code = (if c.returnsAt g then [c.labelOf (.spot .ret)] else []) ∧
      (returnsIn c.blocks = true → c.returnsAt g = false →
        g.labels.isReferenced (c.labelOf (.spot .ret)) = false) := by
  unfold returnsAt
  by_cases hcond : (returnsIn c.blocks && c.outline.stages) = true
  · obtain ⟨hreturns, hstages⟩ := Bool.and_eq_true_iff.1 hcond
    unfold spellExit at hexit
    rw [if_pos hcond] at hexit
    obtain ⟨ds₁, ds₂, rfl, hdefault, hpoint⟩ := exists_of_bare_append hexit
    obtain ⟨notes, slot, notes', rfl, hnotes, hnotes'⟩ := exists_of_bare_returnPoint hpoint
    obtain ⟨f₁, code₁, rest, ha₁, hrest, rfl⟩ := Assembles.append_iff.1 ha
    obtain ⟨f₂, code₂, code₃, ha₂, ha₃, rfl⟩ := Assembles.append_iff.1 hrest
    have hplaced₁ : placedIn code₁ = [] := by
      rw [ha₁.placedIn_eq_bare (List.forall_mem_append.1 hproper).1
        (by rw [hdefault]; exact isReturnPoint_spell _), hdefault]
      exact marksIn_spell_straight (isStraight_exit _)
    obtain ⟨hplaced₂, -⟩ := ha₂.labels_of_notes hnotes
    obtain ⟨hplaced₃, href⟩ := ha₃.placedIn_returnPoint hnotes'
    rw [placedIn_append, placedIn_append, hplaced₁, hplaced₂, hplaced₃, hreturns, hstages,
      Bool.not_true, Bool.false_or, Bool.true_and]
    exact ⟨rfl, fun _ => href⟩
  · have hpoints : ∀ d ∈ bare ds, d.isReturnPoint = false := by
      rw [hexit]
      unfold spellExit
      rw [if_neg hcond]
      refine List.forall_mem_append.2 ⟨?_, isReturnPoint_spell _⟩
      split
      · exact List.forall_mem_singleton.2 rfl
      · exact nofun
    rw [ha.placedIn_eq_bare hproper hpoints, hexit, marksIn_spellExit]
    cases hreturns : returnsIn c.blocks with
    | false => exact ⟨rfl, nofun⟩
    | true =>
      rw [hreturns, Bool.true_and] at hcond
      rw [eq_false_of_ne_true hcond]
      exact ⟨rfl, nofun⟩

/-- The labels that finished code places, in its order. -/
theorem Lowered.placedIn_eq (hmade : c.Made) (hsize : labels.size = c.bound)
    (h : c.Lowered labels ds final code g) :
    placedIn code =
        (c.marked ++ if c.returnsAt g then [Landmark.spot .ret] else []).map c.labelOf ∧
      (returnsIn c.blocks = true → c.returnsAt g = false →
        c.labelOf (.spot .ret) ∉ targetsIn code) := by
  obtain ⟨-, -, hsound, -⟩ := h.sound hmade hsize
  have hproper : ∀ d ∈ ds, d.IsProper := fun d hd => (hsound d hd).isProper
  have hspells := (draft_spells hmade hsize h.gives).bare_eq c.labelOf (agrees_labelIn _)
  rw [hmade.spellBlocks_eq] at hspells
  obtain ⟨ds₁, ds₂, rfl, hopen, hexit⟩ := exists_of_bare_append hspells
  obtain ⟨hproper₁, hproper₂⟩ := List.forall_mem_append.1 hproper
  obtain ⟨f, code₁, code₂, ha₁, ha₂, rfl⟩ := Assembles.append_iff.1 h.assembles
  have hplaced₁ : placedIn code₁ = c.marked.map c.labelOf := by
    rw [ha₁.placedIn_eq_bare hproper₁ (by rw [hopen]; exact isReturnPoint_spellOpen _), hopen]
    exact marksIn_spellOpen _
  obtain ⟨hplaced₂, href⟩ := placedIn_exit hexit hproper₂ ha₂
  refine ⟨?_, fun hreturns hnot hmem => ?_⟩
  · rw [placedIn_append, hplaced₁, hplaced₂, List.map_append, apply_ite (List.map c.labelOf)]
    rfl
  · have hreferenced := ((h.assembles.advances hproper).grows.isReferenced_iff _).2 (.inr hmem)
    rw [href hreturns hnot] at hreferenced
    cases hreferenced

end Plan

end StackCode
