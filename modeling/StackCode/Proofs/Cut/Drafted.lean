import StackCode.Proofs.Cut.Operations
import StackCode.Proofs.Labels.Accounted

/-!
# Drafts cut short

A landmark of a plan has its label, and one that the plan cut short knows as well has another there.
With the labels exchanged, the draft of the plan cut short is the other one without directives that
change nothing.  Main statements: `Plan.open_mimics`, `Plan.exit_mimics`.
-/

namespace StackCode

open Landmark

namespace Stmt

variable {b b' : BlockId} {position k : Nat} {ss ss' : List Stmt}

theorem landmarksFrom_append : landmarksFrom b position (ss ++ ss') =
    landmarksFrom b position ss ++ landmarksFrom b (position + ss.length) ss' := by
  induction ss generalizing position with
  | nil => rfl
  | cons s ss ih =>
    rw [List.cons_append, landmarksFrom, landmarksFrom, ih, List.append_assoc, List.length_cons,
      Nat.add_assoc, Nat.add_comm 1]

theorem lt_of_mem_landmarksFrom (h : .static b' k ∈ landmarksFrom b position ss) :
    k < position + ss.length := by
  induction ss generalizing position with
  | nil => cases h
  | cons s ss ih =>
    rw [List.length_cons]
    rcases List.mem_append.1 h with h | h
    · obtain ⟨-, rfl⟩ := static_of_mem_landmarks h
      omega
    · have := ih h
      omega

end Stmt

namespace Plan

variable {c : Plan}

/-! ## Landmarks that stay -/

theorem landmarksOf_cut_subset (b : Block) : c.cut.landmarksOf b.cut ⊆ c.landmarksOf b := by
  have hstatements : Stmt.landmarksFrom b.id 0 (Stmt.cut b.statements) ⊆
      Stmt.landmarksFrom b.id 0 b.statements := by
    intro x hx
    rw [← Stmt.cut_append_afterCut b.statements, Stmt.landmarksFrom_append]
    exact List.mem_append_left _ hx
  intro x hx
  exact List.mem_append.2 ((List.mem_append.1 hx).imp id fun h => hstatements h)

/-- A plan cut short knows nothing new. -/
theorem known_cut_subset : c.cut.known ⊆ c.known := by
  intro x hx
  refine mem_addAll.2 ((mem_addAll.1 hx).imp id fun hx => ?_)
  obtain ⟨b, hb, hx⟩ := List.mem_flatMap.1 hx
  obtain ⟨b, hmem, rfl⟩ := exists_of_mem_cut hb
  exact List.mem_flatMap.2 ⟨b, hmem, landmarksOf_cut_subset b hx⟩

/-- What a block cut short asks for is known. -/
theorem mem_known_cut {b : Block} (hb : b ∈ c.blocks) {x : Landmark}
    (hx : x ∈ Stmt.landmarksFrom b.id 0 (Stmt.cut b.statements)) : x ∈ c.cut.known :=
  mem_addAll.2 (.inr (List.mem_flatMap.2 ⟨b.cut, List.mem_map_of_mem hb, List.mem_append_right _ hx⟩))

/-- What is initialized in statements that are left out is not known any more. -/
theorem static_not_mem_known_cut (hmade : c.Made) {b : Block} (hb : b ∈ c.blocks) {k : Nat}
    (hk : (Stmt.cut b.statements).length ≤ k) : .static b.id k ∉ c.cut.known := by
  intro hmem
  rcases mem_addAll.1 hmem with hmem | hmem
  · rw [mem_planned_iff] at hmem
    rcases hmem with ⟨_, -, h⟩ | ⟨_, -, h⟩ <;> cases h
  · obtain ⟨b', hb', hmem⟩ := List.mem_flatMap.1 hmem
    obtain ⟨b', hmem', rfl⟩ := exists_of_mem_cut hb'
    have hid : b.id = b'.cut.id := static_of_mem_landmarksOf hmem
    obtain rfl : b = b' := List.inj_on_of_nodup_map hmade.nodup hb hmem' hid
    rcases List.mem_append.1 hmem with hmem | hmem
    · split at hmem
      · cases List.mem_singleton.1 hmem
      · cases hmem
    · have := Stmt.lt_of_mem_landmarksFrom hmem
      rw [Block.cut_statements] at this
      omega

/-! ## Labels exchanged -/

/-- The label of what a plan cut short has this label for. -/
def rename (c : Plan) (l : Label) : Label :=
  match c.cut.known[l.index]? with
  | some x => c.labelOf x
  | none => ⟨c.known.length + l.index⟩

theorem rename_labelOf {x : Landmark} (hx : x ∈ c.cut.known) :
    c.rename (c.cut.labelOf x) = c.labelOf x := by
  unfold rename labelOf labelIn
  rw [List.getElem?_idxOf hx]

theorem rename_of_none {l : Label} (h : c.cut.known[l.index]? = none) :
    c.rename l = ⟨c.known.length + l.index⟩ := by
  unfold rename
  rw [h]

theorem rename_of_some {l : Label} {x : Landmark} (h : c.cut.known[l.index]? = some x) :
    c.rename l = c.labelOf x := by
  unfold rename
  rw [h]

/-- Labels that are exchanged for the same one are the same. -/
theorem rename_injective (hmade' : c.cut.Made) : Function.Injective c.rename := by
  have hnodup : c.cut.known.Nodup := nodup_addAll hmade'.nodup_planned _
  have hlt {x : Landmark} {i : Nat} (h : c.cut.known[i]? = some x) :
      (c.labelOf x).index < c.known.length :=
    labelIn_lt (known_cut_subset (List.mem_of_getElem? h))
  intro l l' heq
  have hindex : l.index = l'.index := by
    cases hl : c.cut.known[l.index]? with
    | none =>
      rw [rename_of_none hl] at heq
      cases hl' : c.cut.known[l'.index]? with
      | none =>
        rw [rename_of_none hl'] at heq
        exact Nat.add_left_cancel (congrArg Label.index heq)
      | some x =>
        rw [rename_of_some hl'] at heq
        have := hlt hl'
        rw [← heq] at this
        simp at this
    | some x =>
      rw [rename_of_some hl] at heq
      cases hl' : c.cut.known[l'.index]? with
      | none =>
        rw [rename_of_none hl'] at heq
        have := hlt hl
        rw [heq] at this
        simp at this
      | some y =>
        rw [rename_of_some hl'] at heq
        obtain rfl := labelIn_inj (known_cut_subset (List.mem_of_getElem? hl)) heq
        obtain ⟨hi, hx⟩ := List.getElem?_eq_some_iff.1 hl
        obtain ⟨hj, hy⟩ := List.getElem?_eq_some_iff.1 hl'
        exact (hnodup.getElem_inj_iff).1 (hx.trans hy.symm)
  cases l
  cases l'
  exact congrArg Label.mk hindex

/-- What is not known any more keeps a label of its own. -/
theorem labelOf_not_mem_range {x : Landmark} (hx : x ∈ c.known) (hcut : x ∉ c.cut.known) :
    c.labelOf x ∉ Set.range c.rename := by
  rintro ⟨l, hl⟩
  cases hget : c.cut.known[l.index]? with
  | none =>
    rw [rename_of_none hget] at hl
    have := labelIn_lt hx
    rw [show labelIn c.known x = c.labelOf x from rfl, ← hl] at this
    simp at this
  | some y =>
    rw [rename_of_some hget] at hl
    obtain rfl := labelIn_inj hx hl.symm
    exact hcut (List.mem_of_getElem? hget)

section
variable (hmade : c.Made) (hmade' : c.cut.Made)
include hmade hmade'

/-- The labels that have been planned stay. -/
theorem rename_label {b : BlockId} {l : Label} (hl : c.label? b = some l) : c.rename l = l := by
  have hplanned : .spot (.block b) ∈ c.planned := mem_planned_iff.2 (.inl ⟨b, by
    rw [← isSome_label?_iff, hl]
    rfl, rfl⟩)
  have hknown : .spot (.block b) ∈ c.cut.known := mem_addAll.2 (.inl hplanned)
  have hlabel : c.labelOf (.spot (.block b)) = l :=
    label_block hmade (prefix_addAll _ _) (agrees_labelIn _) hl
  have hlabel' : c.cut.labelOf (.spot (.block b)) = l :=
    label_block hmade' (prefix_addAll _ _) (agrees_labelIn _) hl
  rw [← hlabel', rename_labelOf hknown, hlabel, hlabel']

/-! ## Blocks -/

theorem spellEdge_relabel (b : Block) (next : Option BlockId) :
    c.spellEdge b next = (c.cut.spellEdge b.cut next).map (Directive.relabel c.rename) := by
  have hedge : c.cut.spellEdge b.cut next = c.spellEdge b next :=
    congrArg (fun x : Draft Unit => bare (x { labels := {} }).code)
      (edge_withGraph c c.procedure.graph.cut b next)
  rw [hedge]
  refine ((List.map_congr_left fun d hd => ?_).trans (List.map_id _)).symm
  obtain ⟨hmarks, hproper, htargets⟩ := leadsOn_of_mem_spellEdge hd
  cases d with
  | instr i =>
    refine congrArg Directive.instr (Instr.relabel_eq_self (fun l hl => ?_) hproper)
    obtain ⟨t, ht⟩ := htargets i rfl l hl
    exact rename_label hmade hmade' ht
  | mark | returnPoint => cases hmarks
  | endStatement | endBlock | stageReturn => rfl

omit hmade hmade' in
theorem spellFront_relabel (hgen : c.procedure.isGenerator = false) (b : Block) :
    c.spellFront c.labelOf b =
      (c.cut.spellFront c.cut.labelOf b.cut).map (Directive.relabel c.rename) := by
  have hlabel : (if b.id ∈ c.labelled then
        [Directive.mark (c.labelOf (.spot (.block b.id))) (c.arrival b)] else []) =
      (if b.cut.id ∈ c.cut.labelled then [Directive.mark (c.cut.labelOf (.spot (.block b.cut.id)))
        (c.cut.arrival b.cut)] else []).map (Directive.relabel c.rename) := by
    by_cases hb : b.id ∈ c.labelled
    · have hknown : .spot (.block b.id) ∈ c.cut.known :=
        mem_addAll.2 (.inl (mem_planned_iff.2 (.inl ⟨b.id, hb, rfl⟩)))
      have harrival : c.cut.arrival b.cut = c.arrival b := by
        unfold arrival
        rw [caught?_cut]
        rfl
      rw [if_pos hb, if_pos (show b.cut.id ∈ c.cut.labelled from hb), harrival]
      change _ = [Directive.mark (c.rename (c.cut.labelOf (.spot (.block b.id)))) (c.arrival b)]
      rw [rename_labelOf hknown]
    · rw [if_neg hb, if_neg (show b.cut.id ∉ c.cut.labelled from hb)]
      rfl
  have hentry : (if b.kind = .start then c.spellEntry c.labelOf else []) =
      (if b.cut.kind = .start then c.cut.spellEntry c.cut.labelOf else []).map
        (Directive.relabel c.rename) := by
    unfold spellEntry
    rw [hgen, show c.cut.procedure.isGenerator = false from hgen, outline_cut,
      show (c.outline.withGraph c.procedure.graph.cut).prologue = c.outline.prologue from rfl,
      Block.cut_kind]
    split
    · simp only [Bool.false_eq_true, if_false, List.append_nil]
      exact spell_relabel_straight (isStraight_prologue c) _ _ _ _ _
    · rfl
  unfold spellFront
  rw [List.map_append, List.map_append, ← hlabel, ← hentry, outline_cut,
    show (c.outline.withGraph c.procedure.graph.cut).receive b.cut.id = c.outline.receive b.id from rfl,
    ← spell_relabel_straight (isStraight_receive c.outline b.id) _ c.labelOf _ ⟨0⟩]

end

/-! ### Statements -/

theorem spellFrom_append (label : Landmark → Label) (b : BlockId) (position : Nat)
    (ss ss' : List Stmt) : c.spellFrom label b position (ss ++ ss') =
      c.spellFrom label b position ss ++ c.spellFrom label b (position + ss.length) ss' := by
  induction ss generalizing position with
  | nil => rfl
  | cons s ss ih =>
    rw [List.cons_append, spellFrom, spellFrom, ih, List.append_assoc, List.length_cons,
      Nat.add_assoc, Nat.add_comm 1]

/-- The statements that stay come to the same directives with other labels. -/
theorem spellFrom_relabel {b : BlockId} {position : Nat} {ss : List Stmt}
    (hss : ∀ s ∈ ss, s.yieldIndex? = none)
    (hknown : ∀ x ∈ Stmt.landmarksFrom b position ss, x ∈ c.cut.known) :
    c.spellFrom c.labelOf b position ss =
      (c.cut.spellFrom c.cut.labelOf b position ss).map (Directive.relabel c.rename) := by
  induction ss generalizing position with
  | nil => rfl
  | cons s ss ih =>
    obtain ⟨hs, hss⟩ := List.forall_mem_cons.1 hss
    obtain ⟨hfirst, hknown⟩ := List.forall_mem_append.1 hknown
    rw [spellFrom, spellFrom, List.map_append, ih hss hknown, spellStatement, spellStatement,
      outline_cut, Outline.statement_withGraph]
    congr 1
    refine spell_relabel (c.outline.isOrdinary_statement hs) (fun hreturn => ?_) fun hinit => ?_
    · refine (rename_labelOf (hfirst _ ?_)).symm
      rw [Stmt.landmarks_eq, if_pos hreturn]
      exact List.mem_append_right _ (List.mem_singleton_self _)
    · refine (rename_labelOf (hfirst _ ?_)).symm
      rw [Stmt.landmarks_eq, if_pos hinit]
      exact List.mem_append_left _ (List.mem_singleton_self _)

/-- Behind statements the last of which stops control does not get on. -/
theorem blocks_spellFrom {label : Landmark → Label} {b : BlockId} {position : Nat} {front : List Stmt}
    {s : Stmt} (hwrites : c.outline.Writes s) (hs : s.stops = true) :
    Blocks (c.spellFrom label b position (front ++ [s])) := by
  intro f g code ha
  rw [spellFrom_append, spellFrom, spellFrom, List.append_nil] at ha
  obtain ⟨m, _, _, -, hlast, -⟩ := Assembles.append_iff.1 ha
  exact Outline.blocks_statement hwrites hs _ _ hlast

theorem isIdle_spellFrom {label : Landmark → Label} {b : BlockId} {position : Nat} {ss : List Stmt}
    (hss : ∀ s ∈ ss, s.yieldIndex? = none) :
    ∀ d ∈ c.spellFrom label b position ss, d.isIdle = true := by
  induction ss generalizing position with
  | nil => exact nofun
  | cons s ss ih =>
    obtain ⟨hs, hss⟩ := List.forall_mem_cons.1 hss
    exact List.forall_mem_append.2 ⟨isIdle_spell (c.outline.isOrdinary_statement hs) _ _, ih hss⟩

section
variable (hmade : c.Made) (hmade' : c.cut.Made) (hgen : c.procedure.isGenerator = false)
  (hwrites : c.Writes) {b : Block} (hb : b ∈ c.blocks)
include hmade hmade' hgen hwrites hb

/-- The statements of a block mimic those that stay. -/
theorem statements_mimic : Mimics c.rename (c.spellFrom c.labelOf b.id 0 b.statements)
    (c.cut.spellFrom c.cut.labelOf b.id 0 (Stmt.cut b.statements)) := by
  have hordinary := hwrites.yieldIndex?_eq_none hgen hb
  have hfront : Mimics c.rename (c.spellFrom c.labelOf b.id 0 (Stmt.cut b.statements))
      (c.cut.spellFrom c.cut.labelOf b.id 0 (Stmt.cut b.statements)) := by
    rw [spellFrom_relabel (fun s hs => hordinary s (Stmt.mem_of_mem_cut hs))
      fun x hx => mem_known_cut hb hx]
    exact .of_relabel (rename_injective hmade') _
  rcases Stmt.afterCut_eq_nil_or b.statements with hnil | ⟨front, s, hcut, hs⟩
  · have hall := Stmt.cut_append_afterCut b.statements
    rw [hnil, List.append_nil] at hall
    rwa [hall] at hfront ⊢
  · have hafter : ∀ s ∈ Stmt.afterCut b.statements, s.yieldIndex? = none := fun s hs =>
      hordinary s (Stmt.cut_append_afterCut b.statements ▸ List.mem_append_right _ hs)
    have hstop : c.outline.Writes s := (hwrites.block b hb).statements s
      (Stmt.mem_of_mem_cut (hcut ▸ List.mem_append_right _ (List.mem_singleton_self s)))
    have hsplit : c.spellFrom c.labelOf b.id 0 b.statements =
        c.spellFrom c.labelOf b.id 0 (Stmt.cut b.statements) ++
          c.spellFrom c.labelOf b.id (Stmt.cut b.statements).length (Stmt.afterCut b.statements) := by
      conv_lhs => rw [← Stmt.cut_append_afterCut b.statements]
      rw [spellFrom_append, Nat.zero_add]
    rw [hsplit]
    refine hfront.append_idle ?_ (isIdle_spellFrom hafter) fun l hl => ?_
    · rw [hcut]
      exact blocks_spellFrom hstop hs
    · -- what is initialized behind the statement that stops has no counterpart
      rw [marksIn_spellFrom] at hl
      obtain ⟨x, hx, rfl⟩ := List.mem_map.1 hl
      have hinit : x ∈ Stmt.initializations b.id (Stmt.cut b.statements).length
          (Stmt.afterCut b.statements) := (Stmt.mem_marksFrom.1 hx).resolve_right (by
        rintro ⟨index, hindex, -⟩
        obtain ⟨s, hs, hyield⟩ := List.mem_filterMap.1 hindex
        rw [hafter s hs] at hyield
        cases hyield)
      obtain ⟨k, rfl⟩ := Stmt.exists_of_mem_initializations hinit
      refine labelOf_not_mem_range (mem_addAll.2 (.inr (List.mem_flatMap.2 ⟨b, hb, ?_⟩)))
        (static_not_mem_known_cut hmade hb (Stmt.static_of_mem_initializations hinit).2)
      refine List.mem_append_right _ ?_
      rw [← Stmt.cut_append_afterCut b.statements, Stmt.landmarksFrom_append, Nat.zero_add]
      exact List.mem_append_right _ (Stmt.mem_initializations.1 hinit).1

/-- A block in front of its end mimics the block cut short. -/
theorem body_mimics :
    Mimics c.rename (c.spellBody c.labelOf b) (c.cut.spellBody c.cut.labelOf b.cut) := by
  refine .append ?_ (statements_mimic hmade hmade' hgen hwrites hb)
  rw [spellFront_relabel hgen b]
  exact .of_relabel (rename_injective hmade') _

end

/-- In front of the end of the exit, blocks mimic the blocks cut short. -/
theorem open_mimics (hmade : c.Made) (hmade' : c.cut.Made) (hgen : c.procedure.isGenerator = false)
    (hwrites : c.Writes) {bs : List Block} (hbs : ∀ b ∈ bs, b ∈ c.blocks) :
    Mimics c.rename (c.spellOpen c.labelOf bs)
      (c.cut.spellOpen c.cut.labelOf (bs.map Block.cut)) := by
  induction bs with
  | nil => exact .nil _
  | cons b bs ih =>
    obtain ⟨hb, hbs⟩ := List.forall_mem_cons.1 hbs
    have hnext : (bs.map Block.cut).head?.map (·.id) = bs.head?.map (·.id) := by
      rw [List.head?_map, Option.map_map]
      rfl
    rw [List.map_cons, spellOpen, spellOpen, hnext]
    refine (body_mimics hmade hmade' hgen hwrites hb).append (.append ?_ (ih hbs))
    by_cases hk : b.kind = .exit
    · rw [if_pos hk, if_pos (show b.cut.kind = .exit from hk)]
      exact .nil _
    · rw [if_neg hk, if_neg (show b.cut.kind ≠ .exit from hk), spellEdge_relabel hmade hmade' b]
      exact .of_relabel (rename_injective hmade') _

/-! ### The exit -/

/-- The end of the exit comes to the same directives with other labels, if it returns in both. -/
theorem spellExit_relabel {returns : Bool} (hret : returns = true → .spot .ret ∈ c.cut.known) :
    c.spellExit c.labelOf returns =
      (c.cut.spellExit c.cut.labelOf returns).map (Directive.relabel c.rename) := by
  have hexit : spell c.labelOf ⟨0⟩ c.outline.exit =
      (spell c.cut.labelOf ⟨0⟩ c.outline.exit).map (Directive.relabel c.rename) :=
    spell_relabel_straight (isStraight_exit _) _ _ _ _ _
  unfold spellExit
  rw [outline_cut, show (c.outline.withGraph c.procedure.graph.cut).exit = c.outline.exit from rfl,
    show (c.outline.withGraph c.procedure.graph.cut).stages = c.outline.stages from rfl, hexit]
  cases returns with
  | false => rfl
  | true =>
    rw [← rename_labelOf (hret rfl)]
    simp only [Bool.true_and, if_true]
    split
    · rw [List.map_append]
      rfl
    · rw [List.map_append]
      rfl

/-- A return label without a counterpart changes nothing: no value has been stored then. -/
theorem exit_mimics_of_lost (hret : .spot .ret ∈ c.known) (hlost : .spot .ret ∉ c.cut.known)
    (hinjective : Function.Injective c.rename) {f f' g g' : Flow} {code code' : List Instr}
    (h : f.Mirrors c.rename f') (ha : Assembles f (c.spellExit c.labelOf true) code g)
    (ha' : Assembles f' (c.cut.spellExit c.cut.labelOf false) code' g')
    (hstaged : c.outline.stages = true → g'.hasStaged = false) :
    g.Mirrors c.rename g' ∧ Sprinkled c.rename code code' := by
  have hexit : Mimics c.rename (spell c.labelOf ⟨0⟩ c.outline.exit)
      (c.cut.spellExit c.cut.labelOf false) := by
    have hsame : spell c.labelOf ⟨0⟩ c.outline.exit = _ :=
      spellExit_relabel (c := c) fun h => absurd h Bool.false_ne_true
    rw [hsame]
    exact .of_relabel hinjective _
  unfold spellExit at ha
  simp only [Bool.true_and, if_true] at ha
  split at ha
  · next hstages =>
    obtain ⟨m, c₁, c₂, ha₁, ha₂, rfl⟩ := Assembles.append_iff.1 ha
    obtain ⟨hm, hs⟩ := hexit h ha₁ ha'
    have hpoint := Flow.step_returnPoint (Assembles.singleton_iff.1 ha₂)
    rw [hm.hasStaged, hstaged hstages, if_neg Bool.false_ne_true] at hpoint
    obtain ⟨-, rfl, rfl⟩ := hpoint
    rw [List.append_nil]
    exact ⟨hm, hs⟩
  · obtain ⟨m, c₁, c₂, ha₁, ha₂, rfl⟩ := Assembles.append_iff.1 ha
    obtain ⟨hm, hs⟩ := h.of_mark (labelOf_not_mem_range hret hlost) (Assembles.singleton_iff.1 ha₁)
    obtain ⟨hg, hs'⟩ := hexit hm ha₂ ha'
    exact ⟨hg, hs.append hs'⟩

theorem exit_mimics (hmade' : c.cut.Made) {returns returns' : Bool}
    (hret : returns = true ↔ .spot .ret ∈ c.known)
    (hret' : returns' = true ↔ .spot .ret ∈ c.cut.known)
    {f f' g g' : Flow} {code code' : List Instr} (h : f.Mirrors c.rename f')
    (ha : Assembles f (c.spellExit c.labelOf returns) code g)
    (ha' : Assembles f' (c.cut.spellExit c.cut.labelOf returns') code' g')
    (hstaged : c.outline.stages = true → returns' = false → g'.hasStaged = false) :
    g.Mirrors c.rename g' ∧ Sprinkled c.rename code code' := by
  have hinjective := rename_injective hmade'
  by_cases hsame : returns = returns'
  · subst hsame
    rw [spellExit_relabel hret'.1] at ha
    exact Mimics.of_relabel hinjective _ h ha ha'
  · -- what returns when it is cut short returns as it is
    cases returns' with
    | true => exact absurd (hret.2 (known_cut_subset (hret'.1 rfl))) hsame
    | false =>
      obtain rfl : returns = true := Bool.eq_true_of_not_eq_false hsame
      exact exit_mimics_of_lost (hret.1 rfl) (fun hmem => Bool.false_ne_true (hret'.2 hmem))
        hinjective h ha ha' fun hstages => hstaged hstages rfl

end Plan

end StackCode
