import StackCode.Proofs.Generator.Suspends

/-!
# Code that has no part in returning

Of an ordinary procedure, only return statements and the exit have to do with returning.  All other
code neither returns nor stores a return value, and it does not go to the return label, whichever
label that is.  Main statements: `Renders.isApart`, `Assembles.isApart`, `Plan.statement_apart`.
-/

namespace StackCode

/-! ## Operations -/

/-- Stores or fetches the return value, or goes to where it is returned. -/
def Op.goesHome : Op → Bool
  | .stage | .unstage => true
  | op => decide (.ret ∈ op.targets)

theorem Fragment.goesHome_ops {α : Type} (x : Fragment α) : ∀ op ∈ x.ops, op.goesHome = false := by
  intro op hop
  obtain ⟨i, -, rfl⟩ := List.mem_map.1 hop
  rfl

namespace Outline

variable (o : Outline)

theorem goesHome_sequencePoint (span : Option Span) :
    ∀ op ∈ o.sequencePoint span, op.goesHome = false := by
  unfold sequencePoint
  cases span with
  | none => exact nofun
  | some span =>
    simp only
    split
    · exact List.forall_mem_singleton.2 rfl
    · exact nofun

theorem goesHome_bindStatic (d : StaticDecl) : ∀ op ∈ o.bindStatic d, op.goesHome = false := by
  unfold bindStatic
  refine List.forall_mem_append.2 ⟨Fragment.goesHome_ops _, ?_⟩
  cases d.init with
  | none => exact nofun
  | some init =>
    exact List.forall_mem_append.2 ⟨List.forall_mem_append.2
      ⟨Fragment.goesHome_ops _, Fragment.goesHome_ops _⟩, List.forall_mem_singleton.2 rfl⟩

theorem goesHome_statement {s : Stmt} (hyield : s.yieldIndex? = none) (hreturn : s.isReturn = false) :
    ∀ op ∈ o.statement s, op.goesHome = false := by
  refine List.forall_mem_append.2 ⟨List.forall_mem_append.2
    ⟨o.goesHome_sequencePoint s.span, ?_⟩, List.forall_mem_singleton.2 rfl⟩
  cases s with
  | empty span =>
    change ∀ op ∈ (if span.isSome && o.options.sequencePoints then [Op.run .nop] else []),
      op.goesHome = false
    split
    · exact List.forall_mem_singleton.2 rfl
    · exact nofun
  | bindStatic d => exact o.goesHome_bindStatic d
  | ret value => cases hreturn
  | yield y => cases hyield
  | declare => exact nofun
  | _ => exact Fragment.goesHome_ops _

theorem goesHome_receive (b : BlockId) : ∀ op ∈ o.receive b, op.goesHome = false := by
  unfold receive
  split
  · unfold storePending
    split
    · exact List.forall_mem_singleton.2 rfl
    · refine List.forall_mem_append.2 ⟨List.forall_mem_append.2
        ⟨List.forall_mem_singleton.2 rfl, Fragment.goesHome_ops _⟩, ?_⟩
      exact List.forall_mem_cons.2 ⟨rfl, List.forall_mem_singleton.2 rfl⟩
    · exact nofun
  · exact List.forall_mem_singleton.2 rfl
  · exact nofun

theorem goesHome_edge (e : Edge) : ∀ op ∈ o.edge e, op.goesHome = false := by
  cases e with
  | branch condition onTrue onFalse =>
    refine List.forall_mem_append.2 ⟨Fragment.goesHome_ops _, ?_⟩
    split
    · exact List.forall_mem_cons.2 ⟨rfl, List.forall_mem_singleton.2 rfl⟩
    · exact List.forall_mem_singleton.2 rfl
  | switch selector cases default =>
    refine List.forall_mem_append.2 ⟨Fragment.goesHome_ops _, List.forall_mem_singleton.2 ?_⟩
    simp [Op.goesHome, Op.targets]
  | protect body handler exception =>
    exact List.forall_mem_cons.2 ⟨rfl, List.forall_mem_singleton.2 rfl⟩
  | goto | leave | none => exact List.forall_mem_singleton.2 rfl

end Outline

/-! ## Directives -/

/-- Has no part in returning, where `l` is the return label. -/
def Directive.IsApart (l : Label) : Directive → Prop
  | .instr i => i.isQuiet = true ∧ l ∉ i.targets
  | .stageReturn | .returnPoint _ _ => False
  | _ => True

theorem Directive.isApart_of_isNote {l : Label} {i : Instr} (hi : i.isNote = true) :
    (Directive.instr i).IsApart l :=
  ⟨Instr.isQuiet_of_isNote hi, by rw [Instr.targets_of_isNote hi]; exact List.not_mem_nil⟩

section
variable {r : Reading} {l : Label} {v w : Bool} {ds : List Directive} {ops : List Op}

/-- Where operations do not go home, the labels of their spots are not the return label. -/
theorem Reading.ne_of_goesHome (hl : ∀ s, r.label? s = some l → s = .ret) {op : Op}
    (hop : op.goesHome = false) {s : Spot} (hs : s ∈ op.targets) {m : Label}
    (hm : r.label? s = some m) : l ≠ m := by
  rintro rfl
  obtain rfl := hl s hm
  cases op <;> simp_all [Op.goesHome, Op.targets]

/-- Operations that do not go home are rendered by directives that have no part in returning.  The
return label is none of those that the directives mark. -/
theorem Renders.isApart (h : Renders r v ds ops w) (hl : ∀ s, r.label? s = some l → s = .ret)
    (hmark : ∀ arrival, .mark l arrival ∉ ds) (hquiet : ∀ op ∈ ops, op.isQuiet = true)
    (hhome : ∀ op ∈ ops, op.goesHome = false) : ∀ d ∈ ds, d.IsApart l := by
  have hrest {d : Directive} {ds : List Directive} (hmark : ∀ arrival, .mark l arrival ∉ d :: ds) :
      ∀ arrival, .mark l arrival ∉ ds := fun arrival hd => hmark arrival (List.mem_cons_of_mem d hd)
  induction h with
  | nil => exact nofun
  | note hi _ ih =>
    exact List.forall_mem_cons.2 ⟨Directive.isApart_of_isNote hi, ih (hrest hmark) hquiet hhome⟩
  | @run _ _ i _ _ hi _ ih =>
    obtain ⟨hq, hquiet⟩ := List.forall_mem_cons.1 hquiet
    refine List.forall_mem_cons.2 ⟨⟨(Instr.isQuiet_erased i).symm.trans hq, ?_⟩,
      ih (hrest hmark) hquiet (List.forall_mem_cons.1 hhome).2⟩
    rw [Instr.targets_of_isStraight hi]
    exact List.not_mem_nil
  | stage => cases (List.forall_mem_cons.1 hhome).1
  | @guard _ _ m body ds _ _ _ _ ihb ih =>
    obtain ⟨hq, hquiet⟩ := List.forall_mem_cons.1 hquiet
    have hmarked (arrival : Arrival) := fun hd => hrest hmark arrival (List.mem_append_right _ hd)
    have hbody : ∀ d ∈ body.map Directive.instr, d.IsApart l := by
      refine ihb (fun arrival hd => ?_) ?_ ?_
      · exact hrest hmark arrival (List.mem_append_left _ hd)
      · intro op hop
        obtain ⟨i, hi, rfl⟩ := List.mem_map.1 hop
        exact (Instr.isQuiet_erased i).trans (List.all_eq_true.1 hq i hi)
      · intro op hop
        obtain ⟨i, -, rfl⟩ := List.mem_map.1 hop
        rfl
    refine List.forall_mem_cons.2 ⟨⟨rfl, fun hm => ?_⟩, List.forall_mem_append.2 ⟨hbody, ?_⟩⟩
    · cases List.mem_singleton.1 hm
      exact hmarked .forward List.mem_cons_self
    · exact List.forall_mem_cons.2
        ⟨trivial, ih (hrest hmarked) hquiet (List.forall_mem_cons.1 hhome).2⟩
  | enter hh _ _ ih =>
    refine List.forall_mem_cons.2 ⟨⟨rfl, fun hm => ?_⟩,
      ih (hrest hmark) (List.forall_mem_cons.1 hquiet).2 (List.forall_mem_cons.1 hhome).2⟩
    cases List.mem_singleton.1 hm
    cases hl _ hh
  | goto hs _ _ ih =>
    obtain ⟨hop, hhome⟩ := List.forall_mem_cons.1 hhome
    refine List.forall_mem_cons.2 ⟨⟨rfl, fun hm => ?_⟩,
      ih (hrest hmark) (List.forall_mem_cons.1 hquiet).2 hhome⟩
    exact Reading.ne_of_goesHome hl hop (List.mem_singleton.2 rfl) hs (List.mem_singleton.1 hm)
  | suspend => cases (List.forall_mem_cons.1 hquiet).1
  | settle _ ih =>
    exact List.forall_mem_cons.2 ⟨trivial,
      ih (hrest hmark) (List.forall_mem_cons.1 hquiet).2 (List.forall_mem_cons.1 hhome).2⟩

theorem Ends.isApart {next : Option Spot} (h : Ends r next v ds ops)
    (hl : ∀ s, r.label? s = some l → s = .ret) (hhome : ∀ op ∈ ops, op.goesHome = false) :
    ∀ d ∈ ds, d.IsApart l := by
  have hne {op : Op} {s : Spot} {m : Label} (hop : op ∈ ops) (hs : s ∈ op.targets)
      (hm : r.label? s = some m) : l ∉ [m] := fun hmem =>
    Reading.ne_of_goesHome hl (hhome op hop) hs hm (List.mem_singleton.1 hmem)
  cases h with
  | fall => exact nofun
  | jump hs | leave hs =>
    exact List.forall_mem_singleton.2 ⟨rfl, hne List.mem_cons_self (List.mem_singleton.2 rfl) hs⟩
  | forkFall when hm =>
    refine List.forall_mem_singleton.2 ⟨rfl, hne List.mem_cons_self ?_ hm⟩
    cases when <;> simp [Op.targets]
  | forkJump hs ht =>
    refine List.forall_mem_cons.2 ⟨⟨rfl, hne List.mem_cons_self ?_ hs⟩,
      List.forall_mem_singleton.2 ⟨rfl, hne List.mem_cons_self ?_ ht⟩⟩ <;> simp [Op.targets]
  | select hcases hdefault =>
    refine List.forall_mem_singleton.2 ⟨rfl, fun hm => ?_⟩
    rcases List.mem_append.1 hm with hm | hm
    · obtain ⟨e, he, rfl⟩ := List.mem_map.1 hm
      obtain ⟨e', he', -, hlabel⟩ := exists_of_forall₂ hcases.flip he
      refine hne List.mem_cons_self ?_ hlabel (List.mem_singleton.2 rfl)
      exact List.mem_append_left _ (List.mem_map.2 ⟨e', he', rfl⟩)
    · exact hne List.mem_cons_self (List.mem_append_right _ (List.mem_singleton.2 rfl)) hdefault hm
  | dangle => exact List.forall_mem_singleton.2 trivial

theorem RendersEnd.isApart {next : Option Spot} (h : RendersEnd r next v ds ops w)
    (hl : ∀ s, r.label? s = some l → s = .ret) (hmark : ∀ arrival, .mark l arrival ∉ ds)
    (hquiet : ∀ op ∈ ops, op.isQuiet = true) (hhome : ∀ op ∈ ops, op.goesHome = false) :
    ∀ d ∈ ds, d.IsApart l := by
  obtain ⟨front, back⟩ := h
  obtain ⟨hhome, hback⟩ := List.forall_mem_append.1 hhome
  exact List.forall_mem_append.2 ⟨front.isApart hl
    (fun arrival hd => hmark arrival (List.mem_append_left _ hd))
    (List.forall_mem_append.1 hquiet).1 hhome, back.isApart hl hback⟩

end

/-! ## Code -/

/-- From the flow `f`, the code comes to the flow `g` and has no part in returning. -/
structure Flow.StaysApart (l : Label) (f g : Flow) (code : List Instr) : Prop where
  isQuiet : ∀ i ∈ code, i.isQuiet = true
  targets : ∀ i ∈ code, l ∉ i.targets
  hasStaged : g.hasStaged = f.hasStaged

namespace Flow

variable {l : Label} {f g h : Flow} {code code' : List Instr}

theorem StaysApart.refl (l : Label) (f : Flow) : f.StaysApart l f [] := ⟨nofun, nofun, rfl⟩

theorem StaysApart.trans (h₁ : f.StaysApart l g code) (h₂ : g.StaysApart l h code') :
    f.StaysApart l h (code ++ code') where
  isQuiet := List.forall_mem_append.2 ⟨h₁.isQuiet, h₂.isQuiet⟩
  targets := List.forall_mem_append.2 ⟨h₁.targets, h₂.targets⟩
  hasStaged := h₂.hasStaged.trans h₁.hasStaged

theorem step_isApart {d : Directive} (hd : d.IsApart l) (h : f.step d = .ok (code, g)) :
    f.StaysApart l g code := by
  cases d with
  | instr i =>
    cases hf : f.isLive with
    | true =>
      obtain ⟨rfl, _, hpass⟩ := step_live hf h
      exact ⟨List.forall_mem_singleton.2 hd.1, List.forall_mem_singleton.2 hd.2, hpass.hasStaged⟩
    | false =>
      obtain ⟨rfl, rfl⟩ := (emit_dead hf).1 h
      split
      · exact ⟨List.forall_mem_singleton.2 hd.1, List.forall_mem_singleton.2 hd.2, rfl⟩
      · exact .refl l _
  | mark m arrival =>
    obtain ⟨rfl, henters⟩ := step_mark h
    exact ⟨List.forall_mem_singleton.2 rfl, List.forall_mem_singleton.2 List.not_mem_nil,
      henters.hasStaged⟩
  | endStatement =>
    obtain ⟨-, rfl, rfl⟩ := step_endStatement.1 h
    exact .refl l _
  | endBlock b =>
    obtain ⟨-, rfl, rfl⟩ := step_endBlock.1 h
    exact .refl l _
  | stageReturn | returnPoint => cases hd

end Flow

theorem Assembles.isApart {l : Label} {f g : Flow} {ds : List Directive} {code : List Instr}
    (ha : Assembles f ds code g) (hds : ∀ d ∈ ds, d.IsApart l) : f.StaysApart l g code := by
  induction ha with
  | nil => exact .refl l _
  | cons hstep _ ih =>
    obtain ⟨hd, hds⟩ := List.forall_mem_cons.1 hds
    exact (Flow.step_isApart hd hstep).trans (ih hds)

end StackCode
