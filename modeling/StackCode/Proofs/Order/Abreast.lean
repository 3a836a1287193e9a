import StackCode.Proofs.Order.Course

/-!
# Runs side by side

Two streams of code that realize the same outline run side by side, whatever the fate: each is in front
of the same operations, or the second is already where the first is about to go (`Abreast`).  A step of
the first keeps the second up with it after some steps of its own, perhaps none, and shows what these
show (`Abreast.step`).  Main statement: `Abreast.run`.
-/

namespace StackCode

variable {r r' : Reading} {o : Outline} {code code' : List Instr} {reads reads' : Label → Option Spot}
  {fate : Fate} {w w' : Walk} {seen : List Sight} {ops ops' : List Op}

/-! ## Named spots -/

/-- The spots that an operation names where it is seen. -/
def Op.named : Op → List Spot
  | .select cases default => cases.map Prod.snd ++ [default]
  | .leave s => [s]
  | _ => []

/-- No instruction that is seen leads to where stored values are returned. -/
def Away (ops : List Op) : Prop := ∀ op ∈ ops, .ret ∉ op.named

namespace Away

theorem nil : Away [] := nofun

theorem cons {op : Op} (hop : .ret ∉ op.named) (h : Away ops) : Away (op :: ops) :=
  List.forall_mem_cons.2 ⟨hop, h⟩

theorem append (h : Away ops) (h' : Away ops') : Away (ops ++ ops') :=
  List.forall_mem_append.2 ⟨h, h'⟩

theorem tail {op : Op} (h : Away (op :: ops)) : Away ops := (List.forall_mem_cons.1 h).2

/-- Straight instructions name nothing. -/
theorem of_run (h : ∀ op ∈ ops, ∃ i, op = .run i) : Away ops := by
  intro op hop
  obtain ⟨i, rfl⟩ := h op hop
  exact List.not_mem_nil

theorem fragment {α : Type} (x : Fragment α) : Away x.ops := of_run exists_run_of_mem

end Away

namespace Outline

theorem away_sequencePoint (o : Outline) (span : Option Span) : Away (o.sequencePoint span) := by
  unfold sequencePoint
  split
  · split
    · exact .cons List.not_mem_nil .nil
    · exact .nil
  · exact .nil

theorem away_statement (o : Outline) (s : Stmt) : Away (o.statement s) := by
  refine ((o.away_sequencePoint _).append ?_).append (.cons List.not_mem_nil .nil)
  cases s with
  | empty span =>
    simp only [statementBody]
    split
    · exact .cons List.not_mem_nil .nil
    · exact .nil
  | ret value =>
    refine (Away.fragment _).append ?_
    split
    · refine ((Away.fragment _).append ?_).append (.cons List.not_mem_nil .nil)
      split
      · exact .cons List.not_mem_nil .nil
      · exact .nil
    · exact .nil
  | bindStatic d =>
    refine (Away.fragment _).append ?_
    split
    · exact .nil
    · exact ((Away.fragment _).append (.fragment _)).append (.cons List.not_mem_nil .nil)
  | yield y =>
    exact ((Away.fragment _).append (.cons List.not_mem_nil (.cons List.not_mem_nil .nil))).append
      (.cons List.not_mem_nil .nil)
  | declare => exact .nil
  | expr | throw | declareFunction | declareType | bindGlobal | defineConst | unset =>
    exact .fragment _

theorem away_edge (o : Outline) (e : Edge) : Away (o.edge e) := by
  cases e with
  | branch condition onTrue onFalse =>
    refine (Away.fragment _).append ?_
    split
    · exact .cons List.not_mem_nil (.cons List.not_mem_nil .nil)
    · exact .cons List.not_mem_nil .nil
  | switch selector cases default =>
    refine (Away.fragment _).append (.cons ?_ .nil)
    simp [Op.named]
  | goto | none => exact .cons List.not_mem_nil .nil
  | protect => exact .cons List.not_mem_nil (.cons List.not_mem_nil .nil)
  | leave target => exact .cons (by simp [Op.named]) .nil

theorem away_exit (o : Outline) : Away o.exit := by
  unfold exit
  split
  · exact .cons List.not_mem_nil (.cons List.not_mem_nil (.cons List.not_mem_nil .nil))
  · exact (Away.fragment _).append (.cons List.not_mem_nil .nil)

theorem away_rest (o : Outline) (b : Block) (ss : List Stmt) : Away (o.rest b ss) := by
  refine Away.append ?_ ?_
  · induction ss with
    | nil => exact .nil
    | cons s ss ih => exact (o.away_statement s).append ih
  · unfold blockEnd
    split
    · exact o.away_exit
    · exact o.away_edge _

theorem away_block (o : Outline) (b : Block) : Away (o.block b) := by
  refine Away.append ?_ (o.away_rest b _)
  unfold receive
  split
  · unfold storePending
    split
    · exact .cons List.not_mem_nil .nil
    · exact ((Away.cons List.not_mem_nil .nil).append (.fragment _)).append
        (.cons List.not_mem_nil (.cons List.not_mem_nil .nil))
    · exact .nil
  · exact .cons List.not_mem_nil .nil
  · exact .nil

theorem exists_rest_of_afterYield? {o : Outline} {index : Int} {b : Block} {ss : List Stmt}
    (h : o.afterYield? index b ss = some ops) : ∃ ss', ops = o.rest b ss' := by
  induction ss with
  | nil => cases h
  | cons s ss ih =>
    rw [afterYield?] at h
    split at h
    · cases h
      exact ⟨ss, rfl⟩
    · exact ih h

theorem away_opsAt (o : Outline) (s : Spot) : Away (o.opsAt s) := by
  have hfound (b? : Option Block) : Away (b?.elim [] o.block) := by
    cases b? with
    | none => exact .nil
    | some b => exact o.away_block b
  cases s with
  | block b => exact hfound _
  | resume index =>
    simp only [opsAt]
    cases hresume : o.procedure.graph.blocks.toList.findSome? fun b =>
        o.afterYield? index b b.statements with
    | none => exact .nil
    | some ops =>
      obtain ⟨b, -, hafter⟩ := List.exists_of_findSome?_eq_some hresume
      obtain ⟨ss, rfl⟩ := exists_rest_of_afterYield? hafter
      exact o.away_rest b ss
  | body => exact hfound _
  | ret =>
    change Away o.returning
    unfold returning
    split
    · exact .cons List.not_mem_nil (.cons List.not_mem_nil .nil)
    · exact o.away_exit

end Outline

theorem Plan.away_entry (c : Plan) : Away c.outline.entry := by
  unfold Outline.entry
  refine (Away.of_run (prologue_run c)).append ?_
  split
  · have hstate : Away (Outline.setState .running) :=
      .cons List.not_mem_nil (.cons List.not_mem_nil .nil)
    refine ((Away.cons List.not_mem_nil (.cons List.not_mem_nil .nil)).append hstate).append
      (.cons List.not_mem_nil (.cons ?_ .nil))
    simp [Op.named, Outline.resumeCases]
  · exact c.outline.away_opsAt .body

/-! ## In front of operations -/

/-- Execution is in front of operations, perhaps with labels and notes between. -/
def Ready (r : Reading) (code : List Instr) (pc : Nat) (ops : List Op) : Prop :=
  ∃ q depth, Skips code pc q ∧ Follows r code q depth ops

theorem Follows.ready {pc depth : Nat} (h : Follows r code pc depth ops) : Ready r code pc ops :=
  ⟨pc, depth, .refl pc, h⟩

/-- Code that realizes an outline, where the labels are read as what they mark. -/
structure Told (r : Reading) (o : Outline) (code : List Instr) (reads : Label → Option Spot) :
    Prop where
  realizes : Realizes r o code
  reads : ∀ s l, s ≠ .ret → r.label? s = some l → reads l = some s

theorem Told.goTo (h : Told r o code reads) {s : Spot} (hs : r.joins s) {l : Label}
    (hl : r.label? s = some l) (w : Walk) (seen : List Sight) :
    ∃ q, w.goTo code l seen = .on { w with pc := q } seen ∧ Ready r code q (o.opsAt s) := by
  obtain ⟨l', q, hl', hq, -, hfollows⟩ := h.realizes.spot s hs
  obtain rfl := Option.some_inj.1 (hl.symm.trans hl')
  exact ⟨q, Walk.goTo_eq h.realizes.placed_nodup hq, q + 1, 0, .label hq (.refl _), hfollows⟩

theorem Told.raise (h : Told r o code reads) {b : BlockId} (hb : r.catches b) {l : Label}
    (hl : r.label? (.block b) = some l) (w : Walk) (seen : List Sight) :
    ∃ q, w.goTo code l seen = .on { w with pc := q } seen ∧ Ready r code q (o.opsAt (.block b)) := by
  obtain ⟨l', q, hl', hq, hfollows⟩ := h.realizes.handler b hb
  obtain rfl := Option.some_inj.1 (hl.symm.trans hl')
  exact ⟨q, Walk.goTo_eq h.realizes.placed_nodup hq, q + 1, 1, .label hq (.refl _), hfollows⟩

/-- In front of a label that control falls into. -/
theorem Told.fall (h : Told r o code reads) {s : Spot} (hs : r.joins s) {l : Label}
    (hl : r.label? s = some l) {q : Nat} (hq : code[q]? = some (.markLabel l)) :
    Follows r code (q + 1) 0 (o.opsAt s) := by
  obtain ⟨l', q', hl', hq', -, hfollows⟩ := h.realizes.spot s hs
  obtain rfl := Option.some_inj.1 (hl.symm.trans hl')
  obtain rfl := eq_of_placed h.realizes.placed_nodup hq' hq
  exact hfollows

/-- Execution gets to a spot that it is about to go to. -/
theorem Told.arrives (h : Told r o code reads) {s : Spot} (hready : Ready r code w.pc (.goto s :: ops)) :
    ∃ q, Run.Leads (fate.step reads code) (.on w seen) (.on { w with pc := q } seen) ∧
      Ready r code q (o.opsAt s) := by
  obtain ⟨q, depth, hskip, hfollows⟩ := hready
  obtain ⟨q', l, hskip', -, hl, hs, hinstr⟩ := hfollows.goto_inv
  have hleads : Run.Leads (fate.step reads code) (.on w seen) (.on { w with pc := q' } seen) :=
    Fate.leads_of_skips (hskip.trans hskip')
  rcases hinstr with hbranch | hmark
  · obtain ⟨dest, hgoTo, hready⟩ := h.goTo hs hl { w with pc := q' } seen
    refine ⟨dest, hleads.trans (.of_step ?_), hready⟩
    rw [Fate.step_branch hbranch, hgoTo]
    exact .refl _
  · exact ⟨q', hleads, q' + 1, 0, .label hmark (.refl _), h.fall hs hl hmark⟩

/-- What is seen of a jump table. -/
theorem Told.sight_switch (h : Told r o code reads) {cases : List (Int × Spot)} {default : Spot}
    {table : List (Int × Label)} {l : Label}
    (htable : List.Forall₂ (fun c e => c.1 = e.1 ∧ r.label? c.2 = some e.2) cases table)
    (hl : r.label? default = some l) (hnamed : .ret ∉ cases.map Prod.snd ++ [default]) :
    (Instr.switch table l).sight reads =
      { instr := .switch (cases.map fun c => (c.1, ⟨0⟩)) ⟨0⟩
        marks := cases.map (fun c => some c.2) ++ [some default] } := by
  have hdefault : reads l = some default :=
    h.reads _ _ (fun heq => hnamed (heq ▸ List.mem_append_right _ (List.mem_singleton.2 rfl))) hl
  have hcases : table.map (fun e => (e.1, Label.mk 0)) = cases.map (fun c => (c.1, Label.mk 0)) ∧
      table.map (fun e => reads e.2) = cases.map (fun c => some c.2) := by
    induction htable with
    | nil => exact ⟨rfl, rfl⟩
    | @cons c e cases table hhead _ ih =>
      rw [List.map_cons, List.cons_append, List.mem_cons, not_or] at hnamed
      obtain ⟨hkeys, hmarks⟩ := ih hnamed.2
      have hread : reads e.2 = some c.2 := h.reads _ _ (fun heq => hnamed.1 heq.symm) hhead.2
      simp only [List.map_cons, hkeys, hmarks, hread, hhead.1, and_self]
  change Sight.mk (.switch (table.map fun e => (e.1, ⟨0⟩)) ⟨0⟩)
    ((table.map Prod.snd ++ [l]).map reads) = _
  rw [hcases.1, List.map_append, List.map_map]
  change Sight.mk _ (table.map (fun e => reads e.2) ++ [reads l]) = _
  rw [hcases.2, hdefault]

/-- The second operations are the first, or those of the spot that the first go to at once. -/
inductive Ahead (o : Outline) : List Op → List Op → Prop
  | same (ops : List Op) : Ahead o ops ops
  | arrived (s : Spot) (ops : List Op) : Ahead o (.goto s :: ops) (o.opsAt s)

/-- Execution gets ahead. -/
theorem Told.catchesUp (h : Told r o code reads) (hready : Ready r code w.pc ops)
    (hahead : Ahead o ops ops') :
    ∃ q, Run.Leads (fate.step reads code) (.on w seen) (.on { w with pc := q } seen) ∧
      Ready r code q ops' := by
  cases hahead with
  | same => exact ⟨w.pc, .refl _, hready⟩
  | arrived s ops => exact h.arrives hready

/-- A test leads to its spot, or to where execution goes there at once. -/
theorem Told.fork (h : Told r o code reads) {when : Bool} {l : Label} {s t : Spot}
    (hpc : code[w.pc]? = some (.branchIf when l)) (hl : r.label? (if when then s else t) = some l)
    (hs : r.joins s) (ht : r.joins t)
    (hother : Follows r code (w.pc + 1) 0 [.goto (if when then t else s)]) :
    ∃ q ops, fate.step reads code w seen = .on { w with pc := q, tests := w.tests + 1 } seen ∧
      Ready r code q ops ∧ Ahead o ops (o.opsAt (if fate.test w.tests then s else t)) ∧ Away ops := by
  rw [Fate.step_branchIf hpc]
  by_cases htaken : fate.test w.tests = when
  · rw [if_pos htaken, htaken]
    have hjoins : r.joins (if when then s else t) := by split <;> assumption
    obtain ⟨q, hgoTo, hready⟩ := h.goTo hjoins hl { w with tests := w.tests + 1 } seen
    exact ⟨q, _, hgoTo, hready, .same _, o.away_opsAt _⟩
  · rw [if_neg htaken]
    have hspot : (if when then t else s) = if fate.test w.tests then s else t := by
      cases hv : fate.test w.tests <;> cases when <;> simp_all
    rw [hspot] at hother
    exact ⟨w.pc + 1, _, rfl, hother.ready, .arrived _ _, .cons List.not_mem_nil .nil⟩

/-! ## Side by side -/

/-- Two labels of one handler. -/
inductive SameHandler (r r' : Reading) : Label → Label → Prop
  | intro {b : BlockId} {l l' : Label} (hl : r.label? (.block b) = some l) (hb : r.catches b)
      (hl' : r'.label? (.block b) = some l') (hb' : r'.catches b) : SameHandler r r' l l'

/-- The same regions have been entered, and as many tests made. -/
structure Paired (r r' : Reading) (w w' : Walk) : Prop where
  entered : List.Forall₂ (SameHandler r r') w.entered w'.entered
  tests : w'.tests = w.tests

/-- Two runs are side by side. -/
structure Abreast (r r' : Reading) (o : Outline) (code code' : List Instr) (w w' : Walk) : Prop
    extends Paired r r' w w' where
  ops : ∃ ops ops', Ready r code w.pc ops ∧ Ready r' code' w'.pc ops' ∧ Ahead o ops ops' ∧ Away ops

/-- Two runs show the same, and are side by side where they go on. -/
abbrev Alike (r r' : Reading) (o : Outline) (code code' : List Instr) :
    Run Walk (List Sight) → Run Walk (List Sight) → Prop :=
  Run.Agrees id (fun w w' _ => Abreast r r' o code code' w w') fun _ => True

/-- Lists that match have matching members at a position, or none. -/
theorem getElem?_of_forall₂ {α β : Type} {R : α → β → Prop} {as : List α} {bs : List β}
    (h : List.Forall₂ R as bs) (k : Nat) :
    (as[k]? = none ∧ bs[k]? = none) ∨ ∃ a b, as[k]? = some a ∧ bs[k]? = some b ∧ R a b := by
  induction h generalizing k with
  | nil => exact .inl ⟨rfl, rfl⟩
  | cons hab _ ih =>
    cases k with
    | zero => exact .inr ⟨_, _, rfl, rfl, hab⟩
    | succ k => exact ih k

/-- Execution goes to two spots or handlers. -/
theorem Paired.alike {x y : Run Walk (List Sight)} (h : Paired r r' w w') {q q' : Nat}
    (hx : x = .on { w with pc := q } seen) (hy : y = .on { w' with pc := q' } seen)
    (hready : Ready r code q ops) (hready' : Ready r' code' q' ops') (hahead : Ahead o ops ops')
    (haway : Away ops) : Alike r r' o code code' x y := by
  subst hx hy
  exact .on ⟨⟨h.entered, h.tests⟩, ops, ops', hready, hready', hahead, haway⟩

section
variable (ht : Told r o code reads) (ht' : Told r' o code' reads')
include ht ht'

/-- Two instructions that look the same raise the same, or go on. -/
theorem execute_alike (hpair : Paired r r' w w') {i i' : Instr} (hsight : i.sight reads = i'.sight reads')
    (hhandlers : List.Forall₂ (SameHandler r r') i.handler?.toList i'.handler?.toList)
    (hproceed : ∀ entered entered' n seen, List.Forall₂ (SameHandler r r') entered entered' →
      Alike r r' o code code' (fate.proceed code n { w with entered } i seen)
        (fate.proceed code' n { w' with entered := entered' } i' seen)) :
    Alike r r' o code code' (fate.execute reads code w i seen)
      (fate.execute reads' code' w' i' seen) := by
  have hentered : List.Forall₂ (SameHandler r r') (i.handler?.toList ++ w.entered)
      (i'.handler?.toList ++ w'.entered) := List.rel_append hhandlers hpair.entered
  unfold Fate.execute
  simp only [← hsight]
  generalize i.handler?.toList ++ w.entered = entered at hentered ⊢
  generalize i'.handler?.toList ++ w'.entered = entered' at hentered ⊢
  cases fate.raised seen.length with
  | none => exact hproceed entered entered' _ _ hentered
  | some k =>
    rcases getElem?_of_forall₂ hentered k with ⟨hk, hk'⟩ | ⟨l, l', hk, hk', ⟨hl, hb, hl', hb'⟩⟩
    · simp only [hk, hk']
      exact .done trivial
    · simp only [hk, hk']
      obtain ⟨q, hgoTo, hready⟩ := ht.raise hb hl { w with entered } (seen ++ [i.sight reads])
      obtain ⟨q', hgoTo', hready'⟩ :=
        ht'.raise hb' hl' { w' with entered := entered' } (seen ++ [i.sight reads])
      have hpair' : Paired r r' { w with entered } { w' with entered := entered' } :=
        ⟨hentered, hpair.tests⟩
      exact hpair'.alike hgoTo hgoTo' hready hready' (.same _) (o.away_opsAt _)

/-- The second execution gets, after some steps, to what the first has come to. -/
def KeepsUp (r r' : Reading) (o : Outline) (code code' : List Instr) (fate : Fate)
    (reads' : Label → Option Spot) (w' : Walk) (seen : List Sight) (x : Run Walk (List Sight)) : Prop :=
  ∃ y, Run.Leads (fate.step reads' code') (.on w' seen) y ∧ Alike r r' o code code' x y

theorem seen_keepsUp (hpair : Paired r r' w w') {i i' : Instr} {q' : Nat} (hpc : code[w.pc]? = some i)
    (hi : i.isSeen = true) (hskip : Skips code' w'.pc q') (hq' : code'[q']? = some i')
    (hi' : i'.isSeen = true) (hsight : i.sight reads = i'.sight reads')
    (hhandlers : List.Forall₂ (SameHandler r r') i.handler?.toList i'.handler?.toList)
    (hproceed : ∀ entered entered' n seen, List.Forall₂ (SameHandler r r') entered entered' →
      Alike r r' o code code' (fate.proceed code n { w with entered } i seen)
        (fate.proceed code' n { w' with pc := q', entered := entered' } i' seen)) :
    KeepsUp r r' o code code' fate reads' w' seen (fate.step reads code w seen) := by
  refine ⟨fate.step reads' code' { w' with pc := q' } seen,
    (Fate.leads_of_skips hskip).trans (.of_step (.refl _)), ?_⟩
  have hpair' : Paired r r' w { w' with pc := q' } := ⟨hpair.entered, hpair.tests⟩
  rw [Fate.step_of_seen hpc hi, Fate.step_of_seen hq' hi']
  exact execute_alike ht ht' hpair' hsight hhandlers hproceed

/-- Two straight instructions that differ in the slot alone. -/
theorem straight_keepsUp (hpair : Paired r r' w w') {i i' : Instr} {q' : Nat}
    (hpc : code[w.pc]? = some i) (hi : i.isStraight = true) (hskip : Skips code' w'.pc q')
    (hq' : code'[q']? = some i') (hi' : i'.isStraight = true) (herased : i'.erased = i.erased)
    (hready : i.endsFlow = false → Ready r code (w.pc + 1) ops)
    (hready' : i'.endsFlow = false → Ready r' code' (q' + 1) ops) (haway : Away ops) :
    KeepsUp r r' o code code' fate reads' w' seen (fate.step reads code w seen) := by
  have hsight : i.sight reads = i'.sight reads' := by
    unfold Instr.sight Instr.bare
    rw [herased, Instr.targets_of_isStraight hi, Instr.targets_of_isStraight hi']
    rfl
  have hflow : i'.endsFlow = i.endsFlow := by
    rw [← Instr.endsFlow_erased, herased, Instr.endsFlow_erased]
  refine seen_keepsUp ht ht' hpair hpc (Instr.isSeen_of_isStraight hi) hskip hq'
    (Instr.isSeen_of_isStraight hi') hsight ?_ fun entered entered' n seen hentered => ?_
  · rw [Instr.handler?_of_isStraight hi, Instr.handler?_of_isStraight hi']
    exact .nil
  · cases hends : i.endsFlow with
    | true =>
      rw [Fate.proceed_of_endsFlow hi hends, Fate.proceed_of_endsFlow hi' (hflow.trans hends)]
      exact .done trivial
    | false =>
      have hpair' : Paired r r' { w with entered } { w' with pc := q', entered := entered' } :=
        ⟨hentered, hpair.tests⟩
      exact hpair'.alike (Fate.proceed_of_passes hi hends) (Fate.proceed_of_passes hi' (hflow.trans hends))
        (hready hends) (hready' (hflow.trans hends)) (.same _) haway

omit ht in
/-- A spot that is gone to. -/
theorem goto_keepsUp (hpair : Paired r r' w w') {s : Spot} {q : Nat} {x : Run Walk (List Sight)}
    (hx : x = .on { w with pc := q } seen) (hready : Ready r code q (o.opsAt s))
    (hready' : Ready r' code' w'.pc ops') (hahead : Ahead o (.goto s :: ops) ops') :
    KeepsUp r r' o code code' fate reads' w' seen x := by
  have harrives : ∃ q', Run.Leads (fate.step reads' code') (.on w' seen) (.on { w' with pc := q' } seen) ∧
      Ready r' code' q' (o.opsAt s) := by
    cases hahead with
    | same => exact ht'.arrives hready'
    | arrived => exact ⟨w'.pc, .refl _, hready'⟩
  obtain ⟨q', hleads, hready'⟩ := harrives
  exact ⟨_, hleads, hpair.alike hx rfl hready hready' (.same _) (o.away_opsAt s)⟩

/-- A test of static storage. -/
theorem guard_keepsUp (hpair : Paired r r' w w') {l : Label} {q : Nat} {body : List Instr}
    (hpc : code[w.pc]? = some (.branchIf true l)) (hq : code[q]? = some (.markLabel l))
    (hskip : Follows r code (q + 1) 0 ops)
    (hrest : Follows r code (w.pc + 1) 0 (body.map (fun i => .run i.erased) ++ ops))
    (hready' : Ready r' code' w'.pc (.guard body :: ops)) (haway : Away ops) :
    KeepsUp r r' o code code' fate reads' w' seen (fate.step reads code w seen) := by
  obtain ⟨p, _, hskips, hfollows'⟩ := hready'
  obtain ⟨p', l', q', hskips', hpc', hq', -, hskip', hrest'⟩ := hfollows'.guard_inv
  have hpair' : Paired r r' { w with tests := w.tests + 1 } { w' with tests := w'.tests + 1 } :=
    ⟨hpair.entered, congrArg (· + 1) hpair.tests⟩
  refine ⟨fate.step reads' code' { w' with pc := p' } seen,
    (Fate.leads_of_skips (hskips.trans hskips')).trans (.of_step (.refl _)), ?_⟩
  have htests : fate.test w'.tests = fate.test w.tests := congrArg fate.test hpair.tests
  rw [Fate.step_branchIf hpc, Fate.step_branchIf (w := { w' with pc := p' }) hpc']
  by_cases htest : fate.test w.tests = true
  · rw [if_pos htest, if_pos (htests.trans htest)]
    exact hpair'.alike (Walk.goTo_eq ht.realizes.placed_nodup hq)
      (Walk.goTo_eq ht'.realizes.placed_nodup hq') ⟨_, _, .label hq (.refl _), hskip⟩
      ⟨_, _, .label hq' (.refl _), hskip'⟩ (.same _) haway
  · rw [if_neg htest, if_neg (htests ▸ htest)]
    exact hpair'.alike rfl rfl hrest.ready hrest'.ready (.same _)
      ((Away.of_run exists_run_of_mem).append haway)

/-- A test of an edge, which need not be the same way round in both. -/
theorem fork_keepsUp (hpair : Paired r r' w w') {when : Bool} {l : Label} {s t : Spot}
    (hpc : code[w.pc]? = some (.branchIf when l)) (hl : r.label? (if when then s else t) = some l)
    (hs : r.joins s) (hjoins : r.joins t)
    (hother : Follows r code (w.pc + 1) 0 [.goto (if when then t else s)])
    (hready' : Ready r' code' w'.pc (.fork s t :: ops)) :
    KeepsUp r r' o code code' fate reads' w' seen (fate.step reads code w seen) := by
  obtain ⟨p, _, hskips, hfollows'⟩ := hready'
  obtain ⟨p', when', l', hskips', -, hpc', hl', hs', hjoins', hother'⟩ := hfollows'.fork_inv
  have hpair' : Paired r r' { w with tests := w.tests + 1 } { w' with tests := w'.tests + 1 } :=
    ⟨hpair.entered, congrArg (· + 1) hpair.tests⟩
  obtain ⟨q, ops₁, hstep, hready, hahead, haway⟩ := ht.fork hpc hl hs hjoins hother
  obtain ⟨q₁, ops₂, hstep', hready₁, hahead', -⟩ :=
    ht'.fork (w := { w' with pc := p' }) hpc' hl' hs' hjoins' hother'
  obtain ⟨q₂, hleads, hready₂⟩ :=
    ht'.catchesUp (w := { w' with pc := q₁, tests := w'.tests + 1 }) hready₁ hahead'
  simp only [hpair.tests] at hready₂
  refine ⟨.on { w' with pc := q₂, tests := w'.tests + 1 } seen,
    (Fate.leads_of_skips (hskips.trans hskips')).trans (.of_step ?_),
    hpair'.alike hstep rfl hready hready₂ hahead haway⟩
  rw [hstep']
  exact hleads

theorem enter_keepsUp (hpair : Paired r r' w w') {l : Label} {b : BlockId} {depth : Nat}
    (hpc : code[w.pc]? = some (.enterTry l)) (hl : r.label? (.block b) = some l) (hb : r.catches b)
    (hrest : Follows r code (w.pc + 1) depth ops) (hready' : Ready r' code' w'.pc (.enter b :: ops))
    (haway : Away ops) :
    KeepsUp r r' o code code' fate reads' w' seen (fate.step reads code w seen) := by
  obtain ⟨p, _, hskips, hfollows'⟩ := hready'
  obtain ⟨p', l', hskips', hpc', hl', hb', hrest'⟩ := hfollows'.enter_inv
  have hread : reads l = some (.block b) := ht.reads (.block b) l nofun hl
  have hread' : reads' l' = some (.block b) := ht'.reads (.block b) l' nofun hl'
  have hsight : (Instr.enterTry l).sight reads = (Instr.enterTry l').sight reads' := by
    simp only [Instr.sight, Instr.targets, List.map_cons, List.map_nil, hread, hread']
    rfl
  refine seen_keepsUp ht ht' hpair hpc rfl (hskips.trans hskips') hpc' rfl hsight
    (.cons (.intro hl hb hl' hb') .nil) fun entered entered' n seen hentered => ?_
  have hpair' : Paired r r' { w with entered } { w' with pc := p', entered := entered' } :=
    ⟨hentered, hpair.tests⟩
  exact hpair'.alike rfl rfl hrest.ready hrest'.ready (.same _) haway

/-- A jump table. -/
theorem select_keepsUp (hpair : Paired r r' w w') {cases : List (Int × Spot)} {default : Spot}
    {table : List (Int × Label)} {l : Label} (hpc : code[w.pc]? = some (.switch table l))
    (htable : List.Forall₂ (fun c e => c.1 = e.1 ∧ r.label? c.2 = some e.2) cases table)
    (hl : r.label? default = some l) (hs : ∀ c ∈ cases, r.joins c.2) (hdefault : r.joins default)
    (hready' : Ready r' code' w'.pc (.select cases default :: ops))
    (haway : Away (.select cases default :: ops)) :
    KeepsUp r r' o code code' fate reads' w' seen (fate.step reads code w seen) := by
  obtain ⟨p, _, hskips, hfollows'⟩ := hready'
  obtain ⟨p', table', l', hskips', -, hpc', htable', hl', hs', hdefault'⟩ := hfollows'.select_inv
  have hnamed : .ret ∉ cases.map Prod.snd ++ [default] := haway _ List.mem_cons_self
  have hsight : (Instr.switch table l).sight reads = (Instr.switch table' l').sight reads' := by
    rw [ht.sight_switch htable hl hnamed, ht'.sight_switch htable' hl' hnamed]
  refine seen_keepsUp ht ht' hpair hpc rfl (hskips.trans hskips') hpc' rfl hsight .nil
    fun entered entered' n seen hentered => ?_
  have hpair' : Paired r r' { w with entered } { w' with pc := p', entered := entered' } :=
    ⟨hentered, hpair.tests⟩
  have hlabel := lookup_table htable hl (fate.select n)
  have hlabel' := lookup_table htable' hl' (fate.select n)
  obtain ⟨q, hgoTo, hready⟩ := ht.goTo (joins_lookup hs hdefault _) hlabel { w with entered } seen
  obtain ⟨q', hgoTo', hready'⟩ := ht'.goTo (joins_lookup hs' hdefault' _) hlabel'
    { w' with pc := p', entered := entered' } seen
  exact hpair'.alike hgoTo hgoTo' hready hready' (.same _) (o.away_opsAt _)

theorem leave_keepsUp (hpair : Paired r r' w w') {s : Spot} {l : Label}
    (hpc : code[w.pc]? = some (.leave l)) (hl : r.label? s = some l) (hs : r.joins s)
    (hready' : Ready r' code' w'.pc (.leave s :: ops)) (haway : Away (.leave s :: ops)) :
    KeepsUp r r' o code code' fate reads' w' seen (fate.step reads code w seen) := by
  obtain ⟨p, _, hskips, hfollows'⟩ := hready'
  obtain ⟨p', l', hskips', -, hpc', hl', hs'⟩ := hfollows'.leave_inv
  have hne : s ≠ .ret := fun heq => haway _ List.mem_cons_self (heq ▸ List.mem_singleton.2 rfl)
  have hsight : (Instr.leave l).sight reads = (Instr.leave l').sight reads' := by
    simp only [Instr.sight, Instr.targets, List.map_cons, List.map_nil, ht.reads _ _ hne hl,
      ht'.reads _ _ hne hl']
    rfl
  refine seen_keepsUp ht ht' hpair hpc rfl (hskips.trans hskips') hpc' rfl hsight .nil
    fun entered entered' n seen hentered => ?_
  have hpair' : Paired r r' { w with entered } { w' with pc := p', entered := entered' } :=
    ⟨hentered, hpair.tests⟩
  obtain ⟨q, hgoTo, hready⟩ := ht.goTo hs hl { w with entered } seen
  obtain ⟨q', hgoTo', hready'⟩ := ht'.goTo hs' hl' { w' with pc := p', entered := entered' } seen
  exact hpair'.alike hgoTo hgoTo' hready hready' (.same _) (o.away_opsAt _)

/-- The second execution keeps up with a step of the first. -/
theorem step_keepsUp (hpair : Paired r r' w w') {depth : Nat} (hfollows : Follows r code w.pc depth ops)
    (hready' : Ready r' code' w'.pc ops') (hahead : Ahead o ops ops') (haway : Away ops) :
    KeepsUp r r' o code code' fate reads' w' seen (fate.step reads code w seen) := by
  generalize hpc : w.pc = pc at hfollows
  induction hfollows generalizing ops' with
  | note hi hnote rest _ =>
    subst hpc
    exact ⟨_, .refl _, hpair.alike (Fate.step_of_not_seen hi (Instr.isBookkeeping_of_isNote hnote)) rfl
      rest.ready hready' hahead haway⟩
  | label hi _ rest _ =>
    subst hpc
    exact ⟨_, .refl _, hpair.alike (Fate.step_of_not_seen hi rfl) rfl rest.ready hready' hahead haway⟩
  | run hi hstraight hflow _ rest _ =>
    subst hpc
    cases hahead
    obtain ⟨q, _, hskip, hfollows'⟩ := hready'
    obtain ⟨q', j, _, hskip', hj, hstraight', herased, -, hrest⟩ := hfollows'.run_inv
    exact straight_keepsUp ht ht' hpair hi hstraight (hskip.trans hskip') hj hstraight' herased
      (fun _ => rest.ready) (fun hflow' => (hrest hflow').ready) haway.tail
  | halt hi hstraight hflow _ =>
    subst hpc
    cases hahead
    obtain ⟨q, _, hskip, hfollows'⟩ := hready'
    obtain ⟨q', j, _, hskip', hj, hstraight', herased, -, hrest⟩ := hfollows'.run_inv
    refine straight_keepsUp ht ht' hpair hi hstraight (hskip.trans hskip') hj hstraight' herased
      (fun hpass => ?_) (fun hflow' => (hrest hflow').ready) haway.tail
    rw [hflow] at hpass
    cases hpass
  | stage hi _ rest _ =>
    subst hpc
    cases hahead
    obtain ⟨q, _, hskip, hfollows'⟩ := hready'
    obtain ⟨q', slot, _, hskip', hj, -, rfl, hrest⟩ := hfollows'.stage_inv
    exact straight_keepsUp ht ht' hpair hi rfl (hskip.trans hskip') hj rfl rfl
      (fun _ => rest.ready) (fun _ => hrest.ready) haway.tail
  | unstage hi _ rest _ =>
    subst hpc
    cases hahead
    obtain ⟨q, _, hskip, hfollows'⟩ := hready'
    obtain ⟨q', slot, hskip', hj, -, hrest⟩ := hfollows'.unstage_inv
    exact straight_keepsUp ht ht' hpair hi rfl (hskip.trans hskip') hj rfl rfl
      (fun _ => rest.ready) (fun _ => hrest.ready) haway.tail
  | guard hi hq _ skip rest _ _ =>
    subst hpc
    cases hahead
    exact guard_keepsUp ht ht' hpair hi hq skip rest hready' haway.tail
  | enter hi hl hb rest _ =>
    subst hpc
    cases hahead
    exact enter_keepsUp ht ht' hpair hi hl hb rest hready' haway.tail
  | jump hi hl hs =>
    subst hpc
    obtain ⟨q, hgoTo, hready⟩ := ht.goTo hs hl w seen
    exact goto_keepsUp ht' hpair ((Fate.step_branch hi).trans hgoTo) hready hready' hahead
  | fall hi hl hs =>
    subst hpc
    exact goto_keepsUp ht' hpair (Fate.step_of_not_seen hi rfl) (ht.fall hs hl hi).ready hready' hahead
  | fork when hi hl hs hjoins rest _ =>
    subst hpc
    cases hahead
    exact fork_keepsUp ht ht' hpair hi hl hs hjoins rest hready'
  | select hi hcases hl hs hdefault =>
    subst hpc
    cases hahead
    exact select_keepsUp ht ht' hpair hi hcases hl hs hdefault hready' haway
  | leave hi hl hs =>
    subst hpc
    cases hahead
    exact leave_keepsUp ht ht' hpair hi hl hs hready' haway
  | suspend hi =>
    subst hpc
    cases hahead
    obtain ⟨q, _, hskip, hfollows'⟩ := hready'
    obtain ⟨q', hskip', -, hj⟩ := hfollows'.suspend_inv
    exact straight_keepsUp ht ht' hpair hi rfl (hskip.trans hskip') hj rfl rfl nofun nofun .nil
  | settle _ ih =>
    cases hahead
    obtain ⟨q, _, hskip, hfollows'⟩ := hready'
    obtain ⟨-, hrest⟩ := hfollows'.settle_inv
    exact ih ⟨q, _, hskip, hrest⟩ (.same _) haway.tail hpc

/-- Of two executions side by side, the second keeps up with a step of the first. -/
theorem Abreast.step (fate : Fate) (h : Abreast r r' o code code' w w') (seen : List Sight) :
    KeepsUp r r' o code code' fate reads' w' seen (fate.step reads code w seen) := by
  obtain ⟨hpair, ops, ops', ⟨q, depth, hskips, hfollows⟩, hready', hahead, haway⟩ := h
  generalize hpc : w.pc = pc at hskips
  cases hskips with
  | refl =>
    subst hpc
    exact step_keepsUp ht ht' hpair hfollows hready' hahead haway
  | note hi hnote rest =>
    subst hpc
    exact ⟨_, .refl _, hpair.alike (Fate.step_of_not_seen hi (Instr.isBookkeeping_of_isNote hnote)) rfl
      ⟨q, depth, rest, hfollows⟩ hready' hahead haway⟩
  | label hl rest =>
    subst hpc
    exact ⟨_, .refl _, hpair.alike (Fate.step_of_not_seen hl rfl) rfl ⟨q, depth, rest, hfollows⟩ hready'
      hahead haway⟩

/-- The second execution comes to whatever the first comes to. -/
theorem Abreast.run (fate : Fate) (h : Abreast r r' o code code' w w') (seen : List Sight) (n : Nat) :
    ∃ k, Alike r r' o code code' (Run.after (fate.step reads code) (.on w seen) n)
      (Run.after (fate.step reads' code') (.on w' seen) k) := by
  induction n with
  | zero => exact ⟨0, .on h⟩
  | succ n ih =>
    obtain ⟨k, halike⟩ := ih
    rw [Run.after_succ]
    generalize Run.after (fate.step reads code) (.on w seen) n = x at halike ⊢
    generalize hy : Run.after (fate.step reads' code') (.on w' seen) k = y at halike
    cases halike with
    | @on w₁ w₁' seen₁ habreast =>
      obtain ⟨z, ⟨d, hd⟩, halike⟩ := Abreast.step ht ht' fate habreast seen₁
      refine ⟨k + d, ?_⟩
      rw [Run.after_add, hy]
      exact hd ▸ halike
    | done =>
      refine ⟨k, ?_⟩
      rw [hy]
      exact .done trivial

end

end StackCode
