import StackCode.Proofs.Labels.Placed
import StackCode.Proofs.Returns.Paths

/-!
# The account of labels

The labels of a lowered procedure are numbered without gaps, one for each landmark of the procedure: the
blocks that the edges of its code lead to, the suspension points of a generator and where it begins,
the initializations of static storage, and the place to return, if some statement returns.  Each is
placed once, except the label to return where a value is due and control gets to no return statement:
then it is neither placed nor branched to.  Main statement: `Procedure.labels_of_lowerInto`.
-/

namespace StackCode

open Landmark

/-! ## Landmarks of a procedure -/

/-- The initializations of static storage among statements, the first of which stands at this
position of a block. -/
def Stmt.initializations (b : BlockId) (position : Nat) : List Stmt → List Landmark
  | [] => []
  | s :: ss =>
    (if s.initializes then [.static b position] else []) ++ initializations b (position + 1) ss

namespace Procedure

variable (p : Procedure)

/-- The blocks that code is generated for. -/
def emitted : List Block := p.liveBlocks.filterMap p.graph.block?

/-- The blocks that their edges lead to, each once. -/
def targeted : List BlockId := (p.emitted.flatMap fun b => b.edge.targets).eraseDups

/-- The statements of the blocks that code is generated for. -/
def emittedStatements : List Stmt := p.emitted.flatMap (·.statements)

/-- Everything that has a label. -/
def landmarks : List Landmark :=
  p.targeted.map (fun b => .spot (.block b)) ++
    ((if p.isGenerator then
        .spot .body :: p.graph.yields.map fun y => .spot (.resume y.index) else []) ++
      ((p.emitted.flatMap fun b => Stmt.initializations b.id 0 b.statements) ++
        if p.emittedStatements.any Stmt.isReturn then [.spot .ret] else []))

end Procedure

namespace Stmt

variable {b b' : BlockId} {position k : Nat} {ss : List Stmt}

theorem length_initializations : (initializations b position ss).length = ss.countP initializes := by
  induction ss generalizing position with
  | nil => rfl
  | cons s ss ih =>
    rw [initializations, List.length_append, ih, List.countP_cons, Nat.add_comm]
    congr 1
    cases s.initializes <;> rfl

theorem landmarks_eq (s : Stmt) : s.landmarks b position =
    (if s.initializes then [.static b position] else []) ++
      if s.isReturn then [.spot .ret] else [] := by
  cases s <;> first | rfl | exact (List.append_nil _).symm

theorem marks_eq (s : Stmt) : s.marks b position =
    (if s.initializes then [.static b position] else []) ++
      s.yieldIndex?.toList.map fun index => .spot (.resume index) := by
  cases s <;> first | rfl | exact (List.append_nil _).symm

theorem mem_initializations {x : Landmark} :
    x ∈ initializations b position ss ↔ x ∈ landmarksFrom b position ss ∧ x ≠ .spot .ret := by
  induction ss generalizing position with
  | nil => simp [initializations, landmarksFrom]
  | cons s ss ih =>
    rw [initializations, landmarksFrom, List.mem_append, List.mem_append, ih, or_and_right,
      landmarks_eq]
    refine or_congr_left ?_
    have hstatic : x = .static b position → x ≠ .spot .ret := by
      rintro rfl hret
      cases hret
    cases s.initializes <;> cases s.isReturn <;> simp <;> tauto

theorem static_of_mem_initializations (h : .static b' k ∈ initializations b position ss) :
    b' = b ∧ position ≤ k := static_of_mem_landmarksFrom (mem_initializations.1 h).1

theorem exists_of_mem_initializations {x : Landmark} (h : x ∈ initializations b position ss) :
    ∃ k, x = .static b k := by
  induction ss generalizing position with
  | nil => cases h
  | cons s ss ih =>
    rcases List.mem_append.1 h with h | h
    · split at h
      · exact ⟨_, List.mem_singleton.1 h⟩
      · cases h
    · exact ih h

theorem nodup_initializations : (initializations b position ss).Nodup := by
  induction ss generalizing position with
  | nil => exact List.nodup_nil
  | cons s ss ih =>
    rw [initializations, List.nodup_append]
    refine ⟨?_, ih, fun x hx y hy heq => ?_⟩
    · split
      · exact List.nodup_singleton _
      · exact List.nodup_nil
    · subst heq
      split at hx
      · rw [List.mem_singleton.1 hx] at hy
        have := (static_of_mem_initializations hy).2
        omega
      · cases hx

/-- Statements ask for what their initializations need, and for a place to return. -/
theorem mem_landmarksFrom {x : Landmark} : x ∈ landmarksFrom b position ss ↔
    x ∈ initializations b position ss ∨ x = .spot .ret ∧ ss.any isReturn = true := by
  by_cases hx : x = .spot .ret
  · subst hx
    rw [ret_mem_landmarksFrom_iff, mem_initializations]
    simp
  · rw [mem_initializations]
    simp [hx]

theorem mem_marksFrom {x : Landmark} : x ∈ marksFrom b position ss ↔
    x ∈ initializations b position ss ∨
      ∃ index ∈ ss.filterMap yieldIndex?, x = .spot (.resume index) := by
  induction ss generalizing position with
  | nil => simp [marksFrom, initializations]
  | cons s ss ih =>
    rw [marksFrom, initializations, List.mem_append, List.mem_append, ih, marks_eq, List.mem_append,
      List.filterMap_cons]
    cases s.yieldIndex? <;> simp [or_assoc, or_left_comm]

end Stmt

/-! ## What is known is what has a label -/

namespace Plan

variable {p : Procedure} {options : Options} {strategy : LayoutStrategy} {c : Plan}
  {labels : LabelTable}

/-- The blocks of a plan are those that code is generated for. -/
theorem perm_emitted (h : make p options strategy = .ok (c, labels)) : c.blocks.Perm p.emitted := by
  obtain ⟨order, horder, -, -, hblocks, -⟩ := make_eq_ok h
  rw [hblocks]
  exact (FlowGraph.ends_of_emissionOrder p.nodup_liveBlocks p.start_mem_liveBlocks
    p.exit_mem_liveBlocks horder).1.filterMap _

theorem mem_labelled_iff (h : make p options strategy = .ok (c, labels)) {t : BlockId} :
    t ∈ c.labelled ↔ t ∈ p.targeted := by
  rw [(made_of_make h).labelled, targetsOf, Procedure.targeted, List.mem_eraseDups,
    List.mem_eraseDups, List.mem_flatMap, List.mem_flatMap]
  simp only [(perm_emitted h).mem_iff]

theorem returnsIn_eq (h : make p options strategy = .ok (c, labels)) :
    returnsIn c.blocks = p.emittedStatements.any Stmt.isReturn := by
  rw [Procedure.emittedStatements, List.any_flatMap]
  exact (perm_emitted h).any_eq

/-- The suspension points that are planned are those of the procedure. -/
theorem mem_range_iff (hmade : c.Made) {x : Landmark} :
    (∃ i < c.resume.labels.length, x = .spot (.resume ((i : Int) + 1))) ↔
      c.procedure.isGenerator = true ∧
        ∃ y ∈ c.procedure.graph.yields, x = .spot (.resume y.index) := by
  rw [hmade.resume, List.length_map, List.length_range]
  cases hgen : c.procedure.isGenerator with
  | false => simp
  | true =>
    have hmem (index : Int) := (hmade.dense hgen).mem_iff (a := index)
    simp only [List.mem_map, List.mem_range] at hmem
    simp only [if_true, true_and]
    constructor
    · rintro ⟨i, hi, rfl⟩
      obtain ⟨y, hy, heq⟩ := (hmem _).2 ⟨i, hi, rfl⟩
      exact ⟨y, hy, by rw [heq]⟩
    · rintro ⟨y, hy, rfl⟩
      obtain ⟨i, hi, heq⟩ := (hmem _).1 ⟨y, hy, rfl⟩
      exact ⟨i, hi, by rw [heq]⟩

/-- The start is among the blocks. -/
theorem exists_start (hmade : c.Made) : ∃ b ∈ c.blocks, b.kind = .start := by
  obtain ⟨first, mids, last, hblocks, hfirst, -, -⟩ := hmade.blocks_eq
  exact ⟨first, hblocks ▸ List.mem_cons_self, hfirst⟩

theorem mem_known_iff (hmade : c.Made) {x : Landmark} : x ∈ c.known ↔
    (∃ t ∈ c.labelled, x = .spot (.block t)) ∨
      (c.procedure.isGenerator = true ∧
        (x = .spot .body ∨ ∃ y ∈ c.procedure.graph.yields, x = .spot (.resume y.index))) ∨
        (∃ b ∈ c.blocks, x ∈ Stmt.initializations b.id 0 b.statements) ∨
          x = .spot .ret ∧ returnsIn c.blocks = true := by
  have hblocks : (∃ b ∈ c.blocks, x ∈ c.landmarksOf b) ↔
      (c.procedure.isGenerator = true ∧ x = .spot .body) ∨
        (∃ b ∈ c.blocks, x ∈ Stmt.initializations b.id 0 b.statements) ∨
          x = .spot .ret ∧ returnsIn c.blocks = true := by
    unfold landmarksOf returnsIn
    simp only [List.mem_append, Stmt.mem_landmarksFrom, List.any_eq_true]
    constructor
    · rintro ⟨b, hb, h | h | ⟨rfl, h⟩⟩
      · split at h
        · next hk => exact .inl ⟨hk.2, List.mem_singleton.1 h⟩
        · cases h
      · exact .inr (.inl ⟨b, hb, h⟩)
      · exact .inr (.inr ⟨rfl, b, hb, h⟩)
    · rintro (⟨hgen, rfl⟩ | ⟨b, hb, h⟩ | ⟨rfl, b, hb, h⟩)
      · obtain ⟨b, hb, hk⟩ := exists_start hmade
        exact ⟨b, hb, .inl (by rw [if_pos ⟨hk, hgen⟩]; exact List.mem_singleton_self _)⟩
      · exact ⟨b, hb, .inr (.inl h)⟩
      · exact ⟨b, hb, .inr (.inr ⟨rfl, h⟩)⟩
  rw [known, mem_addAll, List.mem_flatMap, hblocks, mem_planned_iff, mem_range_iff hmade, and_or_left]
  simp only [or_assoc, or_left_comm]

/-- What the blocks suspend at are the suspension points of the procedure. -/
theorem mem_resumed_iff (hmade : c.Made) (hwrites : ∀ b ∈ c.blocks, c.outline.WritesBlock b)
    {x : Landmark} :
    (∃ b ∈ c.blocks, ∃ index ∈ b.statements.filterMap Stmt.yieldIndex?, x = .spot (.resume index)) ↔
      c.procedure.isGenerator = true ∧
        ∃ y ∈ c.procedure.graph.yields, x = .spot (.resume y.index) := by
  constructor
  · rintro ⟨b, hb, index, hindex, rfl⟩
    obtain ⟨s, hs, hyield⟩ := List.mem_filterMap.1 hindex
    obtain ⟨y, rfl⟩ : ∃ y, s = .yield y := by
      cases s <;> first | exact ⟨_, rfl⟩ | cases hyield
    obtain ⟨site, hsite, heq⟩ := List.mem_map.1 (mem_indices hmade hb hs hyield)
    exact ⟨((hwrites b hb).statements _ hs).1, site, hsite, by rw [heq]⟩
  · rintro ⟨hgen, y, hy, rfl⟩
    obtain ⟨b', hb', hid', s, hs, hyield⟩ := mem_yields_iff.1 hy
    obtain ⟨b, hb, hid⟩ := hmade.exists_block _ (Procedure.yield_mem_liveBlocks hgen hy)
    obtain rfl : b = b' := Option.some_inj.1 ((hmade.block? b hb).symm.trans
      ((hid.trans hid'.symm) ▸ FlowGraph.block?_of_mem hb'))
    exact ⟨b, hb, y.index, List.mem_filterMap.2 ⟨s, hs, hyield⟩, rfl⟩

/-- The labels of all landmarks stand in the code, the return label apart. -/
theorem mem_marked_iff (hmade : c.Made) (hwrites : ∀ b ∈ c.blocks, c.outline.WritesBlock b)
    {x : Landmark} : x ∈ c.marked ↔ x ∈ c.known ∧ x ≠ .spot .ret := by
  have hlabelled : (∃ b ∈ c.blocks, b.id ∈ c.labelled ∧ x = .spot (.block b.id)) ↔
      ∃ t ∈ c.labelled, x = .spot (.block t) := by
    constructor
    · rintro ⟨b, -, hb, rfl⟩
      exact ⟨b.id, hb, rfl⟩
    · rintro ⟨t, ht, rfl⟩
      obtain ⟨b, hb, hmem⟩ := hmade.isSome_label?_iff.1 (isSome_label?_iff.2 ht)
      obtain ⟨⟨b', hb', rfl⟩, -⟩ := hmade.target hb hmem
      exact ⟨b', hb', ht, rfl⟩
  have hbody : (∃ b ∈ c.blocks, (b.kind = .start ∧ c.procedure.isGenerator = true) ∧ x = .spot .body) ↔
      c.procedure.isGenerator = true ∧ x = .spot .body := by
    constructor
    · rintro ⟨b, -, ⟨-, hgen⟩, rfl⟩
      exact ⟨hgen, rfl⟩
    · rintro ⟨hgen, rfl⟩
      obtain ⟨b, hb, hk⟩ := exists_start hmade
      exact ⟨b, hb, ⟨hk, hgen⟩, rfl⟩
  have hmarked : x ∈ c.marked ↔ (∃ t ∈ c.labelled, x = .spot (.block t)) ∨
      (c.procedure.isGenerator = true ∧
        (x = .spot .body ∨ ∃ y ∈ c.procedure.graph.yields, x = .spot (.resume y.index))) ∨
        ∃ b ∈ c.blocks, x ∈ Stmt.initializations b.id 0 b.statements := by
    rw [← hlabelled, and_or_left, ← hbody, ← mem_resumed_iff hmade hwrites]
    unfold marked marksOf marksBefore
    simp only [List.mem_flatMap, List.mem_append, Stmt.mem_marksFrom, List.mem_ite_nil_right,
      List.mem_singleton, and_or_left, exists_or]
    generalize (∃ b ∈ c.blocks, x ∈ Stmt.initializations b.id 0 b.statements) = initialized
    generalize (∃ b ∈ c.blocks, b.id ∈ c.labelled ∧ x = .spot (.block b.id)) = labelled
    generalize (∃ b ∈ c.blocks, (b.kind = .start ∧ c.procedure.isGenerator = true) ∧
      x = .spot .body) = begun
    generalize (∃ b ∈ c.blocks, ∃ index ∈ b.statements.filterMap Stmt.yieldIndex?,
      x = .spot (.resume index)) = resumed
    tauto
  have hret : x = .spot .ret → x ∉ c.marked := by
    rw [hmarked]
    rintro rfl (⟨t, -, h⟩ | ⟨-, h | ⟨y, -, h⟩⟩ | ⟨b, -, h⟩)
    · cases h
    · cases h
    · cases h
    · exact (Stmt.mem_initializations.1 h).2 rfl
  have hknown : x ∈ c.known ↔ x ∈ c.marked ∨ x = .spot .ret ∧ returnsIn c.blocks = true := by
    rw [hmarked, mem_known_iff hmade, or_assoc, or_assoc]
  rw [hknown]
  exact ⟨fun h => ⟨.inl h, fun heq => hret heq h⟩, fun h => h.1.resolve_right fun hr => h.2 hr.1⟩

/-! ## One label for each landmark -/

theorem nodup_landmarks (h : make p options strategy = .ok (c, labels)) : p.landmarks.Nodup := by
  have hmade := made_of_make h
  obtain ⟨-, -, hp, -⟩ := make_eq_ok h
  have hids : (p.emitted.map (·.id)).Nodup := ((perm_emitted h).map _).nodup_iff.1 hmade.nodup
  have hgenerator {x : Landmark} (hx : x ∈ if p.isGenerator then
      Landmark.spot .body :: p.graph.yields.map fun y => .spot (.resume y.index) else []) :
      x = .spot .body ∨ ∃ y : YieldSite, x = .spot (.resume y.index) := by
    split at hx
    · refine (List.mem_cons.1 hx).imp_right fun hx => ?_
      obtain ⟨y, -, rfl⟩ := List.mem_map.1 hx
      exact ⟨y, rfl⟩
    · cases hx
  have hstatic {x : Landmark}
      (hx : x ∈ p.emitted.flatMap fun b => Stmt.initializations b.id 0 b.statements) :
      ∃ b k, x = .static b k := by
    obtain ⟨b, -, hx⟩ := List.mem_flatMap.1 hx
    exact ⟨b.id, Stmt.exists_of_mem_initializations hx⟩
  have hreturn {x : Landmark}
      (hx : x ∈ if p.emittedStatements.any Stmt.isReturn then [Landmark.spot .ret] else []) :
      x = .spot .ret := by
    split at hx
    · exact List.mem_singleton.1 hx
    · cases hx
  unfold Procedure.landmarks
  refine List.nodup_append.2 ⟨?blocks, List.nodup_append.2 ⟨?points, List.nodup_append.2
    ⟨?statics, ?returns, fun x hx y hy heq => ?_⟩, fun x hx y hy heq => ?_⟩, fun x hx y hy heq => ?_⟩
  case blocks =>
    refine (nodup_eraseDups _).map fun t t' heq => ?_
    cases heq
    rfl
  case points =>
    split
    · next hgen =>
      rw [← hp] at hgen
      have hindices := ((hp ▸ hmade.dense hgen).nodup_iff).2
        (List.nodup_range.map fun i j hij => by simpa using hij)
      refine List.nodup_cons.2 ⟨fun hmem => ?_, ?_⟩
      · obtain ⟨y, -, hy⟩ := List.mem_map.1 hmem
        cases hy
      · have hmap := hindices.map (f := fun index => Landmark.spot (.resume index)) fun i j hij => by
          cases hij
          rfl
        rwa [List.map_map] at hmap
    · exact List.nodup_nil
  case statics =>
    rw [List.nodup_flatMap]
    refine ⟨fun b _ => Stmt.nodup_initializations, ?_⟩
    refine (List.pairwise_map.1 hids).imp fun hne x hx hx' => ?_
    obtain ⟨k, rfl⟩ := Stmt.exists_of_mem_initializations hx
    exact hne (Stmt.static_of_mem_initializations hx').1
  case returns =>
    split
    · exact List.nodup_singleton _
    · exact List.nodup_nil
  all_goals subst heq
  · obtain ⟨b, k, rfl⟩ := hstatic hx
    cases hreturn hy
  · rcases List.mem_append.1 hy with hy | hy
    · obtain ⟨b, k, rfl⟩ := hstatic hy
      rcases hgenerator hx with h | ⟨_, h⟩ <;> cases h
    · rcases hgenerator hx with rfl | ⟨_, rfl⟩ <;> cases hreturn hy
  · obtain ⟨t, -, rfl⟩ := List.mem_map.1 hx
    rcases List.mem_append.1 hy with hy | hy
    · rcases hgenerator hy with h | ⟨_, h⟩ <;> cases h
    · rcases List.mem_append.1 hy with hy | hy
      · obtain ⟨b, k, h⟩ := hstatic hy
        cases h
      · cases hreturn hy

/-- A plan knows the landmarks of its procedure. -/
theorem perm_known (h : make p options strategy = .ok (c, labels)) : c.known.Perm p.landmarks := by
  have hmade := made_of_make h
  obtain ⟨-, -, hp, -⟩ := make_eq_ok h
  have hnodup : c.known.Nodup := nodup_addAll hmade.nodup_planned _
  refine (List.perm_ext_iff_of_nodup hnodup (nodup_landmarks h)).2 fun x => ?_
  rw [mem_known_iff hmade, returnsIn_eq h]
  unfold Procedure.landmarks
  simp only [List.mem_append, List.mem_map, List.mem_ite_nil_right, List.mem_cons, List.mem_flatMap,
    List.not_mem_nil, or_false, mem_labelled_iff h, (perm_emitted h).mem_iff, hp,
    eq_comm (b := x), and_comm (b := x = .spot .ret)]

end Plan

namespace Procedure

theorem length_landmarks (p : Procedure) : p.landmarks.length =
    p.targeted.length + (if p.isGenerator then p.graph.yields.length + 1 else 0) +
      p.emittedStatements.countP Stmt.initializes +
      if p.emittedStatements.any Stmt.isReturn then 1 else 0 := by
  have hinit : (p.emitted.flatMap fun b => Stmt.initializations b.id 0 b.statements).length =
      p.emittedStatements.countP Stmt.initializes := by
    rw [emittedStatements, List.length_flatMap, List.countP_flatMap]
    simp only [Stmt.length_initializations, Function.comp_def]
  unfold landmarks
  rw [List.length_append, List.length_append, List.length_append, List.length_map, hinit,
    apply_ite List.length, apply_ite List.length, List.length_cons, List.length_map]
  simp only [List.length_nil, List.length_singleton, Nat.add_assoc]

end Procedure

namespace Plan

variable {p : Procedure} {options : Options} {strategy : LayoutStrategy} {c : Plan}
  {labels : LabelTable} {ds : List Directive} {final : Frame} {code : List Instr} {g : Flow}

/-! ## The account -/

variable (c labels) in
/-- An ordinary procedure that has a value to return has return statements, and control gets to none of
them when it is lowered. -/
structure ReturnsNowhere : Prop where
  isGenerator_eq : c.procedure.isGenerator = false
  isVoid_eq : c.procedure.returnType.isVoid = false
  returns : c.procedure.emittedStatements.any Stmt.isReturn = true
  notReached : ∀ value q d, ¬ c.returnSites labels value q d

/-- The account of the labels of some code. -/
structure Accounts (c : Plan) (labels : LabelTable) (code : List Instr) (labelCount : Nat) : Prop where
  labelCount_eq : labelCount =
    c.procedure.targeted.length +
      (if c.procedure.isGenerator then c.procedure.graph.yields.length + 1 else 0) +
      c.procedure.emittedStatements.countP Stmt.initializes +
      if c.procedure.emittedStatements.any Stmt.isReturn then 1 else 0
  /-- Each label belongs to one landmark. -/
  perm : (c.procedure.landmarks.map c.labelOf).Perm ((List.range labelCount).map Label.mk)
  lt : ∀ l ∈ placedIn code ++ targetsIn code, l.index < labelCount
  once : ∀ x ∈ c.procedure.landmarks, ¬ (x = .spot .ret ∧ c.ReturnsNowhere labels) →
    code.count (.markLabel (c.labelOf x)) = 1
  absent : c.ReturnsNowhere labels →
    c.labelOf (.spot .ret) ∉ placedIn code ∧ c.labelOf (.spot .ret) ∉ targetsIn code
  block_eq : ∀ b l, c.label? b = some l → c.labelOf (.spot (.block b)) = l
  resume_eq : ∀ index l, c.resume.label? index = some l → c.labelOf (.spot (.resume index)) = l
  /-- The code is drafted with these labels, slots and notes apart. -/
  spelled : ∃ table ds g, Assembles { labels := table } ds code g ∧
    bare ds = c.spellBlocks c.labelOf (returnsIn c.blocks) c.blocks

/-- The return label is left out where control gets to no return statement. -/
theorem Lowered.returnsAt_eq_false_iff (hmake : make p options strategy = .ok (c, labels))
    (h : c.Lowered labels ds final code g) (hreturns : returnsIn c.blocks = true) :
    c.returnsAt g = false ↔ c.ReturnsNowhere labels := by
  have hmade := made_of_make hmake
  obtain ⟨-, -, hp, -⟩ := make_eq_ok hmake
  obtain ⟨hsize, hblank⟩ := labels_of_make hmake
  have hfinal : final = (c.draft { labels }).frame := by
    have hgives := h.gives
    unfold Draft.Gives at hgives
    rw [hgives]
  have hstaged (hstages : c.outline.stages = true) :
      g.hasStaged = true ↔ ∃ value q d, c.returnSites labels value q d := by
    have hiff := h.hasStaged_iff hmade (stages_iff.1 hstages).1 hstages hsize hblank
    rwa [hfinal] at hiff
  unfold returnsAt
  rw [hreturns, Bool.true_and, Bool.or_eq_false_iff, Bool.not_eq_false']
  constructor
  · rintro ⟨hstages, hnot⟩
    obtain ⟨hgen, hvoid⟩ := stages_iff.1 hstages
    rw [returnsIn_eq hmake, ← hp] at hreturns
    refine ⟨hgen, hvoid, hreturns, fun value q d hsite => ?_⟩
    rw [(hstaged hstages).2 ⟨value, q, d, hsite⟩] at hnot
    cases hnot
  · rintro ⟨hgen, hvoid, -, hnot⟩
    have hstages := stages_iff.2 ⟨hgen, hvoid⟩
    refine ⟨hstages, eq_false_of_ne_true fun hsome => ?_⟩
    obtain ⟨value, q, d, hsite⟩ := (hstaged hstages).1 hsome
    exact hnot value q d hsite

theorem Lowered.accounts (hmake : make p options strategy = .ok (c, labels))
    (h : c.Lowered labels ds final code g) : c.Accounts labels code final.labels.size := by
  have hmade := made_of_make hmake
  obtain ⟨-, -, hp, -⟩ := make_eq_ok hmake
  obtain ⟨hsize, hblank⟩ := labels_of_make hmake
  have hspells := draft_spells hmade hsize h.gives
  obtain ⟨hplaced, habsent⟩ := h.placedIn_eq hmade hsize
  obtain ⟨hnodup, htargets⟩ := h.placed hmade hsize hblank
  have hperm : c.known.Perm c.procedure.landmarks := hp ▸ perm_known hmake
  have hwrites := (h.writes hmade hsize).1
  have hreturns : returnsIn c.blocks = c.procedure.emittedStatements.any Stmt.isReturn :=
    hp ▸ returnsIn_eq hmake
  have hmem {x : Landmark} :
      x ∈ c.marked ++ (if c.returnsAt g then [Landmark.spot .ret] else []) ↔
        x ∈ c.known ∧ ¬ (x = .spot .ret ∧ c.returnsAt g = false) := by
    rw [List.mem_append, mem_marked_iff hmade hwrites, List.mem_ite_nil_right, List.mem_singleton]
    have hret : c.returnsAt g = true → .spot .ret ∈ c.known := fun hat =>
      ret_mem_known_iff.2 (Bool.and_eq_true_iff.1 hat).1
    cases hat : c.returnsAt g with
    | true =>
      simp only [true_and, Bool.true_eq_false, and_false, not_false_iff, and_true]
      refine ⟨fun hx => hx.elim (·.1) fun heq => heq ▸ hret hat, fun hx => ?_⟩
      exact (em (x = .spot .ret)).elim .inr fun hne => .inl ⟨hx, hne⟩
    | false => simp
  have hmarks : ∀ l ∈ placedIn code, ∃ x ∈ c.known, c.labelOf x = l := by
    intro l hl
    rw [hplaced] at hl
    obtain ⟨x, hx, rfl⟩ := List.mem_map.1 hl
    exact ⟨x, (hmem.1 hx).1, rfl⟩
  refine ⟨?_, ?_, fun l hl => ?_, fun x hx hlost => ?_, fun hnowhere => ?_,
    fun b l => label_block hmade (prefix_addAll _ _) (agrees_labelIn _),
    fun index l => label_resume hmade (prefix_addAll _ _) (agrees_labelIn _), ?_⟩
  · rw [hspells.lists.size, hperm.length_eq, Procedure.length_landmarks]
  · rw [hspells.lists.size]
    exact (hperm.symm.map _).trans (.of_eq (map_labelIn (nodup_addAll hmade.nodup_planned _)))
  · have hl' : l ∈ placedIn code := (List.mem_append.1 hl).elim id (htargets l)
    obtain ⟨x, hx, rfl⟩ := hmarks l hl'
    rw [hspells.lists.size]
    exact labelIn_lt hx
  · refine count_markLabel hnodup ?_
    rw [hplaced]
    refine List.mem_map_of_mem (hmem.2 ⟨hperm.mem_iff.2 hx, fun ⟨hret, hat⟩ => hlost ⟨hret, ?_⟩⟩)
    subst hret
    exact (h.returnsAt_eq_false_iff hmake (ret_mem_known_iff.1 (hperm.mem_iff.2 hx))).1 hat
  · have hsome : returnsIn c.blocks = true := hreturns.trans hnowhere.returns
    have hat := (h.returnsAt_eq_false_iff hmake hsome).2 hnowhere
    refine ⟨fun hl => ?_, habsent hsome hat⟩
    rw [hplaced] at hl
    obtain ⟨x, hx, heq⟩ := List.mem_map.1 hl
    have hknown := hmem.1 hx
    obtain rfl := labelIn_inj hknown.1 heq
    exact hknown.2 ⟨rfl, hat⟩
  · exact ⟨final.labels, ds, g, h.assembles, hspells.bare_eq c.labelOf (agrees_labelIn _)⟩

end Plan

/-- The labels of a procedure are numbered without gaps, one for each landmark, and each is placed once,
unless it is the label to return and control gets to no return statement. -/
theorem Procedure.labels_of_lowerInto {p : Procedure} {options : Options} {strategy : LayoutStrategy}
    {out : Array Instr} {sum : Summary} (h : p.lowerInto options strategy #[] = (out, .ok sum)) :
    ∃ c labels, Plan.make p options strategy = .ok (c, labels) ∧ c.procedure = p ∧
      c.Accounts labels out.toList sum.labelCount := by
  obtain ⟨c, labels, ds, final, g, hmake, hlowered, rfl⟩ := lowerInto_eq_ok_iff.1 h
  obtain ⟨-, -, hp, -⟩ := Plan.make_eq_ok hmake
  exact ⟨c, labels, hmake, hp, hlowered.accounts hmake⟩

/-- A procedure that gives up before anything is initialized or returned. -/
def abandoned : Procedure where
  name := ⟨1⟩
  returnType := .int
  locals := { vars := #[{ id := ⟨0⟩, name := ⟨2⟩, ty := .value, kind := .user }] }
  graph :=
    { blocks := #[
        { id := ⟨0⟩, ordinal := 0, kind := .start
          statements := [.throw (.lit (.int 7)),
            .bindStatic { target := ⟨0⟩, key := ⟨3⟩, init := some (.lit (.int 1)) }, .ret none]
          edge := .goto ⟨1⟩ },
        { id := ⟨1⟩, ordinal := 1, kind := .exit, statements := [], edge := .none }]
      wellFormed := wellFormed_of_fault?_eq_none (by decide) }

/-- The code of `abandoned`: of its three labels, the one to return is left out. -/
def abandonedCode : Array Instr :=
  #[.constNull, .storeLocal ⟨0⟩, .constInt 7, .convert .int .value, .throw, .markLabel ⟨1⟩,
    .allocTemp ⟨0⟩ .int, .markLabel ⟨0⟩, .freeTemp ⟨0⟩]

theorem abandoned_labels : ∃ c labels,
    Plan.make abandoned {} BlockOrder.ordinal.arrange = .ok (c, labels) ∧
      c.Accounts labels abandonedCode.toList 3 ∧ c.ReturnsNowhere labels := by
  have h : abandoned.lowerInto {} BlockOrder.ordinal.arrange #[] =
      (abandonedCode, .ok { instrCount := 9, temps := [.int], labelCount := 3, resumePoints := []
                            debugLocals := [] }) := by
    have horder : abandoned.graph.emissionOrder BlockOrder.ordinal.arrange abandoned.liveBlocks =
        some [⟨0⟩, ⟨1⟩] := by cbv
    unfold Procedure.lowerInto Plan.make
    rw [horder]
    decide +kernel
  obtain ⟨c, labels, hmake, -, haccounts⟩ := Procedure.labels_of_lowerInto h
  -- the last label is not in the code, so it is the one that may be left out
  have hlast : (⟨2⟩ : Label) ∈ c.procedure.landmarks.map c.labelOf :=
    haccounts.perm.mem_iff.2 (by decide)
  obtain ⟨x, hx, heq⟩ := List.mem_map.1 hlast
  refine ⟨c, labels, hmake, haccounts, by_contra fun hnot => ?_⟩
  have honce := haccounts.once x hx fun hret => hnot hret.2
  rw [heq] at honce
  exact absurd honce (by decide)

end StackCode
