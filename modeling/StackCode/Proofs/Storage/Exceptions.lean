import StackCode.Proofs.Storage.Alike
import StackCode.Proofs.Storage.Reached

/-!
# The receipt of exceptions

An exception that is raised in a protected region goes to the label of the handler of the region, and
what stands behind the label stores it in the place of a variable or drops it.  Which of these, and
which variable, is a matter of the handler and not of the region: where several regions share a handler,
the last of them in the order of the code decides for all.  Main statements:
`Procedure.exception_received`, and `Procedure.twoRegions_confused`, where the region is not the one that
decides.
-/

namespace StackCode

variable {V W : Type} {R : Runtime V W}

/-- What the draft does, the code that it lays does where control gets to it. -/
theorem Draft.Does.through {x : Draft Unit} {s s' : List V × Memory V W} (h : x.Does R s s')
    {frame frame' : Frame} {f g : Flow} {code : List Instr} (hlays : x.Lays frame f code frame' g)
    (hlive : f.isLive = true) (t : TempSlot → V) : ∃ t', R.Through code t s t' s' := by
  obtain ⟨is, _, hgives, his, hthrough⟩ := h frame
  obtain ⟨ds, hgives', ha⟩ := hlays
  unfold Gives at hgives hgives'
  rw [hgives] at hgives'
  cases hgives'
  obtain ⟨rfl, -⟩ := ha.of_passes his hlive
  exact hthrough t

namespace Procedure

variable {p : Procedure}

/-- What becomes of an exception that is stored in a variable or dropped: the memory then. -/
inductive Receives (p : Procedure) (R : Runtime V W) (v : V) (m : Memory V W) :
    Option LocalId → Memory V W → Prop
  | drop : Receives p R v m none m
  | store {id : LocalId} {place : Place} (hplace : p.place id = .ok place) :
      Receives p R v m (some id) (place.writeRaw R v m)

/-- Stores the exception on the stack in a variable, or drops it. -/
def receive (p : Procedure) : Option LocalId → Draft Unit
  | some id => p.storePending id
  | none => Draft.emit .pop

theorem receive_does {exception : Option LocalId}
    (hplace : ∀ id, exception = some id → ∃ place, p.place id = .ok place) (v : V) (st : List V)
    (m : Memory V W) : ∃ m', p.Receives R v m exception m' ∧
      (p.receive exception).Does R (v :: st, m) (st, m') := by
  cases exception with
  | none =>
    have hpop : (Fragment.emit .pop).Finishes R () (v :: st, m) (st, m) := Fragment.finishes_emit rfl
    refine ⟨m, .drop, ?_⟩
    exact .of_finishes (x := Fragment.emit .pop) (Fragment.isPlain_emit rfl) hpop
  | some id =>
    obtain ⟨place, hplace⟩ := hplace id rfl
    exact ⟨_, .store hplace, storePending_does hplace v st m⟩

end Procedure

namespace Plan

variable {c : Plan} {labels : LabelTable} {ds : List Directive} {final : Frame} {code : List Instr}
  {g : Flow} {b : Block} {t : BlockId} {exception : Option LocalId} {l : Label}

/-! ## Where an exception is received -/

theorem enterBlock_eq_receive (hl : c.label? b.id = some l) (hcaught : c.caught? b.id = some exception) :
    c.enterBlock b = (Draft.mark l .handler >>= fun _ => c.procedure.receive exception) := by
  unfold enterBlock
  rw [hl, hcaught]
  cases exception <;> rfl

/-- The last region in the order of the code decides. -/
theorem caught?_eq_some (h : c.caught? t = some exception) : ∃ front e back,
    c.blocks = front ++ e :: back ∧ exceptionOf? t e = some exception ∧
      ∀ b ∈ back, exceptionOf? t b = none := by
  obtain ⟨back, e, front, hblocks, he, hback⟩ := List.findSome?_eq_some_iff.1 h
  refine ⟨front.reverse, e, back.reverse, ?_, he, fun b hb => hback b (List.mem_reverse.1 hb)⟩
  rw [← List.reverse_reverse c.blocks, hblocks]
  simp

/-- At the label of a handler, its exception is received. -/
theorem Lowered.receives (hmade : c.Made) (h : c.Lowered labels ds final code g)
    (hcaught : c.caught? t = some exception) : ∃ l k is post mid f mid' f', c.label? t = some l ∧
      code.drop k = .markLabel l :: (is ++ post) ∧ f.isLive = true ∧
      (c.procedure.receive exception).Lays mid f is mid' f' := by
  obtain ⟨⟨b, hb, rfl, hkind⟩, l, hl⟩ := hmade.handler (Option.isSome_of_eq_some hcaught)
  obtain ⟨bs, bs', hblocks⟩ := List.append_of_mem hb
  have hdraft : c.draft.Lays { labels } { labels := final.labels } code final g :=
    ⟨ds, h.gives, h.assembles⟩
  have hstart : b.kind ≠ .start := by
    rw [hkind]
    nofun
  unfold draft at hdraft
  rw [hblocks, blocksFrom_append, blocksFrom, block_eq_openBlock, openBlock_eq, if_neg hstart,
    enterBlock_eq_receive hl hcaught] at hdraft
  simp only [bind_assoc, pure_bind] at hdraft
  obtain ⟨_, f₀, front, _, -, hrest, rfl⟩ := Draft.lays_bind_iff.1 hdraft
  obtain ⟨mid, f, _, _, ⟨_, hgives, hmark⟩, hrest', rfl⟩ := Draft.lays_bind_iff.1 hrest
  obtain ⟨mid', f', is, post, hreceive, -, rfl⟩ := Draft.lays_bind_iff.1 hrest'
  obtain ⟨rfl, -⟩ := Draft.gives_mark_iff.1 hgives
  obtain ⟨rfl, henters⟩ := Flow.step_mark (Assembles.singleton_iff.1 hmark)
  refine ⟨l, front.length, is, post, mid, f, mid', f', hl, ?_, ?_, hreceive⟩
  · rw [List.drop_left]
    rfl
  · rw [henters.isLive]
    simp

/-- Where control gets to the edge, the region of the handler is entered. -/
theorem Lowered.enters_region (hmade : c.Made) (hsize : labels.size = c.bound)
    (hblank : labels.IsBlank) (h : c.Lowered labels ds final code g) {body handler : BlockId}
    (hedge : b.edge = .protect body handler exception) (hl : c.label? handler = some l) {q : Nat}
    (hpoint : c.GetsTo labels b b.statements [] q) : code[q]? = some (.enterTry l) := by
  obtain ⟨bs, bs', mid, f, hblocks, hlive, -, hlays⟩ := h.lays_from hmade hsize hblank hpoint
  have hb : b ∈ c.blocks := hblocks ▸ List.mem_append_right _ List.mem_cons_self
  have hexit : b.kind ≠ .exit := by
    intro hk
    have hnone := c.procedure.graph.wellFormed.exit_edge b
      (FlowGraph.mem_blocks_of_block? (hmade.block? b hb)) hk
    rw [hedge] at hnone
    cases hnone
  obtain ⟨_, _, _, _, hnil, hrest, hcode⟩ := Draft.lays_bind_iff.1 hlays
  obtain ⟨rfl, rfl, rfl⟩ := Draft.lays_pure_iff.1 hnil
  obtain ⟨_, _, _, _, ⟨_, hgives, ha⟩, -, rfl⟩ := Draft.lays_bind_iff.1 hrest
  unfold blockEnd at hgives
  rw [if_neg hexit] at hgives
  unfold edge at hgives
  rw [hedge] at hgives
  obtain ⟨l', hl', hgives⟩ := gives_blockLabel_bind_iff.1 hgives
  obtain rfl := Option.some_inj.1 (hl.symm.trans hl')
  obtain ⟨_, -, rfl⟩ := Draft.gives_emit_bind_iff.1 hgives
  obtain ⟨_, _, _, henter, -, rfl⟩ := Assembles.cons_iff.1 ha
  obtain ⟨rfl, -⟩ := Flow.step_live hlive henter
  exact getElem?_of_drop hcode

end Plan

/-- An exception that is raised in a region goes to the label of the handler of the region, and from
there on it is stored or dropped as the last region with this handler says. -/
theorem Procedure.exception_received {p : Procedure} {options : Options} {strategy : LayoutStrategy}
    {out : Array Instr} {sum : Summary} {c : Plan} {labels : LabelTable} {b : Block}
    {body handler : BlockId} {exception : Option LocalId}
    (h : p.lowerInto options strategy #[] = (out, .ok sum))
    (hmake : Plan.make p options strategy = .ok (c, labels)) (hb : b ∈ c.blocks)
    (hedge : b.edge = .protect body handler exception) :
    ∃ l received front e back k is post, c.label? handler = some l ∧
      c.caught? handler = some received ∧ c.blocks = front ++ e :: back ∧
      Plan.exceptionOf? handler e = some received ∧ (∀ b' ∈ back, Plan.exceptionOf? handler b' = none) ∧
      ((∀ b' ∈ c.blocks, ∀ x, Plan.exceptionOf? handler b' = some x → x = exception) →
        received = exception) ∧
      out.toList.drop k = .markLabel l :: (is ++ post) ∧
      (∀ q, c.GetsTo labels b b.statements [] q → out.toList[q]? = some (.enterTry l)) ∧
      ∀ {V W : Type} {R : Runtime V W} {ctl : Control V} {rest : List Label},
        ctl.regions = l :: rest → ∀ (v : V) (s : Kept V W),
          Runtime.raise out.toList ctl v s = .on { ctl with pc := k, stack := [v] } s ∧
            ∃ temps m, p.Receives R v s.memory received m ∧
              Run.after (R.step out.toList) (.on { ctl with pc := k, stack := [v] } s) (1 + is.length) =
                .on { ctl with pc := k + 1 + is.length, stack := [], temps } { s with memory := m } := by
  obtain ⟨rfl, hmade, hsize, hblank, ds, final, g, hlowered⟩ := lowered_of_make h hmake
  obtain ⟨received, hcaught⟩ : ∃ received, c.caught? handler = some received :=
    Option.isSome_iff_exists.1 (Plan.Made.isSome_caught?_iff.2 ⟨b, hb, by rw [hedge]; rfl⟩)
  obtain ⟨front, e, back, hblocks, he, hback⟩ := Plan.caught?_eq_some hcaught
  obtain ⟨l, k, is, post, mid, f, mid', f', hl, hcode, hlive, hlays⟩ :=
    hlowered.receives hmade hcaught
  have hown (hagree : ∀ b' ∈ c.blocks, ∀ x, Plan.exceptionOf? handler b' = some x → x = exception) :
      received = exception :=
    hagree e (hblocks ▸ List.mem_append_right _ List.mem_cons_self) received he
  refine ⟨l, received, front, e, back, k, is, post, hl, hcaught, hblocks, he, hback, hown, hcode,
    fun q hpoint => hlowered.enters_region hmade hsize hblank hedge hl hpoint, ?_⟩
  intro V W R ctl rest hregions v s
  have hmark := getElem?_of_drop hcode
  have hplaced := (hlowered.placed hmade hsize hblank).1
  refine ⟨?_, ?_⟩
  · unfold Runtime.raise
    rw [hregions]
    exact Runtime.goTo_eq hplaced hmark _ s
  · have hplace : ∀ id, received = some id → ∃ place, c.procedure.place id = .ok place := by
      rintro id rfl
      obtain ⟨⟨b', hb', rfl, -⟩, -⟩ := hmade.handler (Option.isSome_of_eq_some hcaught)
      exact ((hlowered.writes hmade hsize).1 b' hb').receive id hcaught
    obtain ⟨m, hreceives, hdoes⟩ := receive_does (R := R) hplace v [] s.memory
    obtain ⟨temps, hthrough⟩ := hdoes.through hlays hlive ctl.temps
    have hrest : out.toList.drop (k + 1) = is ++ post :=
      drop_add_of_drop (show out.toList.drop k = [.markLabel l] ++ (is ++ post) from hcode)
    refine ⟨temps, m, hreceives, ?_⟩
    rw [Run.after_add]
    change Run.after (R.step out.toList) (R.step out.toList _ s) is.length = _
    rw [Runtime.step_label hmark]
    exact hthrough _ post _ s hrest rfl rfl rfl

namespace Procedure

/-- A procedure with two regions that share a handler, the second behind the first.  The exception of
the first is to be stored in the variable 0, that of the second in the variable 1. -/
def twoRegions : Procedure where
  name := ⟨1⟩
  returnType := .void
  locals :=
    { vars := #[{ id := ⟨0⟩, name := ⟨2⟩, ty := .value, kind := .user },
        { id := ⟨1⟩, name := ⟨3⟩, ty := .value, kind := .user }] }
  graph :=
    { blocks := #[
        { id := ⟨0⟩, ordinal := 0, kind := .start, statements := []
          edge := .protect ⟨2⟩ ⟨4⟩ (some ⟨0⟩) },
        { id := ⟨1⟩, ordinal := 1, kind := .exit, statements := [], edge := .none },
        { id := ⟨2⟩, ordinal := 2, kind := .normal, statements := [.throw (.lit (.int 7))]
          edge := .leave ⟨3⟩ },
        { id := ⟨3⟩, ordinal := 3, kind := .normal, statements := []
          edge := .protect ⟨5⟩ ⟨4⟩ (some ⟨1⟩) },
        { id := ⟨4⟩, ordinal := 4, kind := .normal, statements := [], edge := .leave ⟨1⟩ },
        { id := ⟨5⟩, ordinal := 5, kind := .normal, statements := [], edge := .leave ⟨1⟩ }]
      wellFormed := wellFormed_of_fault?_eq_none (by decide) }

/-- The code of `twoRegions`. -/
def twoRegionsCode : Array Instr :=
  #[.constNull, .storeLocal ⟨0⟩, .constNull, .storeLocal ⟨1⟩, .enterTry ⟨1⟩, .markLabel ⟨0⟩,
    .constInt 7, .convert .int .value, .throw, .markLabel ⟨2⟩, .enterTry ⟨1⟩, .branch ⟨3⟩,
    .markLabel ⟨1⟩, .storeLocal ⟨1⟩, .leave ⟨4⟩, .markLabel ⟨3⟩, .leave ⟨4⟩, .markLabel ⟨4⟩,
    .ret false]

/-- The plan of `twoRegions`. -/
def twoRegionsPlan : Plan where
  procedure := twoRegions
  options := {}
  blocks := [⟨0⟩, ⟨2⟩, ⟨3⟩, ⟨4⟩, ⟨5⟩, ⟨1⟩].filterMap twoRegions.graph.block?
  labelled := [⟨2⟩, ⟨4⟩, ⟨3⟩, ⟨5⟩, ⟨1⟩]
  resume := ⟨[]⟩

theorem twoRegions_make : Plan.make twoRegions {} BlockOrder.ordinal.arrange =
    .ok (twoRegionsPlan, { entries := #[{}, {}, {}, {}, {}] }) := by
  have horder : twoRegions.graph.emissionOrder BlockOrder.ordinal.arrange twoRegions.liveBlocks =
      some [⟨0⟩, ⟨2⟩, ⟨3⟩, ⟨4⟩, ⟨5⟩, ⟨1⟩] := by cbv
  unfold Plan.make
  rw [horder]
  rfl

theorem twoRegions_lowerInto : twoRegions.lowerInto {} BlockOrder.ordinal.arrange #[] =
    (twoRegionsCode, .ok { instrCount := 19, temps := [], labelCount := 5, resumePoints := []
                           debugLocals := [] }) := by
  unfold lowerInto
  rw [twoRegions_make]
  decide +kernel

/-- The exception of the second region is stored where it should be. -/
theorem twoRegions_received : ∃ l k is post, twoRegionsPlan.label? ⟨4⟩ = some l ∧
    twoRegionsCode.toList.drop k = .markLabel l :: (is ++ post) ∧
    ∀ {ctl : Control Int} {rest : List Label}, ctl.regions = l :: rest →
      ∀ (v : Int) (s : Kept Int (Int → Int → Int)),
        Runtime.raise twoRegionsCode.toList ctl v s = .on { ctl with pc := k, stack := [v] } s ∧
          ∃ temps m, twoRegions.Receives Runtime.doubling v s.memory (some ⟨1⟩) m ∧
            Run.after (Runtime.doubling.step twoRegionsCode.toList)
                (.on { ctl with pc := k, stack := [v] } s) (1 + is.length) =
              .on { ctl with pc := k + 1 + is.length, stack := [], temps } { s with memory := m } := by
  have hb : twoRegions.graph.blocks[3] ∈ twoRegionsPlan.blocks :=
    List.mem_cons_of_mem _ (List.mem_cons_of_mem _ List.mem_cons_self)
  obtain ⟨l, received, -, -, -, k, is, post, hl, hcaught, -, -, -, -, hcode, -, hraise⟩ :=
    exception_received twoRegions_lowerInto twoRegions_make hb rfl
  obtain rfl : received = some ⟨1⟩ := (Option.some_inj.1 hcaught).symm
  exact ⟨l, k, is, post, hl, hcode, hraise⟩

/-- The exception 14 of the first region is stored in the variable of the second. -/
theorem twoRegions_confused :
    twoRegions.lowerInto {} BlockOrder.ordinal.arrange #[] =
      (twoRegionsCode, .ok { instrCount := 19, temps := [], labelCount := 5, resumePoints := []
                             debugLocals := [] }) ∧
    twoRegions.graph.blocks[0].edge = .protect ⟨2⟩ ⟨4⟩ (some ⟨0⟩) ∧
    ∃ c s c' s', Run.after (Runtime.doubling.step twoRegionsCode.toList)
        (.on Runtime.doubling.enter { memory := Memory.zero, state := 0 }) 8 = .on c s ∧
      c.regions = [⟨1⟩] ∧ c.stack = [14] ∧ twoRegionsCode[c.pc]? = some .throw ∧
      Run.after (Runtime.doubling.step twoRegionsCode.toList) (.on c s) 3 = .on c' s' ∧
      c'.stack = [] ∧ s'.memory.locals ⟨0⟩ = 0 ∧ s'.memory.locals ⟨1⟩ = 14 :=
  ⟨twoRegions_lowerInto, rfl, _, _, _, _, rfl, rfl, rfl, rfl, rfl, rfl, rfl, rfl⟩

end Procedure

end StackCode
