import Mathlib.Tactic.IntervalCases
import StackCode.Proofs.Execution.Step
import StackCode.Proofs.Generator.Suspends
import StackCode.Proofs.Outline.Realizes

/-!
# How a generator is entered

The code of a generator begins with the prologue and the dispatch.  Control runs straight through
them and jumps on the state: to the resume label of the suspension point with that index, or behind
the dispatch.  Main statements: `Plan.Lowered.entered`, `Plan.Entered.jumps`.
-/

namespace StackCode

/-! ## Straight code -/

/-- Directives for instructions that control passes. -/
theorem Renders.exists_straight {r : Reading} {v w : Bool} {ds : List Directive} {ops : List Op}
    (h : Renders r v ds ops w) (hops : ∀ op ∈ ops, ∃ i, op = .run i ∧ i.endsFlow = false) :
    ∃ is : List Instr, ds = is.map .instr ∧
      (∀ i ∈ is, i.passes = true ∧ (i.isNote = true ∨ .run i.erased ∈ ops)) ∧
      ∀ i, .run i ∈ ops → ∃ j ∈ is, j.erased = i := by
  induction h with
  | nil => exact ⟨[], rfl, nofun, nofun⟩
  | @note _ _ i ds ops hi _ ih =>
    obtain ⟨is, rfl, his, hall⟩ := ih hops
    refine ⟨i :: is, rfl, List.forall_mem_cons.2 ⟨⟨?_, .inl hi⟩, his⟩, fun j hj => ?_⟩
    · exact Instr.passes_of_isNote hi
    · obtain ⟨k, hk, hkj⟩ := hall j hj
      exact ⟨k, List.mem_cons_of_mem i hk, hkj⟩
  | @run _ _ i ds ops hi _ ih =>
    obtain ⟨⟨j, hj, hflow⟩, hops⟩ := List.forall_mem_cons.1 hops
    cases hj
    rw [Instr.endsFlow_erased] at hflow
    obtain ⟨is, rfl, his, hall⟩ := ih hops
    refine ⟨i :: is, rfl, List.forall_mem_cons.2 ⟨⟨?_, .inr List.mem_cons_self⟩, ?_⟩, fun j hj => ?_⟩
    · simp [Instr.passes, hi, hflow]
    · intro j hj
      exact ⟨(his j hj).1, (his j hj).2.imp id (List.mem_cons_of_mem _)⟩
    · rcases List.mem_cons.1 hj with heq | hj
      · cases heq
        exact ⟨i, List.mem_cons_self, rfl⟩
      · obtain ⟨k, hk, hkj⟩ := hall j hj
        exact ⟨k, List.mem_cons_of_mem i hk, hkj⟩
  | _ =>
    obtain ⟨⟨i, hi, -⟩, -⟩ := List.forall_mem_cons.1 hops
    cases hi

theorem exists_notes {notes : List Directive}
    (h : ∀ d ∈ notes, ∃ i, d = .instr i ∧ i.isNote = true) :
    ∃ is : List Instr, notes = is.map .instr ∧ ∀ i ∈ is, i.isNote = true := by
  induction notes with
  | nil => exact ⟨[], rfl, nofun⟩
  | cons d notes ih =>
    obtain ⟨⟨i, rfl, hi⟩, hnotes⟩ := List.forall_mem_cons.1 h
    obtain ⟨is, rfl, his⟩ := ih hnotes
    exact ⟨i :: is, rfl, List.forall_mem_cons.2 ⟨hi, his⟩⟩

/-! ## The beginning of the code -/

/-- The jump to where a generator stopped, with the state read and set to running before. -/
def dispatchCode (points : List (Int × Label)) (start : Label) (slot : TempSlot) : List Instr :=
  [.loadState, .storeTemp slot, .constInt GeneratorState.running.toInt, .storeState, .loadTemp slot,
    .switch points start, .freeTemp slot, .markLabel start]

namespace Plan

/-- The code of a generator begins with `pre`, and the dispatch follows. -/
structure Entered (c : Plan) (code pre : List Instr) (slot : TempSlot) (post : List Instr) :
    Prop where
  code_eq : code = pre ++ (dispatchCode c.resume.points ⟨c.bound⟩ slot ++ post)
  passes : ∀ i ∈ pre, i.passes = true
  mem_prologue : ∀ i ∈ pre, i.isNote = true ∨ .run i.erased ∈ c.outline.prologue
  of_prologue : ∀ i, .run i ∈ c.outline.prologue → ∃ j ∈ pre, j.erased = i
  depth : Instr.depthThrough pre 0 = .ok 0
  stops : StateCode c.resume.points post

variable {c : Plan} {labels : LabelTable} {ds : List Directive} {final : Frame} {code : List Instr}
  {g : Flow}

/-- The dispatch comes to its code, and finds the stack empty. -/
theorem dispatch_assembles {f : Flow} {seg : List Instr} {slot : TempSlot} {start : Label}
    {points : List (Int × Label)} (hlive : f.isLive = true)
    (ha : Assembles f ([.instr .loadState, .instr (.storeTemp slot),
      .instr (.constInt GeneratorState.running.toInt), .instr .storeState,
      .instr (.loadTemp slot), .instr (.switch points start), .instr (.freeTemp slot),
      .mark start .forward]) seg g) :
    seg = dispatchCode points start slot ∧ f.depth = 0 := by
  have hsplit := Assembles.append_iff.1 (show Assembles f (([.loadState, .storeTemp slot,
    .constInt GeneratorState.running.toInt, .storeState, .loadTemp slot] : List Instr).map .instr ++
      [.instr (.switch points start), .instr (.freeTemp slot), .mark start .forward]) seg g from ha)
  obtain ⟨f₁, seg₁, seg₂, hfront, hback, rfl⟩ := hsplit
  obtain ⟨rfl, hlive₁, hdepth⟩ := Assembles.of_passes
    (by simp [Instr.passes, Instr.isNote, Instr.isStraight, Instr.targets, Instr.isBookkeeping,
      Instr.endsFlow]) hlive hfront
  obtain ⟨_, f₂, _, hswitch, hrest, rfl⟩ := Assembles.cons_iff.1 hback
  obtain ⟨rfl, after, hpass⟩ := Flow.step_live hlive₁ hswitch
  obtain ⟨_, f₃, _, hfree, hmark, rfl⟩ := Assembles.cons_iff.1 hrest
  obtain ⟨rfl, -⟩ := Flow.step_note rfl hfree
  obtain ⟨rfl, -⟩ := Flow.step_mark (Assembles.singleton_iff.1 hmark)
  refine ⟨rfl, ?_⟩
  have hone : f₁.depth = 1 := (Instr.depth_eq_of_isJump rfl hpass.depthAfter).1
  have hadds : Instr.depthThrough [.loadState, .storeTemp slot,
      .constInt GeneratorState.running.toInt, .storeState, .loadTemp slot] f.depth =
        .ok (f.depth + 1) := rfl
  rw [hdepth, hone] at hadds
  injection hadds with hadds
  omega

/-- The code of a generator begins as it is entered, and the rest is what is drafted behind. -/
theorem Lowered.entered (hmade : c.Made) (hsize : labels.size = c.bound)
    (hgen : c.procedure.isGenerator = true) (h : c.Lowered labels ds final code g) :
    ∃ pre slot post, c.Entered code pre slot post := by
  obtain ⟨_, mid, ds₁, dsFree, hblocks, hfree, rfl⟩ := Draft.gives_bind_iff.1 h.gives
  obtain ⟨first, mids, last, heq, hfirst, hlast, hmids⟩ := hmade.blocks_eq
  have hfits : ({ labels } : Frame).Fits c := ⟨Nat.le_of_eq hsize.symm, nofun, nofun⟩
  have hfirstMem : first ∈ c.blocks := by rw [heq]; exact List.mem_cons_self
  have hrestMem : ∀ b ∈ mids ++ [last], b ∈ c.blocks ∧ b.kind ≠ .start := by
    intro b hb
    refine ⟨by rw [heq]; exact List.mem_cons_of_mem first hb, ?_⟩
    rcases List.mem_append.1 hb with hb | hb
    · rw [hmids b hb]
      exact nofun
    · rw [List.mem_singleton.1 hb, hlast]
      exact nofun
  rw [heq] at hblocks
  obtain ⟨_, mid₁, dsFirst, dsRest, hblock, hrest, rfl⟩ := Draft.gives_bind_iff.1 hblocks
  have hfits₁ := (block_sound hmade hfirstMem hfits hblock).2.1
  obtain ⟨mid₂, _, _, dsEntry, d₂, d₃, d₄, rfl, hentry, -, henter, hfits₂, hstatements, hend⟩ :=
    block_parts hfits hblock
  have hstops : SetsStates c.resume.points (d₂ ++ (d₃ ++ (d₄ ++ (dsRest ++ dsFree)))) := by
    refine (enterBlock_setsStates henter).append ((statements_setsStates hmade hgen hfits₂ hstatements).append
      ((blockEnd_setsStates hmade hgen hfirstMem hend).append
        ((blocksFrom_setsStates hmade hgen hrestMem hfits₁ hrest).append (.of_isQuiet ?_))))
    intro d hd
    obtain ⟨i, rfl, hi⟩ := (releaseDebugLocals_gives hfree).2 d hd
    exact Instr.isQuiet_of_isNote hi
  rw [if_pos hfirst] at hentry
  obtain ⟨mid₃, dsPrologue, dsDispatch, rfl, hkeeps, hprologue, hdispatch⟩ := entry_gives hentry
  rw [if_pos hgen] at hdispatch
  obtain ⟨slot, notes, hnotes, rfl, -⟩ := dispatch_gives hdispatch
  have hstart : mid₃.labels.size = c.bound := by rw [hkeeps.labels, hsize]
  obtain ⟨is, rfl, his, hall⟩ := (hprologue (c.reading final) true).exists_straight fun op hop => by
    obtain ⟨i, hi, -, hflow, -⟩ := prologue_passes c op hop
    exact ⟨i, hi, hflow⟩
  obtain ⟨ns, rfl, hns⟩ := exists_notes hnotes
  have ha := h.assembles
  simp only [List.append_assoc] at ha
  rw [← List.append_assoc, ← List.map_append] at ha
  obtain ⟨f₁, seg₁, _, hpre, hback, rfl⟩ := Assembles.append_iff.1 ha
  have hpasses : ∀ i ∈ is ++ ns, i.passes = true := List.forall_mem_append.2
    ⟨fun i hi => (his i hi).1, fun i hi => Instr.passes_of_isNote (hns i hi)⟩
  obtain ⟨rfl, hlive, hdepth⟩ := Assembles.of_passes hpasses rfl hpre
  obtain ⟨f₂, seg₂, post, hdispatch, hpost, rfl⟩ := Assembles.append_iff.1 hback
  obtain ⟨rfl, hzero⟩ := dispatch_assembles hlive hdispatch
  refine ⟨is ++ ns, slot, post, ?_, hpasses, ?_, fun i hi => ?_, ?_, hstops.assembles hpost⟩
  · rw [hstart]
  · refine List.forall_mem_append.2 ⟨fun i hi => (his i hi).2, fun i hi => .inl (hns i hi)⟩
  · obtain ⟨j, hj, hji⟩ := hall i hi
    exact ⟨j, List.mem_append_left ns hj, hji⟩
  · rw [hzero] at hdepth
    exact hdepth

namespace Entered

variable {pre post : List Instr} {slot : TempSlot} {V W : Type} {R : Runtime V W} {s : Kept V W}

/-- Before the dispatch the state stays what it is. -/
theorem usesState (h : c.Entered code pre slot post) : ∀ i ∈ pre, i.usesState = false := by
  intro i hi
  rcases h.mem_prologue i hi with hnote | hop
  · cases i <;> first | rfl | cases hnote
  · obtain ⟨j, hj, -, -, hstate⟩ := prologue_passes c _ hop
    cases hj
    cases i <;> first | rfl | cases hstate

/-- The instructions of the dispatch stand behind the prologue. -/
theorem getElem?_dispatch (h : c.Entered code pre slot post) {k : Nat} (hk : k < 8) :
    code[pre.length + k]? = (dispatchCode c.resume.points ⟨c.bound⟩ slot)[k]? := by
  rw [h.code_eq, List.getElem?_append_right (Nat.le_add_right _ _), Nat.add_sub_cancel_left,
    List.getElem?_append_left hk]

/-- The dispatch, step by step. -/
theorem dispatch_steps (h : c.Entered code pre slot post) (temps : TempSlot → V) (s : Kept V W) :
    (∀ k < 6, ∃ c' s', Run.after (R.step code) (.on ⟨pre.length, [], temps, []⟩ s) k = .on c' s' ∧
      c'.pc = pre.length + k ∧ c'.regions = []) ∧
    ∃ temps', Run.after (R.step code) (.on ⟨pre.length, [], temps, []⟩ s) 6 =
      Runtime.goTo code ⟨pre.length + 5, [], temps', []⟩
        ((c.resume.points.lookup (R.toInt s.state)).getD ⟨c.bound⟩)
        { s with state := R.literal (.int GeneratorState.running.toInt) } := by
  have e₀ : R.step code ⟨pre.length, [], temps, []⟩ s =
      .on ⟨pre.length + 1, [s.state], temps, []⟩ s := by
    simp only [Runtime.step, show code[pre.length]? = some .loadState from h.getElem?_dispatch (k := 0)
      (by omega)]
    rfl
  have e₁ : R.step code ⟨pre.length + 1, [s.state], temps, []⟩ s =
      .on ⟨pre.length + 2, [], Function.update temps slot s.state, []⟩ s := by
    simp only [Runtime.step, show code[pre.length + 1]? = some (.storeTemp slot) from
      h.getElem?_dispatch (k := 1) (by omega)]
    rfl
  generalize htemps : Function.update temps slot s.state = temps' at e₁
  have hslot : temps' slot = s.state := by rw [← htemps, Function.update_self]
  have e₂ : R.step code ⟨pre.length + 2, [], temps', []⟩ s =
      .on ⟨pre.length + 3, [R.literal (.int GeneratorState.running.toInt)], temps', []⟩ s := by
    simp only [Runtime.step, show code[pre.length + 2]? =
      some (.constInt GeneratorState.running.toInt) from h.getElem?_dispatch (k := 2) (by omega)]
    rfl
  generalize hrunning : R.literal (.int GeneratorState.running.toInt) = running at e₂
  have e₃ : R.step code ⟨pre.length + 3, [running], temps', []⟩ s =
      .on ⟨pre.length + 4, [], temps', []⟩ { s with state := running } := by
    simp only [Runtime.step, show code[pre.length + 3]? = some .storeState from
      h.getElem?_dispatch (k := 3) (by omega)]
    rfl
  have e₄ : R.step code ⟨pre.length + 4, [], temps', []⟩ { s with state := running } =
      .on ⟨pre.length + 5, [s.state], temps', []⟩ { s with state := running } := by
    simp only [Runtime.step, show code[pre.length + 4]? = some (.loadTemp slot) from
      h.getElem?_dispatch (k := 4) (by omega), hslot]
    rfl
  have e₅ : R.step code ⟨pre.length + 5, [s.state], temps', []⟩ { s with state := running } =
      Runtime.goTo code ⟨pre.length + 5, [], temps', []⟩
        ((c.resume.points.lookup (R.toInt s.state)).getD ⟨c.bound⟩) { s with state := running } := by
    simp only [Runtime.step, show code[pre.length + 5]? = some (.switch c.resume.points ⟨c.bound⟩) from
      h.getElem?_dispatch (k := 5) (by omega)]
  refine ⟨fun k hk => ?_, temps', by simp only [Run.after, Run.andThen, e₀, e₁, e₂, e₃, e₄, e₅]⟩
  interval_cases k <;> simp only [Run.after, Run.andThen, e₀, e₁, e₂, e₃, e₄] <;>
    exact ⟨_, _, rfl, rfl, rfl⟩

/-- An invocation runs through the prologue and the dispatch, and jumps on the state. -/
theorem jumps (h : c.Entered code pre slot post) {Q : Kept V W → Prop}
    (hQ : ∀ i ∈ pre, ∀ c s c' s', code[c.pc]? = some i → R.step code c s = .on c' s' → Q s → Q s')
    (hs : Q s) :
    (∀ k < pre.length + 6, ∃ c' s',
      Run.after (R.step code) (.on R.enter s) k = .on c' s' ∧ c'.pc = k ∧ c'.regions = []) ∧
    ∃ temps s', Q s' ∧ Run.after (R.step code) (.on R.enter s) (pre.length + 6) =
      Runtime.goTo code ⟨pre.length + 5, [], temps, []⟩
        ((c.resume.points.lookup (R.toInt s'.state)).getD ⟨c.bound⟩)
        { s' with state := R.literal (.int GeneratorState.running.toInt) } := by
  have hrun {k : Nat} (hk : k ≤ pre.length) :=
    Runtime.run_straight (R := R) (c := R.enter) h.passes h.code_eq h.depth hQ hs hk
  obtain ⟨st, temps, s', hpre, hQ', hlength⟩ := hrun (Nat.le_refl _)
  obtain rfl : st = [] := List.length_eq_zero_iff.1 (hlength rfl)
  simp only [Runtime.enter, Nat.zero_add] at hpre
  obtain ⟨hsteps, temps', hjump⟩ := h.dispatch_steps (R := R) temps s'
  refine ⟨fun k hk => ?_, temps', s', hQ', ?_⟩
  · by_cases hle : k ≤ pre.length
    · obtain ⟨st, temps, s', hk, -⟩ := hrun hle
      exact ⟨_, _, hk, Nat.zero_add k, rfl⟩
    · obtain ⟨d, rfl⟩ := Nat.exists_eq_add_of_lt (Nat.lt_of_not_le hle)
      obtain ⟨c', s'', hc', hpc, hregions⟩ := hsteps (d + 1) (by omega)
      refine ⟨c', s'', ?_, by omega, hregions⟩
      rw [Nat.add_assoc, Run.after_add, Runtime.enter, hpre, hc']
  · rw [Run.after_add, Runtime.enter, hpre, hjump]

end Entered

/-! ## Where a generator goes on -/

/-- An invocation of a suspended generator gets to where it stopped, with an empty stack and no
protected region, by the shortest way. -/
theorem Entered.resumes {pre post : List Instr} {slot : TempSlot} {V W : Type} {R : Runtime V W}
    {s : Kept V W} (h : c.Entered code pre slot post) (hmade : c.Made)
    (hgen : c.procedure.isGenerator = true) (hnodup : (placedIn code).Nodup) {index : Int}
    {l : Label} (hpoint : (index, l) ∈ c.resume.points) {q : Nat}
    (hq : code[q]? = some (.markLabel l)) (hstate : R.toInt s.state = index)
    {Q : Kept V W → Prop} (hQ : ∀ i ∈ pre, ∀ c s c' s', code[c.pc]? = some i →
      R.step code c s = .on c' s' → Q s → Q s') (hs : Q s) :
    (∀ k < pre.length + 6, ∃ c' s',
      Run.after (R.step code) (.on R.enter s) k = .on c' s' ∧ c'.pc = k ∧ c'.regions = []) ∧
    ∃ temps s', Q s' ∧ Run.after (R.step code) (.on R.enter s) (pre.length + 6) =
      .on { R.enter with pc := q, temps }
        { s' with state := R.literal (.int GeneratorState.running.toInt) } := by
  have hstep : ∀ i ∈ pre, ∀ c s' c' s'', code[c.pc]? = some i → R.step code c s' = .on c' s'' →
      (Q s' ∧ s'.state = s.state) → Q s'' ∧ s''.state = s.state := by
    intro i hi c₁ s₁ c₂ s₂ hpc hstep hs₁
    refine ⟨hQ i hi c₁ s₁ c₂ s₂ hpc hstep hs₁.1, ?_⟩
    rw [← hs₁.2]
    exact Runtime.state_of_step hpc (h.usesState i hi) hstep
  obtain ⟨hbefore, temps, s', ⟨hQ', hstate'⟩, hjump⟩ := h.jumps hstep ⟨hs, rfl⟩
  refine ⟨hbefore, temps, s', hQ', ?_⟩
  rw [hjump, hstate', hstate, lookup_points hmade hgen hpoint, Option.getD_some,
    Runtime.goTo_eq hnodup hq]
  rfl

/-- What is known of the code of a generator. -/
structure GeneratorLowered (c : Plan) (code pre : List Instr) (slot : TempSlot) (post : List Instr) :
    Prop where
  made : c.Made
  isGenerator : c.procedure.isGenerator = true
  entered : c.Entered code pre slot post
  realizes : ∃ final, Realizes (c.reading final) c.outline code

namespace GeneratorLowered

variable {c : Plan} {code pre post : List Instr} {slot : TempSlot}

/-- Every suspension point has a label, which stands in the code. -/
theorem exists_point (h : c.GeneratorLowered code pre slot post) {y : YieldSite}
    (hy : y ∈ c.procedure.graph.yields) :
    ∃ (l : Label) (q : Nat), (y.index, l) ∈ c.resume.points ∧ code[q]? = some (.markLabel l) := by
  have hmem := (h.made.dense h.isGenerator).mem_iff.1 (List.mem_map_of_mem hy)
  obtain ⟨i, hi, hindex⟩ := List.mem_map.1 hmem
  have hpoint : (y.index, ⟨c.labelled.length + i⟩) ∈ c.resume.points := by
    rw [points_eq h.made h.isGenerator]
    exact List.mem_map.2 ⟨i, hi, by rw [hindex]⟩
  have hlabel := (mem_points_iff h.made h.isGenerator).1 hpoint
  obtain ⟨final, hreal⟩ := h.realizes
  obtain ⟨l, q, hl, hq, -⟩ := hreal.spot (.resume y.index) (Option.isSome_iff_exists.2 ⟨_, hlabel⟩)
  obtain rfl := Option.some_inj.1 (hlabel.symm.trans hl)
  exact ⟨_, q, hpoint, hq⟩

theorem placed_nodup (h : c.GeneratorLowered code pre slot post) : (placedIn code).Nodup := by
  obtain ⟨final, hreal⟩ := h.realizes
  exact hreal.placed_nodup

end GeneratorLowered

end Plan

/-- The code of a generator, as it is planned. -/
theorem Procedure.generatorLowered_of_lowerInto {p : Procedure} {options : Options}
    {strategy : LayoutStrategy} {out : Array Instr} {sum : Summary} (hgen : p.isGenerator = true)
    (h : p.lowerInto options strategy #[] = (out, .ok sum)) :
    ∃ (c : Plan) (labels : LabelTable) (ds : List Directive) (final : Frame) (g : Flow)
      (pre : List Instr) (slot : TempSlot) (post : List Instr), c.procedure = p ∧ sum.resumePoints = c.resume.points ∧
      labels.size = c.bound ∧ c.Lowered labels ds final out.toList g ∧
      c.GeneratorLowered out.toList pre slot post := by
  obtain ⟨c, labels, ds, final, g, hmake, hlowered, rfl⟩ := lowerInto_eq_ok_iff.1 h
  obtain ⟨hsize, hblank⟩ := Plan.labels_of_make hmake
  obtain ⟨-, -, hp, -⟩ := Plan.make_eq_ok hmake
  have hmade := Plan.made_of_make hmake
  have hgen' : c.procedure.isGenerator = true := by rw [hp, hgen]
  obtain ⟨pre, slot, post, hentered⟩ := hlowered.entered hmade hsize hgen'
  exact ⟨c, labels, ds, final, g, pre, slot, post, hp, rfl, hsize, hlowered, hmade, hgen', hentered,
    final, hlowered.realizes hmade hsize hblank⟩

/-- A generator with one variable, which it yields. -/
def counter (initialized : Bool) : Procedure where
  name := ⟨1⟩
  returnType := .void
  locals := { vars := #[{ id := ⟨0⟩, name := ⟨2⟩, ty := .int, kind := .user }] }
  isGenerator := true
  localsInitialized := initialized
  graph :=
    { blocks := #[
        { id := ⟨0⟩, ordinal := 0, kind := .start
          statements := [.yield { index := 1, value := .var { ty := .int } ⟨0⟩, key := none
                                  isDelegated := false }]
          edge := .goto ⟨1⟩ },
        { id := ⟨1⟩, ordinal := 1, kind := .exit, statements := [], edge := .none }]
      wellFormed := wellFormed_of_fault?_eq_none (by decide) }

/-- The code of `counter`, which gives the variable its first value unless the caller does. -/
def counterCode (initialized : Bool) : Array Instr :=
  (if initialized then #[] else #[.constInt 0, .storeLocal ⟨0⟩]) ++
    #[.allocTemp ⟨0⟩ .int, .loadState, .storeTemp ⟨0⟩, .constInt (-1), .storeState, .loadTemp ⟨0⟩,
      .switch [(1, ⟨1⟩)] ⟨2⟩, .freeTemp ⟨0⟩, .markLabel ⟨2⟩, .loadLocal ⟨0⟩, .convert .int .value,
      .call (.intrinsic .setGeneratorCurrent) 1 false, .constInt 1, .storeState, .ret false,
      .markLabel ⟨1⟩, .markLabel ⟨0⟩, .constInt (-2), .storeState, .ret false]

theorem lowerInto_counter (initialized : Bool) :
    (counter initialized).lowerInto {} BlockOrder.ordinal.arrange #[] =
      (counterCode initialized,
        .ok { instrCount := (counterCode initialized).size, temps := [.int], labelCount := 3
              resumePoints := [(1, ⟨1⟩)], debugLocals := [] }) := by
  have horder : (counter initialized).graph.emissionOrder BlockOrder.ordinal.arrange
      (counter initialized).liveBlocks = some [⟨0⟩, ⟨1⟩] := by cases initialized <;> cbv
  unfold Procedure.lowerInto Plan.make
  rw [horder]
  cases initialized <;> decide +kernel

end StackCode
