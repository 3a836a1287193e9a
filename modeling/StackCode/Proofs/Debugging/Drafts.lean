import StackCode.Proofs.Debugging.Front
import StackCode.Proofs.Layout.Drafted

/-!
# The draft with and without debugging

What debugging adds to the draft of a procedure stands in front, where the views are filled, and at its
end, where their slots are handed back; in between, places to stop apart, the same is drafted behind the
views (`Plan.draft_debugged`).
-/

namespace StackCode

namespace Draft

variable {frame frame' : Frame} {ds : List Directive} {u : Unit}

theorem bind_of_eq {α β : Type} {x : Draft α} {a : α}
    (h : x frame = { code := ds, frame := frame', result := .ok a }) (f : α → Draft β) :
    (x >>= f) frame = { f a frame' with code := ds ++ (f a frame').code } := by
  rw [bind_of_ok (a := a) (by rw [h]), h]

theorem releaseAll_code {views : List (Name × TempSlot)}
    (h : (views.forM fun v => releaseTemp v.2).Gives frame ds frame' u) :
    ds = views.map (fun v => .instr (.freeTemp v.2)) ∧ frame'.temps.types = frame.temps.types := by
  induction views generalizing frame ds with
  | nil =>
    obtain ⟨rfl, rfl, -⟩ := gives_pure_iff.1 h
    exact ⟨rfl, rfl⟩
  | cons v views ih =>
    obtain ⟨_, mid, _, _, h₁, h₂, rfl⟩ := gives_bind_iff.1 h
    obtain ⟨temps, hrelease, rfl, rfl⟩ := gives_releaseTemp_iff.1 h₁
    obtain ⟨rfl, htypes⟩ := ih h₂
    exact ⟨rfl, htypes.trans (TempPool.tryRelease_spec hrelease).2⟩

theorem dispatch_debugLocals {resume : ResumePlan} (h : (dispatch resume).Gives frame ds frame' u) :
    frame'.debugLocals = frame.debugLocals := by
  unfold dispatch at h
  obtain ⟨_, _, _, _, hl, h₁, -⟩ := gives_bind_iff.1 h
  obtain ⟨-, rfl, rfl⟩ := gives_namedLabel_iff.1 hl
  obtain ⟨slot, _, _, _, hslot, h₂, -⟩ := gives_bind_iff.1 h₁
  obtain ⟨-, -, rfl⟩ := gives_acquireTemp_iff.1 hslot
  obtain ⟨_, h₃, -⟩ := gives_emit_bind_iff.1 h₂
  obtain ⟨_, h₄, -⟩ := gives_emit_bind_iff.1 h₃
  obtain ⟨_, h₅, -⟩ := gives_setState_bind_iff.1 h₄
  obtain ⟨_, h₆, -⟩ := gives_emit_bind_iff.1 h₅
  obtain ⟨_, h₇, -⟩ := gives_emit_bind_iff.1 h₆
  obtain ⟨_, _, _, _, hrelease, h₈, -⟩ := gives_bind_iff.1 h₇
  obtain ⟨temps, -, -, rfl⟩ := gives_releaseTemp_iff.1 hrelease
  obtain ⟨-, rfl⟩ := gives_mark_iff.1 h₈
  rfl

end Draft

namespace Plan

variable {c : Plan} {labels : LabelTable}

/-- What the blocks come to behind the opening of the first. -/
def inner (c : Plan) (first : Block) (rest : List Block) : Draft Unit := do
  if c.procedure.isGenerator then Draft.dispatch c.resume
  c.enterBlock first
  first.statements.forM c.statement
  c.blockEnd first (rest.head?.map (·.id))
  c.blocksFrom rest

theorem checked_eq (c : Plan) :
    c.checked = ((if c.options.sequencePoints then Draft.emit .hiddenSequencePoint else pure ()) >>=
      fun _ => c.contextCheck) := by
  unfold checked
  cases c.options.sequencePoints <;> rfl

theorem ofFragment_setup (c : Plan) :
    Draft.ofFragment c.procedure.setup =
      (c.registration >>= fun _ => Draft.ofFragment c.procedure.initLocals) := by
  unfold Procedure.setup registration
  cases c.procedure.kind with
  | function | method => rfl
  | scriptMain script => exact Draft.ofFragment_bind _ _

/-- What there is in front of the dispatch of a generator. -/
theorem entry_eq_opening (c : Plan) :
    c.entry = (c.checked >>= fun _ => Draft.ofFragment c.procedure.setup >>= fun _ =>
      c.opening >>= fun _ =>
        if c.procedure.isGenerator then Draft.dispatch c.resume else pure ()) := by
  rw [entry_eq, checked_eq, ofFragment_setup]
  unfold opening
  simp only [bind_assoc]

theorem inner_eq (c : Plan) (first : Block) (rest : List Block) :
    c.inner first rest =
      ((if c.procedure.isGenerator then Draft.dispatch c.resume else pure ()) >>= fun _ =>
        c.enterBlock first >>= fun _ => first.statements.forM c.statement >>= fun _ =>
          c.blockEnd first (rest.head?.map (·.id)) >>= fun _ => c.blocksFrom rest) := by
  unfold inner
  cases c.procedure.isGenerator <;> rfl

theorem blocksFrom_cons (c : Plan) {first : Block} (hfirst : first.kind = .start)
    (rest : List Block) :
    c.blocksFrom (first :: rest) =
      (c.checked >>= fun _ => Draft.ofFragment c.procedure.setup >>= fun _ =>
        c.opening >>= fun _ => c.inner first rest) := by
  rw [blocksFrom, block_eq, if_pos hfirst, entry_eq_opening, inner_eq]
  simp only [bind_assoc]

theorem inner_mirrors (c : Plan) {views : List (Name × TempSlot)} (first : Block)
    {rest : List Block} (hrest : ∀ b ∈ rest, b.kind ≠ .start) :
    Draft.Mirrors views id (c.plain.inner first rest) (c.inner first rest) := by
  have hdispatch : Draft.MirrorsItself views
      (if c.procedure.isGenerator then Draft.dispatch c.resume else pure ()) := by
    split
    · exact Draft.mirrors_dispatch c.resume
    · exact Draft.mirrors_pure id ()
  rw [inner_eq, inner_eq]
  refine hdispatch.bind fun _ => (c.enterBlock_mirrors first).bind fun _ => ?_
  refine (c.statements_mirror first.statements).bind fun _ => ?_
  exact (c.blockEnd_mirrors first _).bind fun _ => c.blocksFrom_mirrors hrest

/-! ## With nothing for a debugger -/

theorem plain_checked (c : Plan) : c.plain.checked = pure () := rfl

theorem plain_opening (c : Plan) : c.plain.opening = pure () := by
  have hviews : c.plain.debugLocals = pure () := by
    unfold debugLocals
    cases c.plain.procedure.localsArray <;> rfl
  have hbrace : c.plain.openingBrace = pure () := by
    unfold openingBrace
    cases c.plain.procedure.bodySpan <;> rfl
  unfold opening
  rw [hviews, hbrace]
  rfl

theorem plain_blocksFrom_cons (c : Plan) {first : Block} (hfirst : first.kind = .start)
    (rest : List Block) :
    c.plain.blocksFrom (first :: rest) =
      (Draft.ofFragment c.procedure.setup >>= fun _ => c.plain.inner first rest) := by
  rw [blocksFrom_cons _ hfirst, plain_checked, pure_bind, plain_opening]
  simp only [pure_bind]
  rfl

theorem Made.plain (h : c.Made) : c.plain.Made :=
  ⟨h.block?, h.exists_block, h.live, h.nodup, h.ends, h.labelled, h.resume, h.dense⟩

/-- Without views there is nothing to hand back. -/
theorem plain_debugLocals {frame' : Frame} {ds : List Directive} {u : Unit} (hmade : c.Made)
    (hsize : labels.size = c.bound)
    (h : (c.plain.blocksFrom c.blocks).Gives { labels } ds frame' u) : frame'.debugLocals = [] := by
  obtain ⟨-, ⟨_, entered, hentry, hsame⟩⟩ := (blocks_allot hmade.plain hsize h).1
  rw [hsame]
  rw [entry_eq_opening, plain_checked, pure_bind, plain_opening] at hentry
  obtain ⟨_, _, -, hdispatch, -⟩ := Draft.gives_ofFragment_bind_iff.1 hentry
  rw [pure_bind] at hdispatch
  split at hdispatch
  · rw [Draft.dispatch_debugLocals hdispatch]
  · obtain ⟨-, rfl, -⟩ := Draft.gives_pure_iff.1 hdispatch
    rfl

/-! ## With and without debugging -/

/-- How the draft `full`, in part drafted behind the views, compares with the draft `plain` with nothing
for a debugger.  In front of the `rest` of both, each has code of its own; behind it there is the code
`freed`, which hands the slots of the views back. -/
structure Debugged (views : List (Name × TempSlot)) (plain full : Drafted Unit)
    (front front' : List Instr) (rest : List Directive) (freed : List Instr) : Prop where
  plain_code : plain.code = front.map .instr ++ rest
  full_code : (full.code.filter fun d => !d.isStop) =
    front'.map .instr ++ (rest.map (Directive.shift views.length) ++ freed.map .instr)
  labels : full.frame.labels = plain.frame.labels
  isNote_of_freed : ∀ i ∈ freed, i.isNote = true
  error : ∀ e, plain.result = .error e →
    ∃ e', full.result = .error e' ∧ (e' = e ∨ ∃ s, e = .tempDoubleFree s)
  ok : plain.result = .ok () → full.result = .ok () ∧
    freed = views.map (fun v => .freeTemp v.2) ∧
    full.frame.temps.types = Array.replicate views.length .value ++ plain.frame.temps.types ∧
    full.frame.debugLocals = views

theorem Debugged.prepend {views : List (Name × TempSlot)} {plain full : Drafted Unit}
    {front front' freed : List Instr} {rest : List Directive}
    (h : Debugged views plain full front front' rest freed) (is : List Instr) {is' : List Instr}
    {ds : List Directive} (hds : (ds.filter fun d => !d.isStop) = is'.map .instr) :
    Debugged views { plain with code := is.map .instr ++ plain.code }
      { full with code := ds ++ full.code } (is ++ front) (is' ++ front') rest freed :=
  { h with
    plain_code := by simp only [h.plain_code, List.map_append, List.append_assoc]
    full_code := by simp only [List.filter_append, hds, h.full_code, List.map_append,
      List.append_assoc] }

/-- Nothing is different where both stop. -/
theorem debugged_of_error (views : List (Name × TempSlot)) (labels : LabelTable) (e : LowerError) :
    Debugged views { code := [], frame := { labels }, result := .error e }
      { code := [], frame := { labels }, result := .error e } [] [] [] [] :=
  ⟨rfl, rfl, rfl, nofun, fun e' he => ⟨e, rfl, .inl (by cases he; rfl)⟩, nofun⟩

/-- A block that opens the code, and those that follow it. -/
structure Opens (c : Plan) (first : Block) (others : List Block) : Prop where
  blocks : c.blocks = first :: others
  start : first.kind = .start
  others : ∀ b ∈ others, b.kind ≠ .start

theorem Made.opens_to_exit (h : c.Made) : ∃ first mids last, c.Opens first (mids ++ [last]) ∧
    (∀ b ∈ mids, b.kind = .normal) ∧ last.kind = .exit := by
  obtain ⟨first, mids, last, hblocks, hfirst, hlast, hmids⟩ := h.blocks_eq
  refine ⟨first, mids, last, ⟨hblocks, hfirst, List.forall_mem_append.2
    ⟨fun b hb => ?_, List.forall_mem_singleton.2 ?_⟩⟩, hmids, hlast⟩
  · rw [hmids b hb]
    nofun
  · rw [hlast]
    nofun

theorem Made.opens (h : c.Made) : ∃ first others, c.Opens first others :=
  let ⟨first, mids, last, hopens, _⟩ := h.opens_to_exit
  ⟨first, mids ++ [last], hopens⟩

section
variable {first : Block} {others : List Block} (hopens : c.Opens first others)
include hopens

theorem plain_draft_eq : c.plain.draft = (Draft.ofFragment c.procedure.setup >>= fun _ =>
    c.plain.inner first others >>= fun _ => releaseDebugLocals) := by
  have hsame : c.plain.blocks = first :: others := hopens.blocks
  unfold draft
  rw [hsame, plain_blocksFrom_cons c hopens.start, bind_assoc]

theorem draft_eq : c.draft = (c.checked >>= fun _ => Draft.ofFragment c.procedure.setup >>= fun _ =>
    c.opening >>= fun _ => c.inner first others >>= fun _ => releaseDebugLocals) := by
  unfold draft
  rw [hopens.blocks, blocksFrom_cons c hopens.start]
  simp only [bind_assoc]

end

section
variable {first : Block} {others : List Block} {ds : List Directive} {frame' : Frame}

theorem plain_blocksFrom_gives (hopens : c.Opens first others)
    (hsetup : c.procedure.setup.result = .ok ())
    (h : (c.plain.inner first others).Gives { labels } ds frame' ()) :
    (c.plain.blocksFrom c.blocks).Gives { labels } (c.procedure.setup.code.map .instr ++ ds) frame'
      () := by
  rw [hopens.blocks, plain_blocksFrom_cons c hopens.start]
  exact Draft.gives_ofFragment_bind_iff.2 ⟨(), _, hsetup, h, rfl⟩

theorem exists_blocksFrom_gives (hopens : c.Opens first others)
    (hsetup : c.procedure.setup.result = .ok ())
    (h : (c.inner first others).Gives
      (({ labels } : Frame).behind (c.procedure.views c.options)) ds frame' ()) :
    ∃ ds', (c.blocksFrom c.blocks).Gives { labels } ds' frame' () := by
  obtain ⟨ds₁, hchecked, -⟩ := c.checked_apply { labels }
  obtain ⟨ds₂, hopening, -⟩ := c.opening_apply labels
  rw [hopens.blocks, blocksFrom_cons c hopens.start]
  have hopened : (c.opening >>= fun _ => c.inner first others).Gives { labels } (ds₂ ++ ds) frame'
      () := Draft.gives_bind_iff.2 ⟨(), _, ds₂, ds, hopening, h, rfl⟩
  have hset : (Draft.ofFragment c.procedure.setup >>= fun _ => c.opening >>= fun _ =>
      c.inner first others).Gives { labels } (c.procedure.setup.code.map .instr ++ (ds₂ ++ ds)) frame'
        () := Draft.gives_ofFragment_bind_iff.2 ⟨(), _, hsetup, hopened, rfl⟩
  exact ⟨_, Draft.gives_bind_iff.2 ⟨(), { labels }, ds₁, _, hchecked, hset, rfl⟩⟩

end

/-- The slots of the views can be handed back where the blocks got to their end. -/
theorem releaseDebugLocals_apply {frame' : Frame} {ds : List Directive} {u : Unit} (hmade : c.Made)
    (hsize : labels.size = c.bound) (h : (c.blocksFrom c.blocks).Gives { labels } ds frame' u) :
    ∃ final, releaseDebugLocals.Gives frame'
        (frame'.debugLocals.map fun v => .instr (.freeTemp v.2)) final () ∧
      final.labels = frame'.labels ∧ final.debugLocals = frame'.debugLocals ∧
      final.temps.types = frame'.temps.types := by
  obtain ⟨-, hnodup, hinUse⟩ := blocks_allot hmade hsize h
  obtain ⟨ds', final, u', hgives⟩ := Draft.releaseAll_succeeds hnodup fun s hs => (hinUse s).2 hs
  obtain ⟨rfl, htypes⟩ := Draft.releaseAll_code hgives
  obtain ⟨hlabels, hviews, -⟩ := Draft.releaseAll_gives hgives
  exact ⟨final, Draft.gives_getFrame_bind_iff.2 hgives, hlabels, hviews, htypes⟩

/-- Behind the views, the blocks and what hands the slots back. -/
theorem inner_debugged {first : Block} {others : List Block} (hopens : c.Opens first others)
    (hmade : c.Made) (hsize : labels.size = c.bound) (hsetup : c.procedure.setup.result = .ok ()) :
    ∃ rest freed, Debugged (c.procedure.views c.options)
      ((c.plain.inner first others >>= fun _ => releaseDebugLocals) { labels })
      ((c.inner first others >>= fun _ => releaseDebugLocals)
        (({ labels } : Frame).behind (c.procedure.views c.options))) [] [] rest freed := by
  have hinner : Draft.Mirrors (c.procedure.views c.options) id (c.plain.inner first others)
    (c.inner first others) := c.inner_mirrors first hopens.others
  replace hinner := hinner { labels }
  cases hresult : (c.plain.inner first others { labels }).result with
  | error e =>
    obtain ⟨e', hresult', he⟩ := hinner.error e hresult
    rw [Draft.bind_of_error hresult, Draft.bind_of_error hresult']
    refine ⟨_, [], ⟨rfl, ?_, ?_, List.forall_mem_nil _, fun _ h => ⟨_, rfl, ?_⟩, fun h => by cases h⟩⟩
    · simp only [hinner.code, List.map_nil, List.append_nil, List.nil_append]
    · rw [hinner.frame]
      rfl
    · cases h
      exact he
  | ok u =>
    obtain ⟨ds, mid, hplain⟩ : ∃ ds mid, (c.plain.inner first others).Gives { labels } ds mid () :=
      ⟨_, _, Draft.gives_of_result hresult⟩
    obtain ⟨ds', mid', hfull⟩ : ∃ ds' mid', (c.inner first others).Gives
        (({ labels } : Frame).behind (c.procedure.views c.options)) ds' mid' () :=
      ⟨_, _, Draft.gives_of_result (hinner.ok () hresult)⟩
    rw [hplain, hfull] at hinner
    obtain ⟨_, hblocks⟩ := exists_blocksFrom_gives hopens hsetup hfull
    obtain ⟨final, hfree, hlabels, hviews, htypes⟩ := releaseDebugLocals_apply hmade hsize hblocks
    have hkeep : releaseDebugLocals.Gives mid [] mid () := by
      refine Draft.gives_getFrame_bind_iff.2 ?_
      rw [plain_debugLocals hmade hsize (plain_blocksFrom_gives hopens hsetup hplain)]
      exact Draft.gives_pure_iff.2 ⟨rfl, rfl, rfl⟩
    have hplainTail : (c.plain.inner first others >>= fun _ => releaseDebugLocals).Gives
        { labels } (ds ++ []) mid () := Draft.gives_bind_iff.2 ⟨(), mid, ds, [], hplain, hkeep, rfl⟩
    have hfullTail : (c.inner first others >>= fun _ => releaseDebugLocals).Gives
        (({ labels } : Frame).behind (c.procedure.views c.options))
        (ds' ++ mid'.debugLocals.map fun v => .instr (.freeTemp v.2)) final () :=
      Draft.gives_bind_iff.2 ⟨(), mid', ds', _, hfull, hfree, rfl⟩
    rw [hplainTail, hfullTail]
    have hmid : mid' = mid.behind (c.procedure.views c.options) := hinner.frame
    rw [hmid] at hlabels hviews htypes ⊢
    have hfreed : ∀ i ∈ (c.procedure.views c.options).map fun v => Instr.freeTemp v.2,
        i.isStop = false := by
      intro i hi
      obtain ⟨v, -, rfl⟩ := List.mem_map.1 hi
      rfl
    have hfrees := Directive.filter_instrs hfreed
    rw [List.map_map] at hfrees
    refine ⟨ds, (c.procedure.views c.options).map fun v => .freeTemp v.2,
      ⟨List.append_nil ds, ?_, hlabels, fun i hi => ?_, fun _ h => (by cases h),
        fun _ => ⟨rfl, rfl, htypes, hviews⟩⟩⟩
    · have hcode : (ds'.filter fun d => !d.isStop) = _ := hinner.code
      simp only [List.filter_append, hcode, List.map_nil, List.nil_append, List.map_map]
      exact congrArg (ds.map (Directive.shift (c.procedure.views c.options).length) ++ ·) hfrees
    · obtain ⟨v, -, rfl⟩ := List.mem_map.1 hi
      rfl

/-- What debugging adds to the draft of a procedure: in front the check of the context, behind the setup
the code of the views, and at the end what hands their slots back. -/
theorem draft_debugged (hmade : c.Made) (hsize : labels.size = c.bound) :
    ∃ shown rest freed, Debugged (c.procedure.views c.options) (c.plain.draft { labels })
        (c.draft { labels }) c.procedure.setup.code
        (c.procedure.contextCheckCode c.options ++ (c.procedure.setup.code ++ shown)) rest freed ∧
      (shown = [] ∨ shown = c.procedure.viewsCode c.options) ∧
      ((c.plain.draft { labels }).result = .ok () → shown = c.procedure.viewsCode c.options) := by
  obtain ⟨first, others, hopens⟩ := hmade.opens
  obtain ⟨ds₁, hchecked, hcheck⟩ := c.checked_apply { labels }
  obtain ⟨ds₂, hopening, hopen⟩ := c.opening_apply labels
  have hsetupCode := Directive.filter_instrs fun i hi =>
    Instr.isStop_of_isWork (c.procedure.isWork_setup i hi)
  rw [plain_draft_eq hopens, draft_eq hopens, Draft.bind_of_eq hchecked]
  cases hsetup : c.procedure.setup.result with
  | error e =>
    have happly : Draft.ofFragment c.procedure.setup { labels } =
        { code := c.procedure.setup.code.map .instr, frame := { labels }, result := .error e } := by
      rw [Draft.ofFragment_apply, hsetup]
    rw [Draft.bind_of_error (e := e) (by rw [happly]), Draft.bind_of_error (e := e) (by rw [happly]),
      happly]
    have hall := ((debugged_of_error (c.procedure.views c.options) labels e).prepend
      c.procedure.setup.code hsetupCode).prepend [] hcheck
    simp only [List.append_nil, List.nil_append, List.map_nil] at hall
    refine ⟨[], [], [], ?_, .inl rfl, fun h => by cases h⟩
    rw [List.append_nil]
    exact hall
  | ok u =>
    have happly (frame : Frame) : Draft.ofFragment c.procedure.setup frame =
        { code := c.procedure.setup.code.map .instr, frame, result := .ok u } := by
      rw [Draft.ofFragment_apply, hsetup]
    rw [Draft.bind_of_eq (happly _), Draft.bind_of_eq (happly _), Draft.bind_of_eq hopening]
    obtain ⟨rest, freed, htail⟩ := inner_debugged hopens hmade hsize hsetup
    have hall := ((htail.prepend [] hopen).prepend c.procedure.setup.code hsetupCode).prepend [] hcheck
    simp only [List.append_nil, List.nil_append, List.map_nil] at hall
    exact ⟨c.procedure.viewsCode c.options, rest, freed, hall, .inr rfl, fun _ => rfl⟩

end Plan

end StackCode
