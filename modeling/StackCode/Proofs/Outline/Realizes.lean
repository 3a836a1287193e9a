import StackCode.Proofs.Outline.Reading
import StackCode.Proofs.Plan.Lowered

/-!
# The code of a procedure realizes its outline

The code of a draft follows the outline of the plan: from its first instruction, from the label of
every spot that control gets to, and from the label of every handler.  The proof goes through the
blocks in their order.  It knows of each, before it gets there, that what the outline takes for
reachable has been made so: that the blocks before branch to the exit or fall into it if any of them
reaches it, and likewise for return statements and the return label.  Main statement:
`Plan.Lowered.realizes`.
-/

namespace StackCode

namespace Plan

variable {c : Plan} {r : Reading} {code seg post : List Instr} {f g : Flow} {start stop : Nat}
  {frame frame' mid mid' final : Frame} {ds dsEntry dsBody dsEnd : List Directive} {b : Block}
  {next : Option BlockId}

/-! ## The label of a block -/

/-- What stands in front of the statements of a block. -/
theorem labelMark_enters (ha : Assembles f (c.labelMark b) seg g) :
    match c.label? b.id with
    | some l => seg = [.markLabel l] ∧ f.Enters g l (c.arrival b)
    | none => seg = [] ∧ g = f := by
  unfold labelMark at ha
  cases hl : c.label? b.id with
  | none =>
    rw [hl] at ha
    exact Assembles.nil_iff.1 ha
  | some l =>
    rw [hl] at ha
    exact Flow.step_mark (Assembles.singleton_iff.1 ha)

theorem labelMark_isProper : ∀ d ∈ c.labelMark b, d.IsProper := by
  intro d hd
  obtain ⟨l, -, rfl⟩ := List.mem_map.1 hd
  trivial

theorem entryDepth_arrival (c : Plan) (b : Block) :
    Flow.entryDepth (c.arrival b) = c.outline.entryDepth (.block b.id) := by
  change Flow.entryDepth (if (c.caught? b.id).isSome then .handler
    else if b.kind = .exit then .forward else .join) = if (c.caught? b.id).isSome then 1 else 0
  split
  · rfl
  · split <;> rfl

theorem entryDepth_eq_zero (hcaught : c.caught? b.id = none) :
    c.outline.entryDepth (.block b.id) = 0 := by
  change (if (c.caught? b.id).isSome then 1 else 0) = 0
  rw [hcaught]
  rfl

/-- Execution passes the label of a block that is no handler. -/
theorem labelMark_follows (ha : Assembles f (c.labelMark b) seg g)
    (hcode : code.drop start = seg ++ post) (hlive : f.isLive = true)
    (hnot : ∀ l, c.label? b.id = some l → l ∉ handlersIn code)
    (hcaught : c.caught? b.id = none) {ops : List Op}
    (h : Follows r code (start + seg.length) g.depth ops) : Follows r code start f.depth ops := by
  have henters := labelMark_enters ha
  split at henters
  · next l hl =>
    obtain ⟨rfl, henter⟩ := henters
    rw [henter.depth, entryDepth_arrival, entryDepth_eq_zero hcaught] at h
    rw [henter.depth_eq hlive]
    exact .label (getElem?_of_drop hcode) (hnot l hl) h
  · obtain ⟨rfl, rfl⟩ := henters
    exact h

/-! ## One block -/

/-- All suspension points can be resumed at. -/
def Resumable (c : Plan) (f : Flow) : Prop :=
  ∀ index l, c.resume.label? index = some l → f.labels.isReferenced l = true

theorem Resumable.mono (h : c.Resumable f) (ha : f.Advances g seg) : c.Resumable g :=
  fun index l hl => ha.isReferenced (h index l hl)

theorem Resumable.resumes (h : c.Resumable f) (ops : List Op) :
    (c.reading final).Resumes ops f := fun index l _ hl => h index l hl

/-- The code has what the outline says of a block, behind its label. -/
structure BodyFollows (c : Plan) (r : Reading) (code : List Instr) (b : Block) (f : Flow)
    (start : Nat) : Prop where
  follows : c.reachesBlock b = true → Follows r code start f.depth (c.outline.block b)
  resumed : ∀ index front back, c.outline.block b = front ++ .suspend index :: back →
    FollowsResumed r code index back
  returns : b.kind = .exit → r.joins .ret → ∃ l q, r.label? .ret = some l ∧
    code[q]? = some (.markLabel l) ∧ Follows r code (q + 1) 0 c.outline.returning

/-- The code has a block. -/
def HasBlock (c : Plan) (r : Reading) (code : List Instr) (b : Block) : Prop :=
  ∃ f start, BodyFollows c r code b f start ∧ ∀ l, c.label? b.id = some l →
    f.depth = c.outline.entryDepth (.block b.id) ∧
      ∃ q, start = q + 1 ∧ code[q]? = some (.markLabel l)

/-- Where the label of a block stands. -/
theorem hasBlock_of_labelMark (ha : Assembles f (c.labelMark b) seg g)
    (hcode : code.drop start = seg ++ post)
    (h : BodyFollows c r code b g (start + seg.length)) : HasBlock c r code b := by
  refine ⟨g, _, h, fun l hl => ?_⟩
  have henters := labelMark_enters ha
  rw [hl] at henters
  obtain ⟨rfl, henter⟩ := henters
  exact ⟨henter.depth.trans (entryDepth_arrival c b), start, rfl, getElem?_of_drop hcode⟩

/-- The operations of a block whose edge counts. -/
theorem outline_block_eq (hk : b.kind ≠ .exit) : c.outline.block b =
    c.outline.receive b.id ++ c.outline.statements b.statements ++ c.outline.edge b.edge := by
  unfold Outline.block Outline.rest Outline.blockEnd
  rw [if_neg hk, List.append_assoc]

theorem outline_exit_eq (hk : b.kind = .exit) : c.outline.block b =
    c.outline.receive b.id ++ c.outline.statements b.statements ++ c.outline.exit := by
  unfold Outline.block Outline.rest Outline.blockEnd
  rw [if_pos hk, List.append_assoc]

/-- The blocks that an edge leads to are the targets of its last operation. -/
theorem mem_targets_of_getLast? {e : Edge} {op : Op} {ops : List Op}
    (h : (ops ++ c.outline.edge e).getLast? = some op) {t : BlockId} (ht : t ∈ e.normalTargets) :
    .block t ∈ op.targets := by
  unfold Outline.edge at h
  cases e with
  | goto target =>
    rw [List.getLast?_concat] at h
    cases h
    exact List.mem_singleton.2 (congrArg Spot.block (List.mem_singleton.1 ht))
  | branch condition s s' =>
    simp only at h
    split at h
    · next heq =>
      subst heq
      rw [List.append_cons _ (Op.run .pop), ← List.append_assoc, ← List.append_assoc,
        List.getLast?_concat] at h
      cases h
      simp only [Edge.normalTargets, Edge.targets, List.mem_cons, List.not_mem_nil, or_false,
        or_self] at ht
      exact List.mem_singleton.2 (congrArg Spot.block ht)
    · rw [← List.append_assoc, List.getLast?_concat] at h
      cases h
      rcases List.mem_cons.1 ht with rfl | ht
      · exact List.mem_cons_self
      · cases List.mem_singleton.1 ht
        exact List.mem_cons_of_mem _ (List.mem_singleton.2 rfl)
  | switch selector cases default =>
    simp only at h
    rw [← List.append_assoc, List.getLast?_concat] at h
    cases h
    simp only [Op.targets, List.map_map]
    rcases List.mem_append.1 ht with ht | ht
    · obtain ⟨e, he, rfl⟩ := List.mem_map.1 ht
      exact List.mem_append_left _ (List.mem_map.2 ⟨e, he, rfl⟩)
    · cases List.mem_singleton.1 ht
      exact List.mem_append_right _ (List.mem_singleton.2 rfl)
  | protect body handler exception =>
    rw [List.append_cons, List.getLast?_concat] at h
    cases h
    exact List.mem_singleton.2 (congrArg Spot.block (List.mem_singleton.1 ht))
  | leave target =>
    rw [List.getLast?_concat] at h
    cases h
    exact List.mem_singleton.2 (congrArg Spot.block (List.mem_singleton.1 ht))
  | none => cases ht

theorem not_suspend_mem_exit (index : Int) : .suspend index ∉ c.outline.exit := by
  unfold Outline.exit Outline.setState Fragment.ops
  split <;> simp

/-- Where stored values are returned. -/
theorem returnPoint_follows {l : Label} {slot : TempSlot} {ds : List Directive}
    (hfits : frame.Fits c) (hslot : frame.returnSlot = some slot)
    (hreading : r.slot? = some slot) (href : f.labels.isReferenced l = true)
    (ha : Assembles f (.returnPoint l slot :: ds) seg g) (hcode : code.drop start = seg ++ post) :
    code[start]? = some (.markLabel l) ∧ Follows r code (start + 1) 0 c.outline.returning := by
  obtain ⟨instrs, f₁, seg₁, hstep, -, hfirst, -, -⟩ := ha.uncons hcode rfl
  have hpoint := Flow.step_returnPoint hstep
  split at hpoint
  · obtain ⟨f₂, f₃, c₁, c₂, c₃, hmark, hload, hret, rfl⟩ := hpoint
    obtain ⟨rfl, henter⟩ := Flow.step_mark hmark
    have hlive₂ : f₂.isLive = true := by rw [henter.isLive, href, Bool.or_true]
    obtain ⟨rfl, after₂, hpass₂⟩ := Flow.step_live hlive₂ hload
    obtain ⟨rfl, -⟩ := Flow.step_live hpass₂.isLive hret
    have hfirst : code.drop start = [.markLabel l] ++ (.loadTemp slot :: .ret true :: (seg₁ ++ post)) :=
      hfirst
    have hcode₁ : code.drop (start + 1) = [.loadTemp slot] ++ (.ret true :: (seg₁ ++ post)) :=
      drop_add_of_drop hfirst
    have hcode₂ : code.drop (start + 1 + 1) = .ret true :: (seg₁ ++ post) :=
      drop_add_of_drop hcode₁
    refine ⟨getElem?_of_drop hfirst, ?_⟩
    unfold Outline.returning
    rw [if_pos (hfits.slot slot hslot)]
    refine .unstage (getElem?_of_drop hcode₁) hreading ?_
    exact .halt (i := .ret true) (getElem?_of_drop hcode₂) rfl rfl rfl
  · rw [href] at hpoint
    cases hpoint.1

section
variable (hb : b ∈ c.blocks)
  (hblock : BlockGives c b next frame frame' ds mid mid' dsEntry dsBody dsEnd)
  (hlive : c.reachesBlock b = true → f.isLive = true) (hresume : c.Resumable f)
include hb hblock hlive hresume

/-- Control gets to wherever the edge of a block leads, and return statements have branched. -/
theorem edgeBlock_arrives (hmade : c.Made) (hk : b.kind ≠ .exit) (hfinal : frame'.Grows final)
    (ha : Assembles f (dsBody ++ dsEnd) seg g) :
    (c.reachesEdge b = true → ∀ t ∈ b.edge.normalTargets,
      Arrives (c.reading final) (next.map .block) g (.block t)) ∧
    (Stmt.reachesReturn (c.reachesBlock b) b.statements = true → ReturnReferenced frame' g) := by
  obtain ⟨f₁, seg₁, seg₂, hbody, hend, rfl⟩ := Assembles.append_iff.1 ha
  have hgives := hblock.blockEnd
  unfold blockEnd at hgives
  rw [if_neg hk] at hgives
  obtain ⟨rfl, hedge⟩ := edge_renders hgives
  have hcovers := reading_covers (c := c) hfinal
  have hedge := hedge _ _ hcovers (reading_admits hmade hb hk)
  have hrenders := hblock.body _ _ hcovers (reading_joins_ret hb)
  rw [← reachesEdge_eq hk] at hrenders
  refine ⟨fun hreach t ht => ?_, fun hreach => ?_⟩
  · obtain ⟨op, hop, harrives⟩ :=
      (hedge.prepend hrenders).arrives ha hlive (hresume.resumes _) hreach
    exact (harrives _ (mem_targets_of_getLast? hop ht)).2
  · have href := hblock.returns _ _ _ _ _ hcovers (reading_joins_ret hb) hbody hlive
      (hresume.resumes _) hreach
    exact href.mono (.refl _) (hend.advances fun d hd => (hedge.sound d hd).isProper)

/-- The code of a block that is not the exit. -/
theorem edgeBlock_follows (hmade : c.Made) (hk : b.kind ≠ .exit) (hfinal : frame'.Grows final)
    (ha : Assembles f (dsBody ++ dsEnd) seg g) (hsuits : (c.reading final).Suits code)
    (hcode : code.drop start = seg ++ post) (hstop : stop = start + seg.length)
    (hnext : Precedes (c.reading final) code (next.map .block) g stop) :
    BodyFollows c (c.reading final) code b f start := by
  have hgives := hblock.blockEnd
  unfold blockEnd at hgives
  rw [if_neg hk] at hgives
  obtain ⟨rfl, hedge⟩ := edge_renders hgives
  have hcovers := reading_covers (c := c) hfinal
  have hrenders := hblock.body _ _ hcovers (reading_joins_ret hb)
  rw [← reachesEdge_eq hk] at hrenders
  obtain ⟨hfollows, hresumed⟩ :=
    ((hedge _ _ hcovers (reading_admits hmade hb hk)).prepend hrenders).follows hsuits ha hcode
      hstop hnext hlive (hresume.resumes _)
  rw [← outline_block_eq hk] at hfollows hresumed
  exact ⟨hfollows, hresumed, fun hexit => absurd hexit hk⟩

/-- The code of the exit, whether stored values are returned behind it or it returns for all. -/
theorem exitBlock_follows (hk : b.kind = .exit) (hfinal : frame'.Grows final)
    (ha : Assembles f (dsBody ++ dsEnd) seg g) (hsuits : (c.reading final).Suits code)
    (hcode : code.drop start = seg ++ post)
    (hreturn : c.reachesReturn = true →
      Stmt.reachesReturn (c.reachesBlock b) b.statements = true ∨ ReturnReferenced mid' f) :
    BodyFollows c (c.reading final) code b f start := by
  have hgives := hblock.blockEnd
  unfold blockEnd at hgives
  rw [if_pos hk] at hgives
  obtain ⟨hgrows, hfits, ds₀, hexit, hend⟩ := exit_gives hblock.fits hgives
  have hcovers := reading_covers (c := c) (hgrows.trans hfinal)
  have hbody := hblock.body _ _ hcovers (reading_joins_ret hb)
  obtain ⟨f₁, seg₁, seg₂, hassembled, hrest, rfl⟩ := Assembles.append_iff.1 ha
  rw [List.append_assoc] at hcode
  have hreal := hbody.follows hsuits hassembled hcode rfl hlive (hresume.resumes _)
  have hlive₁ := hbody.isLive hassembled hlive (hresume.resumes _)
  have hresume₁ := hresume.mono (hassembled.advances hbody.isProper)
  have hcode₁ := drop_add_of_drop hcode
  have hreturn₁ : c.reachesReturn = true → ReturnReferenced mid' f₁ := by
    intro hreach
    rcases hreturn hreach with hhere | hbefore
    · exact hblock.returns _ _ _ _ _ hcovers (reading_joins_ret hb) hassembled hlive
        (hresume.resumes _) hhere
    · exact hbefore.mono (.refl _) (hassembled.advances hbody.isProper)
  -- what is behind the statements, once the exit is known to be followed from there
  have hwhole (hops : Stmt.liveThrough (c.reachesBlock b) b.statements = true →
      Follows (c.reading final) code (start + seg₁.length) f₁.depth c.outline.exit)
      (hreturns : (c.reading final).joins .ret → ∃ l q, (c.reading final).label? .ret = some l ∧
        code[q]? = some (.markLabel l) ∧
        Follows (c.reading final) code (q + 1) 0 c.outline.returning) :
      BodyFollows c (c.reading final) code b f start := by
    refine ⟨fun hv => ?_, fun index front back h => ?_, fun _ => hreturns⟩
    · rw [outline_exit_eq hk]
      exact hreal.follows _ hops hv
    · rw [outline_exit_eq hk] at h
      exact hreal.resumed_append hops not_suspend_mem_exit h
  cases hslot : mid'.returnSlot with
  | some slot =>
    rw [hslot] at hend
    obtain ⟨l, hl, rfl⟩ := hend
    obtain ⟨f₂, seg₃, seg₄, hexit', hpoint, rfl⟩ := Assembles.append_iff.1 hrest
    rw [List.append_assoc] at hcode₁
    have hrenders := hexit (c.reading final) f₁.isLive
    have hfollows := (hrenders.follows hsuits hexit' hcode₁ rfl id (hresume₁.resumes _)).follows []
      nofun
    rw [List.append_nil] at hfollows
    refine hwhole (fun hv => hfollows (hlive₁ hv)) fun hjoins => ?_
    obtain ⟨l', hl', href⟩ := hreturn₁ hjoins
    obtain rfl : l' = l := Option.some_inj.1 ((hgrows.returnLabel l' hl').symm.trans hl)
    have href₂ := (hexit'.advances hrenders.isProper).isReferenced href
    obtain ⟨hmark, hreturning⟩ := returnPoint_follows hblock.fits hslot (hcovers.slot slot hslot)
      href₂ hpoint (drop_add_of_drop hcode₁)
    exact ⟨l', _, hfinal.returnLabel l' hl, hmark, hreturning⟩
  | none =>
    rw [hslot] at hend
    obtain ⟨-, rfl⟩ := hend
    have hstages : c.outline.stages = false ∨ mid'.returnLabel = none := by
      cases hl : mid'.returnLabel with
      | none => exact .inr rfl
      | some l =>
        refine .inl (eq_false_of_ne_true fun h => ?_)
        obtain ⟨s, hs⟩ := (hblock.fits.label l hl).2 h
        rw [hslot] at hs
        cases hs
    cases hl : mid'.returnLabel with
    | none =>
      rw [hl] at hrest
      have hfollows := ((hexit (c.reading final) f₁.isLive).follows hsuits hrest hcode₁ rfl id
        (hresume₁.resumes _)).follows [] nofun
      rw [List.append_nil] at hfollows
      refine hwhole (fun hv => hfollows (hlive₁ hv)) fun hjoins => ?_
      obtain ⟨l', hl', -⟩ := hreturn₁ hjoins
      rw [hl] at hl'
      cases hl'
    | some l =>
      rw [hl] at hrest hstages
      obtain ⟨instrs, f₂, seg₃, hstep, hexit', hfirst, hcode₂, -⟩ := hrest.uncons hcode₁ rfl
      obtain ⟨rfl, henter⟩ := Flow.step_mark hstep
      have hresume₂ := hresume₁.mono (Flow.step_advances hstep trivial)
      have hfollows := ((hexit (c.reading final) f₂.isLive).follows hsuits hexit' hcode₂ rfl id
        (hresume₂.resumes _)).follows [] nofun
      rw [List.append_nil, henter.depth] at hfollows
      have hmark := getElem?_of_drop hfirst
      have hnot : l ∉ handlersIn code := fun hmem =>
        absurd (hsuits.handler_lt l hmem) (Nat.not_lt.2 (hblock.fits.label l hl).1)
      refine hwhole (fun hv => ?_) fun hjoins => ?_
      · rw [henter.depth_eq (hlive₁ hv)]
        refine .label hmark hnot (hfollows ?_)
        rw [henter.isLive, hlive₁ hv]
        rfl
      · obtain ⟨l', hl', href⟩ := hreturn₁ hjoins
        obtain rfl : l' = l := Option.some_inj.1 (hl'.symm.trans hl)
        refine ⟨l', _, hcovers.ret l' hl, hmark, ?_⟩
        unfold Outline.returning
        rw [if_neg (by rw [hstages.resolve_right nofun]; exact Bool.false_ne_true)]
        exact hfollows (by rw [henter.isLive, href, Bool.or_true])

end

/-! ## All blocks -/

/-- No protected region sends its exceptions to the exit. -/
theorem exit_mem_normalTargets (hmade : c.Made) (hb : b ∈ c.blocks)
    (h : c.procedure.graph.exit ∈ b.edge.targets) :
    c.procedure.graph.exit ∈ b.edge.normalTargets := by
  rcases Edge.mem_targets_iff.1 h with h | h
  · exact h
  · obtain ⟨⟨b', hb', hid, hk⟩, -⟩ := hmade.handler (Made.isSome_caught?_iff.2 ⟨b, hb, h⟩)
    rw [(hmade.kind_eq_exit_iff hb').2 hid] at hk
    cases hk

/-- Control gets to the statements of a block behind its label, or to the exit if some block before
it has seen to that. -/
theorem isLive_of_labelMark (final : Frame) (hk : b.kind ≠ .start)
    (ha : Assembles f (c.labelMark b) seg g)
    (hexit : b.kind = .exit → c.reachesExit = true →
      Arrives (c.reading final) (some (.block b.id)) f (.block b.id)) :
    c.reachesBlock b = true → g.isLive = true := by
  intro hreach
  unfold reachesBlock at hreach
  have henters := labelMark_enters ha
  split at hreach
  · next hkind =>
    have harrives := hexit hkind hreach
    split at henters
    · next l hl =>
      rw [henters.2.isLive]
      rcases harrives with ⟨-, hlive⟩ | ⟨l', hl', href⟩
      · rw [hlive]
        rfl
      · obtain rfl : l = l' := Option.some_inj.1 (hl.symm.trans hl')
        rw [href, Bool.or_true]
    · next hl =>
      rw [henters.2]
      rcases harrives with ⟨-, hlive⟩ | ⟨l', hl', -⟩
      · exact hlive
      · rw [show (c.reading final).label? (.block b.id) = c.label? b.id from rfl, hl] at hl'
        cases hl'
  · next hkind =>
    rw [decide_eq_false hk, Bool.false_or] at hreach
    obtain ⟨l, hl⟩ := Option.isSome_iff_exists.1 hreach
    rw [hl] at henters
    have harrival : c.arrival b ≠ .forward := by
      unfold arrival
      rw [if_neg hkind]
      split <;> exact nofun
    rw [henters.2.isLive, decide_eq_true harrival, Bool.or_true]
    rfl

/-- The label of a block follows the end of the block before it. -/
theorem precedes_of_labelMark (ha : Assembles f (c.labelMark b) seg g)
    (hcode : code.drop start = seg ++ post) :
    Precedes (c.reading final) code (some (.block b.id)) f start := by
  rintro s hs hjoins
  cases hs
  obtain ⟨l, hl⟩ := Option.isSome_iff_exists.1 hjoins.2.1
  have henters := labelMark_enters ha
  rw [hl] at henters
  obtain ⟨rfl, henter⟩ := henters
  exact ⟨l, hl, getElem?_of_drop hcode, henter.depth_eq⟩

/-- Only the start block has code in front of its label. -/
theorem blockGives_of_ne_start (hmade : c.Made) (hk : b.kind ≠ .start) (hfits : frame.Fits c)
    {u : Unit} (h : (c.block b next).Gives frame ds frame' u) :
    ∃ mid' dsBody dsEnd, BlockGives c b next frame frame' ds frame mid' [] dsBody dsEnd := by
  obtain ⟨mid, mid', dsEntry, dsBody, dsEnd, -, hblock⟩ := block_gives hmade hfits h
  have hentry := hblock.entry
  rw [if_neg hk] at hentry
  obtain ⟨rfl, rfl, -⟩ := Draft.gives_pure_iff.1 hentry
  exact ⟨mid', dsBody, dsEnd, hblock⟩

/-- What the blocks that are still to come have to see to: that the exit and the return label are
arrived at, where the blocks before them have not. -/
structure Owes (c : Plan) (final : Frame) (mids : List Block) (last : Block) (frame : Frame)
    (f : Flow) : Prop where
  exit : c.reachesExit = true →
    (∃ b ∈ mids, c.reachesEdge b = true ∧ last.id ∈ b.edge.normalTargets) ∨
      Arrives (c.reading final) ((mids ++ [last]).head?.map fun b => .block b.id) f
        (.block last.id)
  ret : c.reachesReturn = true →
    (∃ b ∈ mids ++ [last], Stmt.reachesReturn (c.reachesBlock b) b.statements = true) ∨
      ReturnReferenced frame f

/-- A block does its part. -/
theorem Owes.tail {mids : List Block} {last : Block} {f₁ f₂ : Flow} {seg₁ seg₂ : List Instr}
    (h : c.Owes final (b :: mids) last frame f) (hne : b.id ≠ last.id)
    (hgrows : frame.Grows frame') (h₁ : f.Advances f₁ seg₁) (h₂ : f₁.Advances f₂ seg₂)
    (hedge : c.reachesEdge b = true → ∀ t ∈ b.edge.normalTargets,
      Arrives (c.reading final) ((mids ++ [last]).head?.map fun b => .block b.id) f₂ (.block t))
    (hreturn : Stmt.reachesReturn (c.reachesBlock b) b.statements = true →
      ReturnReferenced frame' f₂) : c.Owes final mids last frame' f₂ where
  exit hreach := by
    rcases h.exit hreach with ⟨b', hb', hedge', ht⟩ | ⟨hnext, -⟩ | ⟨l, hl, href⟩
    · rcases List.mem_cons.1 hb' with rfl | hb'
      · exact .inr (hedge hedge' _ ht)
      · exact .inl ⟨b', hb', hedge', ht⟩
    · injection hnext with hnext
      injection hnext with hnext
      exact absurd hnext hne
    · exact .inr (.inr ⟨l, hl, h₂.isReferenced (h₁.isReferenced href)⟩)
  ret hreach := by
    rcases h.ret hreach with ⟨b', hb', hreturn'⟩ | hreturned
    · rcases List.mem_cons.1 hb' with rfl | hb'
      · exact .inr (hreturn hreturn')
      · exact .inl ⟨b', hb', hreturn'⟩
    · exact .inr ((hreturned.mono (.refl _) h₁).mono hgrows h₂)

/-- The code of the blocks behind the start. -/
theorem blocksFrom_follows (hmade : c.Made) {mids : List Block} {last : Block}
    (hmids : ∀ b ∈ mids, b ∈ c.blocks ∧ b.kind = .normal)
    (hlast : last ∈ c.blocks ∧ last.kind = .exit) (hfits : frame.Fits c) {u : Unit}
    (h : (c.blocksFrom (mids ++ [last])).Gives frame ds frame' u) (hfinal : frame'.Grows final)
    (ha : Assembles f ds seg g) (hsuits : (c.reading final).Suits code)
    (hcode : code.drop start = seg ++ post) (hresume : c.Resumable f)
    (howes : c.Owes final mids last frame f) :
    Precedes (c.reading final) code ((mids ++ [last]).head?.map fun b => .block b.id) f start ∧
      ∀ b ∈ mids ++ [last], HasBlock c (c.reading final) code b := by
  induction mids generalizing frame f ds seg start with
  | nil =>
    obtain ⟨_, mid, ds₁, ds₂, h₁, h₂, rfl⟩ := Draft.gives_bind_iff.1 h
    obtain ⟨rfl, rfl, -⟩ := Draft.gives_pure_iff.1 h₂
    have hk : last.kind ≠ .start := by rw [hlast.2]; exact nofun
    obtain ⟨mid', dsBody, dsEnd, hblock⟩ := blockGives_of_ne_start hmade hk hfits h₁
    rw [List.append_nil, hblock.code, List.nil_append] at ha
    obtain ⟨f₁, seg₁, seg₂, hmark, hrest, rfl⟩ := Assembles.append_iff.1 ha
    rw [List.append_assoc] at hcode
    have hadvances := hmark.advances labelMark_isProper
    have hlive := isLive_of_labelMark final hk hmark
      fun _ hreach => (howes.exit hreach).resolve_left nofun
    refine ⟨precedes_of_labelMark hmark hcode, List.forall_mem_singleton.2 ?_⟩
    refine hasBlock_of_labelMark hmark hcode ?_
    refine exitBlock_follows hlast.1 hblock hlive (hresume.mono hadvances) hlast.2 hfinal hrest
      hsuits (drop_add_of_drop hcode) fun hreach => ?_
    rcases howes.ret hreach with ⟨b, hb, hreturns⟩ | hreturned
    · cases List.mem_singleton.1 hb
      exact .inl hreturns
    · exact .inr (hreturned.mono hblock.grows hadvances)
  | cons b mids ih =>
    obtain ⟨⟨hb, hk⟩, hmids⟩ := List.forall_mem_cons.1 hmids
    obtain ⟨_, mid, ds₁, ds₂, h₁, h₂, rfl⟩ := Draft.gives_bind_iff.1 h
    have hmem : ∀ b ∈ mids ++ [last], b ∈ c.blocks := List.forall_mem_append.2
      ⟨fun b hb => (hmids b hb).1, List.forall_mem_singleton.2 hlast.1⟩
    obtain ⟨hgrows₁, hfits₁, hsound₁⟩ := block_sound hmade hb hfits h₁
    obtain ⟨hgrows₂, -, -⟩ := blocksFrom_sound hmade hmem hfits₁ h₂
    have hfinal₁ := hgrows₂.trans hfinal
    have hstart : b.kind ≠ .start := by rw [hk]; exact nofun
    have hend : b.kind ≠ .exit := by rw [hk]; exact nofun
    obtain ⟨mid', dsBody, dsEnd, hblock⟩ := blockGives_of_ne_start hmade hstart hfits h₁
    have hcodeb := hblock.code
    rw [List.nil_append] at hcodeb
    rw [hcodeb] at ha hsound₁
    obtain ⟨f₂, seg₀, seg₃, hfirst, htail, rfl⟩ := Assembles.append_iff.1 ha
    obtain ⟨f₁, seg₁, seg₂, hmark, hrest, rfl⟩ := Assembles.append_iff.1 hfirst
    have hcode₁ := hcode
    rw [List.append_assoc, List.append_assoc] at hcode₁
    rw [List.append_assoc] at hcode
    have hadvances₁ := hmark.advances labelMark_isProper
    have hadvances₂ := hrest.advances fun d hd =>
      ((hsound₁ final hfinal₁).1 d (List.mem_append_right _ hd)).isProper
    have hresume₁ := hresume.mono hadvances₁
    have hlive := isLive_of_labelMark final hstart hmark
      fun hexit => absurd hexit hend
    have hne : b.id ≠ last.id := by
      intro hid
      have hsame := (hmade.block? b hb).symm.trans (hid ▸ hmade.block? last hlast.1)
      rw [Option.some_inj.1 hsame] at hend
      exact hend hlast.2
    obtain ⟨hedge, hreturn⟩ :=
      edgeBlock_arrives hb hblock hlive hresume₁ hmade hend hfinal₁ hrest
    rw [Option.map_map] at hedge
    have howes₂ := howes.tail hne hgrows₁ hadvances₁ hadvances₂ hedge hreturn
    obtain ⟨hnext, hhas⟩ := ih hmids hfits₁ h₂ htail (drop_add_of_drop hcode)
      (hresume₁.mono hadvances₂) howes₂
    refine ⟨precedes_of_labelMark hmark hcode₁, List.forall_mem_cons.2 ⟨?_, hhas⟩⟩
    refine hasBlock_of_labelMark hmark hcode₁ ?_
    refine edgeBlock_follows hb hblock hlive hresume₁ hmade hend hfinal₁ hrest hsuits
      (drop_add_of_drop hcode₁) rfl ?_
    rw [Option.map_map, Nat.add_assoc, ← List.length_append]
    exact hnext

/-! ## The entry -/

/-- Control passes through all that is done before a generator is dispatched, no label is named, and the
state stays what it is. -/
theorem prologue_passes (c : Plan) : ∀ op ∈ c.outline.prologue, ∃ i, op = .run i ∧
    i.isStraight = true ∧ i.endsFlow = false ∧ i.usesState = false := by
  have hplain {α : Type} {x : Fragment α} (hx : x.IsPlain) : ∀ op ∈ x.ops, ∃ i, op = .run i ∧
      i.isStraight = true ∧ i.endsFlow = false ∧ i.usesState = false := by
    intro op hop
    obtain ⟨i, hi, rfl⟩ := List.mem_map.1 hop
    have hi := hx i hi
    rw [Instr.erased_of_isPlain hi]
    exact ⟨i, rfl, Instr.isStraight_of_isPlain hi, Instr.endsFlow_of_isPlain hi,
      Instr.usesState_of_isPlain hi⟩
  have hone {i : Instr} (hi : i.isStraight = true ∧ i.endsFlow = false ∧ i.usesState = false) :
      ∀ op ∈ [Op.run i], ∃ i, op = .run i ∧
        i.isStraight = true ∧ i.endsFlow = false ∧ i.usesState = false :=
    List.forall_mem_singleton.2 ⟨i, rfl, hi⟩
  have hpoint (span : Option Span) : ∀ op ∈ c.outline.sequencePoint span, ∃ i, op = .run i ∧
      i.isStraight = true ∧ i.endsFlow = false ∧ i.usesState = false := by
    unfold Outline.sequencePoint
    split
    · split
      · exact hone ⟨rfl, rfl, rfl⟩
      · simp
    · simp
  unfold Outline.prologue
  simp only [List.forall_mem_append]
  refine ⟨⟨⟨⟨⟨?_, ?_⟩, ?_⟩, hplain c.procedure.isPlain_initLocals⟩, ?_⟩, ?_⟩
  · split
    · exact hone ⟨rfl, rfl, rfl⟩
    · simp
  · split
    · exact List.forall_mem_cons.2 ⟨⟨_, rfl, rfl, rfl, rfl⟩, hone ⟨rfl, rfl, rfl⟩⟩
    · simp
  · split
    · exact hplain (Fragment.isPlain_callWithName _ _)
    · simp
  · unfold Outline.debugLocals
    split
    · split
      · refine List.forall_mem_flatMap.2 fun v _ => List.forall_mem_cons.2
          ⟨⟨_, rfl, rfl, rfl, rfl⟩, List.forall_mem_cons.2 ⟨⟨_, rfl, rfl, rfl, rfl⟩,
            List.forall_mem_cons.2 ⟨⟨_, rfl, rfl, rfl, rfl⟩, hone ⟨rfl, rfl, rfl⟩⟩⟩⟩
      · simp
    · simp
  · unfold Outline.openingBrace
    split
    · split
      · exact List.forall_mem_append.2 ⟨hpoint _, hone ⟨rfl, rfl, rfl⟩⟩
      · simp
    · simp

/-- Before a generator is dispatched nothing is suspended. -/
theorem prologue_run (c : Plan) : ∀ op ∈ c.outline.prologue, ∃ i, op = .run i := by
  intro op hop
  obtain ⟨i, hi, -⟩ := prologue_passes c op hop
  exact ⟨i, hi⟩

/-- The table of the jump to where a generator stopped. -/
theorem resumeCases_points (final : Frame) (hmade : c.Made) (hgen : c.procedure.isGenerator = true) :
    List.Forall₂ (fun e t => e.1 = t.1 ∧ (c.reading final).label? e.2 = some t.2)
      c.outline.resumeCases c.resume.points := by
  rw [points_eq hmade hgen]
  have hyields : c.outline.procedure.graph.yields = c.procedure.graph.yields := rfl
  unfold Outline.resumeCases
  rw [hyields, List.forall₂_map_left_iff, List.forall₂_map_right_iff, List.forall₂_same]
  intro i hi
  have hi := List.mem_range.1 hi
  have hlabel : c.resume.label? ((i : Int) + 1) = some ⟨c.labelled.length + i⟩ := by
    refine hmade.resume_label?_eq_some_iff.2 ⟨by omega, ?_, by simp⟩
    rw [hmade.resume, if_pos hgen, List.length_map, List.length_range]
    omega
  exact ⟨rfl, hlabel⟩

/-- Every suspension point has its case. -/
theorem mem_resumeCases (hmade : c.Made) {index : Int} {l : Label}
    (h : c.resume.label? index = some l) :
    .resume index ∈ (Op.select c.outline.resumeCases .body).targets := by
  obtain ⟨hpos, hle, -⟩ := hmade.resume_label?_eq_some_iff.1 h
  rw [hmade.resume, List.length_map, List.length_range] at hle
  refine List.mem_append_left _ (List.mem_map.2 ⟨(index, .resume index), ?_, rfl⟩)
  refine List.mem_map.2 ⟨index.toNat - 1, List.mem_range.2 ?_, ?_⟩
  · change index.toNat - 1 < c.procedure.graph.yields.length
    split at hle <;> omega
  · rw [show ((index.toNat - 1 : Nat) : Int) + 1 = index by omega]

/-- An ordinary procedure is not resumed. -/
theorem resumable_of_ordinary (hmade : c.Made) (hgen : c.procedure.isGenerator = false) :
    c.Resumable f := by
  intro index l hl
  rw [hmade.isGenerator_of_resume_label? hl] at hgen
  cases hgen

/-- The dispatch of a generator renders the operations of the outline. -/
theorem dispatch_renders (final : Frame) (hmade : c.Made) (hgen : c.procedure.isGenerator = true)
    (hsize : frame.labels.size = c.bound) (slot : TempSlot) {notes : List Directive}
    (hnotes : ∀ d ∈ notes, ∃ i, d = .instr i ∧ i.isNote = true) :
    RendersEnd (c.reading final) none true
      (notes ++ [.instr .loadState, .instr (.storeTemp slot),
        .instr (.constInt GeneratorState.running.toInt), .instr .storeState,
        .instr (.loadTemp slot), .instr (.switch c.resume.points ⟨frame.labels.size⟩)])
      c.outline.dispatch true := by
  have hrun : Renders (c.reading final) true (notes ++ [.instr .loadState,
      .instr (.storeTemp slot), .instr (.constInt GeneratorState.running.toInt),
      .instr .storeState, .instr (.loadTemp slot)])
      ([.run .loadState, .run (.storeTemp ⟨0⟩)] ++ Outline.setState .running ++
        [.run (.loadTemp ⟨0⟩)]) true := by
    induction notes with
    | nil =>
      exact .step rfl rfl (.step rfl rfl (.step rfl rfl (.step rfl rfl (.step rfl rfl (.nil _)))))
    | cons d notes ih =>
      obtain ⟨⟨i, rfl, hi⟩, hrest⟩ := List.forall_mem_cons.1 hnotes
      exact .note hi (ih hrest)
  have hbody : (c.reading final).label? .body = some ⟨frame.labels.size⟩ := by
    change (if c.procedure.isGenerator then some (Label.mk c.bound) else none) = _
    rw [hgen, if_pos rfl, hsize]
  have hends : Ends (c.reading final) none true
      [.instr (.switch c.resume.points ⟨frame.labels.size⟩)] [.select c.outline.resumeCases .body] := by
    refine .select (resumeCases_points final hmade hgen) hbody (fun e he _ => ?_) (fun _ => hgen)
    obtain ⟨t, ht, -, hlabel⟩ := exists_of_forall₂ (resumeCases_points final hmade hgen) he
    obtain ⟨i, -, rfl⟩ := List.mem_map.1 he
    exact Option.isSome_iff_exists.2 ⟨t.2, hlabel⟩
  have hwhole := RendersEnd.prepend hrun (.ofEnds hends)
  rw [List.append_assoc] at hwhole
  exact hwhole

/-- What is executed first, up to the block `k` that comes behind. -/
structure EntryFollows (c : Plan) (r : Reading) (code : List Instr) (f g : Flow)
    (start stop : Nat) : Prop where
  isLive : g.isLive = true
  resumable : c.Resumable g
  follows : ∀ k, Follows r code stop g.depth k → Follows r code start f.depth
    (c.outline.prologue ++ if c.procedure.isGenerator then c.outline.dispatch else k)
  body : c.procedure.isGenerator = true → ∃ l q, r.label? .body = some l ∧
    code[q]? = some (.markLabel l) ∧ ∀ k, Follows r code stop g.depth k → Follows r code (q + 1) 0 k

theorem entry_follows (final : Frame) (hmade : c.Made) (hsize : frame.labels.size = c.bound) {u : Unit}
    (h : c.entry.Gives frame ds frame' u) (ha : Assembles f ds seg g) (hlive : f.isLive = true)
    (hsuits : (c.reading final).Suits code) (hcode : code.drop start = seg ++ post) :
    EntryFollows c (c.reading final) code f g start (start + seg.length) := by
  obtain ⟨mid, ds₁, ds₂, rfl, hkeeps, hprologue, hrest⟩ := entry_gives h
  obtain ⟨f₁, seg₁, seg₂, hfirst, hsecond, rfl⟩ := Assembles.append_iff.1 ha
  have hrenders := hprologue (c.reading final) true
  rw [List.append_assoc] at hcode
  have hcode₁ := drop_add_of_drop hcode
  have hres : (c.reading final).Resumes c.outline.prologue f := .of_run (prologue_run c)
  have hreal := hrenders.follows hsuits hfirst hcode rfl (fun _ => hlive) hres
  have hlive₁ := hrenders.isLive hfirst (fun _ => hlive) hres rfl
  cases hgen : c.procedure.isGenerator with
  | false =>
    rw [hgen, if_neg Bool.false_ne_true] at hrest
    obtain ⟨rfl, -, -⟩ := Draft.gives_pure_iff.1 hrest
    obtain ⟨rfl, rfl⟩ := Assembles.nil_iff.1 hsecond
    rw [List.append_nil]
    refine ⟨hlive₁, resumable_of_ordinary hmade hgen, fun k hk => ?_, fun h => ?_⟩
    · rw [hgen, if_neg Bool.false_ne_true]
      exact hreal.follows k (fun _ => hk) rfl
    · rw [hgen] at h
      cases h
  | true =>
    rw [hgen, if_pos rfl] at hrest
    obtain ⟨slot, notes, hnotes, rfl, -⟩ := dispatch_gives hrest
    have hmid : mid.labels.size = c.bound := by rw [hkeeps.labels, hsize]
    have hdispatch := dispatch_renders final hmade hgen hmid slot hnotes
    have hsplit : ∀ ds₁ : List Directive, ∀ d₁ d₂ d₃ d₄ d₅ d₆ d₇ d₈ : Directive,
        ds₁ ++ [d₁, d₂, d₃, d₄, d₅, d₆, d₇, d₈] = (ds₁ ++ [d₁, d₂, d₃, d₄, d₅, d₆]) ++ [d₇, d₈] := by
      simp
    rw [hsplit] at hsecond
    obtain ⟨f₂, seg₃, seg₄, hjump, hmark, rfl⟩ := Assembles.append_iff.1 hsecond
    rw [List.append_assoc] at hcode₁
    have hres₁ : (c.reading final).Resumes c.outline.dispatch f₁ := .of_not_mem (by
      unfold Outline.dispatch Outline.setState
      simp)
    obtain ⟨hfollows, -⟩ := hdispatch.follows hsuits hjump hcode₁ rfl (fun _ hs => nomatch hs)
      (fun _ => hlive₁) hres₁
    obtain ⟨op, hop, harrives⟩ := hdispatch.arrives hjump (fun _ => hlive₁) hres₁ rfl
    cases hop
    have hresume : c.Resumable f₂ := by
      intro index l hl
      obtain ⟨-, ⟨hnone, -⟩ | ⟨l', hl', href⟩⟩ := harrives _ (mem_resumeCases hmade hl)
      · cases hnone
      · obtain rfl : l = l' := Option.some_inj.1 (hl.symm.trans hl')
        exact href
    have hbody : (c.reading final).label? .body = some ⟨mid.labels.size⟩ := by
      change (if c.procedure.isGenerator then some (Label.mk c.bound) else none) = _
      rw [hgen, if_pos rfl, hmid]
    have href : f₂.labels.isReferenced ⟨mid.labels.size⟩ = true := by
      have hmem : Spot.body ∈ (Op.select c.outline.resumeCases .body).targets :=
        List.mem_append_right _ (List.mem_singleton.2 rfl)
      obtain ⟨-, ⟨hnone, -⟩ | ⟨l', hl', href⟩⟩ := harrives _ hmem
      · cases hnone
      · obtain rfl := Option.some_inj.1 (hbody.symm.trans hl')
        exact href
    obtain ⟨_, f₃, seg₅, hfree, hmark, -, hcode₂, hstop⟩ :=
      hmark.uncons (drop_add_of_drop hcode₁) rfl
    obtain ⟨rfl, -, -⟩ := Flow.step_note rfl hfree
    have hadvances := Flow.step_advances hfree rfl
    obtain ⟨_, f₄, _, hmark, hnil, hfirst, -, hstop⟩ := hmark.uncons hcode₂ hstop
    obtain ⟨rfl, rfl⟩ := Assembles.nil_iff.1 hnil
    obtain ⟨rfl, henter⟩ := Flow.step_mark hmark
    have hadvances' := hadvances.trans (Flow.step_advances hmark trivial)
    refine ⟨?_, hresume.mono hadvances', fun k _ => ?_, fun _ => ?_⟩
    · rw [henter.isLive, hadvances.isReferenced href, Bool.or_true]
    · rw [hgen, if_pos rfl]
      exact hreal.follows _ (fun _ => hfollows rfl) rfl
    · refine ⟨_, _, hbody, getElem?_of_drop hfirst, fun k hk => ?_⟩
      rw [henter.depth, List.length_append, List.length_append, ← Nat.add_assoc,
        ← Nat.add_assoc, hstop] at hk
      exact hk

end Plan

/-- Execution follows the outline from wherever it is entered: at the beginning, at a spot with an
empty stack, and at a handler with the exception. -/
structure Realizes (r : Reading) (o : Outline) (code : List Instr) : Prop where
  entry : Follows r code 0 0 o.entry
  spot : ∀ s, r.joins s → ∃ l q, r.label? s = some l ∧ code[q]? = some (.markLabel l) ∧
    l ∉ handlersIn code ∧ Follows r code (q + 1) 0 (o.opsAt s)
  handler : ∀ h, r.catches h → ∃ l q, r.label? (.block h) = some l ∧
    code[q]? = some (.markLabel l) ∧ Follows r code (q + 1) 1 (o.opsAt (.block h))
  /-- The protected regions of the code are those of the reading. -/
  opened : ∀ l ∈ handlersIn code, ∃ h, r.catches h ∧ r.label? (.block h) = some l
  placed_nodup : (placedIn code).Nodup
  targets_placed : ∀ l ∈ targetsIn code, l ∈ placedIn code

namespace Plan

variable {c : Plan} {labels : LabelTable} {ds : List Directive} {final : Frame}
  {code : List Instr} {g : Flow}

/-- What is known of a finished draft: its beginning, and that its directives are sound. -/
theorem Lowered.sound (hmade : c.Made) (hsize : labels.size = c.bound)
    (h : c.Lowered labels ds final code g) :
    final.Fits c ∧ ({ labels } : Frame).Grows final ∧
      (∀ d ∈ ds, d.Sound (c.reading final)) ∧ Receives ds := by
  obtain ⟨_, mid, ds₁, ds₂, h₁, h₂, rfl⟩ := Draft.gives_bind_iff.1 h.gives
  obtain ⟨hkeeps, hnotes⟩ := releaseDebugLocals_gives h₂
  have hfits : ({ labels } : Frame).Fits c :=
    ⟨Nat.le_of_eq hsize.symm, nofun, nofun⟩
  obtain ⟨hgrows, hfits₁, hsound⟩ := blocksFrom_sound hmade (fun _ => id) hfits h₁
  obtain ⟨hsound, hreceives⟩ := hsound final hkeeps.grows
  refine ⟨hfits₁.mono hkeeps.grows hkeeps.returnLabel hkeeps.returnSlot, hgrows.trans hkeeps.grows,
    List.forall_mem_append.2 ⟨hsound, fun d hd => ?_⟩, hreceives.append (.of_forall fun d hd => ?_)⟩
  · obtain ⟨i, rfl, hi⟩ := hnotes d hd
    exact .of_isNote hi
  · obtain ⟨i, rfl, hi⟩ := hnotes d hd
    rfl

/-- The labels of the code are marked once, and all that is branched to is marked. -/
theorem Lowered.placed (hmade : c.Made) (hsize : labels.size = c.bound) (hblank : labels.IsBlank)
    (h : c.Lowered labels ds final code g) :
    (placedIn code).Nodup ∧ ∀ l ∈ targetsIn code, l ∈ placedIn code := by
  obtain ⟨-, hgrows, hsound, -⟩ := h.sound hmade hsize
  have hadvances := h.assembles.advances fun d hd => (hsound d hd).isProper
  refine ⟨hadvances.placed_nodup, fun l hl => ?_⟩
  have hmarked := LabelTable.finish_eq_ok_iff.1 h.finish l
    ((hadvances.grows.isReferenced_iff l).2 (.inr hl))
  rcases (hadvances.grows.isMarked_iff l).1 hmarked with hbefore | hplaced
  · rw [(hgrows.isBlank hblank l).1] at hbefore
    cases hbefore
  · exact hplaced

/-- At first all is still to do. -/
theorem Made.owes (hmade : c.Made) {first last : Block} {mids : List Block} {frame : Frame}
    {f : Flow} (hblocks : c.blocks = first :: (mids ++ [last])) (hlast : last.kind = .exit) :
    c.Owes final (first :: mids) last frame f where
  exit hreach := by
    obtain ⟨b, hb, hreaches⟩ := List.any_eq_true.1 hreach
    simp only [Bool.and_eq_true, decide_eq_true_eq] at hreaches
    obtain ⟨⟨hk, hedge⟩, ht⟩ := hreaches
    have hmem : last ∈ c.blocks := by rw [hblocks]; simp
    refine .inl ⟨b, ?_, hedge, (hmade.kind_eq_exit_iff hmem).1 hlast ▸
      exit_mem_normalTargets hmade hb ht⟩
    rw [hblocks, ← List.cons_append, List.mem_append] at hb
    rcases hb with hb | hb
    · exact hb
    · rw [List.mem_singleton.1 hb] at hk
      exact absurd hlast hk
  ret hreach := by
    obtain ⟨b, hb, hreturn⟩ := List.any_eq_true.1 hreach
    rw [hblocks] at hb
    exact .inl ⟨b, hb, hreturn⟩

/-- The code of the start block, and of the blocks behind it. -/
theorem Lowered.blocks (hmade : c.Made) (hsize : labels.size = c.bound)
    (h : c.Lowered labels ds final code g) :
    Follows (c.reading final) code 0 0 c.outline.entry ∧
      (c.procedure.isGenerator = true → ∃ l q, (c.reading final).label? .body = some l ∧
        code[q]? = some (.markLabel l) ∧
          Follows (c.reading final) code (q + 1) 0 (c.outline.opsAt .body)) ∧
      ∀ b ∈ c.blocks, HasBlock c (c.reading final) code b := by
  obtain ⟨hfits, -, hsound, -⟩ := h.sound hmade hsize
  have hsuits := reading_suits hmade hfits h.assembles hsound
  obtain ⟨first, mids, last, hblocks, hfirst, hlast, hmids⟩ := hmade.blocks_eq
  have hmem : ∀ b ∈ c.blocks, b = first ∨ b ∈ mids ++ [last] := by
    rw [hblocks]
    exact fun b => List.mem_cons.1
  have hfirstMem : first ∈ c.blocks := by rw [hblocks]; exact List.mem_cons_self
  have hlastMem : last ∈ c.blocks := by rw [hblocks]; simp
  have hrestMem : ∀ b ∈ mids ++ [last], b ∈ c.blocks := by
    rw [hblocks]
    exact fun b => List.mem_cons_of_mem first
  have hne : first.id ≠ last.id := by
    rw [(hmade.kind_eq_start_iff hfirstMem).1 hfirst, (hmade.kind_eq_exit_iff hlastMem).1 hlast]
    exact c.procedure.graph.start_ne_exit
  have hnotExit : first.kind ≠ .exit := by rw [hfirst]; exact nofun
  have hcaught : c.caught? first.id = none := by
    by_contra hsome
    obtain ⟨⟨b, hb, hid, hk⟩, -⟩ := hmade.handler (Option.isSome_iff_ne_none.2 hsome)
    have hsame := (hmade.block? b hb).symm.trans (hid ▸ hmade.block? first hfirstMem)
    rw [Option.some_inj.1 hsame, hfirst] at hk
    cases hk
  -- the draft and the code come apart alike
  obtain ⟨_, frame₃, ds₁, dsFree, hdraft, hfree, rfl⟩ := Draft.gives_bind_iff.1 h.gives
  have hgrows₃ := (releaseDebugLocals_gives hfree).1.grows
  rw [hblocks] at hdraft
  obtain ⟨_, frame₂, dsFirst, dsRest, hblockFirst, hblocksRest, rfl⟩ :=
    Draft.gives_bind_iff.1 hdraft
  have hfits₀ : ({ labels } : Frame).Fits c := ⟨Nat.le_of_eq hsize.symm, nofun, nofun⟩
  obtain ⟨hgrows₁, hfits₂, hsoundFirst⟩ := block_sound hmade hfirstMem hfits₀ hblockFirst
  obtain ⟨hgrows₂, -, -⟩ := blocksFrom_sound hmade hrestMem hfits₂ hblocksRest
  have hfinal₂ := hgrows₂.trans hgrows₃
  obtain ⟨frame₁, mid', dsEntry, dsBody, dsEnd, -, hblock⟩ :=
    block_gives hmade hfits₀ hblockFirst
  have hentry := hblock.entry
  rw [if_pos hfirst] at hentry
  have hassembles := h.assembles
  rw [hblock.code] at hassembles hsoundFirst
  obtain ⟨f₄, _, segFree, hblocksCode, -, hcode⟩ := Assembles.append_iff.1 hassembles
  obtain ⟨f₃, segFirst, segRest, hfirstCode, hrestCode, rfl⟩ := Assembles.append_iff.1 hblocksCode
  obtain ⟨f₁, segEntry, _, hentryCode, hlabelCode, rfl⟩ := Assembles.append_iff.1 hfirstCode
  obtain ⟨f₂, segMark, segBody, hmarkCode, hbodyCode, rfl⟩ := Assembles.append_iff.1 hlabelCode
  have hcode₀ : code.drop 0 = segEntry ++ (segMark ++ (segBody ++ (segRest ++ segFree))) := by
    rw [List.drop_zero, hcode]
    simp only [List.append_assoc]
  have hcode₁ := drop_add_of_drop hcode₀
  have hcode₂ := drop_add_of_drop hcode₁
  have hcode₃ := drop_add_of_drop hcode₂
  rw [Nat.zero_add] at hcode₁ hcode₂ hcode₃
  have hfollows := entry_follows final hmade hsize hentry hentryCode rfl hsuits hcode₀
  rw [Nat.zero_add] at hfollows
  have hmarkAdvances := hmarkCode.advances labelMark_isProper
  have hbodyAdvances := hbodyCode.advances fun d hd =>
    ((hsoundFirst final hfinal₂).1 d (by simp only [List.mem_append] at hd ⊢; tauto)).isProper
  have hresume₂ := hfollows.resumable.mono hmarkAdvances
  have hlive₂ : f₂.isLive = true := by
    have henters := labelMark_enters hmarkCode
    split at henters
    · rw [henters.2.isLive, hfollows.isLive]
      rfl
    · rw [henters.2, hfollows.isLive]
  have hlive : c.reachesBlock first = true → f₂.isLive = true := fun _ => hlive₂
  obtain ⟨hedge, hreturn⟩ :=
    edgeBlock_arrives hfirstMem hblock hlive hresume₂ hmade hnotExit hfinal₂ hbodyCode
  rw [Option.map_map] at hedge
  have howes := (hmade.owes hblocks hlast).tail hne hgrows₁ hmarkAdvances hbodyAdvances hedge hreturn
  obtain ⟨hnext, hrest⟩ := blocksFrom_follows hmade
    (fun b hb => ⟨hrestMem b (List.mem_append_left _ hb), hmids b hb⟩) ⟨hlastMem, hlast⟩ hfits₂
    hblocksRest hgrows₃ hrestCode hsuits hcode₃ (hresume₂.mono hbodyAdvances) howes
  have hbody := edgeBlock_follows hfirstMem hblock hlive hresume₂ hmade hnotExit hfinal₂ hbodyCode
    hsuits hcode₂ rfl (by rw [Option.map_map]; exact hnext)
  have hreach : c.reachesBlock first = true := by
    unfold reachesBlock
    rw [if_neg hnotExit, decide_eq_true hfirst, Bool.true_or]
  have hstart := labelMark_follows hmarkCode hcode₁ hfollows.isLive (fun l hl =>
    hsuits.apart (.block first.id) l
      ⟨hcaught, Option.isSome_iff_exists.2 ⟨l, hl⟩, first, hfirstMem, rfl, hreach⟩ hl) hcaught
    (hbody.follows hreach)
  have hops : c.outline.opsAt .body = c.outline.block first := by
    change (c.procedure.graph.block? c.procedure.graph.start).elim [] c.outline.block = _
    rw [← (hmade.kind_eq_start_iff hfirstMem).1 hfirst, hmade.block? first hfirstMem]
    rfl
  refine ⟨?_, fun hgen => ?_, fun b hb => ?_⟩
  · have := hfollows.follows _ hstart
    unfold Outline.entry
    rw [hops]
    exact this
  · obtain ⟨l, q, hl, hq, hbodyFollows⟩ := hfollows.body hgen
    rw [hops]
    exact ⟨l, q, hl, hq, hbodyFollows _ hstart⟩
  · rcases hmem b hb with rfl | hb
    · exact hasBlock_of_labelMark hmarkCode hcode₁ hbody
    · exact hrest b hb

/-- Skipping the end of a statement. -/
theorem follows_of_settle {r : Reading} {pc depth : Nat} {ops : List Op}
    (h : Follows r code pc depth (.settle :: ops)) : Follows r code pc depth ops := by
  generalize hops : Op.settle :: ops = ops' at h
  induction h with
  | note hpc hi _ ih => exact .note hpc hi (ih hops)
  | label hpc hl _ ih => exact .label hpc hl (ih hops)
  | settle rest => cases hops; exact rest
  | _ => cases hops

/-- What is behind a suspension point is behind one of the operations of its block. -/
theorem exists_suspend_of_afterYield? {o : Outline} {index : Int} {b : Block} {ss : List Stmt}
    {back : List Op} (h : o.afterYield? index b ss = some back) :
    (∃ s ∈ ss, s.yieldIndex? = some index) ∧
      ∃ front, o.rest b ss = front ++ .suspend index :: .settle :: back := by
  induction ss with
  | nil => cases h
  | cons s ss ih =>
    have hrest : o.rest b (s :: ss) = o.statement s ++ o.rest b ss := by
      unfold Outline.rest Outline.statements
      rw [List.flatMap_cons, List.append_assoc]
    rw [Outline.afterYield?] at h
    split at h
    · next hindex =>
      cases h
      refine ⟨⟨s, List.mem_cons_self, hindex⟩, ?_⟩
      obtain ⟨y, rfl⟩ : ∃ y, s = .yield y := by
        cases s <;> first | exact ⟨_, rfl⟩ | cases hindex
      cases hindex
      rw [hrest]
      refine ⟨o.sequencePoint (Stmt.yield y).span ++
        ((o.procedure.publish y).ops ++ Outline.setState (.suspendedAt y.index)), ?_⟩
      simp only [Outline.statement, Outline.statementBody, List.append_assoc, List.cons_append,
        List.nil_append]
    · obtain ⟨⟨s', hs', hindex⟩, front, hfront⟩ := ih h
      refine ⟨⟨s', List.mem_cons_of_mem s hs', hindex⟩, o.statement s ++ front, ?_⟩
      rw [hrest, hfront, List.append_assoc]

theorem isSome_afterYield? {o : Outline} {index : Int} {b : Block} {ss : List Stmt} {s : Stmt}
    (hs : s ∈ ss) (hindex : s.yieldIndex? = some index) : (o.afterYield? index b ss).isSome := by
  induction ss with
  | nil => cases hs
  | cons s' ss ih =>
    rw [Outline.afterYield?]
    split
    · rfl
    · next hne =>
      refine ih ((List.mem_cons.1 hs).resolve_left fun heq => hne ?_)
      rw [← heq]
      exact hindex

/-- The suspension points of a block are those of its statements. -/
theorem mem_yields_iff {g : FlowGraph} {y : YieldSite} :
    y ∈ g.yields ↔ ∃ b ∈ g.blocks, b.id = y.block ∧
      ∃ s ∈ b.statements, s.yieldIndex? = some y.index := by
  unfold FlowGraph.yields Block.yields
  simp only [List.mem_flatMap, List.mem_filterMap, Option.map_eq_some_iff, Array.mem_toList_iff]
  constructor
  · rintro ⟨b, hb, s, hs, index, hindex, rfl⟩
    exact ⟨b, hb, rfl, s, hs, hindex⟩
  · rintro ⟨b, hb, hid, s, hs, hindex⟩
    exact ⟨b, hb, s, hs, y.index, hindex, by rw [hid]⟩

/-- A suspension point that can be resumed at stands in a block that code is generated for. -/
theorem exists_suspend_of_resume (hmade : c.Made) {index : Int} {l : Label}
    (h : c.resume.label? index = some l) :
    ∃ b ∈ c.blocks, ∃ front back,
      c.outline.block b = front ++ .suspend index :: .settle :: back ∧
        c.outline.opsAt (.resume index) = back := by
  obtain ⟨hpos, hle, -⟩ := hmade.resume_label?_eq_some_iff.1 h
  rw [hmade.resume, List.length_map, List.length_range] at hle
  have hgen : c.procedure.isGenerator = true := by
    by_contra hne
    rw [if_neg hne] at hle
    omega
  rw [if_pos hgen] at hle
  have hmem : index ∈ c.procedure.graph.yields.map (·.index) := by
    refine (hmade.dense hgen).mem_iff.2 (List.mem_map.2 ⟨index.toNat - 1, ?_, by omega⟩)
    exact List.mem_range.2 (by omega)
  obtain ⟨y, hy, rfl⟩ := List.mem_map.1 hmem
  obtain ⟨b, hb, -, s, hs, hindex⟩ := mem_yields_iff.1 hy
  have hfound : (c.procedure.graph.blocks.toList.findSome? fun b =>
      c.outline.afterYield? y.index b b.statements).isSome := List.findSome?_isSome_iff.2
    ⟨b, Array.mem_toList_iff.2 hb, isSome_afterYield? hs hindex⟩
  obtain ⟨back, hback⟩ := Option.isSome_iff_exists.1 hfound
  obtain ⟨b', hb', hafter⟩ := List.exists_of_findSome?_eq_some hback
  obtain ⟨⟨s', hs', hindex'⟩, front, hfront⟩ := exists_suspend_of_afterYield? hafter
  have hb' := Array.mem_toList_iff.1 hb'
  have hlive : b'.id ∈ c.procedure.liveBlocks :=
    Procedure.yield_mem_liveBlocks hgen (y := YieldSite.mk y.index b'.id)
      (mem_yields_iff.2 ⟨b', hb', rfl, s', hs', hindex'⟩)
  obtain ⟨b'', hb'', hid⟩ := hmade.exists_block _ hlive
  have hsame := (hmade.block? b'' hb'').symm.trans (hid ▸ FlowGraph.block?_of_mem hb')
  obtain rfl := Option.some_inj.1 hsame
  refine ⟨b'', hb'', c.outline.receive b''.id ++ front, back, ?_, ?_⟩
  · unfold Outline.block
    rw [hfront, List.append_assoc]
  · change (c.procedure.graph.blocks.toList.findSome? _).getD [] = back
    rw [hback]
    rfl

/-- The code of a finished draft realizes the outline of its plan. -/
theorem Lowered.realizes (hmade : c.Made) (hsize : labels.size = c.bound) (hblank : labels.IsBlank)
    (h : c.Lowered labels ds final code g) : Realizes (c.reading final) c.outline code := by
  obtain ⟨hentry, hbody, hhas⟩ := h.blocks hmade hsize
  obtain ⟨hnodup, htargets⟩ := h.placed hmade hsize hblank
  obtain ⟨hfits, -, hsound, -⟩ := h.sound hmade hsize
  have hsuits := reading_suits hmade hfits h.assembles hsound
  have hops {b : Block} (hb : b ∈ c.blocks) : c.outline.opsAt (.block b.id) = c.outline.block b := by
    change (c.procedure.graph.block? b.id).elim [] c.outline.block = _
    rw [hmade.block? b hb]
    rfl
  have hblock {b : Block} (hb : b ∈ c.blocks) (hreach : c.reachesBlock b = true) {l : Label}
      (hl : c.label? b.id = some l) : ∃ q, code[q]? = some (.markLabel l) ∧
        Follows (c.reading final) code (q + 1) (c.outline.entryDepth (.block b.id))
          (c.outline.opsAt (.block b.id)) := by
    obtain ⟨f, start, hfollows, hlabel⟩ := hhas b hb
    obtain ⟨hdepth, q, rfl, hq⟩ := hlabel l hl
    refine ⟨q, hq, ?_⟩
    rw [hops hb, ← hdepth]
    exact hfollows.follows hreach
  have hspot (s : Spot) (hs : (c.reading final).joins s) : ∃ l q,
      (c.reading final).label? s = some l ∧ code[q]? = some (.markLabel l) ∧
        Follows (c.reading final) code (q + 1) 0 (c.outline.opsAt s) := by
    cases s with
    | block t =>
      obtain ⟨hcaught, hlabelled, b, hb, rfl, hreach⟩ := hs
      obtain ⟨l, hl⟩ := Option.isSome_iff_exists.1 hlabelled
      obtain ⟨q, hq, hfollows⟩ := hblock hb hreach hl
      rw [entryDepth_eq_zero hcaught] at hfollows
      exact ⟨l, q, hl, hq, hfollows⟩
    | resume index =>
      obtain ⟨l, hl⟩ := Option.isSome_iff_exists.1 hs
      obtain ⟨b, hb, front, back, hback, hopsAt⟩ := exists_suspend_of_resume hmade hl
      obtain ⟨f, start, hfollows, -⟩ := hhas b hb
      obtain ⟨l', q, hl', hq, hresumed⟩ := hfollows.resumed index front _ hback
      rw [hopsAt]
      exact ⟨l', q, hl', hq, follows_of_settle hresumed⟩
    | body => exact hbody hs
    | ret =>
      obtain ⟨first, mids, last, hblocks, -, hlast, -⟩ := hmade.blocks_eq
      obtain ⟨f, start, hfollows, -⟩ := hhas last (by rw [hblocks]; simp)
      exact hfollows.returns hlast hs
  refine ⟨hentry, fun s hs => ?_, fun t ht => ?_, handlersIn_of_sound h.assembles hsound, hnodup,
    htargets⟩
  · obtain ⟨l, q, hl, hq, hfollows⟩ := hspot s hs
    exact ⟨l, q, hl, hq, hsuits.apart s l hs hl, hfollows⟩
  · obtain ⟨⟨b, hb, rfl, hk⟩, l, hl⟩ := hmade.handler ht
    have hreach : c.reachesBlock b = true := by
      unfold reachesBlock isLabelled
      rw [if_neg (by rw [hk]; exact nofun), hl, Option.isSome_some, Bool.or_true]
    obtain ⟨q, hq, hfollows⟩ := hblock hb hreach hl
    rw [show c.outline.entryDepth (.block b.id) = 1 from if_pos ht] at hfollows
    exact ⟨l, q, hl, hq, hfollows⟩

end Plan

end StackCode
