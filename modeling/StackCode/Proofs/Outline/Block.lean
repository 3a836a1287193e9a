import StackCode.Proofs.Outline.Entry
import StackCode.Proofs.Outline.Follows
import StackCode.Proofs.Plan.Made

/-!
# The draft of a procedure in blocks

The draft of a procedure is the drafts of its blocks in their order; the draft of a block is its
entry, if it is the start, its label, what renders its statements, and its end.
-/

namespace StackCode

namespace Plan

variable {c : Plan} {frame frame' : Frame} {ds : List Directive} {u : Unit}

/-! ## Return statements that control gets to -/

/-- The return label has been branched to. -/
def ReturnReferenced (frame : Frame) (g : Flow) : Prop :=
  ∃ l, frame.returnLabel = some l ∧ g.labels.isReferenced l = true

theorem ReturnReferenced.mono {f g : Flow} {code : List Instr} (h : ReturnReferenced frame f)
    (hframe : frame.Grows frame') (ha : f.Advances g code) : ReturnReferenced frame' g := by
  obtain ⟨l, hl, href⟩ := h
  exact ⟨l, hframe.returnLabel l hl, ha.isReferenced href⟩

section
variable {r : Reading} {v : Bool} {f g : Flow} {seg : List Instr}

/-- A return statement that control gets to branches to the return label. -/
theorem return_references {value : Option Expr} (hfits : frame.Fits c)
    (h : (c.statement (.ret value)).Gives frame ds frame' u) (hr : r.Covers c frame')
    (ha : Assembles f ds seg g) (hlive : f.isLive = true)
    (hres : r.Resumes (c.outline.statement (.ret value)) f) : ReturnReferenced frame' g := by
  unfold statement at h
  obtain ⟨_, mid, ds₁, _, hp, h₁, rfl⟩ := Draft.gives_bind_iff.1 h
  obtain ⟨rfl, hpoint⟩ := sequencePoint_renders hp
  obtain ⟨_, mid', _, _, hb, hend, rfl⟩ := Draft.gives_bind_iff.1 h₁
  obtain ⟨rfl, rfl⟩ := Draft.gives_directive_iff.1 hend
  obtain ⟨l, ds₀, ops₀, hret⟩ := returnValue_renders hfits hb
  rw [hret.code, ← List.append_assoc, ← List.append_assoc] at ha
  obtain ⟨f₂, _, _, ha₂, hsettle, rfl⟩ := Assembles.append_iff.1 ha
  obtain ⟨f₁, _, _, hfront, hbranch, rfl⟩ := Assembles.append_iff.1 ha₂
  have hrenders := (hpoint r true).append (hret.renders r true hr)
  have hbody : c.outline.statementBody (.ret value) = ops₀ ++ [.goto .ret] := hret.ops
  have hres₀ : r.Resumes (c.outline.sequencePoint (Stmt.ret value).span ++ ops₀) f := by
    unfold Outline.statement at hres
    rw [hbody, ← List.append_assoc] at hres
    exact hres.left.left
  have hlive₁ := hrenders.isLive hfront (fun _ => hlive) hres₀ rfl
  obtain ⟨-, after, hpass⟩ := Flow.step_live hlive₁ (Assembles.singleton_iff.1 hbranch)
  obtain ⟨-, -, rfl⟩ := Flow.step_endStatement.1 (Assembles.singleton_iff.1 hsettle)
  exact ⟨l, hret.returnLabel, hpass.referenced l (List.mem_singleton.2 rfl)⟩

theorem statements_reference {ss : List Stmt} (hfits : frame.Fits c)
    (h : (ss.forM c.statement).Gives frame ds frame' u) (hr : r.Covers c frame')
    (hret : Stmt.reachesReturn v ss = true → r.joins .ret) (ha : Assembles f ds seg g)
    (hlive : v = true → f.isLive = true) (hres : r.Resumes (c.outline.statements ss) f)
    (hreach : Stmt.reachesReturn v ss = true) : ReturnReferenced frame' g := by
  induction ss generalizing frame ds v f seg with
  | nil => cases hreach
  | cons s ss ih =>
    obtain ⟨_, mid, ds₁, ds₂, hs, hss, rfl⟩ := Draft.gives_bind_iff.1 h
    obtain ⟨f₁, _, _, hfirst, hrest, rfl⟩ := Assembles.append_iff.1 ha
    have hstatement := statement_renders hfits hs
    have hstatements := statements_render hstatement.fits hss
    have hr₁ := hr.mono hstatements.grows
    have hjoins := hret hreach
    have hrenders := hstatement.renders r v hr₁ fun _ _ => hjoins
    have hproper := (hstatements.renders r (s.liveAfter v) hr fun _ => hjoins).isProper
    have hres₁ := (hres.mono (hfirst.advances hrenders.isProper)).right
    rw [Stmt.reachesReturn, Bool.or_eq_true, Bool.and_eq_true] at hreach
    rcases hreach with ⟨hv, hisReturn⟩ | hreach
    · obtain ⟨value, rfl⟩ : ∃ value, s = .ret value := by
        cases s <;> first | exact ⟨_, rfl⟩ | cases hisReturn
      exact (return_references hfits hs hr₁ hfirst (hlive hv) hres.left).mono hstatements.grows
        (hrest.advances hproper)
    · exact ih hstatement.fits hss (fun _ => hjoins) hrest
        (hrenders.isLive hfirst hlive hres.left) hres₁ hreach

end

/-! ## Blocks -/

/-- The label in front of a block, if it has one. -/
def labelMark (c : Plan) (b : Block) : List Directive :=
  (c.label? b.id).toList.map (Directive.mark · (c.arrival b))

/-- What the draft of a block consists of. -/
structure BlockGives (c : Plan) (b : Block) (next : Option BlockId) (frame frame' : Frame)
    (ds : List Directive) (mid mid' : Frame) (dsEntry dsBody dsEnd : List Directive) : Prop where
  code : ds = dsEntry ++ (c.labelMark b ++ (dsBody ++ dsEnd))
  entry : (if b.kind = .start then c.entry else pure ()).Gives frame dsEntry mid ()
  grows : mid.Grows mid'
  fits : mid'.Fits c
  receives : (c.caught? b.id).isSome = true →
    ∃ i ops, c.outline.receive b.id = .run i :: ops ∧ i.pops = 1
  body : ∀ r v, r.Covers c mid' →
    (Stmt.reachesReturn v b.statements = true → r.joins .ret) →
      Renders r v dsBody (c.outline.receive b.id ++ c.outline.statements b.statements)
        (Stmt.liveThrough v b.statements)
  returns : ∀ (r : Reading) (v : Bool) (f g : Flow) (seg : List Instr), r.Covers c mid' →
    (Stmt.reachesReturn v b.statements = true → r.joins .ret) →
      Assembles f dsBody seg g → (v = true → f.isLive = true) →
      r.Resumes (c.outline.receive b.id ++ c.outline.statements b.statements) f →
        Stmt.reachesReturn v b.statements = true → ReturnReferenced mid' g
  blockEnd : (c.blockEnd b next).Gives mid' dsEnd frame' ()

/-- The entry allots no return slot. -/
theorem entry_keeps (h : c.entry.Gives frame ds frame' u) :
    frame.Grows frame' ∧ frame'.returnSlot = frame.returnSlot ∧
      frame'.returnLabel = frame.returnLabel := by
  obtain ⟨mid, _, _, -, hkeeps, -, hdispatch⟩ := entry_gives h
  split at hdispatch
  · obtain ⟨_, _, -, -, hlabels, hlabel, hslot⟩ := dispatch_gives hdispatch
    refine ⟨hkeeps.grows.trans ?_, hslot.trans hkeeps.returnSlot, hlabel.trans hkeeps.returnLabel⟩
    have hadd := Draft.grows_add mid (some "noStateContinuation")
    refine ⟨?_, ?_, fun l hl => hlabel.trans hl, fun s hs => hslot.trans hs⟩
    · rw [hlabels]; exact hadd.size_le
    · rw [hlabels]; exact hadd.isBlank
  · obtain ⟨-, rfl, -⟩ := Draft.gives_pure_iff.1 hdispatch
    exact ⟨hkeeps.grows, hkeeps.returnSlot, hkeeps.returnLabel⟩

theorem block_eq (b : Block) (next : Option BlockId) :
    c.block b next = ((if b.kind = .start then c.entry else pure ()) >>= fun _ =>
      c.enterBlock b >>= fun _ => b.statements.forM c.statement >>= fun _ => c.blockEnd b next) := by
  unfold block
  split <;> rfl

/-- The draft of what stands in front of the statements of a block. -/
def openBlock (c : Plan) (b : Block) : Draft Unit := do
  if b.kind = .start then c.entry
  c.enterBlock b

theorem openBlock_eq (b : Block) :
    c.openBlock b = ((if b.kind = .start then c.entry else pure ()) >>= fun _ => c.enterBlock b) := by
  unfold openBlock
  split <;> rfl

theorem block_eq_openBlock (b : Block) (next : Option BlockId) :
    c.block b next = (c.openBlock b >>= fun _ => b.statements.forM c.statement >>= fun _ =>
      c.blockEnd b next) := by
  rw [block_eq, openBlock_eq, bind_assoc]

/-- The draft of a block, part by part. -/
theorem block_parts {b : Block} {next : Option BlockId} (hfits : frame.Fits c)
    (h : (c.block b next).Gives frame ds frame' u) :
    ∃ mid₁ mid₂ mid₃ d₁ d₂ d₃ d₄, ds = d₁ ++ (d₂ ++ (d₃ ++ d₄)) ∧
      (if b.kind = .start then c.entry else pure ()).Gives frame d₁ mid₁ () ∧
      frame.Grows mid₁ ∧ (c.enterBlock b).Gives mid₁ d₂ mid₂ () ∧ mid₂.Fits c ∧
      (b.statements.forM c.statement).Gives mid₂ d₃ mid₃ () ∧
      (c.blockEnd b next).Gives mid₃ d₄ frame' () := by
  rw [block_eq] at h
  obtain ⟨_, mid₁, d₁, _, h₁, k₁, rfl⟩ := Draft.gives_bind_iff.1 h
  obtain ⟨_, mid₂, d₂, _, h₂, k₂, rfl⟩ := Draft.gives_bind_iff.1 k₁
  obtain ⟨_, mid₃, d₃, d₄, h₃, h₄, rfl⟩ := Draft.gives_bind_iff.1 k₂
  have hentry : frame.Grows mid₁ ∧ mid₁.returnSlot = frame.returnSlot ∧
      mid₁.returnLabel = frame.returnLabel := by
    split at h₁
    · exact entry_keeps h₁
    · obtain ⟨-, rfl, -⟩ := Draft.gives_pure_iff.1 h₁
      exact ⟨.refl _, rfl, rfl⟩
  obtain ⟨hkeeps, -⟩ := enterBlock_gives h₂
  have hfits₁ : mid₁.Fits c := hfits.mono hentry.1 hentry.2.2 hentry.2.1
  have hfits₂ : mid₂.Fits c := hfits₁.mono hkeeps.grows hkeeps.returnLabel hkeeps.returnSlot
  exact ⟨mid₁, mid₂, mid₃, d₁, d₂, d₃, d₄, rfl, h₁, hentry.1, h₂, hfits₂, h₃, h₄⟩

theorem block_gives (hmade : c.Made) {b : Block} {next : Option BlockId}
    (hfits : frame.Fits c) (h : (c.block b next).Gives frame ds frame' u) :
    ∃ mid mid' dsEntry dsBody dsEnd,
      frame.Grows mid ∧ BlockGives c b next frame frame' ds mid mid' dsEntry dsBody dsEnd := by
  obtain ⟨mid, mid₂, mid₃, d₁, d₂, d₃, d₄, rfl, h₁, hentry, h₂, hfits₂, h₃, h₄⟩ :=
    block_parts hfits h
  obtain ⟨hkeeps, hlabel⟩ := enterBlock_gives h₂
  have hstatements := statements_render hfits₂ h₃
  have hbody : ∃ dsReceive, d₂ = c.labelMark b ++ dsReceive ∧
      ((c.caught? b.id).isSome = true →
        ∃ i ops, c.outline.receive b.id = .run i :: ops ∧ i.pops = 1) ∧
      ∀ r v, Renders r v dsReceive (c.outline.receive b.id) v := by
    unfold labelMark
    cases hl : c.label? b.id with
    | none =>
      rw [hl] at hlabel
      have hnone : c.caught? b.id = none := by
        by_contra hne
        obtain ⟨-, l, hl'⟩ := hmade.handler (Option.isSome_iff_ne_none.2 hne)
        rw [hl] at hl'
        cases hl'
      have hreceive : c.outline.receive b.id = [] := by
        unfold Outline.receive
        rw [show c.outline.caught b.id = c.caught? b.id from rfl, hnone]
      rw [hreceive, hnone]
      exact ⟨[], by simpa using hlabel, nofun, fun r v => .nil v⟩
    | some l =>
      rw [hl] at hlabel
      exact hlabel
  obtain ⟨dsReceive, rfl, hpops, hreceive⟩ := hbody
  refine ⟨mid, mid₃, d₁, dsReceive ++ d₃, d₄, hentry, ?_, h₁,
    hkeeps.grows.trans hstatements.grows, hstatements.fits, hpops, fun r v hr hret => ?_,
    fun r v f g seg hr hret ha hlive hres hreach => ?_, h₄⟩
  · simp only [List.append_assoc]
  · exact (hreceive r v).append (hstatements.renders r v hr hret)
  · obtain ⟨f₁, _, _, hfirst, hrest, rfl⟩ := Assembles.append_iff.1 ha
    have hres₁ := (hres.mono (hfirst.advances (hreceive r v).isProper)).right
    exact statements_reference hfits₂ h₃ hr hret hrest
      ((hreceive r v).isLive hfirst hlive hres.left) hres₁ hreach

end Plan

end StackCode
