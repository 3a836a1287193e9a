import StackCode.Proofs.Refusal.Block
import StackCode.Proofs.Returns.Sites

/-!
# Where an ordinary procedure returns

The code of an ordinary procedure returns in at most two places, which stand at its end: where the
default value is returned, if control gets to the exit, and behind it where a stored value is fetched
and returned, if control gets to a return statement.  Control does not fall from the one into the
other; it gets to the second by the branch of a return statement alone.  Main statement:
`Plan.Lowered.returning`.
-/

namespace StackCode

/-! ## Where the flow ends -/

/-- If the flow is dead behind some code, the code has an instruction that control does not pass, and
behind it only notes and labels that nothing has branched to. -/
def Flow.DeadEnd (g : Flow) (code : List Instr) : Prop :=
  g.isLive = false → ∃ front i back, code = front ++ i :: back ∧ i.endsFlow = true ∧
    ∀ j ∈ back, j.isNote = true ∨ ∃ l, j = .markLabel l ∧ g.labels.isReferenced l = false

namespace Flow

variable {f g : Flow} {pre instrs : List Instr}

theorem emit_deadEnd {i : Instr} (hi : i.placed? = none) (h : f.emit i = .ok (instrs, g))
    (hf : f.DeadEnd pre) : g.DeadEnd (pre ++ instrs) := by
  intro hg
  cases hlive : f.isLive with
  | true =>
    obtain ⟨rfl, _, _, -, -, rfl⟩ := (emit_live hlive).1 h
    exact ⟨pre, i, [], rfl, by simpa using hg, nofun⟩
  | false =>
    obtain ⟨rfl, rfl⟩ := (emit_dead hlive).1 h
    obtain ⟨front, j, back, rfl, hj, hback⟩ := hf hlive
    refine ⟨front, j, back ++ if i.isBookkeeping then [i] else [], by simp, hj, ?_⟩
    refine List.forall_mem_append.2 ⟨hback, fun k hk => ?_⟩
    split at hk
    · next hi' =>
      rw [List.mem_singleton.1 hk]
      exact .inl (Instr.isNote_of_isBookkeeping hi' hi)
    · cases hk

theorem mark_deadEnd {l : Label} {arrival : Arrival} (h : f.mark l arrival = .ok (instrs, g))
    (hf : f.DeadEnd pre) : g.DeadEnd (pre ++ instrs) := by
  intro hg
  have hgrows := (mark_advances h).grows
  obtain ⟨rfl, -, labels, hmark, rfl⟩ := mark_eq_ok_iff.1 h
  simp only [Bool.or_eq_false_iff] at hg
  obtain ⟨front, j, back, rfl, hj, hback⟩ := hf hg.1.1
  have hsame (m : Label) (hm : f.labels.isReferenced m = false) : labels.isReferenced m = false := by
    cases hm' : labels.isReferenced m with
    | false => rfl
    | true =>
      rcases (hgrows.isReferenced_iff m).1 hm' with href | href
      · rw [href] at hm
        cases hm
      · cases href
  refine ⟨front, j, back ++ [.markLabel l], by simp, hj, List.forall_mem_append.2 ⟨fun k hk => ?_,
    List.forall_mem_singleton.2 (.inr ⟨l, rfl, hsame l hg.2⟩)⟩⟩
  exact (hback k hk).imp_right fun ⟨m, hm, href⟩ => ⟨m, hm, hsame m href⟩

theorem step_deadEnd {d : Directive} (hd : d.IsProper) (h : f.step d = .ok (instrs, g))
    (hf : f.DeadEnd pre) : g.DeadEnd (pre ++ instrs) := by
  cases d with
  | instr i => exact emit_deadEnd hd h hf
  | mark l arrival => exact mark_deadEnd h hf
  | endStatement =>
    obtain ⟨-, rfl, rfl⟩ := step_endStatement.1 h
    rwa [List.append_nil]
  | endBlock b =>
    obtain ⟨-, rfl, rfl⟩ := step_endBlock.1 h
    rwa [List.append_nil]
  | stageReturn =>
    obtain ⟨rfl, rfl⟩ := step_stageReturn h
    rw [List.append_nil]
    exact hf
  | returnPoint l slot =>
    have hpoint := step_returnPoint h
    split at hpoint
    · obtain ⟨f₁, f₂, c₁, c₂, c₃, hmark, hload, hret, rfl⟩ := hpoint
      have hload := emit_deadEnd rfl hload (mark_deadEnd hmark hf)
      have hret := emit_deadEnd rfl hret hload
      rwa [List.append_assoc, List.append_assoc, ← List.append_assoc c₁] at hret
    · obtain ⟨-, rfl, rfl⟩ := hpoint
      rwa [List.append_nil]

end Flow

theorem Assembles.deadEnd {f g : Flow} {ds : List Directive} {pre code : List Instr}
    (ha : Assembles f ds code g) (hds : ∀ d ∈ ds, d.IsProper) (hf : f.DeadEnd pre) :
    g.DeadEnd (pre ++ code) := by
  induction ha generalizing pre with
  | nil => rwa [List.append_nil]
  | cons hstep _ ih =>
    obtain ⟨hd, hds⟩ := List.forall_mem_cons.1 hds
    rw [← List.append_assoc]
    exact ih hds (Flow.step_deadEnd hd hstep hf)

/-- Of all directives only one says that a return value is stored. -/
theorem Assembles.hasStaged_eq {f g : Flow} {ds : List Directive} {code : List Instr}
    (ha : Assembles f ds code g) (hds : .stageReturn ∉ ds) : g.hasStaged = f.hasStaged := by
  have hemit {f g : Flow} {i : Instr} {code : List Instr} (h : f.emit i = .ok (code, g)) :
      g.hasStaged = f.hasStaged := by
    cases hf : f.isLive with
    | true =>
      obtain ⟨-, _, _, -, -, rfl⟩ := (Flow.emit_live hf).1 h
      rfl
    | false =>
      obtain ⟨-, rfl⟩ := (Flow.emit_dead hf).1 h
      rfl
  have hmark {f g : Flow} {l : Label} {arrival : Arrival} {code : List Instr}
      (h : f.mark l arrival = .ok (code, g)) : g.hasStaged = f.hasStaged := by
    obtain ⟨-, -, _, -, rfl⟩ := Flow.mark_eq_ok_iff.1 h
    rfl
  induction ha with
  | nil => rfl
  | @cons f m g d ds instrs code hstep _ ih =>
    rw [ih fun hmem => hds (List.mem_cons_of_mem _ hmem)]
    cases d with
    | instr i => exact hemit hstep
    | mark l arrival => exact hmark hstep
    | endStatement =>
      obtain ⟨-, -, rfl⟩ := Flow.step_endStatement.1 hstep
      rfl
    | endBlock b =>
      obtain ⟨-, -, rfl⟩ := Flow.step_endBlock.1 hstep
      rfl
    | stageReturn => exact absurd List.mem_cons_self hds
    | returnPoint l slot =>
      have hpoint := Flow.step_returnPoint hstep
      split at hpoint
      · obtain ⟨_, _, _, _, _, h₁, h₂, h₃, -⟩ := hpoint
        exact (hemit h₃).trans ((hemit h₂).trans (hmark h₁))
      · rw [hpoint.2.2]

/-- Nothing is left of dead instructions that are no bookkeeping. -/
theorem Assembles.of_dead_instrs {f g : Flow} {is code : List Instr} (hf : f.isLive = false)
    (his : ∀ i ∈ is, i.isBookkeeping = false) (ha : Assembles f (is.map .instr) code g) :
    code = [] ∧ g = f := by
  induction is generalizing code with
  | nil => exact Assembles.nil_iff.1 ha
  | cons i is ih =>
    obtain ⟨hi, his⟩ := List.forall_mem_cons.1 his
    obtain ⟨_, f₁, rest, hstep, hrest, rfl⟩ := Assembles.cons_iff.1 ha
    obtain ⟨rfl, rfl⟩ := (Flow.emit_dead hf).1 hstep
    rw [hi, if_neg Bool.false_ne_true]
    exact ih his hrest

namespace Plan

variable {c : Plan} {f g : Flow} {code : List Instr}

/-! ## The exit -/

/-- The default value is returned, or control does not get there. -/
theorem defaultCode_assembles (ha : Assembles f (c.defaultCode.map .instr) code g) :
    (code = [] ∨ code = c.defaultCode) ∧ g.isLive = false ∧ g.hasStaged = f.hasStaged := by
  have hplain := Fragment.isPlain_pushDefault c.procedure.returnType
  cases hf : f.isLive with
  | false =>
    have hcode : ∀ i ∈ c.defaultCode, i.isBookkeeping = false := by
      refine List.forall_mem_append.2 ⟨fun i hi => ?_, List.forall_mem_singleton.2 rfl⟩
      exact Instr.isBookkeeping_of_isStraight (Instr.isStraight_of_isPlain (hplain i hi))
    obtain ⟨rfl, rfl⟩ := ha.of_dead_instrs hf hcode
    exact ⟨.inl rfl, hf, rfl⟩
  | true =>
    unfold defaultCode at ha ⊢
    rw [List.map_append] at ha
    obtain ⟨f₁, _, _, hpush, hret, rfl⟩ := Assembles.append_iff.1 ha
    have hapart := hpush.isApart (l := ⟨0⟩) fun d hd => by
      obtain ⟨i, hi, rfl⟩ := List.mem_map.1 hd
      exact Directive.isApart_of_passes (Instr.passes_of_isPlain (hplain i hi))
        (Instr.isQuiet_of_isPlain (hplain i hi))
    obtain ⟨rfl, hlive, -⟩ := Assembles.of_passes
      (fun i hi => Instr.passes_of_isPlain (hplain i hi)) hf hpush
    obtain ⟨rfl, _, hpass⟩ := Flow.step_live hlive (Assembles.singleton_iff.1 hret)
    exact ⟨.inr rfl, hpass.isLive, hpass.hasStaged.trans hapart.hasStaged⟩

/-- Where a stored value is returned: at the return label, if some value has been stored. -/
theorem returnPoint_assembles {l : Label} {slot : TempSlot} (hf : f.isLive = false)
    (h : f.step (.returnPoint l slot) = .ok (code, g)) :
    g.hasStaged = f.hasStaged ∧
      ((f.hasStaged = false ∧ code = []) ∨
        (f.hasStaged = true ∧ ((f.labels.isReferenced l = true ∧
            code = [.markLabel l, .loadTemp slot, .ret true]) ∨
          (f.labels.isReferenced l = false ∧ code = [.markLabel l])))) := by
  have hpoint := Flow.step_returnPoint h
  cases hstaged : f.hasStaged with
  | false =>
    rw [hstaged, if_neg Bool.false_ne_true] at hpoint
    obtain ⟨-, rfl, rfl⟩ := hpoint
    exact ⟨hstaged, .inl ⟨rfl, rfl⟩⟩
  | true =>
    rw [hstaged, if_pos rfl] at hpoint
    obtain ⟨f₁, f₂, c₁, c₂, c₃, hmark, hload, hret, rfl⟩ := hpoint
    obtain ⟨rfl, henters⟩ := Flow.step_mark hmark
    have hlive : f₁.isLive = f.labels.isReferenced l := by
      rw [henters.isLive, hf]
      rfl
    cases href : f.labels.isReferenced l with
    | true =>
      rw [href] at hlive
      obtain ⟨rfl, _, hpass⟩ := Flow.step_live hlive hload
      obtain ⟨rfl, _, hpass'⟩ := Flow.step_live hpass.isLive hret
      exact ⟨(hpass'.hasStaged.trans hpass.hasStaged).trans (henters.hasStaged.trans hstaged),
        .inr ⟨rfl, .inl ⟨rfl, rfl⟩⟩⟩
    | false =>
      rw [href] at hlive
      obtain ⟨rfl, rfl⟩ := (Flow.emit_dead hlive).1 hload
      obtain ⟨rfl, rfl⟩ := (Flow.emit_dead hlive).1 hret
      exact ⟨henters.hasStaged.trans hstaged, .inr ⟨rfl, .inr ⟨rfl, rfl⟩⟩⟩

end Plan

/-! ## What is never forgotten -/

/-- What has been stored and branched to from the flow `f` on is known in the flow `g`. -/
structure Flow.Remembers (f g : Flow) : Prop where
  hasStaged : f.hasStaged = true → g.hasStaged = true
  isReferenced : ∀ l, f.labels.isReferenced l = true → g.labels.isReferenced l = true

namespace Flow

variable {f g h : Flow} {code : List Instr}

theorem Remembers.refl (f : Flow) : f.Remembers f := ⟨id, fun _ => id⟩

theorem Remembers.trans (h₁ : f.Remembers g) (h₂ : g.Remembers h) : f.Remembers h :=
  ⟨h₂.hasStaged ∘ h₁.hasStaged, fun l => h₂.isReferenced l ∘ h₁.isReferenced l⟩

theorem emit_remembers {i : Instr} (h : f.emit i = .ok (code, g)) : f.Remembers g := by
  cases hf : f.isLive with
  | true =>
    obtain ⟨-, _, labels, -, hlabels, rfl⟩ := (emit_live hf).1 h
    exact ⟨id, fun l hl => ((LabelTable.referenceAll_grows hlabels).isReferenced_iff l).2 (.inl hl)⟩
  | false =>
    obtain ⟨-, rfl⟩ := (emit_dead hf).1 h
    exact .refl _

theorem mark_remembers {l : Label} {arrival : Arrival} (h : f.mark l arrival = .ok (code, g)) :
    f.Remembers g :=
  ⟨(mark_advances h).hasStaged, fun _ => (mark_advances h).isReferenced⟩

theorem step_remembers {d : Directive} (h : f.step d = .ok (code, g)) : f.Remembers g := by
  cases d with
  | instr i => exact emit_remembers h
  | mark l arrival => exact mark_remembers h
  | endStatement =>
    obtain ⟨-, -, rfl⟩ := step_endStatement.1 h
    exact .refl _
  | endBlock b =>
    obtain ⟨-, -, rfl⟩ := step_endBlock.1 h
    exact .refl _
  | stageReturn =>
    obtain ⟨-, rfl⟩ := step_stageReturn h
    exact ⟨fun hf => Bool.or_eq_true_iff.2 (.inl hf), fun _ => id⟩
  | returnPoint l slot =>
    have hpoint := step_returnPoint h
    split at hpoint
    · obtain ⟨f₁, f₂, c₁, c₂, c₃, hmark, hload, hret, -⟩ := hpoint
      exact (mark_remembers hmark).trans ((emit_remembers hload).trans (emit_remembers hret))
    · obtain ⟨-, -, rfl⟩ := hpoint
      exact .refl _

end Flow

theorem Draft.Lays.remembers {x : Draft Unit} {frame frame' : Frame} {f g : Flow} {code : List Instr}
    (h : x.Lays frame f code frame' g) : f.Remembers g := by
  obtain ⟨ds, -, ha⟩ := h
  induction ha with
  | nil => exact .refl _
  | cons hstep _ ih => exact (Flow.step_remembers hstep).trans ih

namespace Plan

variable {c : Plan} {frame frame' : Frame} {f g : Flow} {code : List Instr}

theorem blockEnd_keeps {b : Block} {next : Option BlockId} (hfits : frame.Fits c)
    (h : (c.blockEnd b next).Lays frame f code frame' g) : frame.Grows frame' ∧ frame'.Fits c := by
  obtain ⟨ds, hgives, -⟩ := h
  unfold blockEnd at hgives
  split at hgives
  · obtain ⟨hgrows, hfits', -⟩ := exit_gives hfits hgives
    exact ⟨hgrows, hfits'⟩
  · obtain ⟨rfl, -⟩ := edge_renders hgives
    exact ⟨.refl _, hfits⟩

/-- The draft of all blocks begins with the draft up to any point of one of them. -/
theorem blocksFrom_split {b : Block} {ss ss' : List Stmt} (hss : b.statements = ss ++ ss')
    (bs bs' : List Block) : c.blocksFrom (bs ++ b :: bs') = (c.upTo bs b ss >>= fun _ =>
      ss'.forM c.statement >>= fun _ => c.blockEnd b (bs'.head?.map (·.id)) >>= fun _ =>
        c.blocksFrom bs') := by
  rw [blocksFrom_append]
  change (c.blocksTo b.id bs >>= fun _ => c.block b (bs'.head?.map (·.id)) >>= fun _ =>
    c.blocksFrom bs') = _
  unfold upTo
  rw [block_eq_openBlock, hss, List.forM_eq_forM, List.forM_append]
  simp only [bind_assoc]

/-- On the way through all blocks, a return statement that control gets to is laid where it says. -/
theorem ReturnsIn.laid (hmade : c.Made) {bs : List Block} (hbs : ∀ b ∈ bs, b ∈ c.blocks)
    (hfits : frame.Fits c) (h : (c.blocksFrom bs).Lays frame f code frame' g) {value : Option Expr}
    {q d : Nat} (hsite : c.ReturnsIn bs frame f value q d) :
    ∃ front b back before after code₀ mid f₀, bs = front ++ b :: back ∧
      b.statements = before ++ .ret value :: after ∧
      (c.upTo front b before).Lays frame f code₀ mid f₀ ∧ f₀.isLive = true ∧ d = f₀.depth ∧
      mid.Fits c ∧ ∃ code₁ mid₁ f₁, (c.statement (.ret value)).Lays mid f₀ code₁ mid₁ f₁ ∧
        mid₁.Grows frame' ∧ f₁.Remembers g := by
  obtain ⟨front, b, back, before, after, _, _, _, rfl, hstatements, hup, hlive, -, hd⟩ := hsite
  -- what is laid up to the return statement is laid on the way through all blocks
  rw [blocksFrom_split hstatements] at h
  obtain ⟨_, _, _, _, hup', hrest, -⟩ := Draft.lays_bind_iff.1 h
  obtain ⟨-, rfl, rfl⟩ := hup'.unique hup
  obtain ⟨mid₁, f₁, _, _, hss, hend, -⟩ := Draft.lays_bind_iff.1 hrest
  obtain ⟨mid₂, f₂, _, _, hreturn, hafter, -⟩ := Draft.lays_bind_iff.1
    (show (c.statement (.ret value) >>= fun _ => after.forM c.statement).Lays _ _ _ _ _ from hss)
  obtain ⟨mid₃, f₃, _, _, hend, hback, -⟩ := Draft.lays_bind_iff.1 hend
  -- from there on the frame grows and nothing is forgotten
  have hfits₀ := (upTo_keeps hmade (fun b hb => hbs b (List.mem_append_left _ hb)) hfits hup).2
  have ⟨ds₂, hgives₂, _⟩ := hreturn
  have ⟨ds₁, hgives₁, _⟩ := hafter
  have hbehind := statements_render (statement_renders hfits₀ hgives₂).fits hgives₁
  obtain ⟨hgrows₃, hfits₃⟩ := blockEnd_keeps hbehind.fits hend
  have ⟨ds₃, hgives₃, _⟩ := hback
  have hgrows := (blocksFrom_sound hmade (fun b hb => hbs b (List.mem_append_right _
    (List.mem_cons_of_mem _ hb))) hfits₃ hgives₃).1
  exact ⟨front, b, back, before, after, _, _, _, rfl, hstatements, hup, hlive, hd, hfits₀, _, _, _,
    hreturn, hbehind.grows.trans (hgrows₃.trans hgrows),
    hafter.remembers.trans (hend.remembers.trans hback.remembers)⟩

/-- Behind a return statement that control gets to, the return label has been branched to, and a value
has been stored if there is any to store. -/
theorem ReturnsIn.references (hmade : c.Made) (hgen : c.procedure.isGenerator = false)
    {bs : List Block} (hbs : ∀ b ∈ bs, b ∈ c.blocks) (hfits : frame.Fits c)
    (h : (c.blocksFrom bs).Lays frame f code frame' g) {value : Option Expr} {q d : Nat}
    (hsite : c.ReturnsIn bs frame f value q d) :
    (c.outline.stages = true → g.hasStaged = true) ∧ ReturnReferenced frame' g := by
  obtain ⟨_, _, _, _, _, _, mid, f₀, -, -, -, hlive, -, hfits₀, _, mid₁, f₁, hreturn, hgrows,
    hremembers⟩ := hsite.laid hmade hbs hfits h
  obtain ⟨l, hl, href, hstaged, -⟩ := (return_lays hgen hfits₀ hreturn).live hlive
  refine ⟨fun hstages => hremembers.hasStaged ?_, l, hgrows.returnLabel l hl,
    hremembers.isReferenced l href⟩
  rw [hstaged, hstages, Bool.or_true]

/-! ## The stack at a return statement -/

theorem findsThrough_of_append {v : Bool} {ss ss' : List Stmt} (h : c.FindsThrough v (ss ++ ss')) :
    c.FindsThrough v ss := by
  induction ss generalizing v with
  | nil => trivial
  | cons s ss ih => exact ⟨h.1, ih h.2⟩

/-- The blocks in front of a block, which control may get to from them. -/
theorem blocksTo_meets (hmade : c.Made) (todo : List Label) {bs : List Block} {b : Block} {v : Bool}
    (hbs : ∀ b' ∈ bs, b' ∈ c.blocks ∧ b'.kind ≠ .exit) (hb : b ∈ c.blocks)
    (hfirst : ∀ b', (bs ++ [b]).head? = some b' → c.Arrives v b' ∧ (b'.kind = .start → v = true))
    (htail : ∀ b' ∈ (bs ++ [b]).tail, b'.kind ≠ .start) :
    ∃ w, c.Arrives w b ∧ (b.kind = .start → w = true) ∧ (c.blocksTo b.id bs).Meets c.Permits
      (c.At (c.Books (bs.flatMap c.owedByBlock ++ todo) Frame.Tidy) v 0) fun _ =>
        c.At (c.Books todo Frame.Tidy) w 0 := by
  induction bs generalizing v with
  | nil => exact ⟨v, (hfirst b rfl).1, (hfirst b rfl).2, .pure fun _ _ => id⟩
  | cons b₁ bs ih =>
    obtain ⟨⟨hb₁, hk₁⟩, hbs⟩ := List.forall_mem_cons.1 hbs
    obtain ⟨next, rest, hrest⟩ : ∃ next rest, bs ++ [b] = next :: rest := by
      cases bs with
      | nil => exact ⟨b, [], rfl⟩
      | cons next bs => exact ⟨next, bs ++ [b], rfl⟩
    have htail : ∀ b' ∈ bs ++ [b], b'.kind ≠ .start := htail
    have hid : (bs.head?.map (·.id)).getD b.id = next.id := by
      have := head?_append_cons bs b []
      rw [hrest] at this
      exact (Option.some_inj.1 this).symm
    have hnext : next ∈ c.blocks := by
      have hmem : next ∈ bs ++ [b] := hrest ▸ List.mem_cons_self
      rcases List.mem_append.1 hmem with hmem | hmem
      · exact (hbs next hmem).1
      · exact List.mem_singleton.1 hmem ▸ hb
    have hstart : next.kind ≠ .start := htail next (hrest ▸ List.mem_cons_self)
    obtain ⟨w, harrives, hw, hmeets⟩ := ih (v := c.falls b₁ next) hbs (fun b' hb' => by
        rw [hrest] at hb'
        cases hb'
        exact ⟨arrives_falls hmade hb₁ hk₁ hnext, fun hk => absurd hk hstart⟩)
      fun b' hb' => htail b' (List.mem_of_mem_tail hb')
    refine ⟨w, harrives, hw, ?_⟩
    obtain ⟨harrives₁, hstart₁⟩ := hfirst b₁ rfl
    rw [List.flatMap_cons, List.append_assoc, blocksTo, hid]
    exact (innerBlock_meets hmade hb₁ hk₁ harrives₁ hstart₁ next).seq hmeets

/-- The blocks up to one: the start block is the first of them, and the exit block comes last. -/
theorem Made.blocks_before (hmade : c.Made) {bs bs' : List Block} {b : Block}
    (hblocks : c.blocks = bs ++ b :: bs') :
    (∀ b' ∈ bs, b' ∈ c.blocks ∧ b'.kind ≠ .exit) ∧
      (∀ b', (bs ++ [b]).head? = some b' → b' ∈ c.blocks ∧ b'.kind = .start) ∧
      ∀ b' ∈ (bs ++ [b]).tail, b'.kind ≠ .start := by
  obtain ⟨first, mids, last, hparts, hstart, hexit, hmids⟩ := hmade.blocks_eq
  have hwhole : (bs ++ [b]) ++ bs' = first :: (mids ++ [last]) := by
    rw [← hparts, hblocks, List.append_assoc]
    rfl
  refine ⟨fun b' hb' => ⟨hblocks ▸ List.mem_append_left _ hb', ?_⟩, fun b' hb' => ?_, fun b' hb' => ?_⟩
  · have hinit : bs ++ (b :: bs').dropLast = first :: mids := by
      rw [← List.dropLast_append_cons, ← hblocks, hparts, ← List.cons_append, List.dropLast_concat]
    rcases List.mem_cons.1 (hinit ▸ List.mem_append_left _ hb' : b' ∈ first :: mids) with rfl | hmid
    · rw [hstart]
      nofun
    · rw [hmids b' hmid]
      nofun
  · have hhead : ((bs ++ [b]) ++ bs').head? = some b' := by
      rw [List.head?_append, hb']
      rfl
    rw [hwhole] at hhead
    cases hhead
    exact ⟨hparts ▸ List.mem_cons_self, hstart⟩
  · have htail : b' ∈ ((bs ++ [b]) ++ bs').tail := by
      rw [List.tail_append_of_ne_nil (by simp)]
      exact List.mem_append_left _ hb'
    rw [hwhole] at htail
    rcases List.mem_append.1 htail with hmid | hlast
    · rw [hmids b' hmid]
      nofun
    · rw [List.mem_singleton.1 hlast, hexit]
      nofun

/-- The stack is empty where a statement begins. -/
theorem upTo_depth (hmade : c.Made) {bs bs' : List Block} {b : Block} {ss ss' : List Stmt}
    (hblocks : c.blocks = bs ++ b :: bs') (hss : b.statements = ss ++ ss') {labels table : LabelTable}
    (hsize : labels.size = c.bound) (hblank : table.IsBlank) (hle : frame'.labels.size ≤ table.size)
    (h : (c.upTo bs b ss).Lays { labels } { labels := table } code frame' g) (hlive : g.isLive = true) :
    g.depth = 0 := by
  have hb : b ∈ c.blocks := hblocks ▸ List.mem_append_right _ List.mem_cons_self
  obtain ⟨hbs, hfirst, htail⟩ := hmade.blocks_before hblocks
  obtain ⟨w, harrives, hw, hmeets⟩ := blocksTo_meets hmade
    (c.owedByBlock b ++ bs'.flatMap c.owedByBlock) (v := true) hbs hb
    (fun b' hb' => ⟨arrives_start hmade (hfirst b' hb').1 (hfirst b' hb').2, fun _ => rfl⟩) htail
  have hbegin : c.At (c.Books (bs.flatMap c.owedByBlock ++ (c.owedByBlock b ++
      bs'.flatMap c.owedByBlock)) Frame.Tidy) true 0 { labels } { labels := table } := by
    have hkeeps := keeps_of_make hmade hsize hblank
    rw [hblocks, List.flatMap_append, List.flatMap_cons] at hkeeps
    exact ⟨hkeeps, fun _ => ⟨rfl, Nat.le_refl _, fun _ => rfl⟩⟩
  have hfinds (hsteady : c.Steady) : c.FindsThrough (c.reachesBlock b) ss :=
    findsThrough_of_append (hss ▸ hsteady.statements b hb)
  have howed : c.owedByBlock b ++ bs'.flatMap c.owedByBlock = (c.label? b.id).toList ++
      (ss.flatMap c.owedBy ++ (ss'.flatMap c.owedBy ++ bs'.flatMap c.owedByBlock)) := by
    unfold owedByBlock
    rw [hss, List.flatMap_append]
    simp only [List.append_assoc]
  rw [howed] at hmeets hbegin
  have hup : (c.upTo bs b ss).Meets c.Permits _ _ := hmeets.seq
    ((openBlock_meets hmade hb harrives hw).seq
      (statements_meet hmade hb (fun s hs => hss ▸ List.mem_append_left _ hs) hfinds))
  obtain ⟨ds, hgives, ha⟩ := h
  have hrun : (c.upTo bs b ss).run { labels } { labels := table } = .ok ((), frame', g) := by
    unfold Draft.Gives at hgives
    refine Draft.run_eq_ok_iff.2 ?_
    rw [hgives]
    exact ⟨Flow.through_eq_of_assembles ha, rfl, rfl⟩
  have hstands := (hup.post _ _ _ _ _ hbegin hle hrun).2 hlive
  exact Nat.le_zero.1 hstands.2.1

/-- A return statement begins with an empty stack. -/
theorem ReturnsIn.depth_eq_zero (hmade : c.Made) {labels table : LabelTable}
    (hsize : labels.size = c.bound) (hblank : table.IsBlank) (hle : frame'.labels.size ≤ table.size)
    (h : (c.blocksFrom c.blocks).Lays { labels } { labels := table } code frame' g)
    {value : Option Expr} {q d : Nat}
    (hsite : c.ReturnsIn c.blocks { labels } { labels := table } value q d) : d = 0 := by
  have hfits : ({ labels } : Frame).Fits c := ⟨Nat.le_of_eq hsize.symm, nofun, nofun⟩
  obtain ⟨_, _, _, _, _, _, mid, f₀, hblocks, hstatements, hup, hlive, rfl, hfits₀, _, mid₁, f₁,
    ⟨ds, hgives, -⟩, hgrows, -⟩ := hsite.laid hmade (fun _ => id) hfits h
  have hsizes := ((statement_renders hfits₀ hgives).grows.trans hgrows).size_le
  exact upTo_depth hmade hblocks hstatements hsize hblank (Nat.le_trans hsizes hle) hup hlive

/-! ## The code as a whole -/

/-- How control comes to where a stored value is returned, if the return label stands behind this
code: only by the branch of a return statement. -/
structure ReturnsStored (c : Plan) (sites : ReturnSites) (code body exit : List Instr)
    (l : Label) (slot : TempSlot) : Prop where
  stages : c.outline.stages = true
  goes : ∀ q i, body[q]? = some i → l ∈ i.targets → c.EndsReturn l slot sites body q
  deadEnd : ∃ front i back, body ++ exit = front ++ i :: back ∧ i.endsFlow = true ∧
    ∀ j ∈ back, j.isNote = true ∨ ∃ m, j = .markLabel m ∧ m ∉ targetsIn code
  not_handler : l ∉ handlersIn code

/-- The code of an ordinary procedure, as far as returning goes. -/
structure Returning (c : Plan) (slot? : Option TempSlot) (sites : ReturnSites)
    (code body exit staged notes : List Instr) : Prop where
  code_eq : code = body ++ (exit ++ (staged ++ notes))
  isQuiet : ∀ i ∈ body, i.isQuiet = true
  exit_eq : exit = [] ∨ exit = c.defaultCode
  staged_eq : staged = [] ∨ ∃ l slot, slot? = some slot ∧
    staged = [.markLabel l, .loadTemp slot, .ret true] ∧ c.ReturnsStored sites code body exit l slot
  isNote : ∀ i ∈ notes, i.isNote = true
  /-- Return statements begin with an empty stack. -/
  isEmpty : ∀ value q d, sites value q d → d = 0
  staged_iff : c.outline.stages = true → (staged ≠ [] ↔ ∃ value q d, sites value q d)

/-- The blocks, and the end of the exit behind them. -/
theorem blocksFrom_eq_upTo (hmade : c.Made) (hgen : c.procedure.isGenerator = false) :
    ∃ bs last, c.blocks = bs ++ [last] ∧ (∀ b ∈ bs, b ∈ c.blocks ∧ b.kind ≠ .exit) ∧
      c.blocksFrom c.blocks = (c.upTo bs last last.statements >>= fun _ =>
        Draft.exitOrdinary c.procedure.returnType) := by
  obtain ⟨first, mids, last, hblocks, hfirst, hlast, hmids⟩ := hmade.blocks_eq
  rw [← List.cons_append] at hblocks
  refine ⟨first :: mids, last, hblocks, fun b hb => ⟨?_, ?_⟩, ?_⟩
  · rw [hblocks]
    exact List.mem_append_left _ hb
  · rcases List.mem_cons.1 hb with rfl | hb
    · rw [hfirst]
      exact nofun
    · rw [hmids b hb]
      exact nofun
  · have hlastBlock : c.blocksFrom [last] = (c.block last none >>= fun _ => pure ()) := rfl
    rw [hblocks, blocksFrom_append, hlastBlock, bind_pure_unit, block_eq_openBlock]
    unfold blockEnd upTo
    rw [if_pos hlast, hgen, if_neg Bool.false_ne_true]
    simp only [bind_assoc]

/-- The code in three parts: up to the end of the exit block, the end itself, and notes. -/
structure Laid (c : Plan) (labels : LabelTable) (final : Frame) (code front back notes : List Instr)
    (mid mid' : Frame) (f g : Flow) : Prop where
  code_eq : code = front ++ (back ++ notes)
  fits : mid.Fits c
  holds : ∀ l slot, c.bound ≤ l.index → (∀ s, mid.returnSlot = some s → s = slot) →
    .markLabel l ∉ front →
      c.HoldsReturns l slot (c.ReturnsIn c.blocks { labels } { labels := final.labels })
        { labels := final.labels } f front
  deadEnd : f.DeadEnd front
  exit : (Draft.exitOrdinary c.procedure.returnType).Lays mid f back mid' g
  references : ∀ value q d, c.ReturnsIn c.blocks { labels } { labels := final.labels } value q d →
    (c.outline.stages = true → g.hasStaged = true) ∧ ReturnReferenced mid' g
  isNote : ∀ i ∈ notes, i.isNote = true
  isEmpty : ∀ value q d, c.ReturnsIn c.blocks { labels } { labels := final.labels } value q d → d = 0
  returnSlot : final.returnSlot = mid'.returnSlot
  isReferenced : ∀ l, g.labels.isReferenced l = true ↔ l ∈ targetsIn code
  /-- There are labels that the plan has not allotted and the code does not have. -/
  exists_fresh : ∃ l, c.bound ≤ l.index ∧ .markLabel l ∉ code
  marks_nodup : (placedIn code).Nodup

/-- The exit stores no return value. -/
theorem exitOrdinary_quiet {ds : List Directive} {u : Unit} (hfits : frame.Fits c)
    (h : (Draft.exitOrdinary c.procedure.returnType).Gives frame ds frame' u) : .stageReturn ∉ ds := by
  have hdefault : .stageReturn ∉ c.defaultCode.map Directive.instr := by simp
  obtain ⟨-, -, -, hmatch⟩ := exitOrdinary_gives hfits h
  cases hslot : frame.returnSlot with
  | none =>
    rw [hslot] at hmatch
    rw [hmatch.2]
    cases frame.returnLabel <;> simp
  | some slot =>
    rw [hslot] at hmatch
    obtain ⟨l, -, rfl⟩ := hmatch
    simp

/-- The code in its three parts; behind the first no return value is stored any more. -/
theorem Lowered.laid {labels : LabelTable} {ds : List Directive} {final : Frame} (hmade : c.Made)
    (hgen : c.procedure.isGenerator = false) (hsize : labels.size = c.bound) (hblank : labels.IsBlank)
    (h : c.Lowered labels ds final code g) :
    ∃ front back notes mid mid' f g', c.Laid labels final code front back notes mid mid' f g' ∧
      g'.hasStaged = f.hasStaged ∧ g.hasStaged = f.hasStaged := by
  obtain ⟨bs, last, hblocks, hbs, hdraft⟩ := blocksFrom_eq_upTo hmade hgen
  obtain ⟨hfinal, hgrows, hsound, -⟩ := h.sound hmade hsize
  have hproper : ∀ d ∈ ds, d.IsProper := fun d hd => (hsound d hd).isProper
  obtain ⟨hnodup, -⟩ := h.placed hmade hsize hblank
  obtain ⟨_, mid', ds₁, _, hgives, hfree, rfl⟩ := Draft.gives_bind_iff.1 h.gives
  obtain ⟨hkeeps, hfreed⟩ := releaseDebugLocals_gives hfree
  obtain ⟨is, rfl, hnotes⟩ := exists_notes hfreed
  obtain ⟨g', seg, notes, hcode, hnoteCode, hcodeEq⟩ := Assembles.append_iff.1 h.assembles
  obtain rfl : notes = is := (hnoteCode.of_notes hnotes).1
  obtain ⟨hproper₁, -⟩ := List.forall_mem_append.1 hproper
  have hlays : (c.blocksFrom c.blocks).Lays { labels } { labels := final.labels } seg mid' g' :=
    ⟨ds₁, hgives, hcode⟩
  rw [hdraft] at hgives
  obtain ⟨_, mid, dsFront, dsBack, hfront, hback, rfl⟩ := Draft.gives_bind_iff.1 hgives
  obtain ⟨f, front, back, hfrontCode, hbackCode, rfl⟩ := Assembles.append_iff.1 hcode
  have hup : (c.upTo bs last last.statements).Lays { labels } { labels := final.labels } front mid f :=
    ⟨dsFront, hfront, hfrontCode⟩
  have hfits : ({ labels } : Frame).Fits c := ⟨Nat.le_of_eq hsize.symm, nofun, nofun⟩
  obtain ⟨-, hfits'⟩ := upTo_keeps hmade (fun b hb => (hbs b hb).1) hfits hup
  have hadvances := h.assembles.advances hproper
  have hquiet := hbackCode.hasStaged_eq (exitOrdinary_quiet hfits' hback)
  refine ⟨front, back, notes, mid, mid', f, g', ?_, hquiet,
    (hnoteCode.hasStaged_eq (by simp)).trans hquiet⟩
  refine ⟨by rw [hcodeEq, List.append_assoc], hfits', fun l slot hl hslot hmark => ?_, ?_,
    ⟨dsBack, hback, hbackCode⟩, fun value q d hsite => ?_, hnotes,
    fun value q d hsite => ?_, hkeeps.returnSlot, fun l => ?_,
    ⟨⟨g.labels.size⟩, ?_, fun hmem => ?_⟩, hnodup⟩
  · rw [hblocks]
    exact upTo_holds hmade hgen hl hbs hfits hslot hup hmark
  · obtain ⟨hproper₂, -⟩ := List.forall_mem_append.1 hproper₁
    have hdeadEnd : f.DeadEnd ([] ++ front) := hfrontCode.deadEnd hproper₂ nofun
    exact hdeadEnd
  · exact hsite.references hmade hgen (fun _ => id) hfits hlays
  · exact hsite.depth_eq_zero hmade hsize (hgrows.isBlank hblank) hkeeps.grows.size_le hlays
  · have hnone : ({ labels := final.labels } : Flow).labels.isReferenced l = false :=
      (hgrows.isBlank hblank l).2
    have htargets : targetsIn code = targetsIn (front ++ back) := by
      rw [hcodeEq, targetsIn_append]
      have hnil : targetsIn notes = [] := List.flatMap_eq_nil_iff.2 fun i hi =>
        Instr.targets_of_isNote (hnotes i hi)
      rw [hnil, List.append_nil]
    rw [(hcode.advances hproper₁).grows.isReferenced_iff l, hnone, htargets]
    exact or_iff_right nofun
  · exact Nat.le_trans hfinal.size (Nat.le_of_eq hadvances.grows.size_eq.symm)
  · exact Nat.lt_irrefl _ (LabelTable.lt_size_of_isMarked
      ((hadvances.grows.isMarked_iff _).2 (.inr (mem_placedIn.2 hmem))))

namespace Laid

variable {labels : LabelTable} {final mid mid' : Frame} {front back notes : List Instr}

theorem isQuiet (h : c.Laid labels final code front back notes mid mid' f g)
    (hslot : ∃ slot, ∀ s, mid.returnSlot = some s → s = slot) : (∀ i ∈ front, i.isQuiet = true) ∧
      (f.hasStaged = true →
        ∃ value q d, c.ReturnsIn c.blocks { labels } { labels := final.labels } value q d) := by
  obtain ⟨slot, hslot⟩ := hslot
  obtain ⟨l, hl, hmark⟩ := h.exists_fresh
  have hfront : .markLabel l ∉ front := fun hmem =>
    hmark (h.code_eq ▸ List.mem_append_left _ hmem)
  have hholds := h.holds l slot hl hslot hfront
  exact ⟨hholds.isQuiet, fun hstaged => (hholds.hasStaged hstaged).resolve_left nofun⟩

/-- Without a return slot there is one place to return. -/
theorem returning_of_none (h : c.Laid labels final code front back notes mid mid' f g)
    (hslot : mid.returnSlot = none) :
    ∃ body exit staged notes, c.Returning final.returnSlot
      (c.ReturnsIn c.blocks { labels } { labels := final.labels }) code body exit staged notes := by
  obtain ⟨ds, hgives, ha⟩ := h.exit
  obtain ⟨-, hfits', hslot', hmatch⟩ := exitOrdinary_gives h.fits hgives
  rw [hslot] at hmatch
  obtain ⟨rfl, rfl⟩ := hmatch
  obtain ⟨f₁, marks, exit, hmarks, hdefault, rfl⟩ := Assembles.append_iff.1 ha
  have hquiet : ∀ i ∈ marks, i.isQuiet = true := by
    cases hl : mid'.returnLabel with
    | none =>
      rw [hl] at hmarks
      obtain ⟨rfl, -⟩ := Assembles.nil_iff.1 hmarks
      exact nofun
    | some l =>
      rw [hl] at hmarks
      obtain ⟨rfl, -⟩ := Flow.step_mark (Assembles.singleton_iff.1 hmarks)
      exact List.forall_mem_singleton.2 rfl
  refine ⟨front ++ marks, exit, [], notes, ?_, ?_, (defaultCode_assembles hdefault).1, .inl rfl,
    h.isNote, h.isEmpty, fun hstages => ⟨fun hne => absurd rfl hne, fun ⟨value, q, d, hsite⟩ => ?_⟩⟩
  · rw [h.code_eq]
    simp only [List.append_assoc, List.nil_append]
  · exact List.forall_mem_append.2
      ⟨(h.isQuiet ⟨⟨0⟩, by rw [hslot]; exact nofun⟩).1, hquiet⟩
  · obtain ⟨-, l, hl, -⟩ := h.references value q d hsite
    obtain ⟨s, hs⟩ := (h.fits.label l hl).2 hstages
    rw [hslot] at hs
    cases hs

/-- With a return slot there is a second place to return, if any value has been stored. -/
theorem returning_of_some (h : c.Laid labels final code front back notes mid mid' f g)
    (hhandler : ∀ l ∈ handlersIn code, l.index < c.bound) {slot : TempSlot}
    (hslot : mid.returnSlot = some slot) :
    ∃ body exit staged notes, c.Returning final.returnSlot
      (c.ReturnsIn c.blocks { labels } { labels := final.labels }) code body exit staged notes := by
  have hsame : ∀ s, mid.returnSlot = some s → s = slot := by
    intro s hs
    exact Option.some_inj.1 (hs.symm.trans hslot)
  have hstages := h.fits.slot slot hslot
  obtain ⟨hquiet, hsite⟩ := h.isQuiet ⟨slot, hsame⟩
  obtain ⟨ds, hgives, ha⟩ := h.exit
  obtain ⟨-, hfits', hslot', hmatch⟩ := exitOrdinary_gives h.fits hgives
  rw [hslot] at hmatch
  obtain ⟨l, hl, rfl⟩ := hmatch
  obtain ⟨f₁, exit, _, hdefault, hrest, rfl⟩ := Assembles.append_iff.1 ha
  obtain ⟨point, f₂, _, hpoint, hfree, rfl⟩ := Assembles.cons_iff.1 hrest
  have hfree := Assembles.singleton_iff.1 hfree
  obtain ⟨rfl, -⟩ := Flow.step_note rfl hfree
  have hnotes : ∀ i ∈ [Instr.freeTemp slot] ++ notes, i.isNote = true :=
    List.forall_mem_append.2 ⟨List.forall_mem_singleton.2 rfl, h.isNote⟩
  obtain ⟨hexit, hdead, hstaged⟩ := defaultCode_assembles hdefault
  obtain ⟨hstaged', hcases⟩ := returnPoint_assembles hdead hpoint
  -- nothing is branched to from the end of the code
  have hreferenced (m : Label) (hm : g.labels.isReferenced m = true) :
      f₁.labels.isReferenced m = true := by
    have hproper : ∀ d ∈ [Directive.returnPoint l slot, .instr (.freeTemp slot)], d.IsProper :=
      List.forall_mem_cons.2 ⟨trivial, List.forall_mem_singleton.2 rfl⟩
    refine (((hrest.advances hproper).grows.isReferenced_iff m).1 hm).resolve_right fun hmem => ?_
    obtain ⟨i, hi, hm⟩ := mem_targetsIn.1 hmem
    have hnone : i.targets = [] := by
      rcases hcases with ⟨-, rfl⟩ | ⟨-, ⟨-, rfl⟩ | ⟨-, rfl⟩⟩ <;>
        simp only [List.cons_append, List.nil_append, List.mem_cons, List.not_mem_nil, or_false] at hi <;>
        rcases hi with rfl | rfl | rfl | rfl <;> rfl
    rw [hnone] at hm
    cases hm
  have hsites (hsome : ∃ value q d,
        c.ReturnsIn c.blocks { labels } { labels := final.labels } value q d) :
      f.hasStaged = true ∧ f₁.labels.isReferenced l = true := by
    obtain ⟨value, q, d, hsome⟩ := hsome
    obtain ⟨hhas, l', hl', href⟩ := h.references value q d hsome
    obtain rfl := Option.some_inj.1 (hl.symm.trans hl')
    have hsame := (Flow.step_isApart (Directive.isApart_of_isNote (l := l) rfl) hfree).hasStaged
    rw [hhas hstages, hstaged', hstaged] at hsame
    exact ⟨hsame.symm, hreferenced l href⟩
  rcases hcases with ⟨hnone, rfl⟩ | ⟨hsome, ⟨-, rfl⟩ | ⟨hnot, rfl⟩⟩
  · refine ⟨front, exit, [], [.freeTemp slot] ++ notes, ?_, hquiet, hexit, .inl rfl, hnotes,
      h.isEmpty, fun _ => ⟨fun hne => absurd rfl hne, fun hsome => ?_⟩⟩
    · rw [h.code_eq]
      simp only [List.append_assoc, List.nil_append]
    · have hstored := (hsites hsome).1
      rw [← hstaged, hnone] at hstored
      cases hstored
  · refine ⟨front, exit, _, [.freeTemp slot] ++ notes, ?_, hquiet, hexit,
      .inr ⟨l, slot, ?_, rfl, hstages, ?_, ?_, fun hmem => ?_⟩, hnotes, h.isEmpty,
      fun _ => ⟨fun _ => hsite (hstaged ▸ hsome), fun _ => nofun⟩⟩
    · rw [h.code_eq]
      simp only [List.append_assoc]
    · rw [h.returnSlot, hslot', hslot]
    · -- the return label stands behind this code, so it does not stand in it
      refine (h.holds l slot (hfits'.label l hl).1 hsame fun hmem => ?_).goes
      have hnodup := h.marks_nodup
      rw [h.code_eq, placedIn_append, List.nodup_append] at hnodup
      refine hnodup.2.2 l (mem_placedIn.2 hmem) l (mem_placedIn.2 ?_) rfl
      simp
    · have hdefaultProper : ∀ d ∈ c.defaultCode.map Directive.instr, d.IsProper := by
        intro d hd
        obtain ⟨i, hi, rfl⟩ := List.mem_map.1 hd
        rcases List.mem_append.1 hi with hi | hi
        · exact Instr.placed?_of_isStraight (Instr.isStraight_of_isPlain
            (Fragment.isPlain_pushDefault c.procedure.returnType i hi))
        · rw [List.mem_singleton.1 hi]
          rfl
      obtain ⟨before, i, behind, heq, hi, hbehind⟩ :=
        hdefault.deadEnd hdefaultProper h.deadEnd hdead
      refine ⟨before, i, behind, heq, hi, fun j hj => (hbehind j hj).imp_right ?_⟩
      rintro ⟨m, rfl, hm⟩
      refine ⟨m, rfl, fun hmem => ?_⟩
      rw [hreferenced m ((h.isReferenced m).2 hmem)] at hm
      cases hm
    · have hlt := hhandler l hmem
      have hle := (hfits'.label l hl).1
      omega
  · rw [hstaged] at hsome
    rw [(hsites (hsite hsome)).2] at hnot
    cases hnot

end Laid

/-- The code of an ordinary procedure returns in at most two places. -/
theorem Lowered.returning {labels : LabelTable} {ds : List Directive} {final : Frame} (hmade : c.Made)
    (hgen : c.procedure.isGenerator = false) (hsize : labels.size = c.bound) (hblank : labels.IsBlank)
    (h : c.Lowered labels ds final code g) :
    ∃ body exit staged notes, c.Returning final.returnSlot
      (c.ReturnsIn c.blocks { labels } { labels := final.labels }) code body exit staged notes := by
  obtain ⟨front, back, notes, mid, mid', f, g', hlaid, -⟩ := h.laid hmade hgen hsize hblank
  obtain ⟨hfits, -, hsound, -⟩ := h.sound hmade hsize
  cases hslot : mid.returnSlot with
  | none => exact hlaid.returning_of_none hslot
  | some slot =>
    exact hlaid.returning_of_some (reading_suits hmade hfits h.assembles hsound).handler_lt hslot

/-- A return value has been stored in the end exactly if control gets to a return statement. -/
theorem Lowered.hasStaged_iff {labels : LabelTable} {ds : List Directive} {final : Frame} (hmade : c.Made)
    (hgen : c.procedure.isGenerator = false) (hstages : c.outline.stages = true)
    (hsize : labels.size = c.bound) (hblank : labels.IsBlank) (h : c.Lowered labels ds final code g) :
    g.hasStaged = true ↔
      ∃ value q d, c.ReturnsIn c.blocks { labels } { labels := final.labels } value q d := by
  obtain ⟨_, _, _, mid, _, f, g', hlaid, hblocks, hwhole⟩ := h.laid hmade hgen hsize hblank
  constructor
  · intro hstaged
    have hslot : ∃ slot, ∀ s, mid.returnSlot = some s → s = slot := by
      cases mid.returnSlot with
      | none => exact ⟨⟨0⟩, nofun⟩
      | some slot => exact ⟨slot, fun s hs => (Option.some_inj.1 hs).symm⟩
    exact (hlaid.isQuiet hslot).2 (hwhole ▸ hstaged)
  · rintro ⟨value, q, d, hsite⟩
    rw [hwhole, ← hblocks]
    exact (hlaid.references value q d hsite).1 hstages

end Plan

end StackCode
