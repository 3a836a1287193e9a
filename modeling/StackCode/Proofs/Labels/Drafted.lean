import StackCode.Proofs.Labels.Spelled

/-!
# Drafts in full

What stands in front of the statements of a block, its end, and the blocks in their order: slots and
notes about them apart, the draft of the whole is a function of the labels, and these are the numbers
of the landmarks that a plan and its statements ask for.  Main statement: `Plan.draft_spells`.
-/

namespace StackCode

open Landmark

/-! ## Drafts that allot nothing -/

/-- A draft of such directives that allots nothing and does not ask what has been allotted. -/
structure Draft.Inert {α : Type} (P : Directive → Prop) (x : Draft α) : Prop where
  fixed : ∀ frame frame' : Frame, x frame = { x frame' with frame := frame }
  code : ∀ frame, ∀ d ∈ (x frame).code, P d

namespace Draft

variable {α β : Type} {P : Directive → Prop}

theorem inert_pure (a : α) : (pure a : Draft α).Inert P := ⟨fun _ _ => rfl, fun _ => nofun⟩

theorem inert_ofFragment {x : Fragment α} (hx : ∀ i ∈ x.code, P (.instr i)) :
    (ofFragment x).Inert P where
  fixed _ _ := rfl
  code _ d hd := by
    obtain ⟨i, hi, rfl⟩ := List.mem_map.1 hd
    exact hx i hi

theorem inert_directive {d : Directive} (hd : P d) : (directive d).Inert P :=
  ⟨fun _ _ => rfl, fun _ => List.forall_mem_singleton.2 hd⟩

theorem Inert.bind {x : Draft α} {f : α → Draft β} (hx : x.Inert P)
    (hf : ∀ a, (∀ frame, (x frame).result = .ok a) → (f a).Inert P) : (x >>= f).Inert P := by
  have hframe (frame : Frame) : (x frame).frame = frame :=
    congrArg Drafted.frame (hx.fixed frame frame)
  have hresult (frame frame' : Frame) : (x frame).result = (x frame').result := by
    rw [hx.fixed frame frame']
  cases h : (x { labels := {} }).result with
  | error e =>
    have herror (frame : Frame) : (x frame).result = .error e := (hresult frame _).trans h
    refine ⟨fun frame frame' => ?_, fun frame d hd => ?_⟩
    · rw [bind_of_error (herror frame), bind_of_error (herror frame'), hx.fixed frame frame']
    · rw [bind_of_error (herror frame)] at hd
      exact hx.code frame d hd
  | ok a =>
    have hok (frame : Frame) : (x frame).result = .ok a := (hresult frame _).trans h
    have hrest := hf a hok
    refine ⟨fun frame frame' => ?_, fun frame d hd => ?_⟩
    · rw [bind_of_ok (hok frame), bind_of_ok (hok frame'), hframe, hframe,
        hrest.fixed frame frame', hx.fixed frame frame']
    · rw [bind_of_ok (hok frame)] at hd
      exact (List.mem_append.1 hd).elim (hx.code frame d) (hrest.code _ d)

end Draft

namespace Plan

variable {c : Plan} {frame frame' mid : Frame} {ds ds' : List Directive} {known known' : List Landmark}
  {u : Unit}

/-! ## What stands in front of the statements -/

theorem isStraight_prologue (c : Plan) : ∀ op ∈ c.outline.prologue, op.isStraight = true := by
  intro op hop
  obtain ⟨i, rfl, hi, -⟩ := prologue_passes c op hop
  exact hi

theorem isStraight_receive (o : Outline) (b : BlockId) :
    ∀ op ∈ o.receive b, op.isStraight = true := by
  have hone {i : Instr} (hi : i.isStraight = true) : ∀ op ∈ [Op.run i], op.isStraight = true :=
    List.forall_mem_singleton.2 hi
  unfold Outline.receive
  split
  · unfold Outline.storePending
    split
    · exact hone rfl
    · next array key ty _ =>
      refine List.forall_mem_append.2 ⟨List.forall_mem_append.2 ⟨hone rfl,
        isStraight_of_isPlain (Place.isPlain_pushKey (.entry array key ty))⟩, ?_⟩
      exact List.forall_mem_cons.2 ⟨rfl, hone rfl⟩
    · exact nofun
  · exact hone rfl
  · exact nofun

theorem entry_spells (hfits : frame.Fits c) (hlists : frame.Lists known)
    (hnew : c.procedure.isGenerator = true → .spot .body ∉ known)
    (h : c.entry.Gives frame ds frame' u) :
    Spells c frame' ds
      (addAll known (if c.procedure.isGenerator = true then [.spot .body] else []))
      c.spellEntry := by
  obtain ⟨hgrows, hslot, hlabel⟩ := entry_keeps h
  have hfits' := hfits.mono hgrows hlabel hslot
  obtain ⟨mid, ds₁, ds₂, rfl, hkeeps, hprologue, hdispatch⟩ := entry_gives h
  have hmid := hlists.of_keeps hkeeps
  have hfront (label : Landmark → Label) : bare ds₁ = spell label ⟨0⟩ c.outline.prologue :=
    bare_of_straight (fun r => hprologue r true) (isStraight_prologue c)
  unfold spellEntry
  cases hgen : c.procedure.isGenerator with
  | false =>
    rw [hgen, if_neg Bool.false_ne_true] at hdispatch
    obtain ⟨rfl, rfl, -⟩ := Draft.gives_pure_iff.1 hdispatch
    refine ⟨hfits', hmid, fun label _ => ?_⟩
    rw [bare_append, hfront label]
    rfl
  | true =>
    rw [hgen, if_pos rfl] at hdispatch
    obtain ⟨slot, notes, hnotes, rfl, hlabels, hlabel', hslot'⟩ := dispatch_gives hdispatch
    have hpush := hmid.push (hnew hgen) nofun (by rw [hlabels]; exact Array.size_push _) hlabel'
      (by rw [hslot']; exact hmid.returnSlot)
    rw [if_pos rfl, addAll_cons, addAll_nil]
    refine ⟨hfits', hpush, fun label hagrees => ?_⟩
    have hbody : label (.spot .body) = ⟨mid.labels.size⟩ := by
      rw [hagrees _ (mem_add.2 (.inr rfl)), add_of_not_mem (hnew hgen),
        labelIn_append_self (hnew hgen), hmid.size]
    rw [bare_append, bare_append, hfront label, bare_of_notes hnotes, List.nil_append,
      if_pos rfl, spellDispatch, hbody]
    rfl

theorem enterBlock_spells (hmade : c.Made) (hplanned : c.planned <+: known) (hfits : frame.Fits c)
    (hlists : frame.Lists known) {b : Block} (h : (c.enterBlock b).Gives frame ds frame' u) :
    Spells c frame' ds known fun label =>
      (if b.id ∈ c.labelled then [.mark (label (.spot (.block b.id))) (c.arrival b)] else []) ++
        spell label ⟨0⟩ (c.outline.receive b.id) := by
  obtain ⟨hkeeps, hcode⟩ := enterBlock_gives h
  refine ⟨hfits.mono hkeeps.grows hkeeps.returnLabel hkeeps.returnSlot, hlists.of_keeps hkeeps,
    fun label hlabel => ?_⟩
  cases hl : c.label? b.id with
  | none =>
    rw [hl] at hcode
    have hreceive : c.outline.receive b.id = [] := by
      have hnone : c.caught? b.id = none := by
        by_contra hne
        obtain ⟨-, l, hl'⟩ := hmade.handler (Option.isSome_iff_ne_none.2 hne)
        rw [hl] at hl'
        cases hl'
      unfold Outline.receive
      rw [show c.outline.caught b.id = c.caught? b.id from rfl, hnone]
    have hid : b.id ∉ c.labelled := by
      rw [← isSome_label?_iff, hl]
      exact nofun
    rw [hcode, hreceive, if_neg hid]
    rfl
  | some l =>
    rw [hl] at hcode
    obtain ⟨rest, rfl, -, hreceive⟩ := hcode
    have hid : b.id ∈ c.labelled := isSome_label?_iff.1 (by rw [hl]; rfl)
    rw [if_pos hid, label_block hmade hplanned hlabel hl, bare_cons rfl,
      bare_of_straight (fun r => hreceive r true) (isStraight_receive _ _)]
    rfl

/-! ## The end of a block -/

/-- A directive of an edge: it places no label, and the labels that it names are those of blocks. -/
structure LeadsOn (c : Plan) (d : Directive) : Prop where
  marks? : d.marks? = none
  isProper : d.IsProper
  targets : ∀ i, d = .instr i → ∀ l ∈ i.targets, ∃ b, c.label? b = some l

theorem leadsOn_instr {i : Instr} (hi : i.placed? = none)
    (h : ∀ l ∈ i.targets, ∃ b, c.label? b = some l) : c.LeadsOn (.instr i) where
  marks? := rfl
  isProper := hi
  targets _ hi := by
    cases hi
    exact h

theorem edge_inert (b : Block) (next : Option BlockId) : (c.edge b next).Inert c.LeadsOn := by
  have hlabel (t : BlockId) : (Draft.ofFragment (Fragment.ofExcept (c.blockLabel t))).Inert c.LeadsOn :=
    Draft.inert_ofFragment nofun
  have hok {t : BlockId} {l : Label} (h : ∀ frame,
      (Draft.ofFragment (Fragment.ofExcept (c.blockLabel t)) frame).result = .ok l) :
      c.label? t = some l := blockLabel_eq_ok_iff.1 (h { labels := {} })
  have hone {t : BlockId} {l : Label} (i : Instr) (hi : i.targets = [l]) (hl : c.label? t = some l) :
      (Draft.directive (.instr i)).Inert c.LeadsOn := by
    have hplaced : i.placed? = none := by
      cases i <;> first | rfl | cases hi
    refine Draft.inert_directive (leadsOn_instr hplaced fun l' hl' => ⟨t, ?_⟩)
    rw [hi, List.mem_singleton] at hl'
    rw [hl', hl]
  have hjump (t : BlockId) : (c.jump t next).Inert c.LeadsOn := by
    unfold jump
    split
    · exact Draft.inert_pure _
    · exact (hlabel t).bind fun l hl => hone (.branch l) rfl (hok hl)
  have hvalue (e : Expr) (ty : Ty) (use : ValueUse) :
      (Draft.ofFragment (c.procedure.value e ty use)).Inert c.LeadsOn := by
    refine Draft.inert_ofFragment fun i hi => ?_
    have hstraight := Instr.isStraight_of_isPlain (c.procedure.isPlain_value e ty use i hi)
    refine leadsOn_instr (Instr.placed?_of_isStraight hstraight) ?_
    rw [Instr.targets_of_isStraight hstraight]
    exact nofun
  unfold edge
  cases b.edge with
  | goto target => exact hjump target
  | branch condition s t =>
    refine (hvalue _ _ _).bind fun _ _ => ?_
    split
    · have hpop : c.LeadsOn (.instr .pop) := leadsOn_instr rfl fun _ => nofun
      exact (Draft.inert_directive hpop).bind fun _ _ => hjump s
    · split
      · exact (hlabel t).bind fun l hl => hone (.branchIf false l) rfl (hok hl)
      · exact (hlabel s).bind fun l hl => (hone (.branchIf true l) rfl (hok hl)).bind fun _ _ => hjump t
  | switch selector cases default =>
    refine (hvalue _ _ _).bind fun _ _ => ?_
    have htable : (Draft.ofFragment (Fragment.ofExcept (c.jumpTable cases))).Inert c.LeadsOn :=
      Draft.inert_ofFragment nofun
    refine htable.bind fun table htable => (hlabel default).bind fun l hl =>
      Draft.inert_directive (leadsOn_instr rfl fun l' hl' => ?_)
    rcases List.mem_append.1 hl' with hl' | hl'
    · obtain ⟨e, he, rfl⟩ := List.mem_map.1 hl'
      obtain ⟨t, -, -, ht⟩ := exists_of_forall₂ (jumpTable_eq_ok (htable { labels := {} })).flip he
      exact ⟨_, ht⟩
    · exact ⟨default, by rw [List.mem_singleton.1 hl']; exact hok hl⟩
  | protect body handler exception =>
    exact (hlabel handler).bind fun l hl => (hone (.enterTry l) rfl (hok hl)).bind fun _ _ => hjump body
  | leave target => exact (hlabel target).bind fun l hl => hone (.leave l) rfl (hok hl)
  | none => exact Draft.inert_directive ⟨rfl, trivial, nofun⟩

theorem edge_bare {b : Block} {next : Option BlockId} (h : (c.edge b next).Gives frame ds frame' u) :
    bare ds = c.spellEdge b next := by
  unfold spellEdge
  rw [(edge_inert b next).fixed { labels := {} } frame, h]

/-- Without slots, an edge leads on as before. -/
theorem leadsOn_of_mem_spellEdge {b : Block} {next : Option BlockId} {d : Directive}
    (hd : d ∈ c.spellEdge b next) : c.LeadsOn d := by
  obtain ⟨d₀, hd₀, hbare⟩ := List.mem_filterMap.1 hd
  have hleads := (edge_inert b next).code _ d₀ hd₀
  cases d₀ with
  | instr i =>
    obtain ⟨-, rfl⟩ := Directive.bare?_instr.1 hbare
    refine leadsOn_instr ((Instr.placed?_erased i).trans hleads.isProper) ?_
    rw [Instr.targets_erased]
    exact hleads.targets i rfl
  | mark | returnPoint => cases hleads.marks?
  | endStatement | endBlock | stageReturn =>
    cases hbare
    exact hleads

/-- The exit allots no label. -/
theorem exit_keeps (hfits : frame.Fits c) (hlists : frame.Lists known)
    (h : (if c.procedure.isGenerator then Draft.exitGenerator
      else Draft.exitOrdinary c.procedure.returnType).Gives frame ds frame' u) :
    KeepsLabels frame frame' := by
  cases hslot : frame.returnSlot with
  | none =>
    obtain ⟨-, -, _, -, hmatch⟩ := exit_gives hfits h
    rw [hslot] at hmatch
    rw [hmatch.1]
    exact .refl frame
  | some slot =>
    have hgen : c.procedure.isGenerator = false := by
      have hstages := hfits.slot slot hslot
      cases hgen : c.procedure.isGenerator with
      | false => rfl
      | true => simp [Outline.stages, outline, hgen] at hstages
    obtain ⟨l, hlabel⟩ := Option.isSome_iff_exists.1
      (hlists.isSome_returnLabel.2 (hlists.returnSlot (by rw [hslot]; rfl)))
    rw [hgen, if_neg Bool.false_ne_true] at h
    unfold Draft.exitOrdinary at h
    rw [Draft.gives_getFrame_bind_iff] at h
    simp only [Draft.liftM_eq, hslot] at h
    obtain ⟨_, _, -, h₁, -⟩ := Draft.gives_ofFragment_bind_iff.1 h
    obtain ⟨_, h₂, -⟩ := Draft.gives_emit_bind_iff.1 h₁
    obtain ⟨_, mid, _, _, hl, h₃, -⟩ := Draft.gives_bind_iff.1 h₂
    obtain ⟨_, h₄, -⟩ := Draft.gives_directive_bind_iff.1 h₃
    obtain ⟨temps, -, -, rfl⟩ := Draft.gives_releaseTemp_iff.1 h₄
    obtain ⟨-, hl⟩ := Draft.gives_returnLabel_iff.1 hl
    rw [hlabel] at hl
    obtain ⟨rfl, -⟩ := hl
    exact ⟨rfl, rfl, rfl⟩

theorem isStraight_exit (o : Outline) : ∀ op ∈ o.exit, op.isStraight = true := by
  unfold Outline.exit
  split
  · exact List.forall_mem_append.2 ⟨List.forall_mem_cons.2 ⟨rfl, List.forall_mem_singleton.2 rfl⟩,
      List.forall_mem_singleton.2 rfl⟩
  · exact List.forall_mem_append.2 ⟨isStraight_of_isPlain (Fragment.isPlain_pushDefault _),
      List.forall_mem_singleton.2 rfl⟩

theorem exit_spells (hfits : frame.Fits c) (hlists : frame.Lists known) {returns : Bool}
    (hreturns : returns = true ↔ .spot .ret ∈ known)
    (h : (if c.procedure.isGenerator then Draft.exitGenerator
      else Draft.exitOrdinary c.procedure.returnType).Gives frame ds frame' u) :
    Spells c frame' ds known fun label => c.spellExit label returns := by
  have hkeeps := exit_keeps hfits hlists h
  have hlists' := hlists.of_keeps hkeeps
  obtain ⟨-, hfits', ds₀, hrenders, hmatch⟩ := exit_gives hfits h
  have hexit (label : Landmark → Label) : bare ds₀ = spell label ⟨0⟩ c.outline.exit :=
    bare_of_straight (fun r => hrenders r true) (isStraight_exit _)
  refine ⟨hfits', hlists', fun label hlabel => ?_⟩
  have hret {l : Label} (hl : frame'.returnLabel = some l) : label (.spot .ret) = l := by
    rw [hlists'.returnLabel] at hl
    split at hl
    · next hmem =>
      cases hl
      exact hlabel _ hmem
    · cases hl
  unfold spellExit
  cases hslot : frame.returnSlot with
  | some slot =>
    rw [hslot] at hmatch
    obtain ⟨l, hl, rfl⟩ := hmatch
    have hcond : (returns && c.outline.stages) = true := by
      rw [hreturns.2 (hlists.returnSlot (by rw [hslot]; rfl)), hfits.slot slot hslot]
      rfl
    rw [if_pos hcond, bare_append, hexit label, hret hl]
    rfl
  | none =>
    rw [hslot] at hmatch
    obtain ⟨rfl, rfl⟩ := hmatch
    rw [bare_append, hexit label]
    cases hl : frame'.returnLabel with
    | none =>
      have hcond : returns = false := eq_false_of_ne_true fun hr => by
        have hsome := hlists.isSome_returnLabel.2 (hreturns.1 hr)
        rw [hl] at hsome
        cases hsome
      rw [hcond]
      rfl
    | some l =>
      have hsome : returns = true := hreturns.2 (hlists.isSome_returnLabel.1 (by rw [hl]; rfl))
      have hstages : c.outline.stages = false := eq_false_of_ne_true fun hs => by
        obtain ⟨s, hs⟩ := (hfits.label l hl).2 hs
        rw [hslot] at hs
        cases hs
      rw [hsome, hstages, if_neg (by decide), if_pos rfl, hret hl]
      rfl

/-! ## Blocks -/

theorem block_spells (hmade : c.Made) (hplanned : c.planned <+: known) (hfits : frame.Fits c)
    (hlists : frame.Lists known) {b : Block} (hnew : ∀ k, .static b.id k ∉ known)
    (hbody : b.kind = .start → .spot .body ∉ known) (returns : Bool)
    (hreturns : b.kind = .exit → (returns = true ↔ .spot .ret ∈ addAll known (c.landmarksOf b)))
    {next : Option BlockId} (h : (c.block b next).Gives frame ds frame' u) :
    Spells c frame' ds (addAll known (c.landmarksOf b)) fun label =>
      c.spellBlock label returns b next := by
  obtain ⟨mid₁, mid₂, mid₃, d₁, d₂, d₃, d₄, rfl, h₁, -, h₂, -, h₃, h₄⟩ := block_parts hfits h
  have hentry : Spells c mid₁ d₁
      (addAll known (if b.kind = .start ∧ c.procedure.isGenerator = true then [.spot .body] else []))
      fun label => if b.kind = .start then c.spellEntry label else [] := by
    by_cases hk : b.kind = .start
    · rw [if_pos hk] at h₁
      have := entry_spells hfits hlists (fun _ => hbody hk) h₁
      simpa only [hk, true_and, if_true] using this
    · rw [if_neg hk] at h₁
      obtain ⟨rfl, rfl, -⟩ := Draft.gives_pure_iff.1 h₁
      rw [if_neg fun hand => hk hand.1]
      exact ⟨hfits, hlists, fun _ _ => (if_neg hk).symm⟩
  have hextends := prefix_addAll known
    (if b.kind = .start ∧ c.procedure.isGenerator = true then [.spot .body] else [])
  have hlabel := enterBlock_spells hmade (hplanned.trans hextends) hentry.fits hentry.lists h₂
  have hbody := statements_spell hmade (hplanned.trans hextends) hlabel.fits hlabel.lists
    b.id 0 (fun k _ hmem => (mem_addAll.1 hmem).elim (hnew k) fun hmem => by
      split at hmem
      · cases List.mem_singleton.1 hmem
      · cases hmem) h₃
  rw [← addAll_append] at hbody
  have hend : Spells c frame' d₄ (addAll known (c.landmarksOf b)) fun label =>
      c.spellEnd label returns b next := by
    unfold blockEnd at h₄
    unfold spellEnd
    by_cases hk : b.kind = .exit
    · rw [if_pos hk] at h₄
      have hexit := exit_spells hbody.fits hbody.lists (hreturns hk) h₄
      simpa only [if_pos hk, landmarksOf] using hexit
    · rw [if_neg hk] at h₄
      obtain ⟨rfl, -⟩ := edge_renders h₄
      simp only [if_neg hk]
      exact ⟨hbody.fits, hbody.lists, fun _ _ => edge_bare h₄⟩
  have hall := (hentry.append hlabel List.prefix_rfl).append
    (hbody.append hend List.prefix_rfl) (by rw [landmarksOf, addAll_append]; exact prefix_addAll _ _)
  refine ⟨hall.fits, hall.lists, fun label hagrees => ?_⟩
  have heq := hall.bare_eq label hagrees
  simpa only [List.append_assoc, spellBlock, spellFront] using heq

theorem body_not_mem_landmarksFrom (b : BlockId) (position : Nat) (ss : List Stmt) :
    .spot .body ∉ Stmt.landmarksFrom b position ss := by
  induction ss generalizing position with
  | nil => exact List.not_mem_nil
  | cons s ss ih =>
    refine fun hmem => (List.mem_append.1 hmem).elim (fun hmem => ?_) (ih (position + 1))
    cases s <;> simp [Stmt.landmarks] at hmem

theorem static_of_mem_landmarksOf {b : Block} {id : BlockId} {k : Nat}
    (h : .static id k ∈ c.landmarksOf b) : id = b.id := by
  rcases List.mem_append.1 h with h | h
  · split at h
    · cases List.mem_singleton.1 h
    · cases h
  · exact (Stmt.static_of_mem_landmarksFrom h).1

theorem body_mem_landmarksOf {b : Block} (h : .spot .body ∈ c.landmarksOf b) : b.kind = .start := by
  rcases List.mem_append.1 h with h | h
  · split at h
    · next hk => exact hk.1
    · cases h
  · exact absurd h (body_not_mem_landmarksFrom _ _ _)

theorem ret_mem_landmarksOf_iff {b : Block} :
    .spot .ret ∈ c.landmarksOf b ↔ b.statements.any Stmt.isReturn = true := by
  rw [landmarksOf, List.mem_append, Stmt.ret_mem_landmarksFrom_iff]
  refine or_iff_right fun h => ?_
  split at h
  · cases List.mem_singleton.1 h
  · cases h

/-- Blocks with the exit at the end, if it is among them. -/
theorem blocks_spell (hmade : c.Made) {bs : List Block} (hbs : ∀ b ∈ bs, b ∈ c.blocks)
    (hnodup : (bs.map (·.id)).Nodup) (hplanned : c.planned <+: known) (hfits : frame.Fits c)
    (hlists : frame.Lists known) (hnew : ∀ b ∈ bs, ∀ k, .static b.id k ∉ known)
    (hbody : ∀ b ∈ bs, b.kind = .start → .spot .body ∉ known)
    (hlast : ∀ front b back, bs = front ++ b :: back → b.kind = .exit → back = [])
    {returns : Bool} (hreturns : returns = true ↔ .spot .ret ∈ addAll known (bs.flatMap c.landmarksOf))
    (h : (c.blocksFrom bs).Gives frame ds frame' u) :
    Spells c frame' ds (addAll known (bs.flatMap c.landmarksOf)) fun label =>
      c.spellBlocks label returns bs := by
  induction bs generalizing frame ds known with
  | nil =>
    obtain ⟨rfl, rfl, -⟩ := Draft.gives_pure_iff.1 h
    exact ⟨hfits, hlists, fun _ _ => rfl⟩
  | cons b bs ih =>
    obtain ⟨_, mid, ds₁, ds₂, h₁, h₂, rfl⟩ := Draft.gives_bind_iff.1 h
    obtain ⟨hb, hbs⟩ := List.forall_mem_cons.1 hbs
    rw [List.map_cons, List.nodup_cons] at hnodup
    have hapart : ∀ b' ∈ bs, b'.id ≠ b.id := fun b' hb' heq =>
      hnodup.1 (heq ▸ List.mem_map_of_mem hb')
    have hfirst := block_spells hmade hplanned hfits hlists (hnew b List.mem_cons_self)
      (hbody b List.mem_cons_self) returns (fun hk => by
        have hnil := hlast [] b bs rfl hk
        rw [hreturns, hnil]
        simp) h₁
    have hextends := prefix_addAll known (c.landmarksOf b)
    rw [List.flatMap_cons, addAll_append] at hreturns ⊢
    have hrest := ih hbs hnodup.2 (hplanned.trans hextends) hfirst.fits hfirst.lists
      (fun b' hb' k hmem => (mem_addAll.1 hmem).elim (hnew b' (List.mem_cons_of_mem _ hb') k)
        fun hmem => hapart b' hb' (static_of_mem_landmarksOf hmem))
      (fun b' hb' hk hmem => (mem_addAll.1 hmem).elim (hbody b' (List.mem_cons_of_mem _ hb') hk)
        fun hmem => hapart b' hb' <|
          ((hmade.kind_eq_start_iff (hbs b' hb')).1 hk).trans
            ((hmade.kind_eq_start_iff hb).1 (body_mem_landmarksOf hmem)).symm)
      (fun front b' back heq => hlast (b :: front) b' back (by rw [heq]; rfl)) hreturns h₂
    exact hfirst.append hrest (prefix_addAll _ _)

/-- The exit stands behind all other blocks. -/
theorem Made.exists_exit (hmade : c.Made) : ∃ front last, c.blocks = front ++ [last] ∧
    (∀ b ∈ front, b.kind ≠ .exit) ∧ last.kind = .exit := by
  obtain ⟨first, mids, last, hblocks, hfirst, hlast, hmids⟩ := hmade.blocks_eq
  refine ⟨first :: mids, last, hblocks, List.forall_mem_cons.2 ⟨?_, fun b hb => ?_⟩, hlast⟩
  · rw [hfirst]
    nofun
  · rw [hmids b hb]
    nofun

/-- Nothing stands behind the exit. -/
theorem Made.back_eq_nil (hmade : c.Made) {front back : List Block} {b : Block}
    (h : c.blocks = front ++ b :: back) (hk : b.kind = .exit) : back = [] := by
  obtain ⟨others, last, hblocks, hkinds, -⟩ := hmade.exists_exit
  have hothers : others = c.blocks.dropLast := by rw [hblocks, List.dropLast_concat]
  by_contra hne
  refine hkinds b ?_ hk
  rw [hothers, h, List.dropLast_append_of_ne_nil (List.cons_ne_nil b back),
    List.dropLast_cons_of_ne_nil hne]
  simp

theorem spellBlocks_append_exit {label : Landmark → Label} (returns : Bool) {front : List Block}
    {last : Block} (hfront : ∀ b ∈ front, b.kind ≠ .exit) (hlast : last.kind = .exit) :
    c.spellBlocks label returns (front ++ [last]) =
      c.spellOpen label (front ++ [last]) ++ c.spellExit label returns := by
  have hblock (b : Block) (next : Option BlockId) : c.spellBlock label returns b next =
      c.spellBody label b ++ c.spellEnd label returns b next := (List.append_assoc _ _ _).symm
  induction front with
  | nil =>
    simp only [List.nil_append, spellBlocks, spellOpen, hblock, spellEnd, if_pos hlast,
      List.append_nil]
  | cons b front ih =>
    obtain ⟨hb, hfront⟩ := List.forall_mem_cons.1 hfront
    rw [List.cons_append, spellBlocks, spellOpen, ih hfront, hblock, spellEnd, if_neg hb, if_neg hb]
    simp only [List.append_assoc]

/-- The end of the exit stands behind everything else. -/
theorem Made.spellBlocks_eq (hmade : c.Made) (label : Landmark → Label) (returns : Bool) :
    c.spellBlocks label returns c.blocks =
      c.spellOpen label c.blocks ++ c.spellExit label returns := by
  obtain ⟨front, last, hblocks, hfront, hlast⟩ := hmade.exists_exit
  rw [hblocks]
  exact spellBlocks_append_exit returns hfront hlast

/-! ## The whole draft -/

theorem mem_planned_iff {x : Landmark} : x ∈ c.planned ↔ (∃ b ∈ c.labelled, x = .spot (.block b)) ∨
    ∃ i < c.resume.labels.length, x = .spot (.resume ((i : Int) + 1)) := by
  simp only [planned, List.mem_append, List.mem_map, List.mem_range, eq_comm (b := x)]

theorem lists_planned {labels : LabelTable} (hsize : labels.size = c.bound) :
    ({ labels } : Frame).Lists c.planned where
  size := hsize.trans length_planned.symm
  returnLabel := by
    have hret : .spot .ret ∉ c.planned := by
      rw [mem_planned_iff]
      rintro (⟨b, -, h⟩ | ⟨i, -, h⟩) <;> cases h
    exact (if_neg hret).symm
  returnSlot := nofun

/-- Some statement returns exactly if there is a place to return. -/
theorem ret_mem_known_iff : .spot .ret ∈ c.known ↔ returnsIn c.blocks = true := by
  have hplanned : .spot .ret ∉ c.planned := by
    rw [mem_planned_iff]
    rintro (⟨b, -, h⟩ | ⟨i, -, h⟩) <;> cases h
  rw [known, mem_addAll, List.mem_flatMap, returnsIn, List.any_eq_true]
  simp only [hplanned, false_or, ret_mem_landmarksOf_iff]

/-- The draft of a procedure, and the labels behind it. -/
theorem draft_spells (hmade : c.Made) {labels : LabelTable} (hsize : labels.size = c.bound)
    (h : c.draft.Gives { labels } ds frame' u) :
    Spells c frame' ds c.known fun label => c.spellBlocks label (returnsIn c.blocks) c.blocks := by
  obtain ⟨_, mid, ds₁, ds₂, hblocks, hfree, rfl⟩ := Draft.gives_bind_iff.1 h
  obtain ⟨hkeeps, hnotes⟩ := releaseDebugLocals_gives hfree
  have hplanned {x : Landmark} (hblock : ∀ b, x ≠ .spot (.block b))
      (hresume : ∀ i, x ≠ .spot (.resume i)) : x ∉ c.planned := by
    rw [mem_planned_iff]
    rintro (⟨b, -, rfl⟩ | ⟨i, -, rfl⟩)
    · exact hblock b rfl
    · exact hresume _ rfl
  have hfits : ({ labels } : Frame).Fits c := ⟨Nat.le_of_eq hsize.symm, nofun, nofun⟩
  have hspells := blocks_spell hmade (fun _ => id) hmade.nodup List.prefix_rfl hfits
    (lists_planned hsize)
    (fun b _ k => hplanned (fun _ => nofun) fun _ => nofun)
    (fun b _ _ => hplanned (fun _ => nofun) fun _ => nofun) (fun _ _ _ => hmade.back_eq_nil)
    ret_mem_known_iff.symm hblocks
  refine ⟨hspells.fits.mono hkeeps.grows hkeeps.returnLabel hkeeps.returnSlot,
    hspells.lists.of_keeps hkeeps, fun label hlabel => ?_⟩
  rw [bare_append, bare_of_notes hnotes, List.append_nil, hspells.bare_eq label hlabel]

end Plan

end StackCode
