import StackCode.Proofs.Outline.Writes
import StackCode.Proofs.Refusal.Statement

/-!
# Edges and labels of blocks keep the account

An edge branches to blocks of the plan, which have labels, and to the exit only where control gets to
it.  In front of its statements, a block places its label and receives what has been thrown.  Main
statements: `Plan.edge_meets`, `Plan.enterBlock_meets`.
-/

namespace StackCode

namespace Plan

variable {c : Plan} {todo : List Label} {v w : Bool} {b : Block}

/-- What needs the label of a block that an edge leads to. -/
theorem blockLabel_bind {α : Type} {t : BlockId} {l : Label} (hl : c.label? t = some l)
    (f : Label → Draft α) : (liftM (c.blockLabel t) >>= f : Draft α) = f l := by
  rw [blockLabel_eq_ok_iff.2 hl]
  exact pure_bind l f

/-- The labels of a jump table are labels of blocks that its edge names. -/
theorem exists_label_of_jumpTable {cases : List (Int × BlockId)} {table : List (Int × Label)}
    (h : c.jumpTable cases = .ok table) {l : Label} (hl : l ∈ table.map Prod.snd) :
    ∃ t ∈ cases.map Prod.snd, c.label? t = some l := by
  have hall := jumpTable_eq_ok h
  clear h
  induction hall with
  | nil => cases hl
  | cons hfirst _ ih =>
    rcases List.mem_cons.1 hl with rfl | hl
    · exact ⟨_, List.mem_cons_self, hfirst.2⟩
    · obtain ⟨t, ht, hlabel⟩ := ih hl
      exact ⟨t, List.mem_cons_of_mem _ ht, hlabel⟩

/-! ## Edges -/

/-- Where control gets to an edge, it may branch to where the edge leads. -/
theorem refers_of_edge {frame : Frame} {labels : LabelTable} {staged : Bool} (hb : b ∈ c.blocks)
    (hk : b.kind ≠ .exit) (hreach : c.reachesEdge b = true) {t : BlockId} (ht : t ∈ b.edge.targets)
    {l : Label} (hl : c.label? t = some l) (h : c.Keeps todo frame labels staged) :
    c.Refers todo frame labels staged l := by
  have hlt : l.index < c.bound := Nat.lt_of_lt_of_le (label?_lt hl) (Nat.le_add_right _ _)
  refine ⟨(h.planned l hlt).imp_right .inl, fun hret => ?_, fun hexit => ?_⟩
  · exact absurd hlt (Nat.not_lt.2 (h.fits.label l hret).1)
  · obtain rfl := label?_inj hl hexit
    exact List.any_eq_true.2 ⟨b, hb, by simp [hk, hreach, ht]⟩

/-- Control gets from an edge to the statements of the blocks it leads to. -/
theorem reachesBlock_of_edge (hmade : c.Made) (hb : b ∈ c.blocks) (hk : b.kind ≠ .exit)
    (hreach : c.reachesEdge b = true) {b' : Block} (hb' : b' ∈ c.blocks)
    (ht : b'.id ∈ b.edge.targets) : c.reachesBlock b' = true := by
  unfold reachesBlock
  split
  · next hexit =>
    rw [(hmade.kind_eq_exit_iff hb').1 hexit] at ht
    exact List.any_eq_true.2 ⟨b, hb, by simp [hk, hreach, ht]⟩
  · obtain ⟨-, l, hl⟩ := hmade.target hb ht
    rw [isLabelled, hl]
    simp

/-- An instruction of an edge, with labels of blocks that the edge leads to. -/
theorem goto_meets {i : Instr} (hb : b ∈ c.blocks) (hk : b.kind ≠ .exit)
    (hv : v = true → c.reachesEdge b = true) (hret : i.returnDepth? = none) (hpushes : i.pushes = 0)
    (htargets : ∀ l ∈ i.targets, ∃ t ∈ b.edge.targets, c.label? t = some l) :
    (Draft.emit i).Meets c.Permits (c.At (c.Books todo Frame.Tidy) v i.pops) fun _ =>
      c.At (c.Books todo Frame.Tidy) (v && !i.endsFlow) 0 := by
  refine branch_meets todo hret hpushes fun frame labels staged h =>
    ⟨h.1, h, fun hvalid => ⟨fun l hl => ?_, fun labels' hkeeps => ⟨hkeeps, h.2⟩⟩⟩
  obtain ⟨t, ht, hlabel⟩ := htargets l hl
  exact refers_of_edge hb hk (hv hvalid) ht hlabel h.1

section
variable {next : Option BlockId} (hmade : c.Made) (hb : b ∈ c.blocks) (hk : b.kind ≠ .exit)
include hmade hb hk

/-- A jump falls through where its target follows. -/
theorem jump_meets {t : BlockId} (ht : t ∈ b.edge.targets) (hv : v = true → c.reachesEdge b = true)
    (hw : v = true → next = some t → w = true) :
    (c.jump t next).Meets c.Permits (c.At (c.Books todo Frame.Tidy) v 0) fun _ =>
      c.At (c.Books todo Frame.Tidy) w 0 := by
  unfold jump
  split
  · next hnext => exact .pure fun _ _ h => h.mono (fun _ _ _ => id) fun hvalid => hw hvalid hnext
  · obtain ⟨l, hl⟩ := (hmade.target hb ht).2
    rw [blockLabel_bind hl]
    refine (goto_meets (i := .branch l) hb hk hv rfl rfl ?_).weaken fun _ frame f h => ?_
    · exact List.forall_mem_singleton.2 ⟨t, ht, hl⟩
    · exact h.of_dead (Bool.and_false v)

/-- The code of an edge, where the block that follows is entered if `w`. -/
theorem edge_meets (hfinds : c.Steady → c.reachesEdge b = true → c.FindsEdge b.edge)
    (hw : ∀ t ∈ b.edge.normalTargets, c.reachesEdge b = true → next = some t → w = true) :
    (c.edge b next).Meets c.Permits (c.At (c.Books todo Frame.Tidy) (c.reachesEdge b) 0) fun _ =>
      c.At (c.Books todo Frame.Tidy) w 0 := by
  have hlabel {t : BlockId} (ht : t ∈ b.edge.targets) : ∃ l, c.label? t = some l :=
    (hmade.target hb ht).2
  have hjump {t : BlockId} (ht : t ∈ b.edge.normalTargets) : (c.jump t next).Meets c.Permits
      (c.At (c.Books todo Frame.Tidy) (c.reachesEdge b) 0) fun _ =>
        c.At (c.Books todo Frame.Tidy) w 0 :=
    jump_meets hmade hb hk (Edge.mem_targets_iff.2 (.inl ht)) id (hw t ht)
  have hgoto {i : Instr} (hret : i.returnDepth? = none) (hpushes : i.pushes = 0)
      (htargets : ∀ l ∈ i.targets, ∃ t ∈ b.edge.targets, c.label? t = some l) :
      (Draft.emit i).Meets c.Permits (c.At (c.Books todo Frame.Tidy) (c.reachesEdge b) i.pops)
        fun _ => c.At (c.Books todo Frame.Tidy) (c.reachesEdge b && !i.endsFlow) 0 :=
    goto_meets hb hk id hret hpushes htargets
  unfold edge
  simp only [Draft.liftM_eq]
  cases he : b.edge with
  | goto t =>
    rw [he] at hjump
    exact hjump (List.mem_singleton.2 rfl)
  | branch condition s t =>
    rw [he] at hjump hgoto hlabel hfinds hw
    have hs : s ∈ (Edge.branch condition s t).targets := List.mem_cons_self
    have ht : t ∈ (Edge.branch condition s t).targets := List.mem_cons_of_mem _ List.mem_cons_self
    obtain ⟨l, hl⟩ := hlabel hs
    obtain ⟨m, hm⟩ := hlabel ht
    refine Draft.Meets.seq (fragment_meets (c.procedure.isPlain_value _ _ _)
      (Procedure.value_carries nofun condition .bool .branchCondition) hfinds) ?_
    split
    · exact Draft.Meets.seq (step_meets .pop 0 rfl rfl) (hjump hs)
    · split
      · next hnext =>
        rw [blockLabel_bind hm]
        refine (hgoto (i := .branchIf false m) rfl rfl ?_).weaken fun _ frame f h => ?_
        · exact List.forall_mem_singleton.2 ⟨t, ht, hm⟩
        · exact h.mono (fun _ _ _ => id) fun hvalid =>
            hw s hs ((Bool.and_eq_true _ _).mp hvalid).1 hnext
      · rw [blockLabel_bind hl]
        refine Draft.Meets.seq ((hgoto (i := .branchIf true l) rfl rfl ?_).weaken
          fun _ frame f h => ?_) (hjump ht)
        · exact List.forall_mem_singleton.2 ⟨s, hs, hl⟩
        · exact h.mono (fun _ _ _ => id) fun hvalid => ((Bool.and_eq_true _ _).mp hvalid).1
  | switch selector cases default =>
    rw [he] at hgoto hlabel hfinds
    refine Draft.Meets.seq (fragment_meets (c.procedure.isPlain_value _ _ _)
      (Procedure.value_carries nofun selector .int .switchSelector) hfinds) ?_
    obtain ⟨l, hl⟩ := hlabel (List.mem_append_right _ (List.mem_singleton.2 rfl))
    obtain ⟨table, htable⟩ := jumpTable_succeeds fun e he =>
      hlabel (List.mem_append_left _ (List.mem_map_of_mem he))
    rw [htable]
    change (liftM (c.blockLabel default) >>= _ : Draft Unit).Meets _ _ _
    rw [blockLabel_bind hl]
    refine (hgoto (i := .switch table l) rfl rfl fun m hm => ?_).weaken fun _ frame f h => ?_
    · rcases List.mem_append.1 hm with hm | hm
      · obtain ⟨t, ht, hlabel⟩ := exists_label_of_jumpTable htable hm
        exact ⟨t, List.mem_append_left _ ht, hlabel⟩
      · rw [List.mem_singleton.1 hm]
        exact ⟨default, List.mem_append_right _ (List.mem_singleton.2 rfl), hl⟩
    · exact h.of_dead (Bool.and_false _)
  | protect body handler exception =>
    rw [he] at hjump hgoto hlabel
    have hhandler : handler ∈ (Edge.protect body handler exception).targets :=
      List.mem_cons_of_mem _ List.mem_cons_self
    obtain ⟨l, hl⟩ := hlabel hhandler
    simp only
    rw [blockLabel_bind hl]
    refine Draft.Meets.seq ((hgoto (i := .enterTry l) rfl rfl ?_).weaken fun _ frame f h => ?_)
      (hjump (List.mem_singleton.2 rfl))
    · exact List.forall_mem_singleton.2 ⟨handler, hhandler, hl⟩
    · exact h.mono (fun _ _ _ => id) fun hvalid => ((Bool.and_eq_true _ _).mp hvalid).1
  | leave t =>
    rw [he] at hgoto hlabel
    have ht : t ∈ (Edge.leave t).targets := List.mem_singleton.2 rfl
    obtain ⟨l, hl⟩ := hlabel ht
    simp only
    rw [blockLabel_bind hl]
    refine (hgoto (i := .leave l) rfl rfl ?_).weaken fun _ frame f h => ?_
    · exact List.forall_mem_singleton.2 ⟨t, ht, hl⟩
    · exact h.of_dead (Bool.and_false _)
  | none =>
    exact (endBlock_meets fun hreach => ⟨hb, hk, hreach, he⟩).weaken fun _ frame f h =>
      h.mono (fun _ _ _ => id) nofun

end

/-! ## Labels -/

/-- What has been thrown is stored where the handler wants it. -/
theorem storePending_meets (id : LocalId) :
    (c.procedure.storePending id).Meets c.Permits (c.At (c.Books todo Frame.Tidy) v 1) fun _ =>
      c.At (c.Books todo Frame.Tidy) v 0 := by
  unfold Procedure.storePending
  simp only [Draft.liftM_eq]
  refine (sure_meets (x := Fragment.ofExcept (c.procedure.place id)) (List.forall_mem_nil _)
    (.ofExcept fun _ => Procedure.missing_of_place)).bind fun place => ?_
  cases place with
  | slot id => exact step_meets (.storeLocal id) 0 rfl rfl
  | entry array key ty =>
    refine (acquireTemp_meets .value).bind fun slot => ?_
    refine Draft.Meets.seq (step_meets (.storeTemp slot) 0 rfl rfl) ?_
    refine Draft.Meets.seq (sure_meets (Place.isPlain_pushKey _) (Place.pushKey_carries _)) ?_
    refine Draft.Meets.seq (step_meets (.loadTemp slot) 2 rfl rfl) ?_
    exact Draft.Meets.seq (sure_meets (Fragment.isPlain_callIntrinsic _)
      (Fragment.callIntrinsic_carries (n := 0) .arraySet)) releaseTemp_meets

/-- The label of a block, and behind that of a handler the exception, which is taken from the stack. -/
theorem enterBlock_meets (hmade : c.Made) (hb : b ∈ c.blocks)
    (hv : v = true → c.reachesBlock b = true ∧ c.caught? b.id = none) :
    (c.enterBlock b).Meets c.Permits
      (c.At (c.Books ((c.label? b.id).toList ++ todo) Frame.Tidy) v 0) fun _ =>
        c.At (c.Books todo Frame.Tidy) (c.reachesBlock b) 0 := by
  unfold enterBlock
  cases hl : c.label? b.id with
  | none => exact .pure fun _ _ h => h.mono (fun _ _ _ => id) fun hvalid => (hv hvalid).1
  | some l =>
    have hlabelled : c.isLabelled b.id = true := Option.isSome_iff_exists.2 ⟨l, hl⟩
    have hreaches (hk : b.kind ≠ .exit) : c.reachesBlock b = true := by
      rw [reachesBlock, if_neg hk, hlabelled, Bool.or_true]
    have hplace (arrival : Arrival) (harrival : v = true → arrival ≠ .handler)
        (hreach : arrival ≠ .forward → b.kind ≠ .exit) :
        (Draft.mark l arrival).Meets c.Permits (c.At (c.Books (l :: todo) Frame.Tidy) v 0) fun _ =>
          c.At (c.Books todo Frame.Tidy) (c.reachesBlock b) (Flow.entryDepth arrival) := by
      refine place_meets arrival (fun hvalid => ⟨harrival hvalid, rfl⟩) (fun hvalid => (hv hvalid).1)
        fun frame labels staged h => ⟨h, fun hor => ?_⟩
      by_cases hk : b.kind = .exit
      · rcases hor with hne | href
        · exact absurd hk (hreach hne)
        · rw [reachesBlock, if_pos hk]
          exact h.1.exit l ((hmade.kind_eq_exit_iff hb).1 hk ▸ hl) href
      · exact hreaches hk
    cases hc : c.caught? b.id with
    | some exception =>
      obtain ⟨⟨b', hb', hid, hk⟩, -⟩ := hmade.handler (Option.isSome_iff_exists.2 ⟨exception, hc⟩)
      obtain rfl : b' = b := Option.some_inj.1
        ((hmade.block? b' hb').symm.trans (hid ▸ hmade.block? b hb))
      have hmark := hplace .handler (fun hvalid => by
        have := (hv hvalid).2
        rw [hc] at this
        cases this) (fun _ => by rw [hk]; nofun)
      refine Draft.Meets.seq hmark ?_
      cases exception with
      | some id => exact storePending_meets id
      | none => exact step_meets .pop 0 rfl rfl
    | none =>
      simp only
      split
      · exact hplace .forward (fun _ => nofun) fun h => absurd rfl h
      · next hk => exact hplace .join (fun _ => nofun) fun _ => hk

end Plan

end StackCode
