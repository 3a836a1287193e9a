import StackCode.Proofs.Outline.Statement

/-!
# Edges and handlers render their outlines

The draft of an edge is the code of its condition or selector, or the opening of a protected region,
and one of the ways in which a block may end.  Main statements: `Plan.edge_renders`,
`Plan.receive_renders`.
-/

namespace StackCode

namespace Plan

variable {c : Plan} {frame frame' : Frame} {ds : List Directive} {u : Unit}

theorem blockLabel_eq_ok_iff {b : BlockId} {l : Label} :
    c.blockLabel b = .ok l ↔ c.label? b = some l := by
  unfold blockLabel
  cases c.label? b <;> simp

theorem gives_blockLabel_bind_iff {α : Type} {b : BlockId} {f : Label → Draft α} {a : α} :
    (Draft.ofFragment (Fragment.ofExcept (c.blockLabel b)) >>= f).Gives frame ds frame' a ↔
      ∃ l, c.label? b = some l ∧ (f l).Gives frame ds frame' a := by
  rw [Draft.gives_ofFragment_bind_iff]
  constructor
  · rintro ⟨l, rest, hl, h, rfl⟩
    exact ⟨l, blockLabel_eq_ok_iff.1 hl, h⟩
  · rintro ⟨l, hl, h⟩
    exact ⟨l, ds, blockLabel_eq_ok_iff.2 hl, h, rfl⟩

/-- The labels of a jump table are those of the blocks it names. -/
theorem jumpTable_eq_ok {cases : List (Int × BlockId)} {table : List (Int × Label)}
    (h : c.jumpTable cases = .ok table) :
    List.Forall₂ (fun e t => e.1 = t.1 ∧ c.label? e.2 = some t.2) cases table := by
  induction cases generalizing table with
  | nil => cases h; exact .nil
  | cons e cases ih =>
    have hcons : c.jumpTable (e :: cases) = (c.blockLabel e.2).bind fun l =>
        (c.jumpTable cases).bind fun rest => .ok ((e.1, l) :: rest) := by
      unfold jumpTable
      rw [List.mapM_cons]
      obtain ⟨key, target⟩ := e
      cases hl : c.blockLabel target <;> simp only [hl] <;> rfl
    rw [hcons] at h
    cases hl : c.blockLabel e.2 with
    | error err => rw [hl] at h; cases h
    | ok l =>
      cases hrest : c.jumpTable cases with
      | error err => rw [hl, hrest] at h; cases h
      | ok rest =>
        rw [hl, hrest] at h
        cases h
        exact .cons ⟨rfl, blockLabel_eq_ok_iff.1 hl⟩ (ih hrest)

/-- A jump is a branch, or nothing where the target follows. -/
theorem jump_eq_gives {target : BlockId} {next : Option BlockId}
    (h : (c.jump target next).Gives frame ds frame' u) :
    frame' = frame ∧ ((next = some target ∧ ds = []) ∨
      ∃ l, c.label? target = some l ∧ ds = [.instr (.branch l)]) := by
  unfold jump at h
  split at h
  · next hnext =>
    obtain ⟨rfl, rfl, -⟩ := Draft.gives_pure_iff.1 h
    exact ⟨rfl, .inl ⟨hnext, rfl⟩⟩
  · obtain ⟨l, hl, he⟩ := gives_blockLabel_bind_iff.1 h
    obtain ⟨rfl, rfl⟩ := Draft.gives_emit_iff.1 he
    exact ⟨rfl, .inr ⟨l, hl, rfl⟩⟩

theorem jump_ends {target : BlockId} {next : Option BlockId}
    (h : (c.jump target next).Gives frame ds frame' u) {r : Reading} (hr : r.Covers c frame)
    {v : Bool} (hs : v = true → r.joins (.block target)) :
    Ends r (next.map .block) v ds [.goto (.block target)] := by
  obtain ⟨-, ⟨rfl, rfl⟩ | ⟨l, hl, rfl⟩⟩ := jump_eq_gives h
  · exact .fall rfl hs
  · exact .jump ((hr.block target).trans hl) hs

/-- What an edge needs of a reading: control gets to where the edge leads. -/
structure Reading.Admits (r : Reading) (e : Edge) (v : Bool) : Prop where
  joins : ∀ t ∈ e.normalTargets, v = true → r.joins (.block t)
  catches : ∀ h, e.handler? = some h → r.catches h

/-- A conditional edge, after the code of the condition. -/
theorem fork_ends {s t : BlockId} {next : Option BlockId}
    (h : (if next = some s then do
        let l ← Draft.ofFragment (Fragment.ofExcept (c.blockLabel t))
        Draft.emit (.branchIf false l)
      else do
        let l ← Draft.ofFragment (Fragment.ofExcept (c.blockLabel s))
        Draft.emit (.branchIf true l)
        c.jump t next : Draft Unit).Gives frame ds frame' u) :
    frame' = frame ∧ ∀ r v, r.Covers c frame → (v = true → r.joins (.block s)) →
      (v = true → r.joins (.block t)) →
        Ends r (next.map .block) v ds [.fork (.block s) (.block t)] := by
  split at h
  · next hnext =>
    obtain ⟨l, hl, he⟩ := gives_blockLabel_bind_iff.1 h
    obtain ⟨rfl, rfl⟩ := Draft.gives_emit_iff.1 he
    refine ⟨rfl, fun r v hr hs ht => .forkFall false ((hr.block t).trans hl) ?_ hs ht⟩
    rw [hnext]
    rfl
  · obtain ⟨l, hl, h₁⟩ := gives_blockLabel_bind_iff.1 h
    obtain ⟨rest, hj, rfl⟩ := Draft.gives_emit_bind_iff.1 h₁
    obtain ⟨rfl, ⟨rfl, rfl⟩ | ⟨m, hm, rfl⟩⟩ := jump_eq_gives hj
    · exact ⟨rfl, fun r v hr hs ht => .forkFall true ((hr.block s).trans hl) rfl hs ht⟩
    · exact ⟨rfl, fun r v hr hs ht =>
        .forkJump ((hr.block s).trans hl) ((hr.block t).trans hm) hs ht⟩

theorem edge_renders {b : Block} {next : Option BlockId}
    (h : (c.edge b next).Gives frame ds frame' u) :
    frame' = frame ∧ ∀ r v, r.Covers c frame → Reading.Admits r b.edge v →
      RendersEnd r (next.map .block) v ds (c.outline.edge b.edge) v := by
  unfold edge at h
  simp only [Draft.liftM_eq] at h
  cases he : b.edge with
  | goto target =>
    rw [he] at h
    exact ⟨(jump_eq_gives h).1, fun r v hr ha =>
      .ofEnds (jump_ends h hr (ha.joins target (List.mem_singleton.2 rfl)))⟩
  | branch condition s t =>
    rw [he] at h
    have hplain := c.procedure.isPlain_value condition .bool .branchCondition
    obtain ⟨-, rest, -, h₁, rfl⟩ := Draft.gives_ofFragment_bind_iff.1 h
    unfold Outline.edge
    by_cases hst : s = t
    · subst hst
      rw [if_pos rfl] at h₁
      obtain ⟨rest', h₂, rfl⟩ := Draft.gives_emit_bind_iff.1 h₁
      refine ⟨(jump_eq_gives h₂).1, fun r v hr ha => ?_⟩
      refine .prepend (.ofPlain hplain v) ?_
      rw [if_pos rfl]
      have hpop : Renders r v [.instr .pop] [.run .pop] v := .step rfl rfl (.nil v)
      exact .prepend hpop
        (.ofEnds (jump_ends h₂ hr (ha.joins s (by simp [Edge.normalTargets, Edge.targets]))))
    · rw [if_neg hst] at h₁
      obtain ⟨rfl, hends⟩ := fork_ends h₁
      refine ⟨rfl, fun r v hr ha => .prepend (.ofPlain hplain v) ?_⟩
      rw [if_neg hst]
      exact .ofEnds (hends r v hr (ha.joins s (by simp [Edge.normalTargets, Edge.targets]))
        (ha.joins t (by simp [Edge.normalTargets, Edge.targets])))
  | switch selector cases default =>
    rw [he] at h
    have hplain := c.procedure.isPlain_value selector .int .switchSelector
    obtain ⟨-, rest, -, h₁, rfl⟩ := Draft.gives_ofFragment_bind_iff.1 h
    obtain ⟨table, rest', htable, h₂, rfl⟩ := Draft.gives_ofFragment_bind_iff.1 h₁
    obtain ⟨l, hl, h₃⟩ := gives_blockLabel_bind_iff.1 h₂
    obtain ⟨rfl, rfl⟩ := Draft.gives_emit_iff.1 h₃
    refine ⟨rfl, fun r v hr ha => .prepend (.ofPlain hplain v) (.ofEnds ?_)⟩
    refine .select ?_ ((hr.block default).trans hl) ?_ (ha.joins default ?_)
    · rw [List.forall₂_map_left_iff]
      exact (jumpTable_eq_ok htable).imp fun e t h => ⟨h.1, (hr.block e.2).trans h.2⟩
    · intro e hmem
      obtain ⟨⟨key, target⟩, hk, rfl⟩ := List.mem_map.1 hmem
      refine ha.joins target (List.mem_append_left _ (List.mem_map.2 ⟨_, hk, rfl⟩))
    · exact List.mem_append_right _ (List.mem_singleton.2 rfl)
  | protect body handler exception =>
    rw [he] at h
    obtain ⟨l, hl, h₁⟩ := gives_blockLabel_bind_iff.1 h
    obtain ⟨rest, hj, rfl⟩ := Draft.gives_emit_bind_iff.1 h₁
    refine ⟨(jump_eq_gives hj).1, fun r v hr ha => ?_⟩
    have henter : Renders r v [.instr (.enterTry l)] [.enter handler] v :=
      .enter ((hr.block handler).trans hl) (ha.catches handler rfl) (.nil v)
    exact .prepend henter (.ofEnds (jump_ends hj hr (ha.joins body (List.mem_singleton.2 rfl))))
  | leave target =>
    rw [he] at h
    obtain ⟨l, hl, h₁⟩ := gives_blockLabel_bind_iff.1 h
    obtain ⟨rfl, rfl⟩ := Draft.gives_emit_iff.1 h₁
    exact ⟨rfl, fun r v hr ha => .ofEnds (.leave ((hr.block target).trans hl)
      (ha.joins target (List.mem_singleton.2 rfl)))⟩
  | none =>
    rw [he] at h
    obtain ⟨rfl, rfl⟩ := Draft.gives_directive_iff.1 h
    exact ⟨rfl, fun r v _ _ => .ofEnds (.dangle b.id)⟩

end Plan

end StackCode
