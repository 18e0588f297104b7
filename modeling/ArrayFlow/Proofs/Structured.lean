import ArrayFlow.Proofs.Layout
import ArrayFlow.Proofs.Progress

/-!
# Structured programs

The procedure of a structured program has nested loops over known arrays, so that its analysis is
clean.

* `Program.lower_laid` : the layout of a program keeps to the nesting of its loops;
* `Named.build_isOk`   : a finished layout is built into a procedure, all of which is reachable;
* `Laid.nested`        : the loops of that procedure are nested;
* `Named.closed`       : it is over the arrays that its entry creates;
* `analyze_structured` : the analysis of a structured program ends with a clean report on every
  block.
-/

namespace ArrayFlow

open Lowering

/-! ## the layout of a program -/

theorem Region.foldl_lower_laid {arrays : List String} {owner : BlockId → Option BlockId}
    {opened tails : List BlockId} {o : Option BlockId} {tail : BlockId} {l : Lowering}
    {rs : List Region} (hrs : ∀ r ∈ rs, r.Within arrays)
    (h : At arrays owner opened tails o tail l) :
    ∃ owner', At arrays owner' opened tails o (rs.foldl (fun x r => r.lower x.1 x.2) (tail, l)).1
      (rs.foldl (fun x r => r.lower x.1 x.2) (tail, l)).2 := by
  induction rs generalizing owner tail l with
  | nil => exact ⟨owner, h⟩
  | cons r rs ih =>
    obtain ⟨owner₁, -, -, h₁⟩ := Region.lower_laid (hrs r (by simp)) h
    exact ih (fun q hq => hrs q (by simp [hq])) h₁

theorem Program.lower_laid {g : Program} (hg : ∀ r ∈ g.regions, r.Within g.arrays) :
    ∃ owner, g.lower.Named g.arrays ∧ g.lower.Laid owner [] [] := by
  have hstart : At g.arrays (fun _ => none) [] [] none ⟨0⟩
      (({} : Lowering).block (g.arrays.map .create)) := by
    refine ⟨.start g.arrays, ⟨rfl, ?_, ?_, ?_, ?_, ?_, ?_⟩, Nat.zero_lt_one,
      .inl ⟨rfl, by simp⟩⟩ <;>
      simp [Lowering.block]
  obtain ⟨owner₁, h₁⟩ := Region.foldl_lower_laid hg hstart
  obtain ⟨owner₂, -, h₂⟩ := h₁.append (List.forall_mem_nil _)
  -- the last block is no header
  refine ⟨owner₂, h₂.named,
    { h₂.laid with left := fun h hh => .inr ((h₂.laid.left h hh).resolve_left fun hmem => ?_) }⟩
  have hlt := (h₁.laid.headers h hh).2.1
  rw [List.mem_singleton.1 hmem] at hlt
  exact Nat.lt_irrefl _ hlt

/-! ## the procedure of a layout -/

namespace Lowering

variable {arrays : List String} {owner : BlockId → Option BlockId} {l : Lowering} {p : Procedure}

namespace Named

theorem mem_blockIds (hn : l.Named arrays) {b : BlockId} :
    b ∈ l.draft.blockIds ↔ b.index < l.blocks.length := by
  show b ∈ l.blocks.map (·.1) ↔ _
  rw [hn.names, List.mem_map]
  constructor
  · rintro ⟨i, hi, rfl⟩
    exact List.mem_range.1 hi
  · exact fun hlt => ⟨b.index, List.mem_range.2 hlt, rfl⟩

theorem head_isOk (hn : l.Named arrays) {b : BlockId} (hb : b.index < l.blocks.length) :
    ∃ σ, l.draft.head b = .ok σ := by
  obtain ⟨k, hk, rfl⟩ := List.mem_map.1 (hn.mem_blockIds.2 hb)
  obtain ⟨body, hbody⟩ :=
    Option.isSome_iff_exists.1 (List.lookup_isSome_iff.2 ⟨k, hk, beq_self_eq_true k.1⟩)
  obtain ⟨first, rest, heq, -⟩ := List.lookup_eq_some_iff.1 hbody
  have hmem : (k.1, body) ∈ l.draft.blocks := by
    rw [heq]
    exact List.mem_append_right _ (List.mem_cons_self ..)
  obtain ⟨stmt, body, rfl⟩ := List.exists_cons_of_ne_nil (hn.nonempty _ hmem)
  exact ⟨stmt.id, by simp [Draft.head, hbody]⟩

theorem build_isOk (hn : l.Named arrays) (hl : l.Laid owner [] []) :
    ∃ p, l.draft.build = .ok p ∧ p.entry = ⟨0⟩ := by
  refine Draft.build_isOk (d := l.draft) hn.entry rfl ?_ ?_ (fun e he => ?_) fun decl hdecl => ?_
  · show (l.blocks.map (·.1)).Nodup
    rw [hn.names]
    exact List.nodup_range.map fun i j h => (BlockId.mk.inj h)
  · show (Draft.stmtIds l.blocks).Nodup
    rw [hn.stmts]
    exact List.nodup_range.map fun i j h => (StmtId.mk.inj h)
  · obtain ⟨ha, hc, -⟩ := hl.edge e.1 e.2 he
    exact ⟨hn.mem_blockIds.2 ha, hn.mem_blockIds.2 hc⟩
  · obtain ⟨e, he, rfl⟩ := List.mem_map.1 hdecl
    obtain ⟨ha, hc, -⟩ := hl.edge e.1 e.2 (hl.exit e.1 e.2 he).1
    obtain ⟨σ, hσ⟩ := hn.head_isOk ha
    obtain ⟨τ, hτ⟩ := hn.head_isOk hc
    exact ⟨⟨σ, τ⟩, by simp [Draft.resolve, hσ, hτ, bind, Except.bind, pure, Except.pure]⟩

/-- Control comes to every block, along edges to greater numbers. -/
theorem reachable (hn : l.Named arrays) (h : l.draft.build = .ok p)
    (hentry : p.entry = ⟨0⟩) {b : BlockId} (hb : b.index < l.blocks.length) : p.Reachable b := by
  induction hi : b.index using Nat.strong_induction_on generalizing b with
  | _ i ih =>
    subst hi
    by_cases hpos : 0 < b.index
    · obtain ⟨a, ha, hlt⟩ := hn.forward b hpos hb
      exact (ih a.index hlt (hlt.trans hb) rfl).step ((Draft.mem_successors_build h).2 ha)
    · obtain rfl : b = p.entry := hentry.symm ▸ congrArg BlockId.mk (by omega : b.index = 0)
      exact .refl

theorem reachable_iff (hn : l.Named arrays) (h : l.draft.build = .ok p) (hentry : p.entry = ⟨0⟩)
    {b : BlockId} :
    p.Reachable b ↔ b.index < l.blocks.length := by
  refine ⟨fun hb => ?_, hn.reachable h hentry⟩
  rw [← hn.mem_blockIds, ← Draft.blockIds_build h]
  have hw := Procedure.WellFormed.of_build h
  cases Relation.ReflTransGen.cases_tail hb with
  | inl heq => exact heq ▸ hw.entry_mem
  | inr hstep =>
    obtain ⟨a, -, hsucc⟩ := hstep
    exact hw.successors_mem a b hsucc

theorem closed (hn : l.Named arrays) (h : l.draft.build = .ok p)
    (hentry : p.entry = ⟨0⟩) : p.Closed arrays := by
  have hfirst : p.statementsOf p.entry = statements 0 (.other :: arrays.map .create) := by
    rw [hentry]
    exact Draft.statementsOf_build h (List.mem_of_head? hn.entry)
  have hactions := map_action_statements 0 (.other :: arrays.map .create)
  rw [← hfirst] at hactions
  refine ⟨fun b stmt hs => ?_, fun base hbase => ?_, fun stmt hs a ha => ?_⟩
  · obtain ⟨k, hk, hs⟩ := Procedure.mem_statementsOf.1 hs
    obtain ⟨body, hbody, rfl⟩ := Draft.lookup_block? h hk
    exact hn.within _ hbody stmt hs
  · have hmem : Action.create base ∈ (p.statementsOf p.entry).map (·.action) := by
      rw [hactions]
      exact List.mem_cons_of_mem _ (List.mem_map_of_mem hbase)
    obtain ⟨stmt, hs, heq⟩ := List.mem_map.1 hmem
    exact ⟨stmt, hs, by simp [heq, Action.defines]⟩
  · have hmem : Action.read a ∈ (p.statementsOf p.entry).map (·.action) :=
      ha ▸ List.mem_map_of_mem hs
    rw [hactions] at hmem
    simp at hmem

end Named

/-- The loops of the procedure are nested as the layout has them, with the blocks in the order of
their names. -/
theorem Laid.nested (hl : l.Laid owner [] []) (hn : l.Named arrays) (h : l.draft.build = .ok p)
    (hentry : p.entry = ⟨0⟩) : p.Nested owner BlockId.index := by
  have hexit : ∀ {a c}, p.isLoopExit a c = true ↔ (a, c) ∈ l.exits := Draft.isLoopExit_build h rfl
  have hheader : ∀ {a}, p.isLoopHeader a = true ↔ a ∈ l.headers := by
    intro a
    rw [Draft.isLoopHeader_build h rfl]
    exact ⟨fun ⟨c, hc⟩ => (hl.exit a c hc).2.1, fun ha => (hl.left a ha).resolve_left (by simp)⟩
  have hreach : ∀ {b}, p.Reachable b ↔ b.index < l.blocks.length := hn.reachable_iff h hentry
  have hsucc : ∀ {a c}, c ∈ p.successors a ↔ (a, c) ∈ l.edges := Draft.mem_successors_build h
  refine ⟨?_, ?_, ?_, ?_, ?_, ?_, ?_⟩
  · rw [hentry]
    exact hl.entry
  · rw [Bool.eq_false_iff, ne_eq, hheader, hentry]
    exact fun hmem => Nat.lt_irrefl _ (hl.headers _ hmem).1
  · exact fun a b _ hb => hreach.2 (hl.edge a b (hsucc.1 hb)).1
  · intro b hb hne
    have hpos : 0 < b.index := Nat.pos_of_ne_zero fun hzero =>
      hne (hentry.symm ▸ congrArg BlockId.mk hzero)
    obtain ⟨a, ha, hlt⟩ := hn.forward b hpos (hreach.1 hb)
    exact ⟨a, hsucc.2 ha, hlt⟩
  · intro a c _ hc
    obtain ⟨-, -, hkind⟩ := hl.edge a c (hsucc.1 hc)
    cases hkind with
    | level hlt howner _ hx => exact .level hlt howner fun ha => hexit.2 (hx (hheader.1 ha))
    | enter hlt howner ha =>
      refine .enter hlt howner (hheader.2 (ha.resolve_right (by simp))) ?_
      rw [Bool.eq_false_iff, ne_eq, hexit]
      exact fun hmem => (hl.exit a c hmem).2.2 howner
    | back howner _ hx => exact .back howner fun ha => hexit.2 (hx (hheader.1 ha))
  · exact fun a c _ hx => hsucc.2 (hl.exit a c (hexit.1 hx)).1
  · intro b g hb howner
    obtain ⟨hlt, hmem⟩ := hl.owned b g (hreach.1 hb) howner
    exact ⟨hreach.2 (hlt.trans (hreach.1 hb)), hheader.2 (hmem.resolve_right (by simp)), hlt⟩

end Lowering

/-! ## the analysis of a structured program -/

/-- A structured program over arrays that its entry creates is built into a procedure. With enough
iterations for every loop, the analysis of the procedure ends; nothing is complained of, there are
no false phis, and exactly the blocks of the procedure have exposed bindings. -/
theorem analyze_structured (g : Program) (hg : ∀ r ∈ g.regions, r.Within g.arrays) :
    ∃ p, g.lower.draft.build = .ok p ∧
    ∀ s : Settings, p.blocks.length * p.blocks.length ≤ s.maxIterations →
      ∃ r, analyze p s = .ok r ∧ r.facts.diagnostics = [] ∧ r.facts.falsePhis = [] ∧
        ∀ b, (∃ t, r.facts.exposed[b]? = some t) ↔ b ∈ p.blockIds := by
  obtain ⟨owner, hn, hl⟩ := Program.lower_laid hg
  obtain ⟨p, hb, hentry⟩ := hn.build_isOk hl
  refine ⟨p, hb, fun s hmax => ?_⟩
  obtain ⟨r, hr, hdiag, hphis, hall⟩ :=
    (hl.nested hn hb hentry).analyze_clean (.of_build hb) (hn.closed hb hentry) hmax
  refine ⟨r, hr, hdiag, hphis, fun b => ?_⟩
  rw [← Facts.claimed_iff, hall, hn.reachable_iff hb hentry, Draft.blockIds_build hb,
    hn.mem_blockIds]

/-- A loop that ends with a loop, inside a loop of which one branch is a loop. -/
def nestedLoops : Program where
  arrays := ["a", "b"]
  regions := [
    .straight [.write ⟨"a", .expr "i"⟩],
    .loop (.seq
      (.branch (.loop (.straight [.read ⟨"a", .expr "i"⟩])) (.straight [.write ⟨"b", .expr "j"⟩]))
      (.loop (.seq (.straight [.write ⟨"a", .expr "j"⟩])
        (.loop (.straight [.read ⟨"b", .expr "i"⟩])))))]

theorem analyze_structured_nestedLoops :
    ∃ p r, nestedLoops.lower.draft.build = .ok p ∧ p.blocks.length = 13 ∧ analyze p {} = .ok r ∧
      r.facts.diagnostics = [] ∧ r.facts.falsePhis = [] ∧
      ∀ b, (∃ t, r.facts.exposed[b]? = some t) ↔ b ∈ p.blockIds := by
  obtain ⟨p, hb, h⟩ :=
    analyze_structured nestedLoops (by simp [nestedLoops, Region.Within, Action.Within])
  have hlen : p.blocks.length = 13 := by
    rw [(Draft.build_eq_ok hb).2.2.2.2, List.length_map]
    rfl
  obtain ⟨r, hr⟩ := h {} (by rw [hlen]; decide)
  exact ⟨p, r, hb, hlen, hr⟩

end ArrayFlow
