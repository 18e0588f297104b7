import ArrayFlow.Proofs.Control
import ArrayFlow.Proofs.Headers

/-!
# The flow graph is the part of the control-flow graph that was gone through

The edges out of a processed block are taken up in different places: the walk follows them, a loop
keeps them inside, or hands them to what is around it when it ends. Each of them is recorded once,
with the mark that its target has at that time.

* `FlowGraph.Gains`     : a flow graph after some edges were added, all of them marked by one rule;
* `Facts.leadsBack`     : the rule: an edge leads back if its target is a loop header that was
  processed;
* `Machine.owed`        : the edges that the loops at work hold back for their end;
* `Machine.Routed`      : what a step does with edges: some are taken up, and the others are owed;
* `Step.routed`         : every step does this with the edges out of the block that it processes and
  those owed before;
* `Machine.Recorded`    : the edges out of processed blocks are recorded, each with one mark, or
  owed;
* `analyze_flow`        : at the end nothing is owed.
-/

namespace ArrayFlow

/-! ## edges that are added -/

namespace FlowGraph

variable {g g' g'' : FlowGraph} {back back' : BlockId → Bool} {es es' : List (BlockId × BlockId)}

/-- The flow graph `g'` is `g` with the edges `es` added, marked as `back` says of their targets. -/
structure Gains (back : BlockId → Bool) (g : FlowGraph) (es : List (BlockId × BlockId))
    (g' : FlowGraph) : Prop where
  enabled : g'.enabled = g.enabled
  mem : g.enabled = true → ∀ x, x ∈ g'.edges ↔ x ∈ g.edges ∨ (x.source, x.target) ∈ es ∧
    x.isBack = back x.target

namespace Gains

theorem refl (back : BlockId → Bool) (g : FlowGraph) : Gains back g [] g := ⟨rfl, by simp⟩

theorem trans (h : Gains back g es g') (h' : Gains back g' es' g'') :
    Gains back g (es ++ es') g'' where
  enabled := h'.enabled.trans h.enabled
  mem hon x := by
    rw [h'.mem (h.enabled.trans hon), h.mem hon, List.mem_append, or_assoc, ← or_and_right]

theorem congr (h : Gains back g es g') (hes : ∀ e, e ∈ es' ↔ e ∈ es) : Gains back g es' g' :=
  ⟨h.enabled, fun hon x => by rw [h.mem hon, hes]⟩

theorem add (back : BlockId → Bool) (g : FlowGraph) (a c : BlockId) :
    Gains back g [(a, c)] (g.add a c (back c)) := by
  refine ⟨?_, fun hon x => ?_⟩
  · unfold FlowGraph.add
    split <;> rfl
  · obtain ⟨source, target, isBack⟩ := x
    simp only [FlowGraph.add, hon, if_true, Std.ExtTreeSet.mem_insert, Std.compare_eq_iff_eq,
      FlowEdge.mk.injEq, List.mem_singleton, Prod.mk.injEq]
    grind

theorem mono (h : Gains back g es g') (hon : g.enabled = true) {x : FlowEdge} (hx : x ∈ g.edges) :
    x ∈ g'.edges :=
  (h.mem hon x).2 (.inl hx)

end Gains

end FlowGraph

open FlowGraph

/-- An edge to the block leads back: the block is a loop header that was processed. -/
def Facts.leadsBack (p : Procedure) (f : Facts) (c : BlockId) : Bool :=
  f.claimed c && p.isLoopHeader c

theorem Facts.leadsBack_of_core {p : Procedure} {f g : Facts} (h : f.core = g.core) :
    f.leadsBack p = g.leadsBack p := by
  funext c
  rw [leadsBack, leadsBack, claimed_of_core h]

/-! ### edges that a loop takes up -/

namespace LoopRun

variable {p : Procedure} {f : Facts} {r : LoopRun} {header : BlockId}
  {es : List (BlockId × BlockId)}

/-- Where every edge that is not set aside is added with its mark, all of them are. -/
theorem Grown.gains_foldl (isExit : BlockId → BlockId × BlockId → Bool)
    {g : Facts × LoopRun → BlockId × BlockId → Facts × LoopRun}
    (hgrown : ∀ f r e, e ∈ es → r.header = header →
      Grown p isExit f r [e] (g (f, r) e).1 (g (f, r) e).2)
    (hflow : ∀ f r e, e ∈ es → r.header = header → f.leadsBack p header = true →
      Gains (f.leadsBack p) f.flow ([e].filter fun e => !isExit header e) (g (f, r) e).1.flow)
    (hr : r.header = header) (hback : f.leadsBack p header = true) :
    Gains (f.leadsBack p) f.flow (es.filter fun e => !isExit header e)
      (es.foldl g (f, r)).1.flow := by
  induction es generalizing f r with
  | nil => exact .refl _ _
  | cons e es ih =>
    have hone := hgrown f r e (List.mem_cons_self ..) hr
    have hsame := Facts.leadsBack_of_core (p := p) hone.core
    have hrest := ih (fun f r e' he' => hgrown f r e' (List.mem_cons_of_mem _ he'))
      (fun f r e' he' => hflow f r e' (List.mem_cons_of_mem _ he')) (f := (g (f, r) e).1)
        (r := (g (f, r) e).2)
      (hone.header.trans hr) (by rw [hsame]; exact hback)
    rw [hsame] at hrest
    have hall := (hflow f r e (List.mem_cons_self ..) hr hback).trans hrest
    rwa [← List.filter_append, List.singleton_append] at hall

/-- A loop records the edges that it takes up, but for those that leave it. -/
theorem absorb_gains (es : List (BlockId × BlockId)) (hback : f.leadsBack p r.header = true) :
    Gains (f.leadsBack p) f.flow (es.filter fun e => !leaves p r.header e)
      (absorb p f r es).1.flow := by
  refine Grown.gains_foldl (leaves p) (fun f r e _ _ => absorb_grown f r [e]) ?_ rfl hback
  intro f r' e _ hr hback
  obtain ⟨a, c⟩ := e
  unfold absorbEdge
  dsimp only
  rw [hr]
  by_cases hc : c = r.header
  · subst hc
    simpa [leaves, hback, Facts.flowTo] using Gains.add (f.leadsBack p) f.flow a r.header
  · by_cases hx : p.isLoopExit r.header c = true
    · simpa [leaves, hc, hx] using Gains.refl (f.leadsBack p) f.flow
    · have hadd := Gains.add (f.leadsBack p) f.flow a c
      by_cases hf : f.claimed c = true
      · simpa [leaves, hc, hx, hf, Facts.leadsBack, Facts.flowTo] using hadd
      · simpa [leaves, hc, hx, hf, Facts.leadsBack, Facts.flowTo] using hadd

theorem opened_gains (hback : f.leadsBack p header = true) :
    Gains (f.leadsBack p) f.flow ((p.edgesFrom header).filter fun e => !p.isLoopExit header e.2)
      (opened p f header).1.flow := by
  rw [opened_eq_foldl]
  refine Grown.gains_foldl (fun h e => p.isLoopExit h e.2) (fun f r e he hr => ?_) ?_ rfl hback
  · obtain ⟨c, -, rfl⟩ := List.mem_map.1 he
    rw [← hr]
    exact seed_grown f r c
  · intro f r e he hr hback
    obtain ⟨c, -, rfl⟩ := List.mem_map.1 he
    have hadd := Gains.add (f.leadsBack p) f.flow header c
    unfold seed
    dsimp only
    rw [hr]
    by_cases hx : p.isLoopExit header c = true
    · simpa [hx] using Gains.refl (f.leadsBack p) f.flow
    · by_cases hc : c = header
      · subst hc
        simpa [hx, hback, Facts.flowTo] using hadd
      · by_cases hf : f.claimed c = true
        · simpa [hx, hc, hf, Facts.leadsBack, Facts.flowTo] using hadd
        · simpa [hx, hc, hf, Facts.leadsBack, Facts.flowTo] using hadd

end LoopRun

namespace Machine

variable {p : Procedure} {s : Settings} {m m' : Machine} {b c : BlockId} {t : Bindings}
  {f f₁ : Facts} {r : LoopRun} {es new : List (BlockId × BlockId)}

/-! ### edges that the walk follows -/

theorem follow_gains (h : follow p m es = .ok m') :
    Gains (m.facts.leadsBack p) m.facts.flow es m'.facts.flow := by
  induction es generalizing m' with
  | nil =>
    cases h
    exact .refl _ _
  | cons e es ih =>
    obtain ⟨a, c⟩ := e
    rw [follow_cons, bind_eq_ok] at h
    obtain ⟨m₁, h₁, h⟩ := h
    have hback := Facts.leadsBack_of_core (p := p) (follow_eq_ok h₁).1
    have hone : Gains (m.facts.leadsBack p) m₁.facts.flow [(a, c)] m'.facts.flow := by
      have hadd := Gains.add (m₁.facts.leadsBack p) m₁.facts.flow a c
      rw [← hback]
      unfold followEdge at h
      dsimp only at h
      by_cases hc : m₁.facts.claimed c = true
      · rw [if_pos hc] at h
        cases h
        simpa [Facts.flowTo, Facts.leadsBack, hc] using hadd
      · rw [if_neg hc] at h
        simp only [bind_eq_ok, pure_eq_ok] at h
        obtain ⟨t, -, rfl⟩ := h
        simpa [Facts.flowTo, Facts.leadsBack, hc] using hadd
    -- the last edge is followed first
    exact ((ih h₁).trans hone).congr (by simp [or_comm])

/-! ### what does not touch the flow graph -/

theorem Enters.flow_eq (h : Enters p s m b t f) : f.flow = m.facts.flow := by
  rcases h.source with ⟨-, rfl⟩ | ⟨preds, -, hm⟩
  · rfl
  · rcases Merge.predecessors_cases hm with ⟨-, -, rfl⟩ | ⟨-, -, -, rfl⟩ | ⟨-, -, hm⟩
    · rfl
    · rfl
    · rw [← show _ = f from congrArg Prod.snd hm]
      exact (Merge.names_course _ _).flow

theorem Enters.process_flow (he : Enters p s m b t f) (hp : Transfer.process s b p t f = .ok f₁) :
    f₁.flow = m.facts.flow := by
  obtain ⟨t', f', hstmts, rfl⟩ := Transfer.process_eq_ok.1 hp
  exact (Transfer.statements_course hstmts).flow.trans he.flow_eq

theorem Ended.close_flow (he : Ended s m r f) (hc : LoopRun.close f r = .ok f₁) :
    f₁.flow = m.facts.flow := by
  have hf : f.flow = m.facts.flow := by cases he <;> rfl
  rcases LoopRun.close_eq_ok hc with ⟨-, rfl⟩ | ⟨l, t, -, -, rfl⟩
  · exact hf
  · exact hf

/-! ## edges that are owed -/

/-- The edges that the loops at work hold back for their end. -/
def owed (m : Machine) : List (BlockId × BlockId) := m.loops.flatMap (·.exits)

theorem owed_of_loops_nil (hl : m.loops = []) : m.owed = [] := by rw [owed, hl, List.flatMap_nil]

/-- Only edges out of processed blocks are owed. -/
theorem Reaches.owed_edge (hm : Reaches p s m) {e : BlockId × BlockId} (he : e ∈ m.owed) :
    m.facts.claimed e.1 = true ∧ e.2 ∈ p.successors e.1 := by
  obtain ⟨r, hr, he⟩ := List.mem_flatMap.1 he
  exact hm.exits_edges r hr e he

/-- So the edges out of a block that is entered are not owed yet. -/
theorem Reaches.not_owed (hm : Reaches p s m) (hb : m.facts.claimed b = false)
    {e : BlockId × BlockId} (he : e ∈ p.edgesFrom b) : e ∉ m.owed := by
  intro howed
  obtain ⟨c, -, rfl⟩ := List.mem_map.1 he
  have hclaimed := (hm.owed_edge howed).1
  rw [hb] at hclaimed
  cases hclaimed

/-- No edge is owed by two loops. -/
theorem Reaches.exits_apart (hm : Reaches p s m) :
    m.loops.Pairwise fun r q => ∀ e ∈ r.exits, e ∉ q.exits := by
  refine hm.invariant (P := fun m => m.loops.Pairwise fun r q => ∀ e ∈ r.exits, e ∉ q.exits) .nil ?_
  intro m m' hm ih hstep
  -- a loop keeps apart from the others when it takes edges of a block that is entered
  have hnew : ∀ {b t f}, Enters p s m b t f → ∀ q ∈ m.loops, ∀ e ∈ p.edgesFrom b, e ∉ q.exits := by
    intro b t f he q hq e hmem hexit
    exact hm.not_owed he.unclaimed hmem (List.mem_flatMap.2 ⟨q, hq, hexit⟩)
  cases hstep with
  | walked hl he hp hb hpend hf =>
    rw [(follow_eq_ok hf).2.2.1]
    exact .nil
  | opened => exact List.pairwise_singleton _ _
  | skipped => exact ih
  | pended => exact ih
  | looped hl hq he hp hb ha =>
    rw [hl] at ih hnew
    obtain ⟨hr, houter⟩ := List.pairwise_cons.1 ih
    refine List.pairwise_cons.2 ⟨fun q hq e hexit => ?_, houter⟩
    rcases (LoopRun.grown_of_absorb ha).mem_exits hexit with hexit | hedge
    · exact hr q hq e hexit
    · exact hnew he q (List.mem_cons_of_mem _ hq) e hedge
  | nested hl hq he hp hb =>
    rw [hl] at ih hnew
    obtain ⟨hr, houter⟩ := List.pairwise_cons.1 ih
    refine List.pairwise_cons.2 ⟨fun q hq e hexit => ?_, List.pairwise_cons.2 ⟨hr, houter⟩⟩
    have hedge := ((LoopRun.opened_grown _ _).mem_exits hexit).resolve_left nofun
    rcases List.mem_cons.1 hq with rfl | hq
    · exact hnew he _ (List.mem_cons_self ..) e hedge
    · exact hnew he q (List.mem_cons_of_mem _ hq) e hedge
  | deferred hl =>
    rw [hl] at ih
    exact List.pairwise_cons.2 (List.pairwise_cons.1 ih)
  | closed hl he hc hf =>
    rw [(follow_eq_ok hf).2.2.1]
    exact .nil
  | returned hl he hc ha =>
    rw [hl] at ih
    obtain ⟨hr, hrest⟩ := List.pairwise_cons.1 ih
    obtain ⟨ho, hrest⟩ := List.pairwise_cons.1 hrest
    refine List.pairwise_cons.2 ⟨fun q hq e hexit => ?_, hrest⟩
    rcases (LoopRun.grown_of_absorb ha).mem_exits hexit with hexit | hedge
    · exact ho q hq e hexit
    · exact hr q (List.mem_cons_of_mem _ hq) e hedge
  | finished => exact ih

/-! ## where a step takes edges -/

/-- What a step does with edges. Of those owed before and some new ones, it takes up `es`, which are
recorded as `leadsBack` says behind the step, and owes the others. The blocks that it makes wait
come behind edges that it takes up. -/
structure Routed (p : Procedure) (m m' : Machine) (new es : List (BlockId × BlockId)) : Prop where
  flow : Gains (m'.facts.leadsBack p) m.facts.flow es m'.facts.flow
  source : ∀ e ∈ es, e ∈ m.owed ∨ e ∈ new
  owed : ∀ e, e ∈ m'.owed ↔ (e ∈ m.owed ∨ e ∈ new) ∧ e ∉ es
  visits : ∀ x ∈ m'.visits, x ∈ m.visits ∨ m'.facts.claimed x.1 = false ∧ ∃ a, (a, x.1) ∈ es
  queues : ∀ r' ∈ m'.loops, ∀ c ∈ r'.queue,
    (∃ r ∈ m.loops, c ∈ r.queue) ∨ m'.facts.claimed c = false ∧ ∃ a, (a, c) ∈ es

namespace Routed

theorem idle (hfacts : m'.facts = m.facts) (howed : m'.owed = m.owed)
    (hvisits : ∀ x ∈ m'.visits, x ∈ m.visits)
    (hqueues : ∀ r' ∈ m'.loops, ∀ c ∈ r'.queue, ∃ r ∈ m.loops, c ∈ r.queue) :
    Routed p m m' [] [] where
  flow := by
    rw [hfacts]
    exact .refl _ _
  source := nofun
  owed e := by simp [howed]
  visits x hx := .inl (hvisits x hx)
  queues r' hr' c hc := .inl (hqueues r' hr' c hc)

/-- The walk follows edges, with no loop at work behind them. -/
theorem followed {m₁ : Machine} (hf : follow p m₁ es = .ok m')
    (hflow : m₁.facts.flow = m.facts.flow) (hvisits : ∀ x ∈ m₁.visits, x ∈ m.visits)
    (hl : m₁.loops = []) (hes : ∀ e, e ∈ es ↔ e ∈ m.owed ∨ e ∈ new) :
    Routed p m m' new es := by
  obtain ⟨hcore, -, hloops, -, hvis⟩ := follow_eq_ok hf
  have hl' : m'.loops = [] := hloops.trans hl
  refine ⟨?_, fun e he => (hes e).1 he, fun e => ?_, fun x hx => ?_, fun r' hr' => ?_⟩
  · rw [Facts.leadsBack_of_core hcore, ← hflow]
    exact follow_gains hf
  · rw [owed_of_loops_nil hl', ← hes]
    simp
  · rw [hvis, List.mem_append, List.mem_map] at hx
    rcases hx with ⟨e, he, rfl⟩ | hx
    · obtain ⟨he, hno⟩ := List.mem_filter.1 he
      rw [Facts.claimed_of_core hcore]
      exact .inr ⟨by simpa using hno, e.1, he⟩
    · exact .inl (hvisits x hx)
  · rw [hl'] at hr'
    cases hr'

/-- A loop `r` takes up the edges `taken`, which no loop owes any more, and so becomes `r'`. -/
theorem grown (isExit : BlockId → BlockId × BlockId → Bool) {taken : List (BlockId × BlockId)}
    {r' : LoopRun} {rest : List LoopRun} (hl : m'.loops = r' :: rest)
    (hg : LoopRun.Grown p isExit f₁ r taken m'.facts r') (hflow : f₁.flow = m.facts.flow)
    (hgains : Gains (f₁.leadsBack p) f₁.flow (taken.filter fun e =>
      !isExit r.header e) m'.facts.flow)
    (hexit : ∀ e, isExit r.header e = true → p.isLoopExit r.header e.2 = true)
    (howed : ∀ e, e ∈ m.owed ∨ e ∈ new ↔ e ∈ taken ∨ e ∈ (r :: rest).flatMap (·.exits))
    (hapart : ∀ e ∈ taken, e ∉ (r :: rest).flatMap (·.exits))
    (hvisits : ∀ x ∈ m'.visits, x ∈ m.visits)
    (hqueues : ∀ q ∈ r :: rest, ∀ c ∈ q.queue, ∃ q ∈ m.loops, c ∈ q.queue) :
    Routed p m m' new (taken.filter fun e => !isExit r.header e) := by
  refine ⟨?_, fun e he => (howed e).2 (.inl (List.mem_of_mem_filter he)), fun e => ?_,
    fun x hx => .inl (hvisits x hx), ?_⟩
  · rwa [Facts.leadsBack_of_core hg.core, ← hflow]
  · have hapart := hapart e
    rw [howed, Machine.owed, hl]
    simp only [List.flatMap_cons, List.mem_append, hg.exits, List.mem_filter] at hapart ⊢
    grind
  · intro q hq c hc
    rw [hl] at hq
    rcases List.mem_cons.1 hq with rfl | hq
    · rcases (hg.queue c).1 hc with hc | ⟨⟨e, he, rfl⟩, -, hx, hno⟩
      · exact .inl (hqueues r (List.mem_cons_self ..) c hc)
      · rw [Facts.claimed_of_core hg.core]
        refine .inr ⟨hno, e.1, List.mem_filter.2 ⟨he, ?_⟩⟩
        by_contra hleave
        rw [hexit e (by simpa using hleave)] at hx
        cases hx
    · exact .inl (hqueues q (List.mem_cons_of_mem _ hq) c hc)

theorem opened {rest : List LoopRun} (hm : Reaches p s m) (he : Enters p s m b t f)
    (hp : Transfer.process s b p t f = .ok f₁) (hb : p.isLoopHeader b = true)
    (hf : m'.facts = (LoopRun.opened p f₁ b).1) (hl : m'.loops = (LoopRun.opened p f₁ b).2 :: rest)
    (howed : rest.flatMap (·.exits) = m.owed) (hvisits : ∀ x ∈ m'.visits, x ∈ m.visits)
    (hqueues : ∀ q ∈ rest, ∀ c ∈ q.queue, ∃ q ∈ m.loops, c ∈ q.queue) :
    Routed p m m' (p.edgesFrom b) ((p.edgesFrom b).filter fun e => !p.isLoopExit b e.2) := by
  have hback : f₁.leadsBack p b = true := by
    simp [Facts.leadsBack, hb, (Transfer.claimed_process hp b).2 (.inl rfl)]
  have hgains := LoopRun.opened_gains hback
  have hg := LoopRun.opened_grown (p := p) f₁ b
  rw [← hf] at hgains hg
  refine grown (r := .start b) (fun h e => p.isLoopExit h e.2) hl hg (he.process_flow hp) hgains
    (fun _ h => h) ?_ ?_ hvisits ?_
  · intro e
    simp [LoopRun.start, howed, or_comm]
  · intro e hedge
    simpa [LoopRun.start, howed] using hm.not_owed he.unclaimed hedge
  · intro q hq c hc
    rcases List.mem_cons.1 hq with rfl | hq
    · cases hc
    · exact hqueues q hq c hc

end Routed

/-- Where the innermost loop goes on with less in its queue, nothing is waiting that was not
before. -/
theorem queued_before {r₁ : LoopRun} {outer : List LoopRun} (hl : m.loops = r :: outer)
    (hsub : ∀ c ∈ r₁.queue, c ∈ r.queue) :
    ∀ q ∈ r₁ :: outer, ∀ c ∈ q.queue, ∃ q ∈ m.loops, c ∈ q.queue := by
  intro q hq c hc
  rw [hl]
  rcases List.mem_cons.1 hq with rfl | hq
  · exact ⟨r, List.mem_cons_self .., hsub c hc⟩
  · exact ⟨q, List.mem_cons_of_mem _ hq, hc⟩

theorem Reaches.leadsBack_header (hm : Reaches p s m) (hstep : Step p s m m') (hr : r ∈ m.loops)
    (hcore : m'.facts.core = f₁.core) : f₁.leadsBack p r.header = true := by
  rw [Facts.leadsBack, ← Facts.claimed_of_core hcore, hstep.claimed_mono (hm.header_claimed r hr),
    hm.loop_header _ (List.mem_map_of_mem hr)]
  rfl

/-- Every step routes the edges out of the block that it processes, and those that were owed
before. -/
theorem Step.routed (hm : Reaches p s m) (hstep : Step p s m m') : ∃ new es, Routed p m m' new es ∧
    ((∃ b t f, Enters p s m b t f ∧ new = p.edgesFrom b) ∨ (∀ b t f, ¬ Enters p s m b t f) ∧
      new = []) := by
  have hstep' := hstep
  cases hstep with
  | walked hl he hp hb hpend hf =>
    refine ⟨_, _, .followed hf (he.process_flow hp) (fun x hx => List.mem_of_mem_tail hx)
      rfl fun e => ?_, .inl ⟨_, _, _, he, rfl⟩⟩
    simp [owed_of_loops_nil hl]
  | opened hl he hp hb hpend =>
    refine ⟨_, _, .opened hm he hp hb rfl rfl (owed_of_loops_nil hl).symm (fun x hx =>
      List.mem_of_mem_tail hx) nofun, .inl ⟨_, _, _, he, rfl⟩⟩
  | skipped hl hv hc =>
    refine ⟨_, _, .idle rfl rfl (fun x hx => by rw [hv]; exact List.mem_cons_of_mem _ hx)
      fun r hr c hc => ⟨r, hr, hc⟩, .inr ⟨fun _ _ _ => not_enters_of_claimed hl hv hc, rfl⟩⟩
  | pended hl hv hc hp hb hr =>
    refine ⟨_, _, .idle rfl rfl (fun x hx => by rw [hv]; exact List.mem_cons_of_mem _ hx)
      fun r hr c hc => ⟨r, hr, hc⟩, .inr ⟨fun _ _ _ => not_enters_of_not_ready hl hv hp hb hr, rfl⟩⟩
  | @looped r outer b queue t f f₁ hl hq he hp hb f' r' ha =>
    have hg := LoopRun.grown_of_absorb ha
    have hback : f₁.leadsBack p r.header = true :=
      hm.leadsBack_header hstep' (by rw [hl]; exact List.mem_cons_self ..) hg.core
    have hgains := LoopRun.absorb_gains
      (r := { r with queue := queue, taken := r.taken + 1, stalled := 0 })
      (p.edgesFrom b) hback
    rw [ha] at hgains
    have howed : m.owed = r.exits ++ outer.flatMap (·.exits) := by rw [owed, hl, List.flatMap_cons]
    refine ⟨_, _, .grown (LoopRun.leaves p) rfl hg (he.process_flow hp) hgains (fun e h =>
      (Bool.and_eq_true_iff.1 h).2) ?_ ?_ (fun x hx => hx) (queued_before hl fun c hc => ?_),
      .inl ⟨_, _, _, he, rfl⟩⟩
    · intro e
      rw [howed, List.flatMap_cons, or_comm]
    · intro e hedge
      rw [List.flatMap_cons, ← howed]
      exact hm.not_owed he.unclaimed hedge
    · rw [hq]
      exact List.mem_cons_of_mem _ hc
  | @nested r outer b queue t f f₁ hl hq he hp hb =>
    refine ⟨_, _, .opened hm he hp hb rfl rfl ?_ (fun x hx => hx) (queued_before hl fun c hc => ?_),
      .inl ⟨_, _, _, he, rfl⟩⟩
    · rw [owed, hl, List.flatMap_cons, List.flatMap_cons]
    · rw [hq]
      exact List.mem_cons_of_mem _ hc
  | deferred hl hq ht hc hnone hs =>
    refine ⟨_, _, .idle rfl ?_ (fun x hx => hx) (queued_before hl fun c hc => ?_),
      .inr ⟨fun _ _ _ => not_enters_of_entry_none hl hq hnone, rfl⟩⟩
    · rw [owed, owed, hl, List.flatMap_cons, List.flatMap_cons]
    · rw [hq]
      exact (List.perm_append_singleton _ _).mem_iff.1 hc
  | closed hl he hc hf =>
    refine ⟨_, _, .followed hf (he.close_flow hc) (fun x hx => hx) rfl fun e => ?_,
      .inr ⟨fun _ _ _ => he.loops_ne hl, rfl⟩⟩
    simp [owed, hl]
  | @returned r o rest f f₁ hl he hc f' o' ha =>
    have hg := LoopRun.grown_of_absorb ha
    have hback : f₁.leadsBack p o.header = true :=
      hm.leadsBack_header hstep' (by simp [hl]) hg.core
    have hgains := LoopRun.absorb_gains r.exits hback
    rw [ha] at hgains
    have hapart := hm.exits_apart
    rw [hl] at hapart
    have hapart := (List.pairwise_cons.1 hapart).1
    refine ⟨[], _, .grown (LoopRun.leaves p) rfl hg (he.close_flow hc) hgains (fun e h =>
      (Bool.and_eq_true_iff.1 h).2) ?_ ?_ (fun x hx => hx) fun q hq c hc => ?_,
      .inr ⟨fun _ _ _ => he.loops_ne hl, rfl⟩⟩
    · intro e
      simp [owed, hl]
    · intro e hexit hother
      obtain ⟨q, hq, hother⟩ := List.mem_flatMap.1 hother
      exact hapart q hq e hexit hother
    · rw [hl]
      exact ⟨q, List.mem_cons_of_mem _ hq, hc⟩
  | finished hf =>
    exact ⟨_, _, .idle rfl rfl (fun x hx => hx) fun r hr c hc => ⟨r, hr, hc⟩,
      .inr ⟨fun _ _ _ => not_enters_of_finished hf, rfl⟩⟩

/-- The new edges of a step are those out of the block that is processed. -/
theorem Reaches.routed (hm : Reaches p s m) (hstep : Step p s m m') :
    ∃ new es, Routed p m m' new es ∧
    ∀ e, e ∈ new ↔ m.facts.claimed e.1 = false ∧ m'.facts.claimed e.1 = true ∧
      e.2 ∈ p.successors e.1 := by
  obtain ⟨new, es, hr, hnew⟩ := hstep.routed hm
  refine ⟨new, es, hr, fun e => ?_⟩
  obtain ⟨a, c⟩ := e
  rcases hm.claimed_step hstep with ⟨b, t, f, he, hclaimed⟩ | ⟨hno, hclaimed⟩
  · rcases hnew with ⟨b', t', f', he', rfl⟩ | ⟨hno, -⟩
    · obtain ⟨rfl, -, -⟩ := he.deterministic he'
      have hb := he.unclaimed
      simp only [Procedure.edgesFrom, List.mem_map, Prod.mk.injEq, hclaimed]
      grind
    · exact absurd he (hno b t f)
  · rcases hnew with ⟨b', t', f', he', -⟩ | ⟨-, rfl⟩
    · exact absurd he' (hno b' t' f')
    · simp only [hclaimed, List.not_mem_nil, false_iff]
      grind

/-! ## what is recorded -/

theorem Reaches.flow_enabled (hm : Reaches p s m) : m.facts.flow.enabled = s.recordFlow := by
  refine hm.invariant (P := fun m => m.facts.flow.enabled = s.recordFlow) rfl ?_
  intro m m' hm ih hstep
  obtain ⟨new, es, hr, -⟩ := hm.routed hstep
  exact hr.flow.enabled.trans ih

/-- The edges out of processed blocks are recorded or owed, not both, and with one mark. -/
structure Recorded (p : Procedure) (m : Machine) : Prop where
  edge : ∀ x ∈ m.facts.flow.edges, m.facts.claimed x.source = true ∧
    x.target ∈ p.successors x.source
  all : ∀ a c, m.facts.claimed a = true → c ∈ p.successors a → (a, c) ∈ m.owed ∨
    ∃ k, ⟨a, c, k⟩ ∈ m.facts.flow.edges
  apart : ∀ x ∈ m.facts.flow.edges, (x.source, x.target) ∉ m.owed
  once : ∀ x ∈ m.facts.flow.edges, ∀ y ∈ m.facts.flow.edges, x.source = y.source →
    x.target = y.target → x = y

theorem Recorded.step (h : Recorded p m) (hm : Reaches p s m) (hstep : Step p s m m')
    (hon : m.facts.flow.enabled = true) : Recorded p m' := by
  obtain ⟨new, es, hr, hnew⟩ := hm.routed hstep
  have hmem := hr.flow.mem hon
  -- what was recorded is neither owed nor new, and so it is not taken up again
  have hfresh : ∀ x ∈ m.facts.flow.edges, ¬ ((x.source, x.target) ∈ m.owed ∨
      (x.source, x.target) ∈ new) := by
    rintro x hx (howed | hedge)
    · exact h.apart x hx howed
    · have hno := ((hnew _).1 hedge).1
      rw [(h.edge x hx).1] at hno
      cases hno
  have hagain : ∀ x ∈ m.facts.flow.edges, (x.source, x.target) ∉ es := fun x hx hes =>
    hfresh x hx (hr.source _ hes)
  refine ⟨fun x hx => ?_, fun a c ha hc => ?_, fun x hx howed => ?_,
    fun x hx y hy hsource htarget => ?_⟩
  · rcases (hmem x).1 hx with hx | ⟨hes, -⟩
    · exact ⟨hstep.claimed_mono (h.edge x hx).1, (h.edge x hx).2⟩
    · rcases hr.source _ hes with howed | hedge
      · exact ⟨hstep.claimed_mono (hm.owed_edge howed).1, (hm.owed_edge howed).2⟩
      · exact ((hnew _).1 hedge).2
  · have hcases : ((a, c) ∈ m.owed ∨ (a, c) ∈ new) ∨ ∃ k, ⟨a, c, k⟩ ∈ m.facts.flow.edges := by
      by_cases hbefore : m.facts.claimed a = true
      · exact (h.all a c hbefore hc).imp_left .inl
      · exact .inl (.inr ((hnew _).2 ⟨by simpa using hbefore, ha, hc⟩))
    rcases hcases with hedge | ⟨k, hx⟩
    · by_cases hes : (a, c) ∈ es
      · exact .inr ⟨m'.facts.leadsBack p c, (hmem ⟨a, c, _⟩).2 (.inr ⟨hes, rfl⟩)⟩
      · exact .inl ((hr.owed _).2 ⟨hedge, hes⟩)
    · exact .inr ⟨k, hr.flow.mono hon hx⟩
  · obtain ⟨hedge, hno⟩ := (hr.owed _).1 howed
    rcases (hmem x).1 hx with hx | ⟨hes, -⟩
    · exact hfresh x hx hedge
    · exact hno hes
  · rcases (hmem x).1 hx with hx | ⟨hxs, hxb⟩ <;> rcases (hmem y).1 hy with hy | ⟨hys, hyb⟩
    · exact h.once x hx y hy hsource htarget
    · rw [← hsource, ← htarget] at hys
      exact absurd hys (hagain x hx)
    · rw [hsource, htarget] at hxs
      exact absurd hxs (hagain y hy)
    · cases x
      cases y
      simp_all

theorem Reaches.recorded (hm : Reaches p s m) (hs : s.recordFlow = true) : Recorded p m := by
  refine hm.invariant (P := Recorded p) ⟨?_, ?_, ?_, ?_⟩ fun m m' hm ih hstep =>
    ih.step hm hstep (hm.flow_enabled.trans hs)
  · simp [start, Facts.start, FlowGraph.empty]
  · simp [start]
  · simp [start, Facts.start, FlowGraph.empty]
  · simp [start, Facts.start, FlowGraph.empty]

end Machine

/-- The flow graph is the part of the control-flow graph that was gone through: from `a` to `c` an
edge is recorded exactly if `a` was processed and leads to `c`, and it has one mark. This holds
where loops were given up as well. -/
theorem analyze_flow {p : Procedure} {s : Settings} {r : Report} (hs : s.recordFlow = true)
    (h : analyze p s = .ok r) :
    (∀ a c, (∃ k, ⟨a, c, k⟩ ∈ r.facts.flow.edges) ↔ r.facts.claimed a = true ∧ c ∈ p.successors a) ∧
    ∀ a c, ¬ (⟨a, c, false⟩ ∈ r.facts.flow.edges ∧ ⟨a, c, true⟩ ∈ r.facts.flow.edges) := by
  obtain ⟨-, m, hrun, hm, rfl⟩ := analyze_eq_ok h
  have hf := Machine.run_finished hrun
  have hrec := hm.recorded hs
  have hnone : m.owed = [] := by
    simp only [Machine.finished, Bool.and_eq_true, List.isEmpty_iff] at hf
    exact Machine.owed_of_loops_nil hf.1.1
  rw [Machine.conclude_eq]
  refine ⟨fun a c => ⟨?_, ?_⟩, ?_⟩
  · rintro ⟨k, hx⟩
    exact hrec.edge _ hx
  · rintro ⟨ha, hc⟩
    rcases hrec.all a c ha hc with howed | hx
    · rw [hnone] at howed
      cases howed
    · exact hx
  · rintro a c ⟨hforward, hback⟩
    cases hrec.once _ hforward _ hback rfl rfl

/-- A loop in a loop, which is left for the outer loop and, by a jump, for what is behind both. -/
def jumpOutOfBoth : Draft where
  name := "jump out of both loops"
  blocks := (List.range 7).map fun i => (⟨i⟩, [⟨⟨i⟩, i, "skip", .other⟩])
  edges := [(⟨0⟩, ⟨1⟩), (⟨1⟩, ⟨2⟩), (⟨2⟩, ⟨3⟩), (⟨3⟩, ⟨2⟩), (⟨3⟩, ⟨5⟩), (⟨2⟩, ⟨4⟩), (⟨4⟩, ⟨1⟩),
    (⟨1⟩, ⟨5⟩), (⟨5⟩, ⟨6⟩)]
  loops := [.blocks ⟨1⟩ ⟨5⟩, .blocks ⟨2⟩ ⟨4⟩, .blocks ⟨2⟩ ⟨5⟩]

/-- The outer loop is given up before its last block. -/
theorem analyze_flow_jumpOutOfBoth :
    ∃ p r, jumpOutOfBoth.build = .ok p ∧ analyze p { maxIterations := 1 } = .ok r ∧
      r.facts.diagnostics.map (·.kind) = [.loopLimit] ∧ r.facts.claimed ⟨4⟩ = false ∧
      (∃ k, ⟨⟨3⟩, ⟨5⟩, k⟩ ∈ r.facts.flow.edges) ∧ (¬ ∃ k, ⟨⟨4⟩, ⟨1⟩, k⟩ ∈ r.facts.flow.edges) ∧
      ¬ (⟨⟨3⟩, ⟨2⟩, false⟩ ∈ r.facts.flow.edges ∧ ⟨⟨3⟩, ⟨2⟩, true⟩ ∈ r.facts.flow.edges) := by
  obtain ⟨p, r, hb, h, hP⟩ := Draft.check_eq_true (d := jumpOutOfBoth) (s := { maxIterations := 1 })
    (P := fun p r => r.facts.diagnostics.map (·.kind) = [.loopLimit] ∧ r.facts.claimed ⟨4⟩ = false ∧
      r.facts.claimed ⟨3⟩ = true ∧ ⟨5⟩ ∈ p.successors ⟨3⟩) (by decide +kernel)
  obtain ⟨hkinds, hfour, hthree, hsucc⟩ := of_decide_eq_true hP
  obtain ⟨hflow, honce⟩ := analyze_flow rfl h
  refine ⟨p, r, hb, h, hkinds, hfour, (hflow _ _).2 ⟨hthree, hsucc⟩, fun hx => ?_, honce ⟨3⟩ ⟨2⟩⟩
  have hclaimed := ((hflow _ _).1 hx).1
  rw [hfour] at hclaimed
  cases hclaimed

end ArrayFlow
