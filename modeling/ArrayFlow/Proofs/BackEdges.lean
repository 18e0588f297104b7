import ArrayFlow.Proofs.Flow

/-!
# Marks of back edges

An edge is marked when it is recorded: it leads back if its target is a loop header that was
processed by then. An edge that can only be come to through the header is always marked. One that
leads into the loop from outside is not, as long as it is the one that brought the analysis to the
header; where there are several ways in, the others may be marked too.

* `Procedure.forward_or_returns` : control comes to a block without passing the header, or from the
  header;
* `Reaches.recorded_by`      : the step that recorded an edge, with the mark that it gave;
* `Reaches.led`              : a processed block was led to by an edge without a mark, by induction
  on the run;
* `Reaches.returns_or_second_way` : a marked edge returns to its header, or is a second way in;
* `analyze_back_edges`       : the marks of a report, and that all of them are returns where there
  is one way in;
* `second_way_in_marked`     : two arms of a branch that meet at a header, one of them marked.
-/

namespace ArrayFlow

/-- Control comes to a block without passing `b`, or from `b`. -/
theorem Procedure.forward_or_returns {p : Procedure} {a b : BlockId} (h : p.Reachable a) :
    p.Forward b a ∨ Relation.ReflTransGen (fun a c => c ∈ p.successors a) b a := by
  induction h with
  | refl =>
    by_cases hentry : p.entry = b
    · exact .inr (hentry ▸ .refl)
    · exact .inl ⟨hentry, .refl⟩
  | @tail a c _ hc ih =>
    rcases ih with hfwd | hback
    · by_cases hcb : c = b
      · exact .inr (hcb ▸ .refl)
      · exact .inl (hfwd.step hc hcb)
    · exact .inr (hback.tail hc)

namespace Machine

variable {p : Procedure} {s : Settings} {m m' : Machine} {a b c : BlockId} {t : Bindings}
  {f : Facts} {x : FlowEdge}

/-! ## when edges are recorded -/

theorem Reaches.flow_mono (hm : Reaches p s m) (hs : s.recordFlow = true) (hstep : Step p s m m')
    (hx : x ∈ m.facts.flow.edges) : x ∈ m'.facts.flow.edges := by
  obtain ⟨new, es, hr, -⟩ := hm.routed hstep
  exact hr.flow.mono (hm.flow_enabled.trans hs) hx

/-- Every edge was recorded by some step, with the mark that its target has behind the step. -/
theorem Reaches.recorded_by (hm : Reaches p s m) (hs : s.recordFlow = true)
    (hx : x ∈ m.facts.flow.edges) :
    ∃ m₀ m₁, Reaches p s m₀ ∧ step p s m₀ = .ok m₁ ∧ x ∉ m₀.facts.flow.edges ∧
      x ∈ m₁.facts.flow.edges ∧
      x.isBack = m₁.facts.leadsBack p x.target := by
  induction hm with
  | refl => simp [start, Facts.start, FlowGraph.empty] at hx
  | @tail m m' hm hstep ih =>
    obtain ⟨new, es, hr, -⟩ := Reaches.routed hm (step_cases hstep)
    by_cases hold : x ∈ m.facts.flow.edges
    · exact ih hold
    · have hnew := ((hr.flow.mem ((Reaches.flow_enabled hm).trans hs) x).1 hx).resolve_left hold
      exact ⟨m, m', hm, hstep, hold, hx, hnew.2⟩

/-! ## what leads to a block -/

/-- The block is the entry, or an edge without a mark leads to it. -/
def Led (p : Procedure) (m : Machine) (c : BlockId) : Prop :=
  c = p.entry ∨ ∃ a, ⟨a, c, false⟩ ∈ m.facts.flow.edges

theorem Led.step (h : Led p m c) (hm : Reaches p s m) (hs : s.recordFlow = true)
    (hstep : Step p s m m') :
    Led p m' c := by
  rcases h with hentry | ⟨a, hx⟩
  · exact .inl hentry
  · exact .inr ⟨a, hm.flow_mono hs hstep hx⟩

/-- Blocks that wait were led to. -/
structure WaitingLed (p : Procedure) (m : Machine) : Prop where
  visits : ∀ x ∈ m.visits, Led p m x.1
  pending : ∀ c ∈ m.pending, Led p m c
  queues : ∀ r ∈ m.loops, ∀ c ∈ r.queue, Led p m c

theorem WaitingLed.step (h : WaitingLed p m) (hm : Reaches p s m) (hs : s.recordFlow = true)
    (hstep : Step p s m m') :
    WaitingLed p m' := by
  obtain ⟨new, es, hr, -⟩ := hm.routed hstep
  -- the edge to a block that was not processed has no mark
  have hled : ∀ {a c}, m'.facts.claimed c = false → (a, c) ∈ es → Led p m' c := by
    intro a c hno hes
    refine .inr ⟨a, (hr.flow.mem (hm.flow_enabled.trans hs) _).2 (.inr ⟨hes, ?_⟩)⟩
    simp [Facts.leadsBack, hno]
  refine ⟨fun x hx => ?_, fun c hc => ?_, fun r' hr' c hc => ?_⟩
  · rcases hr.visits x hx with hx | ⟨hno, a, hes⟩
    · exact (h.visits x hx).step hm hs hstep
    · exact hled hno hes
  · rcases hstep.pending_cases hc with hc | ⟨t, hx⟩
    · exact (h.pending c hc).step hm hs hstep
    · exact (h.visits _ hx).step hm hs hstep
  · rcases hr.queues r' hr' c hc with ⟨r, hr, hc⟩ | ⟨hno, a, hes⟩
    · exact (h.queues r hr c hc).step hm hs hstep
    · exact hled hno hes

theorem Reaches.waitingLed (hm : Reaches p s m) (hs : s.recordFlow = true) : WaitingLed p m := by
  refine hm.invariant (P := WaitingLed p) ⟨?_, ?_, ?_⟩ fun m m' hm ih hstep => ih.step hm hs hstep
  · simp [start, Led]
  · simp [start]
  · simp [start]

theorem WaitingLed.enters (h : WaitingLed p m) (he : Enters p s m b t f) : Led p m b := by
  rcases he.waited with ⟨-, ⟨u, hv⟩ | hpend⟩ | ⟨r, outer, hl, hq⟩
  · exact h.visits (b, u) hv
  · exact h.pending b hpend
  · exact h.queues r (by rw [hl]; exact List.mem_cons_self ..) b hq

/-- Every processed block but the entry was led to by an edge without a mark, from a block that
control comes to without passing it. -/
theorem Reaches.led (hm : Reaches p s m) (hs : s.recordFlow = true) :
    ∀ b, m.facts.claimed b = true → b = p.entry ∨ ∃ a, ⟨a, b, false⟩ ∈ m.facts.flow.edges ∧
      p.Forward b a := by
  refine hm.invariant (P := fun m => ∀ b, m.facts.claimed b = true → b = p.entry ∨
    ∃ a, ⟨a, b, false⟩ ∈ m.facts.flow.edges ∧ p.Forward b a) ?_ ?_
  · simp [start]
  · intro m m' hm ih hstep c hc
    have hkept : ∀ {c}, (c = p.entry ∨ ∃ a, ⟨a, c, false⟩ ∈ m.facts.flow.edges ∧ p.Forward c a) →
        c = p.entry ∨ ∃ a, ⟨a, c, false⟩ ∈ m'.facts.flow.edges ∧ p.Forward c a := by
      rintro c (hentry | ⟨a, hx, hfwd⟩)
      · exact .inl hentry
      · exact .inr ⟨a, hm.flow_mono hs hstep hx, hfwd⟩
    rcases hm.claimed_step hstep with ⟨b, t, f, he, hcl⟩ | ⟨-, hcl⟩
    · rcases (hcl c).1 hc with rfl | hc
      · rcases (hm.waitingLed hs).enters he with hentry | ⟨a, hx⟩
        · exact .inl hentry
        · exact hkept (.inr ⟨a, hx, hm.forward he.unclaimed ((hm.recorded hs).edge _ hx).1⟩)
      · exact hkept (ih c hc)
    · rw [hcl] at hc
      exact hkept (ih c hc)

/-- A marked edge to a processed block returns from there, or it is a way in besides the one that
led to the block. -/
theorem Reaches.returns_or_second_way (hm : Reaches p s m) (hw : p.WellFormed)
    (hs : s.recordFlow = true) (hx : x ∈ m.facts.flow.edges) (hmarked : x.isBack = true)
    (hc : m.facts.claimed x.target = true) :
    ¬ p.Forward x.target x.source ∧
    Relation.ReflTransGen (fun a c => c ∈ p.successors a) x.target x.source ∨
      x.source ∈ p.forward x.target ∧
        ∃ a ∈ p.forward x.target, a ≠ x.source ∧ ⟨a, x.target, false⟩ ∈ m.facts.flow.edges := by
  have hedges := hm.recorded hs
  obtain ⟨hsource, hsucc⟩ := hedges.edge x hx
  by_cases hfwd : p.Forward x.target x.source
  · obtain ⟨a, hled, hfwd'⟩ := (hm.led hs _ hc).resolve_left fun hentry => hfwd.1 hentry.symm
    refine .inr ⟨Procedure.mem_forward.2 ⟨(hw.mem_predecessors _ _).2 hsucc, hfwd⟩, a,
      Procedure.mem_forward.2 ⟨(hw.mem_predecessors _ _).2 (hedges.edge _ hled).2, hfwd'⟩,
      fun heq => ?_, hled⟩
    -- the edge that led to the block has no mark
    have hsame := hedges.once _ hled x hx heq rfl
    rw [← hsame] at hmarked
    cases hmarked
  · exact .inl ⟨hfwd,
      (Procedure.forward_or_returns (hm.reachable.claimed _ hsource)).resolve_left hfwd⟩

end Machine

/-- An edge is marked exactly if its target is a loop header that was processed by the step that
records the edge. So every edge is marked whose source is come to through the header only. Any other
marked edge is a way in besides another one, which is not marked; where there is one way in, every
marked edge returns to its header. -/
theorem analyze_back_edges {d : Draft} {p : Procedure} {s : Settings} {r : Report} {x : FlowEdge}
    (hb : d.build = .ok p) (hs : s.recordFlow = true) (h : analyze p s = .ok r)
    (hx : x ∈ r.facts.flow.edges) :
    (∃ m m', Machine.Reaches p s m ∧ Machine.step p s m = .ok m' ∧ x ∉ m.facts.flow.edges ∧
      x ∈ m'.facts.flow.edges ∧
      (x.isBack = true ↔ p.isLoopHeader x.target = true ∧ m'.facts.claimed x.target = true)) ∧
    (p.isLoopHeader x.target = true → ¬ p.Forward x.target x.source → x.isBack = true) ∧
    (x.isBack = true → p.isLoopHeader x.target = true ∧
      (¬ p.Forward x.target x.source ∧
        Relation.ReflTransGen (fun a c => c ∈ p.successors a) x.target x.source ∨
        x.source ∈ p.forward x.target ∧
          ∃ a ∈ p.forward x.target, a ≠ x.source ∧ ⟨a, x.target, false⟩ ∈ r.facts.flow.edges)) ∧
    (x.isBack = true → (p.forward x.target).length ≤ 1 →
      ¬ p.Forward x.target x.source ∧
      Relation.ReflTransGen (fun a c => c ∈ p.successors a) x.target x.source) := by
  obtain ⟨-, m, hrun, hm, rfl⟩ := analyze_eq_ok h
  have hw : p.WellFormed := .of_build hb
  rw [Machine.conclude_eq] at hx ⊢
  obtain ⟨m₀, m₁, hm₀, hstep, hbefore, hafter, hmark⟩ := hm.recorded_by hs hx
  have hm₁ : Machine.Reaches p s m₁ := hm₀.tail hstep
  have hback : x.isBack = true ↔ p.isLoopHeader x.target = true ∧
      m₁.facts.claimed x.target = true := by
    rw [hmark, Facts.leadsBack, Bool.and_eq_true, and_comm]
  have hcases := fun hmarked : x.isBack = true => hm.returns_or_second_way hw hs hx hmarked
    (hm₁.claimed_of_finished hm (Machine.run_finished hrun) (hback.1 hmarked).2)
  refine ⟨⟨m₀, m₁, hm₀, hstep, hbefore, hafter, hback⟩, fun hheader hno => ?_,
    fun hmarked => ⟨(hback.1 hmarked).1, hcases hmarked⟩, fun hmarked hone => ?_⟩
  · refine hback.2 ⟨hheader, ?_⟩
    by_contra hclaimed
    exact hno (hm₁.forward (by simpa using hclaimed) ((hm₁.recorded hs).edge x hafter).1)
  · rcases hcases hmarked with hreturns | ⟨hsource, a, ha, hne, -⟩
    · exact hreturns
    · obtain ⟨c, hc⟩ := List.length_eq_one_iff.1 (Nat.le_antisymm hone (List.length_pos_of_mem ha))
      rw [hc, List.mem_singleton] at hsource ha
      exact absurd (ha.trans hsource.symm) hne

theorem analyze_back_edges_jumpOutOfBoth :
    ∃ p r, jumpOutOfBoth.build = .ok p ∧ analyze p {} = .ok r ∧
      ⟨⟨3⟩, ⟨2⟩, true⟩ ∈ r.facts.flow.edges ∧
      (p.forward ⟨2⟩).length ≤ 1 ∧
      Relation.ReflTransGen (fun a c => c ∈ p.successors a) ⟨2⟩ ⟨3⟩ := by
  obtain ⟨p, r, hb, h, hP⟩ := Draft.check_eq_true (d := jumpOutOfBoth) (s := {})
    (P := fun p r => r.facts.flow.edges.contains ⟨⟨3⟩, ⟨2⟩, true⟩ = true ∧
      p.predecessors ⟨2⟩ = [⟨1⟩, ⟨3⟩] ∧ p.entry = ⟨0⟩ ∧ p.successors ⟨0⟩ = [⟨1⟩] ∧
      p.successors ⟨1⟩ = [⟨2⟩, ⟨5⟩] ∧ p.successors ⟨5⟩ = [⟨6⟩] ∧
      p.successors ⟨6⟩ = []) (by decide +kernel)
  obtain ⟨hx, hpreds, hentry, hzero, hone, hfive, hsix⟩ := of_decide_eq_true hP
  have hlen : (p.forward ⟨2⟩).length ≤ 1 := by
    have hthree : ¬ p.Forward ⟨2⟩ ⟨3⟩ := fun hfwd => by
      have hmem : (⟨3⟩ : BlockId) ∈ [⟨0⟩, ⟨1⟩, ⟨5⟩, ⟨6⟩] := by
        refine hfwd.mem (by simp [hentry]) ?_
        simp [hzero, hone, hfive, hsix]
      simp at hmem
    have hlt : (p.forward ⟨2⟩).length < (p.predecessors ⟨2⟩).length :=
      List.length_filter_lt_length_iff_exists.2 ⟨⟨3⟩, by simp [hpreds], by simpa using hthree⟩
    rw [hpreds] at hlt
    exact Nat.le_of_lt_succ hlt
  obtain ⟨-, -, -, hreturns⟩ := analyze_back_edges hb rfl h hx
  exact ⟨p, r, hb, h, hx, hlen, (hreturns rfl hlen).2⟩

/-- Both arms lead into the loop. The walk takes the first one and works off the loop before it
comes to the other; its edge is marked although control never comes back to it. -/
theorem second_way_in_marked :
    ∃ p r, twoArms.build = .ok p ∧ analyze p {} = .ok r ∧ r.facts.diagnostics = [] ∧
      p.isLoopHeader ⟨3⟩ = true ∧
      ⟨⟨2⟩, ⟨3⟩, true⟩ ∈ r.facts.flow.edges ∧
      ¬ Relation.ReflTransGen (fun a c => c ∈ p.successors a) ⟨3⟩ ⟨2⟩ := by
  obtain ⟨p, r, hb, h, hP⟩ := Draft.check_eq_true (d := twoArms) (s := {})
    (P := fun p r => r.facts.diagnostics = [] ∧ p.isLoopHeader ⟨3⟩ = true ∧
      r.facts.flow.edges.contains ⟨⟨2⟩, ⟨3⟩, true⟩ = true ∧ p.successors ⟨3⟩ = [⟨4⟩, ⟨5⟩] ∧
      p.successors ⟨4⟩ = [⟨3⟩] ∧ p.successors ⟨5⟩ = []) (by decide +kernel)
  obtain ⟨hnone, hheader, hx, hthree, hfour, hfive⟩ := of_decide_eq_true hP
  have hloop : ∀ c, Relation.ReflTransGen (fun a c => c ∈ p.successors a) ⟨3⟩ c →
      c ∈ [⟨3⟩, ⟨4⟩, ⟨5⟩] := by
    intro c hpath
    induction hpath with
    | refl => simp
    | @tail a c _ hc ih =>
      simp only [List.mem_cons, List.not_mem_nil, or_false] at ih
      rcases ih with rfl | rfl | rfl
      · simp_all
      · simp_all
      · simp_all
  refine ⟨p, r, hb, h, hnone, hheader, hx, fun hpath => ?_⟩
  simpa using hloop ⟨2⟩ hpath

end ArrayFlow
