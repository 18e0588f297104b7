import ArrayFlow.Proofs.Stalls
import ArrayFlow.Proofs.Faults

/-!
# Loops that meet a processed block

A loop puts blocks into its queue that were not processed, each once. When it takes one that was
processed meanwhile, it is given up. That can only be the doing of a loop inside of it.

* `Machine.Waits`       : a block is in the queue of the loop of a header;
* `Machine.Reenters`    : the step gives the innermost loop up, as the block that it takes was
  processed;
* `Step.queue_cases`    : the innermost loop puts blocks into its queue that were not processed;
* `Reaches.not_waits`   : a block that a loop takes and processes is not in its queue any more;
* `Leads.opened_inside` : the loops inside one that was the innermost were opened since;
* `Machine.Overtaken`   : a loop inside processes a block that waits in the queue of the loop around
  it;
* `Reaches.reported`    : the findings about processed blocks come from such steps;
* `reentry_nested`      : so there are none where only one block is a loop header.
-/

namespace ArrayFlow

variable {p : Procedure} {s : Settings}

namespace Machine

variable {m m' m₀ m₁ : Machine} {r q : LoopRun} {b h x : BlockId}

/-! ## waiting blocks -/

def Waits (m : Machine) (h b : BlockId) : Prop := ∃ r ∈ m.loops, r.header = h ∧ b ∈ r.queue

/-- The steps from one state to another, behind each of which the block waits in the queue of the
loop of `h`. -/
def Stays (p : Procedure) (s : Settings) (h b : BlockId) : Machine → Machine → Prop :=
  Relation.ReflTransGen fun m m' => step p s m = .ok m' ∧ m'.Waits h b

/-- The step puts the block into the queue of the loop of `h`. -/
structure Queues (p : Procedure) (s : Settings) (h b : BlockId) (m₀ m₁ : Machine) : Prop where
  reaches : Reaches p s m₀
  next : step p s m₀ = .ok m₁
  absent : ¬ m₀.Waits h b
  waits : m₁.Waits h b

/-- The step gives the innermost loop `r` up, as the block `b` that it takes was processed. -/
structure Reenters (s : Settings) (m : Machine) (r : LoopRun) (b : BlockId) : Prop where
  innermost : m.loops.head? = some r
  next : r.queue.head? = some b
  limit : r.taken < s.maxIterations
  claimed : m.facts.claimed b = true

theorem Stays.leads (hpath : Stays p s h b m m') : Leads p s m m' :=
  Relation.ReflTransGen.mono (fun _ _ hstep => hstep.1) _ _ hpath

theorem Waits.mem_nesting (hw : m.Waits h b) : h ∈ m.nesting := by
  obtain ⟨r, hr, hhead, -⟩ := hw
  exact Machine.mem_nesting.2 ⟨r, hr, hhead⟩

theorem Reenters.waits (hr : Reenters s m r b) : m.Waits r.header b :=
  ⟨r, List.mem_of_mem_head? hr.innermost, rfl, List.mem_of_mem_head? hr.next⟩

/-- A block that waits behind a step waited before, or the innermost loop just put it into its
queue, as it was not processed. -/
theorem Step.queue_cases (hstep : Step p s m m') {r' : LoopRun} (hr' : r' ∈ m'.loops)
    (hb : b ∈ r'.queue) :
    m.Waits r'.header b ∨ m'.loops.head? = some r' ∧ m'.facts.claimed b = false := by
  have hkept : ∀ {q outer}, m.loops = q :: outer → r' ∈ outer → m.Waits r'.header b := fun hl hr =>
    ⟨r', by rw [hl]; exact List.mem_cons_of_mem _ hr, rfl, hb⟩
  have hopened : ∀ {f c}, r' = (LoopRun.opened p f c).2 →
      (LoopRun.opened p f c).1.claimed b = false := by
    rintro f c rfl
    have hg := LoopRun.opened_grown (p := p) f c
    rw [Facts.claimed_of_core hg.core]
    rcases (hg.queue b).1 hb with hb | ⟨-, -, -, hc⟩
    · simp [LoopRun.start] at hb
    · exact hc
  cases hstep with
  | walked hl he hp hheader hpend hf =>
    rw [(follow_eq_ok hf).2.2.1] at hr'
    cases hr'
  | opened =>
    obtain rfl := List.mem_singleton.1 hr'
    exact .inr ⟨rfl, hopened rfl⟩
  | skipped hl =>
    rw [hl] at hr'
    cases hr'
  | pended hl =>
    rw [hl] at hr'
    cases hr'
  | @looped r _ _ _ _ _ _ hl hq he hp hheader f' r₁ ha =>
    have hg := LoopRun.grown_of_absorb ha
    rcases List.mem_cons.1 hr' with rfl | hr'
    · rcases (hg.queue b).1 hb with hb | ⟨-, -, -, hc⟩
      · exact .inl ⟨r, by rw [hl]; exact List.mem_cons_self ..,
          hg.header.symm, by rw [hq]; exact List.mem_cons_of_mem _ hb⟩
      · exact .inr ⟨rfl, by rw [Facts.claimed_of_core hg.core]; exact hc⟩
    · exact .inl (hkept hl hr')
  | @nested r _ _ _ _ _ _ hl hq =>
    rcases List.mem_cons.1 hr' with rfl | hr'
    · exact .inr ⟨rfl, hopened rfl⟩
    · rcases List.mem_cons.1 hr' with rfl | hr'
      · exact .inl ⟨r, by rw [hl]; exact List.mem_cons_self ..,
          rfl, by rw [hq]; exact List.mem_cons_of_mem _ hb⟩
      · exact .inl (hkept hl hr')
  | @deferred r _ _ _ hl hq =>
    rcases List.mem_cons.1 hr' with rfl | hr'
    · exact .inl ⟨r, by rw [hl]; exact List.mem_cons_self ..,
        rfl, by rw [hq]; simpa [or_comm] using hb⟩
    · exact .inl (hkept hl hr')
  | closed hl he hc hf =>
    rw [(follow_eq_ok hf).2.2.1] at hr'
    cases hr'
  | @returned _ o _ _ _ hl he hclose _ _ ha =>
    have hg := LoopRun.grown_of_absorb ha
    rcases List.mem_cons.1 hr' with rfl | hr'
    · rcases (hg.queue b).1 hb with hb | ⟨-, -, -, hc⟩
      · exact .inl ⟨o, by rw [hl]; simp, hg.header.symm, hb⟩
      · exact .inr ⟨rfl, by rw [Facts.claimed_of_core hg.core]; exact hc⟩
    · exact .inl (hkept hl (List.mem_cons_of_mem _ hr'))
  | finished => exact .inl ⟨r', hr', rfl, hb⟩

theorem Queues.spec (hq : Queues p s h b m₀ m₁) :
    (∃ outer, m₁.nesting = h :: outer) ∧ m₁.facts.claimed b = false := by
  obtain ⟨r, hr, rfl, hb⟩ := hq.waits
  obtain ⟨hhead, hc⟩ := ((step_cases hq.next).queue_cases hr hb).resolve_left hq.absent
  obtain ⟨outer, hl⟩ := List.head?_eq_some_iff.1 hhead
  exact ⟨⟨outer.map (·.header), by rw [nesting, hl, List.map_cons]⟩, hc⟩

/-- A block that a loop takes and processes is not in its queue any more: it was there once, and is
not put back. -/
theorem Reaches.not_waits {outer : List LoopRun} {queue : List BlockId} {t : Bindings} {f : Facts}
    (hm : Reaches p s m) (hstep : Step p s m m') (hl : m.loops = q :: outer)
    (hq : q.queue = b :: queue) (he : Enters p s m b t f) :
    ¬ m'.Waits q.header b := by
  rintro ⟨r', hr', hhead, hb⟩
  have hqm : q ∈ m.loops := by rw [hl]; exact List.mem_cons_self ..
  have hrest : b ∉ queue := by
    have hnodup := (hm.bounded.loops q hqm).nodup
    rw [hq, List.nodup_cons] at hnodup
    exact hnodup.1
  have hclaimed : ∀ {t f f₁}, Enters p s m b t f → Transfer.process s b p t f = .ok f₁ →
      f₁.claimed b = true := by
    intro t f f₁ he hp
    rw [Transfer.claimed_process hp]
    exact .inl rfl
  cases hstep.loop hr' with
  | kept hr =>
    have hn := hm.nesting_nodup
    rw [nesting, hl, List.map_cons, List.nodup_cons] at hn
    rw [hl] at hr
    exact hn.1 (List.mem_map.2 ⟨r', hr, hhead⟩)
  | @opened c u g f₁ he' hp hheader =>
    -- the new loop has the block itself as its header, which was not processed before
    obtain ⟨rfl, -, -⟩ := he.deterministic he'
    have hc := hm.header_claimed q hqm
    rw [← hhead, (LoopRun.opened_grown (p := p) f₁ b).header] at hc
    rw [show m.facts.claimed (LoopRun.start b).header = false from he.unclaimed] at hc
    cases hc
  | nested hl' hq' he' =>
    rw [hl] at hl'
    obtain ⟨rfl, rfl⟩ := List.cons.inj hl'
    rw [hq] at hq'
    obtain ⟨rfl, rfl⟩ := List.cons.inj hq'
    exact hrest hb
  | looped hl' hq' he' hp hheader hg =>
    rw [hl] at hl'
    obtain ⟨rfl, rfl⟩ := List.cons.inj hl'
    rw [hq] at hq'
    obtain ⟨rfl, rfl⟩ := List.cons.inj hq'
    rcases (hg.queue b).1 hb with hb | ⟨-, -, -, hc⟩
    · exact hrest hb
    · rw [hclaimed he' hp] at hc
      cases hc
  | deferred hl' hq' hnone hs => exact not_enters_of_entry_none hl' hq' hnone he
  | returned hl' he' hclose hg => exact he'.loops_ne hl' he

/-- What waits was put into the queue at some time, and waits since. -/
theorem Reaches.queues (hm : Reaches p s m) (hw : m.Waits h b) :
    ∃ m₀ m₁, Queues p s h b m₀ m₁ ∧ Stays p s h b m₁ m := by
  induction hm with
  | refl =>
    obtain ⟨r, hr, -⟩ := hw
    simp [start] at hr
  | @tail m₀ m₁ hm hnext ih =>
    by_cases hold : m₀.Waits h b
    · obtain ⟨n₀, n₁, hq, hpath⟩ := ih hold
      exact ⟨n₀, n₁, hq, hpath.tail ⟨hnext, hw⟩⟩
    · exact ⟨m₀, m₁, ⟨hm, hnext, hold, hw⟩, .refl⟩

/-- A block that was processed while it waits was entered at some time. -/
theorem Stays.entered (hpath : Stays p s h b m₁ m) (hm : Reaches p s m₁) (hw : m₁.Waits h b)
    (hold : m₁.facts.claimed b = false) (hc : m.facts.claimed b = true) :
    ∃ m₂ m₃ t f, Stays p s h b m₁ m₂ ∧ m₂.Waits h b ∧ Enters p s m₂ b t f ∧ step p s m₂ = .ok m₃ ∧
      m₃.Waits h b ∧ Stays p s h b m₃ m := by
  induction hpath with
  | refl =>
    rw [hold] at hc
    cases hc
  | @tail m₂ m₃ hpath hnext ih =>
    by_cases hc₂ : m₂.facts.claimed b = true
    · obtain ⟨n₂, n₃, t, f, h₁, hw₂, he, hn, hw₃, hrest⟩ := ih hc₂
      exact ⟨n₂, n₃, t, f, h₁, hw₂, he, hn, hw₃, hrest.tail hnext⟩
    · have hw₂ : m₂.Waits h b := by
        rcases Relation.ReflTransGen.cases_tail hpath with rfl | ⟨_, -, hlast⟩
        · exact hw
        · exact hlast.2
      have hm₂ : Reaches p s m₂ := hm.trans (Stays.leads hpath)
      rcases hm₂.claimed_step (step_cases hnext.1) with ⟨c, t, f, he, hcl⟩ | ⟨-, hcl⟩
      · obtain rfl := ((hcl b).1 hc).resolve_right hc₂
        exact ⟨m₂, m₃, t, f, hpath, hw₂, he, hnext.1, hnext.2, .refl⟩
      · exact absurd (hcl ▸ hc) hc₂

/-! ## loops inside -/

/-- Loops inside the loop of `h` that were opened since it was the innermost one. -/
theorem Leads.opened_inside {outer : List BlockId} (hpath : Leads p s m₁ m) (hm : Reaches p s m₁)
    (hn : m₁.nesting = h :: outer) (hh : h ∈ m.nesting) :
    ∃ inner, m.nesting = inner ++ h :: outer ∧
      ∀ x ∈ inner, ∃ before first, Opens p s x before first ∧ h ∈ before.nesting ∧
        Leads p s m₁ before ∧ Leads p s first m := by
  have hnodup : (h :: outer).Nodup := hn ▸ hm.nesting_nodup
  refine hpath.at_work (P := fun m => ∃ inner, m.nesting = inner ++ h :: outer ∧
    ∀ x ∈ inner, ∃ before first, Opens p s x before first ∧ h ∈ before.nesting ∧
    Leads p s m₁ before ∧ Leads p s first m) hm
    (hm.claimed_of_mem_nesting (by rw [hn]; exact List.mem_cons_self ..)) hh ⟨[], hn, by simp⟩ ?_
  rintro m m' hm' hpath ⟨inner, heq, hinner⟩ hnext hh
  have hlonger : ∀ x ∈ inner, ∃ before first, Opens p s x before first ∧ h ∈ before.nesting ∧
      Leads p s m₁ before ∧
      Leads p s first m' := by
    intro x hx
    obtain ⟨before, first, hopens, hmem, hbefore, hfirst⟩ := hinner x hx
    exact ⟨before, first, hopens, hmem, hbefore, hfirst.tail hnext⟩
  rcases (step_cases hnext).nesting with ⟨x, t, f, -, -, hnew⟩ | hnew | hnew
  · refine ⟨x :: inner, by rw [hnew, heq]; rfl,
      List.forall_mem_cons.2 ⟨⟨m, m', ⟨hm', hnext, hnew⟩, ?_, hpath, .refl⟩, hlonger⟩⟩
    rw [heq]
    simp
  · exact ⟨inner, hnew.trans heq, hlonger⟩
  · rw [heq] at hnew
    cases inner with
    | nil =>
      rw [hnew] at hh
      exact absurd hh (List.nodup_cons.1 hnodup).1
    | cons x inner => exact ⟨inner, hnew, fun y hy => hlonger y (List.mem_cons_of_mem _ hy)⟩

/-- While the block waits in the queue of the loop of `h`, which the step from `m₀` to `m₁` put it
into, another loop is opened inside of this one, takes the block from a queue of its own and
processes it, and ends. -/
structure Overtaken (p : Procedure) (s : Settings) (h b x : BlockId)
    (m₀ m₁ before first last after m : Machine) :
    Prop where
  queues : Queues p s h b m₀ m₁
  stays : Stays p s h b m₁ m
  other : x ≠ h
  opens : Leads p s m₁ before
  inside : h ∈ before.nesting
  span : Span p s x before first last after
  tried : Tried p s x b first last
  ends : Leads p s after m

/-- A loop that is at work was at work since its header was processed. -/
theorem Leads.mem_nesting (hpath : Leads p s m m') (hc : m.facts.claimed h = true)
    (hh : h ∈ m'.nesting) :
    h ∈ m.nesting := by
  induction hpath with
  | refl => exact hh
  | tail hpath hnext ih =>
    exact ih ((step_cases hnext).mem_nesting_of_claimed (Leads.claimed hpath hc) hh)

/-- As long as a loop is at work, its last step is to come. -/
theorem Span.leads_last {before first last after : Machine}
    (hs : Span p s x before first last after) (hpath : Leads p s first m) (hx : x ∈ m.nesting) :
    Leads p s m last := by
  have hm : Reaches p s m := hs.reaches_first.trans hpath
  have hlast : Reaches p s last := hs.reaches_first.trans hs.works
  rcases hm.total hlast with hpath | hpath
  · exact hpath
  · rcases Relation.ReflTransGen.cases_head hpath with rfl | ⟨m₁, hnext, hrest⟩
    · exact .refl
    · -- behind the last step the loop is not at work any more
      obtain rfl : after = m₁ := Except.ok.inj (hs.ends.symm.trans hnext)
      have hafter := Leads.mem_nesting hrest (Leads.claimed (hs.works.tail hs.ends) hs.claimed) hx
      rw [hs.leaves] at hafter
      exact absurd hafter (List.nodup_cons.1 hs.nodup).1

/-- A loop meets a processed block only if a loop inside of it processed the block, while it was
waiting. -/
theorem Reaches.overtaken (hm : Reaches p s m) (hr : Reenters s m r b) :
    ∃ x m₀ m₁ before first last after,
      Overtaken p s r.header b x m₀ m₁ before first last after m := by
  obtain ⟨m₀, m₁, hq, hstays⟩ := hm.queues hr.waits
  have hm₁ : Reaches p s m₁ := hq.reaches.tail hq.next
  obtain ⟨⟨outer, hn⟩, hold⟩ := hq.spec
  obtain ⟨m₂, m₃, t, f, hpath, hw₂, he, hnext, hw₃, hrest⟩ :=
    hstays.entered hm₁ hq.waits hold hr.claimed
  have hm₂ : Reaches p s m₂ := hm₁.trans hpath.leads
  have hlater : Leads p s m₂ m := .head hnext hrest.leads
  -- the block was taken from the queue of the innermost loop, which is another one
  obtain ⟨q, rest, queue, hl, hqueue⟩ : ∃ q rest queue, m₂.loops = q :: rest ∧
      q.queue = b :: queue := by
    obtain ⟨q, hq, -⟩ := hw₂
    cases he with
    | looped hl hqueue => exact ⟨_, _, _, hl, hqueue⟩
    | _ => simp_all
  have hne : q.header ≠ r.header :=
    fun heq => hm₂.not_waits (step_cases hnext) hl hqueue he (heq ▸ hw₃)
  have hhead : m₂.nesting = q.header :: rest.map (·.header) := by rw [nesting, hl, List.map_cons]
  -- it was opened since the block was put into the queue
  obtain ⟨inner, heq, hinner⟩ := hpath.leads.opened_inside hm₁ hn hw₂.mem_nesting
  obtain ⟨inner, rfl⟩ : ∃ xs, inner = q.header :: xs := by
    rw [hhead] at heq
    cases inner with
    | nil => exact absurd (List.cons.inj heq).1 hne
    | cons y ys => exact ⟨ys, by rw [(List.cons.inj heq).1]⟩
  obtain ⟨before, first, hopens, hinside, hbefore, hfirst⟩ :=
    hinner q.header (List.mem_cons_self ..)
  -- and it ended, as the loop around it is the innermost one again
  have hgone : q.header ∉ m.nesting := by
    obtain ⟨inner', heq', -⟩ := hstays.leads.opened_inside hm₁ hn hr.waits.mem_nesting
    have hlast : m.nesting = r.header :: outer := by
      obtain ⟨outer', hl'⟩ := List.head?_eq_some_iff.1 hr.innermost
      have hnodup := hm.nesting_nodup
      cases inner' with
      | nil => exact heq'
      | cons y ys =>
        rw [heq', show y =
          r.header by simpa [nesting, hl'] using congrArg List.head? heq'.symm] at hnodup
        exact absurd (List.mem_append_right _ (List.mem_cons_self ..)) (List.nodup_cons.1 hnodup).1
    have hnodup := hm₂.nesting_nodup
    rw [heq, List.cons_append, List.nodup_cons, List.mem_append, not_or] at hnodup
    rw [hlast]
    exact hnodup.1.2
  obtain ⟨last, after, hspan, hafter⟩ := hopens.span (hfirst.trans hlater) hgone
  have hmem : q.header ∈ m₂.nesting := by rw [hhead]; exact List.mem_cons_self ..
  exact ⟨q.header, m₀, m₁, before, first, last, after, hq, hstays, hne, hbefore, hinside, hspan,
    ⟨m₂, q, t, f, hfirst, by rw [hl]; rfl, rfl, by rw [hqueue]; rfl, he,
      hspan.leads_last hfirst hmem⟩, hafter⟩

/-! ## what is reported -/

/-- The findings about loops that met a processed block come from the steps that did. -/
theorem Reaches.reported (hm : Reaches p s m) {d : Diagnostic} (hd : d ∈ m.facts.diagnostics)
    (hk : d.kind = .loopReentry) :
    ∃ m₀ r b, Reaches p s m₀ ∧ Reenters s m₀ r b ∧ d = .ofFault (.loopReentry r.header b) := by
  revert hd
  refine hm.invariant (P := fun m => d ∈ m.facts.diagnostics →
    ∃ m₀ r b, Reaches p s m₀ ∧ Reenters s m₀ r b ∧
    d = .ofFault (.loopReentry r.header b)) (by simp [start, Facts.start]) ?_
  intro m m' hm ih hstep hd
  cases hstep.change with
  | processed he hp hcore =>
    obtain ⟨ds, hds, hmem⟩ := he.diagnostics hm hp
    rw [Facts.diagnostics_of_core hcore, hds, List.mem_append] at hd
    rcases hd with hd | hd
    · exact ih hd
    · obtain ⟨i, stmt, t, f, -, -, hfound⟩ := (hmem d).1 hd
      rw [(Transfer.finding?_kind hfound).1] at hk
      cases hk
  | @ended r outer f f₁ hl he hclose hcore =>
    rw [Facts.diagnostics_of_core hcore, diagnostics_close hclose] at hd
    cases he with
    | drained => exact ih hd
    | limit =>
      rcases List.mem_append.1 hd with hd | hd
      · exact ih hd
      · rw [List.mem_singleton.1 hd] at hk
        cases hk
    | reentry hq ht hc =>
      rcases List.mem_append.1 hd with hd | hd
      · exact ih hd
      · exact ⟨m, r, _, hm, ⟨by rw [hl]; rfl, by rw [hq]; rfl, ht, hc⟩, List.mem_singleton.1 hd⟩
  | none hn hcore =>
    rw [Facts.diagnostics_of_core hcore] at hd
    exact ih hd

end Machine

/-- A report has such findings from the same steps, as merges that were left over are findings of
another kind. -/
theorem Report.reentry {rep : Report} (hrep : analyze p s = .ok rep) {d : Diagnostic}
    (hd : d ∈ rep.facts.diagnostics) (hk : d.kind = .loopReentry) :
    ∃ m r b, Machine.Reaches p s m ∧ Machine.Reenters s m r b ∧
      d = .ofFault (.loopReentry r.header b) := by
  obtain ⟨-, m, -, hm, rfl⟩ := analyze_eq_ok hrep
  rw [Machine.conclude_eq] at hd
  rcases List.mem_append.1 hd with hd | hd
  · exact hm.reported hd hk
  · obtain ⟨b, -, rfl⟩ := List.mem_map.1 hd
    cases hk

open Machine in
/-- A loop meets a processed block only if, after the block was put into its queue, and while it was
there, another loop was opened inside of it and processed the block before it ended. All findings of
this kind, in every state and in the report, come from a loop that does. So where no two blocks are
loop headers, no loop meets a processed block, and there is no such finding. -/
theorem reentry_nested (p : Procedure) (s : Settings) :
    (∀ m r b, Reaches p s m → Reenters s m r b →
      ∃ x m₀ m₁ before first last after,
        Overtaken p s r.header b x m₀ m₁ before first last after m) ∧
    (∀ m d, Reaches p s m → d ∈ m.facts.diagnostics → d.kind = .loopReentry →
      ∃ m₀ r b, Reaches p s m₀ ∧ Reenters s m₀ r b ∧ d = .ofFault (.loopReentry r.header b)) ∧
    (∀ rep d, analyze p s = .ok rep → d ∈ rep.facts.diagnostics → d.kind = .loopReentry →
      ∃ m r b, Reaches p s m ∧ Reenters s m r b ∧ d = .ofFault (.loopReentry r.header b)) ∧
    ((∀ h h', p.isLoopHeader h = true → p.isLoopHeader h' = true → h = h') →
      (∀ m r b, Reaches p s m → ¬ Reenters s m r b) ∧
      (∀ m d, Reaches p s m → d ∈ m.facts.diagnostics → d.kind ≠ .loopReentry) ∧
      ∀ rep d, analyze p s = .ok rep → d ∈ rep.facts.diagnostics → d.kind ≠ .loopReentry) := by
  refine ⟨fun m r b hm hr => hm.overtaken hr, fun m d hm hd hk => hm.reported hd hk,
    fun rep d hrep hd hk => Report.reentry hrep hd hk, fun hsole => ?_⟩
  have hnever : ∀ m r b, Reaches p s m → ¬ Reenters s m r b := by
    intro m r b hm hr
    obtain ⟨x, m₀, m₁, before, first, last, after, ho⟩ := hm.overtaken hr
    have hx : p.isLoopHeader x = true := ho.span.reaches_first.loop_header x (by
      rw [← nesting, ho.span.nests]
      exact List.mem_cons_self ..)
    have hh : p.isLoopHeader r.header = true := ho.span.reaches.loop_header _ ho.inside
    exact ho.other (hsole x r.header hx hh)
  refine ⟨hnever, fun m d hm hd hk => ?_, fun rep d hrep hd hk => ?_⟩
  · obtain ⟨m₀, r, b, hm₀, hr, -⟩ := hm.reported hd hk
    exact hnever m₀ r b hm₀ hr
  · obtain ⟨m, r, b, hm, hr, -⟩ := Report.reentry hrep hd hk
    exact hnever m r b hm hr

/-- Two loops, one inside the other, whose headers both lead to block 3. -/
def sharedBody : Draft where
  name := "shared body"
  blocks := [(⟨0⟩, [⟨⟨0⟩, 1, "a = new", .create "a"⟩]), (⟨1⟩, [⟨⟨1⟩, 2, "while", .other⟩]),
    (⟨2⟩, [⟨⟨2⟩, 3, "while", .other⟩]), (⟨3⟩, [⟨⟨3⟩, 4, "a[i] = x", .write ⟨"a", .expr "i"⟩⟩]),
    (⟨4⟩, [⟨⟨4⟩, 5, "skip", .other⟩]), (⟨5⟩, [⟨⟨5⟩, 6, "y = a[i]", .read ⟨"a", .expr "i"⟩⟩])]
  edges := [(⟨0⟩, ⟨1⟩), (⟨1⟩, ⟨3⟩), (⟨1⟩, ⟨2⟩), (⟨1⟩, ⟨5⟩), (⟨2⟩, ⟨3⟩), (⟨2⟩, ⟨4⟩),
    (⟨3⟩, ⟨2⟩), (⟨4⟩, ⟨1⟩)]
  loops := [.blocks ⟨1⟩ ⟨5⟩, .blocks ⟨2⟩ ⟨4⟩]

/-- A loop with edges that are listed twice. -/
def doubledEdges : Procedure where
  name := "doubled edges"
  entry := ⟨0⟩
  blocks := [⟨⟨0⟩, [⟨⟨0⟩, 1, "a = new", .create "a"⟩], [⟨1⟩, ⟨1⟩], []⟩,
    ⟨⟨1⟩, [⟨⟨1⟩, 2, "while", .other⟩], [⟨2⟩, ⟨3⟩, ⟨2⟩], [⟨0⟩, ⟨0⟩, ⟨2⟩]⟩,
    ⟨⟨2⟩, [⟨⟨2⟩, 3, "a[i] = x", .write ⟨"a", .expr "i"⟩⟩], [⟨1⟩, ⟨2⟩, ⟨1⟩], [⟨1⟩, ⟨1⟩]⟩,
    ⟨⟨3⟩, [⟨⟨3⟩, 4, "y = a[i]", .read ⟨"a", .expr "i"⟩⟩], [], [⟨1⟩]⟩]
  loopExits := [⟨⟨1⟩, ⟨3⟩⟩]

open Machine in
theorem reentry_nested_sharedBody :
    (∃ p rep m r, sharedBody.build = .ok p ∧ Reaches p {} m ∧ Reenters {} m r ⟨3⟩ ∧ r.header = ⟨1⟩ ∧
      (∃ x m₀ m₁ before first last after,
        Overtaken p {} r.header ⟨3⟩ x m₀ m₁ before first last after m) ∧
      analyze p {} = .ok rep ∧ rep.facts.diagnostics = [.ofFault (.loopReentry ⟨1⟩ ⟨3⟩)]) ∧
    -- and with a sole header
    ∃ rep, analyze doubledEdges {} = .ok rep ∧
      (∀ b : BlockId, b ∈ doubledEdges.blockIds → rep.facts.claimed b = true) ∧
      ∀ d ∈ rep.facts.diagnostics, d.kind ≠ .loopReentry := by
  constructor
  · obtain ⟨p, rep, hb, hrep, hP⟩ := Draft.check_eq_true (d := sharedBody) (s := {})
      (P := fun p rep => checkOk (run p {} 5 (.start p {})) fun m =>
        m.loops = [⟨⟨1⟩, [⟨3⟩, ⟨4⟩], [(⟨1⟩, ⟨5⟩)], none, 1, 0⟩] ∧ m.facts.claimed ⟨3⟩ = true ∧
        rep.facts.diagnostics = [.ofFault (.loopReentry ⟨1⟩ ⟨3⟩)]) (by decide +kernel)
    obtain ⟨m, hrun, hP⟩ := checkOk_eq_true hP
    obtain ⟨hl, hc, hdiag⟩ := of_decide_eq_true hP
    have hm : Reaches p {} m := reaches_of_run .refl hrun
    have hr : Reenters {} m ⟨⟨1⟩, [⟨3⟩, ⟨4⟩], [(⟨1⟩, ⟨5⟩)], none, 1, 0⟩ ⟨3⟩ :=
      ⟨by rw [hl]; rfl, rfl, by decide, hc⟩
    exact ⟨p, rep, m, _, hb, hm, hr, rfl, (reentry_nested p {}).1 m _ _ hm hr, hrep, hdiag⟩
  · have hsole : ∀ h, doubledEdges.isLoopHeader h = true → h = ⟨1⟩ := by
      intro h hh
      have hmem := Procedure.contains_iff.1 (Procedure.contains_of_isLoopHeader hh)
      exact (by decide : ∀ h ∈ doubledEdges.blockIds, doubledEdges.isLoopHeader h = true →
        h = ⟨1⟩) h hmem hh
    obtain ⟨rep, hrep, hP⟩ := checkOk_eq_true (x := analyze doubledEdges {})
      (P := fun rep => ∀ b ∈ doubledEdges.blockIds, rep.facts.claimed b = true) (by decide +kernel)
    exact ⟨rep, hrep, of_decide_eq_true hP, fun d hd => ((reentry_nested doubledEdges {}).2.2.2
      (fun h h' hh hh' => (hsole h hh).trans (hsole h' hh').symm)).2.2 rep d hrep hd⟩

end ArrayFlow
