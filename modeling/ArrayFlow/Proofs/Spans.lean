import ArrayFlow.Proofs.Headers

/-!
# The work on a loop, from its first step to its last

Between the step that opens a loop and the step that ends it, other loops may be opened and ended
inside of it, each of which changes what its own header leaves, and the loop itself may be given up
at any block.

* `Machine.nesting`  : the headers of the loops at work; none of them is there twice, and none comes
  back;
* `Leads.at_work`    : induction on the steps between two states in which a loop is at work;
* `Machine.Opens`, `Machine.Span` : the step that opens a loop, and the work on it to the step that
  ends it;
* `Opens.inside`     : what this work keeps: blocks that were processed before leave what they left,
  and edges back to the header come out of blocks that were processed since;
* `Opens.span`       : a loop that was opened and is not at work any more was ended;
* `Span.latched`     : without other loops inside, the latch is the last such block;
* `loop_touches_header` : so a loop changes only what its header leaves, and how.
-/

namespace ArrayFlow

variable {p : Procedure} {s : Settings}

theorem LoopRun.latch_opened (f : Facts) (header : BlockId) :
    (opened p f header).2.latch = none := by
  have hseed : ∀ (state : Facts × LoopRun) (c : BlockId), (seed p state c).2.latch =
      state.2.latch := by
    intro state c
    unfold seed pushFront leave
    grind
  unfold opened
  generalize p.successors header = cs
  suffices hfold : ∀ state : Facts × LoopRun, (cs.foldl (seed p) state).2.latch =
    state.2.latch from hfold _
  induction cs with
  | nil => exact fun _ => rfl
  | cons c cs ih =>
    intro state
    rw [List.foldl_cons, ih, hseed]

/-- Edges out of one block make it the latch if one of them leads back. -/
theorem LoopRun.latch_absorb {f : Facts} {r : LoopRun} {b : BlockId} {es : List (BlockId × BlockId)}
    (hes : ∀ e ∈ es, e.1 = b) (hback : ∃ e ∈ es, e.2 = r.header) :
    (absorb p f r es).2.latch = some b := by
  have hone : ∀ {es : List (BlockId × BlockId)} {f r}, (∀ e ∈ es, e.1 = b) → r.latch = some b →
      (absorb p f r es).2.latch = some b := by
    intro es f r hes hl
    rcases (absorb_grown (p := p) f r es).latch with heq | ⟨a, ha, heq⟩
    · exact heq.trans hl
    · rw [heq, show a = b from hes _ ha]
  induction es generalizing f r with
  | nil => simp at hback
  | cons e es ih =>
    obtain ⟨hb, hes⟩ := List.forall_mem_cons.1 hes
    show (absorb p (absorbEdge p (f, r) e).1 (absorbEdge p (f, r) e).2 es).2.latch = some b
    by_cases he : e.2 = r.header
    · refine hone hes ?_
      simp [absorbEdge, he, hb]
    · refine ih hes ?_
      rw [show (absorbEdge p (f, r) e).2.header =
        r.header from (absorb_grown (p := p) f r [e]).header]
      simpa [he] using hback

namespace Machine

variable {m m' first last : Machine} {a b h : BlockId} {t : Bindings} {f f₁ : Facts}

/-! ## loops at work -/

/-- The headers of the loops at work, innermost first. -/
def nesting (m : Machine) : List BlockId := m.loops.map (·.header)

theorem mem_nesting : h ∈ m.nesting ↔ ∃ r ∈ m.loops, r.header = h := List.mem_map

theorem Step.nesting (hstep : Step p s m m') :
    (∃ b t f, Enters p s m b t f ∧ p.isLoopHeader b = true ∧ m'.nesting = b :: m.nesting) ∨
      m'.nesting = m.nesting ∨ m'.nesting = m.nesting.tail := by
  rw [Machine.nesting, Machine.nesting, ← List.map_tail]
  exact hstep.headers

theorem Reaches.claimed_of_mem_nesting (hm : Reaches p s m) (hh : h ∈ m.nesting) :
    m.facts.claimed h = true := by
  obtain ⟨r, hr, rfl⟩ := mem_nesting.1 hh
  exact hm.header_claimed r hr

/-- No loop is inside of itself, as its header was processed before. -/
theorem Reaches.nesting_nodup (hm : Reaches p s m) : m.nesting.Nodup := by
  refine hm.invariant (P := fun m => m.nesting.Nodup) (by simp [Machine.nesting, start]) ?_
  intro m m' hm ih hstep
  rcases hstep.nesting with ⟨b, t, f, he, -, heq⟩ | heq | heq
  · rw [heq, List.nodup_cons]
    refine ⟨fun hb => ?_, ih⟩
    have hc := hm.claimed_of_mem_nesting hb
    rw [he.unclaimed] at hc
    cases hc
  · rwa [heq]
  · rw [heq]
    exact ih.tail

/-- A loop that is not at work does not come back, once its header was processed. -/
theorem Step.mem_nesting_of_claimed (hstep : Step p s m m') (hc : m.facts.claimed h = true)
    (hh : h ∈ m'.nesting) :
    h ∈ m.nesting := by
  by_contra hnot
  obtain ⟨r, hr, heq⟩ := mem_nesting.1 hh
  exact hstep.header_ne hc (fun r hr heq => hnot (mem_nesting.2 ⟨r, hr, heq⟩)) r hr heq

/-- The loop that ends is not at work any more, and all others are. -/
theorem Step.nesting_of_ended {r : LoopRun} {outer : List LoopRun} (hstep : Step p s m m')
    (hl : m.loops = r :: outer) (he : Ended s m r f) : m'.nesting = outer.map (·.header) := by
  obtain ⟨f₁, -, -, ⟨rfl, hf⟩ | ⟨o, rest, o', rfl, hg, hl'⟩⟩ := hstep.of_ended hl he
  · simp [Machine.nesting, (follow_eq_ok hf).2.2.1]
  · simp [Machine.nesting, hl', hg.header]

theorem Reaches.not_mem_nesting_of_ended {r : LoopRun} {outer : List LoopRun} (hm : Reaches p s m)
    (hstep : Step p s m m') (hl : m.loops = r :: outer) (he : Ended s m r f) :
    r.header ∉ m'.nesting := by
  have hn := hm.nesting_nodup
  rw [Machine.nesting, hl, List.map_cons, List.nodup_cons] at hn
  rw [hstep.nesting_of_ended hl he]
  exact hn.1

/-- What a processed block leaves is kept, unless it is the header of the loop that ends. -/
theorem Reaches.exposed_kept (hm : Reaches p s m) (hstep : Step p s m m')
    (ha : m.facts.claimed a = true) (hkept : a ∈ m.nesting → a ∈ m'.nesting) :
    m'.facts.exposed[a]? = m.facts.exposed[a]? := by
  refine hstep.exposed_kept ha fun r outer f hl he => ?_
  rintro rfl
  refine hm.not_mem_nesting_of_ended hstep hl he (hkept ?_)
  simp [Machine.nesting, hl]

/-- What holds when a loop is at work and is kept by every step that leaves it at work, holds as
long as it is. -/
theorem Leads.at_work {P : Machine → Prop} (hpath : Leads p s first m) (hfirst : Reaches p s first)
    (hc : first.facts.claimed h = true) (hh : h ∈ m.nesting) (hP : P first)
    (hstep : ∀ m m', Reaches p s m → Leads p s first m → P m → step p s m = .ok m' →
      h ∈ m'.nesting → P m') :
    P m := by
  induction hpath with
  | refl => exact hP
  | @tail m₁ m₂ hpath hnext ih =>
    have hh₁ := (step_cases hnext).mem_nesting_of_claimed (Leads.claimed hpath hc) hh
    exact hstep m₁ m₂ (hfirst.trans hpath) hpath (ih hh₁) hnext hh

/-! ## the span of a loop -/

/-- The step from `before` opens the loop of `h`. -/
structure Opens (p : Procedure) (s : Settings) (h : BlockId) (before first : Machine) : Prop where
  reaches : Reaches p s before
  opens : step p s before = .ok first
  nests : first.nesting = h :: before.nesting

/-- The work on the loop of `h`, from the step that opens it to the step that ends it. -/
structure Span (p : Procedure) (s : Settings) (h : BlockId) (before first last after : Machine) :
    Prop
    extends Opens p s h before first where
  works : Leads p s first last
  stays : last.nesting = h :: before.nesting
  ends : step p s last = .ok after
  leaves : after.nesting = before.nesting

/-- The block was processed between the two states. -/
def Since (first m : Machine) (b : BlockId) : Prop :=
  first.facts.claimed b = false ∧ m.facts.claimed b = true

/-- What the work on the loop of `h` keeps. Loops inside of it have headers that were processed
since, and so were the blocks that these loops are left from; blocks that were processed before
leave what they left. -/
structure Inside (p : Procedure) (h : BlockId) (outer : List BlockId) (first m : Machine) :
    Prop where
  nesting : ∃ inner, m.nesting = inner ++ h :: outer ∧ ∀ x ∈ inner, first.facts.claimed x = false
  exposed : ∀ b, first.facts.claimed b = true → m.facts.exposed[b]? = first.facts.exposed[b]?
  exits : ∀ r ∈ m.loops, first.facts.claimed r.header = false →
    ∀ e ∈ r.exits, first.facts.claimed e.1 = false
  latch : ∀ r ∈ m.loops, r.header = h → ∀ l, r.latch = some l → h ∈ p.successors l ∧ Since first m l

namespace Inside

variable {outer : List BlockId}

theorem unclaimed (hw : Inside p h outer first m) (hb : m.facts.claimed b = false) :
    first.facts.claimed b = false := by
  rw [← Bool.not_eq_true] at hb ⊢
  intro hc
  rw [Facts.claimed_iff, hw.exposed b hc] at hb
  exact hb (Facts.claimed_iff.1 hc)

/-- As long as the loop goes on, only loops inside of it end. -/
theorem ended_inside (hw : Inside p h outer first m) (hm : Reaches p s m) (hstep : Step p s m m')
    (hh : h ∈ m'.nesting) {r : LoopRun} {rest : List LoopRun} (hl : m.loops = r :: rest)
    (he : Ended s m r f) :
    first.facts.claimed r.header = false := by
  obtain ⟨inner, heq, hinner⟩ := hw.nesting
  have hhead : r.header :: rest.map (·.header) = inner ++ h :: outer := by
    rw [← heq, Machine.nesting, hl, List.map_cons]
  cases inner with
  | nil =>
    obtain ⟨rfl, -⟩ := List.cons.inj hhead
    exact absurd hh (hm.not_mem_nesting_of_ended hstep hl he)
  | cons x inner =>
    obtain ⟨rfl, -⟩ := List.cons.inj hhead
    exact hinner _ (List.mem_cons_self ..)

/-- Without other loops inside, no other loop is opened. -/
theorem nesting_eq (hw : Inside p h outer first m) (hm : Reaches p s m)
    (hplain : ∀ b, Since first m b → p.isLoopHeader b = false) : m.nesting = h :: outer := by
  obtain ⟨inner, heq, hinner⟩ := hw.nesting
  cases inner with
  | nil => exact heq
  | cons x inner =>
    have hx : x ∈ m.nesting := by rw [heq]; exact List.mem_cons_self ..
    have hno := hplain x ⟨hinner x (List.mem_cons_self ..), hm.claimed_of_mem_nesting hx⟩
    rw [hm.loop_header x hx] at hno
    cases hno

theorem step_nesting (hw : Inside p h outer first m) (hn : (h :: outer).Nodup)
    (hstep : Step p s m m') (hh : h ∈ m'.nesting) : ∃ inner, m'.nesting = inner ++ h :: outer ∧
      ∀ x ∈ inner, first.facts.claimed x = false := by
  obtain ⟨inner, heq, hinner⟩ := hw.nesting
  rcases hstep.nesting with ⟨b, t, f, he, -, hnew⟩ | hnew | hnew
  · refine ⟨b :: inner, by rw [hnew, heq]; rfl,
      List.forall_mem_cons.2 ⟨hw.unclaimed he.unclaimed, hinner⟩⟩
  · exact ⟨inner, hnew.trans heq, hinner⟩
  · rw [heq] at hnew
    cases inner with
    | nil =>
      rw [hnew] at hh
      exact absurd hh (List.nodup_cons.1 hn).1
    | cons x inner => exact ⟨inner, hnew, fun y hy => hinner y (List.mem_cons_of_mem _ hy)⟩

theorem step_exposed (hw : Inside p h outer first m) (hm : Reaches p s m) (hn : (h :: outer).Nodup)
    (hstep : Step p s m m') (hh : h ∈ m'.nesting) :
    ∀ b, first.facts.claimed b = true → m'.facts.exposed[b]? = first.facts.exposed[b]? := by
  intro b hb
  have hold := hw.exposed b hb
  have hc : m.facts.claimed b = true := by
    rw [Facts.claimed_iff, hold]
    exact Facts.claimed_iff.1 hb
  rw [← hold]
  refine hm.exposed_kept hstep hc fun hmem => ?_
  -- the loops around stay at work, and those inside have other headers
  obtain ⟨inner, heq, hinner⟩ := hw.nesting
  obtain ⟨inner', heq', -⟩ := hw.step_nesting hn hstep hh
  rw [heq, List.mem_append] at hmem
  rw [heq', List.mem_append]
  refine .inr (hmem.resolve_left fun hmem => ?_)
  rw [hinner b hmem] at hb
  cases hb

theorem step_exits (hw : Inside p h outer first m) (hm : Reaches p s m) (hstep : Step p s m m')
    (hh : h ∈ m'.nesting) :
    ∀ r ∈ m'.loops, first.facts.claimed r.header = false →
      ∀ e ∈ r.exits, first.facts.claimed e.1 = false := by
  intro r' hr' hc e he
  have hhead : ∀ {r rest}, m.loops = r :: rest → first.facts.claimed r.header = false →
      ∀ e ∈ r.exits,
      first.facts.claimed e.1 = false := by
    intro r rest hl
    exact hw.exits r (by rw [hl]; exact List.mem_cons_self ..)
  have hbehind : ∀ {b t f}, Enters p s m b t f →
      ∀ e ∈ p.edgesFrom b, first.facts.claimed e.1 = false := by
    intro b t f hb e he
    obtain ⟨c, -, rfl⟩ := List.mem_map.1 he
    exact hw.unclaimed hb.unclaimed
  cases hstep.loop hr' with
  | kept hr => exact hw.exits r' (List.mem_of_mem_tail hr) hc e he
  | opened hb hp hheader =>
    rcases (LoopRun.opened_grown _ _).mem_exits he with he | he
    · simp [LoopRun.start] at he
    · exact hbehind hb e he
  | nested hl => exact hhead hl hc e he
  | looped hl hq hb hp hheader hg =>
    rw [hg.header] at hc
    rcases hg.mem_exits he with he | he
    · exact hhead hl hc e he
    · exact hbehind hb e he
  | deferred hl => exact hhead hl hc e he
  | returned hl hend hclose hg =>
    rw [hg.header] at hc
    rcases hg.mem_exits he with he | he
    · exact hw.exits _ (by rw [hl]; simp) hc e he
    · exact hhead hl (hw.ended_inside hm hstep hh hl hend) e he

theorem step_latch (hw : Inside p h outer first m) (hm : Reaches p s m)
    (hfirst : first.facts.claimed h = true) (hstep : Step p s m m') (hh : h ∈ m'.nesting) :
    ∀ r ∈ m'.loops, r.header = h → ∀ l, r.latch = some l → h ∈ p.successors l ∧
      Since first m' l := by
  intro r' hr' hhead l hl
  have hold : ∀ r ∈ m.loops, r.header = h → r.latch = some l → h ∈ p.successors l ∧
      Since first m' l := by
    intro r hr hhead hl
    obtain ⟨hback, hnew, hc⟩ := hw.latch r hr hhead l hl
    exact ⟨hback, hnew, hstep.claimed_mono hc⟩
  cases hstep.loop hr' with
  | kept hr => exact hold r' (List.mem_of_mem_tail hr) hhead hl
  | @opened b t f f₁ hb hp hheader =>
    -- the header of a new loop was not processed before
    have heq : b = h := (LoopRun.opened_grown (p := p) f₁ b).header.symm.trans hhead
    rw [← heq, hw.unclaimed hb.unclaimed] at hfirst
    cases hfirst
  | @nested r _ _ _ _ _ hl' => exact hold r (by rw [hl']; exact List.mem_cons_self ..) hhead hl
  | @deferred r _ _ _ hl' => exact hold r (by rw [hl']; exact List.mem_cons_self ..) hhead hl
  | @looped r _ _ _ _ _ _ _ _ hl' hq hb hp hheader hg =>
    rcases hg.latch with heq | ⟨a, ha, heq⟩
    · exact hold r (by rw [hl']; exact List.mem_cons_self ..) (hg.header.symm.trans hhead)
        (heq.symm.trans hl)
    · obtain ⟨c, hc, hpair⟩ := List.mem_map.1 ha
      obtain ⟨rfl, rfl⟩ := Prod.mk.inj hpair
      obtain rfl := Option.some.inj (heq.symm.trans hl)
      rw [← hhead, hg.header]
      exact ⟨hc, hw.unclaimed hb.unclaimed, hm.claimed_of_enters hstep hb⟩
  | @returned r _ _ _ _ _ _ hl' hend hclose hg =>
    rcases hg.latch with heq | ⟨a, ha, heq⟩
    · exact hold _ (by rw [hl']; simp) (hg.header.symm.trans hhead) (heq.symm.trans hl)
    · -- the edge back was handed on by a loop inside
      obtain rfl := Option.some.inj (heq.symm.trans hl)
      have hr : r ∈ m.loops := by rw [hl']; exact List.mem_cons_self ..
      obtain ⟨hc, hback⟩ := hm.exits_edges r hr _ ha
      rw [← hhead, hg.header]
      exact ⟨hback, hw.exits r hr (hw.ended_inside hm hstep hh hl' hend) _ ha,
        hstep.claimed_mono hc⟩

end Inside

namespace Opens

variable {before : Machine}

theorem reaches_first (ho : Opens p s h before first) : Reaches p s first :=
  ho.reaches.tail ho.opens

theorem claimed (ho : Opens p s h before first) : first.facts.claimed h = true :=
  ho.reaches_first.claimed_of_mem_nesting (by rw [ho.nests]; exact List.mem_cons_self ..)

theorem nodup (ho : Opens p s h before first) : (h :: before.nesting).Nodup := by
  rw [← ho.nests]
  exact ho.reaches_first.nesting_nodup

theorem latch_first (ho : Opens p s h before first) : ∀ r ∈ first.loops, r.header = h →
    r.latch = none := by
  intro r hr hhead
  have hnew : ∀ {q : LoopRun}, q ∈ before.loops → q.header ≠ h := fun hq heq =>
    (List.nodup_cons.1 ho.nodup).1 (mem_nesting.2 ⟨_, hq, heq⟩)
  cases (step_cases ho.opens).loop hr with
  | kept hr => exact absurd hhead (hnew (List.mem_of_mem_tail hr))
  | opened => exact LoopRun.latch_opened _ _
  | @nested q _ _ _ _ _ hl =>
    exact absurd hhead (hnew (q := q) (by rw [hl]; exact List.mem_cons_self ..))
  | @looped q _ _ _ _ _ _ _ _ hl hq he hp hb hg =>
    exact absurd (hg.header.symm.trans hhead)
      (hnew (q := q) (by rw [hl]; exact List.mem_cons_self ..))
  | @deferred q _ _ _ hl =>
    exact absurd hhead (hnew (q := q) (by rw [hl]; exact List.mem_cons_self ..))
  | returned hl he hc hg => exact absurd (hg.header.symm.trans hhead) (hnew (by rw [hl]; simp))

theorem inside_first (ho : Opens p s h before first) : Inside p h before.nesting first first where
  nesting := ⟨[], ho.nests, by simp⟩
  exposed := fun _ _ => rfl
  exits := by
    intro r hr hc
    rw [ho.reaches_first.header_claimed r hr] at hc
    cases hc
  latch := by
    intro r hr hhead l hl
    rw [ho.latch_first r hr hhead] at hl
    cases hl

theorem inside (ho : Opens p s h before first) (hpath : Leads p s first m) (hh : h ∈ m.nesting) :
    Inside p h before.nesting first m := by
  refine hpath.at_work ho.reaches_first ho.claimed hh ho.inside_first ?_
  intro m m' hm _ hw hnext hh
  have hstep := step_cases hnext
  exact ⟨hw.step_nesting ho.nodup hstep hh, hw.step_exposed hm ho.nodup hstep hh,
    hw.step_exits hm hstep hh, hw.step_latch hm ho.claimed hstep hh⟩

/-- A loop that was opened and is not at work any more was ended. -/
theorem span (ho : Opens p s h before first) (hpath : Leads p s first m) (hh : h ∉ m.nesting) :
    ∃ last after, Span p s h before first last after ∧ Leads p s after m := by
  induction hpath with
  | refl =>
    rw [ho.nests] at hh
    exact absurd (List.mem_cons_self ..) hh
  | @tail m₁ m₂ hpath hnext ih =>
    by_cases hh₁ : h ∈ m₁.nesting
    · -- the loop was the innermost one, as it is the one that the step takes off
      obtain ⟨inner, heq, -⟩ := (ho.inside hpath hh₁).nesting
      rcases (step_cases hnext).nesting with ⟨b, t, f, -, -, hnew⟩ | hnew | hnew
      · exact absurd (hnew ▸ List.mem_cons_of_mem _ hh₁) hh
      · exact absurd (hnew ▸ hh₁) hh
      · rw [heq] at hnew
        cases inner with
        | nil => exact ⟨m₁, m₂, ⟨ho, hpath, heq, hnext, hnew⟩, .refl⟩
        | cons x inner => exact absurd (by rw [hnew]; simp) hh
    · obtain ⟨last, after, hs, hrest⟩ := ih hh₁
      exact ⟨last, after, hs, hrest.tail hnext⟩

end Opens

/-- At the end of the span, the header leaves what the latch leaves, if there is one. Nothing else
changes. -/
theorem Span.closed {before after : Machine} (hs : Span p s h before first last after) :
    ∃ r outer, last.loops = r :: outer ∧ r.header = h ∧ after.facts.claimed = last.facts.claimed ∧
      (r.latch = none ∧ after.facts.exposed = last.facts.exposed ∨
        ∃ l, r.latch = some l ∧ after.facts.exposed[h]? = last.facts.exposed[l]?) := by
  have hm : Reaches p s last := hs.reaches_first.trans hs.works
  have hstep := step_cases hs.ends
  obtain ⟨r, outer, hl, hhead, -⟩ := List.map_eq_cons_iff.1 hs.stays
  have hr : r ∈ last.loops := by rw [hl]; exact List.mem_cons_self ..
  -- the loop ends: otherwise its header would still be among those of the loops at work
  rcases hstep.loop_kept hr with ⟨outer', f, hl', he⟩ | ⟨r', hr', heq, -⟩
  · obtain ⟨f₁, hclose, hcore, -⟩ := hstep.of_ended hl' he
    refine ⟨r, outer, hl, hhead, ?_, ?_⟩
    · rw [Facts.claimed_of_core hcore]
      exact hm.claimed_close hr he hclose
    · rw [Facts.exposed_of_core hcore, ← he.exposed_eq]
      rcases LoopRun.close_eq_ok hclose with ⟨hnone, rfl⟩ | ⟨l, t, hl, ht, rfl⟩
      · exact .inl ⟨hnone, rfl⟩
      · refine .inr ⟨l, hl, ?_⟩
        rw [Facts.getElem?_expose, if_pos hhead, ht]
  · have hmem : h ∈ after.nesting := mem_nesting.2 ⟨r', hr', heq.trans hhead⟩
    rw [hs.leaves] at hmem
    exact absurd hmem (List.nodup_cons.1 hs.nodup).1

/-! ## the last way back -/

/-- Of the blocks that were processed between the two states and lead back to `h`, the last one is
`l`. -/
structure LastBack (p : Procedure) (s : Settings) (h : BlockId) (first m : Machine) (l : BlockId) :
    Prop where
  since : Since first m l
  back : h ∈ p.successors l
  last : ∃ mid t f, Leads p s first mid ∧ Enters p s mid l t f ∧ Leads p s mid m ∧
    ∀ b, Since first m b → h ∈ p.successors b → b ≠ l → mid.facts.claimed b = true

/-- A latch is the last block that leads back to `h`, if there is any. -/
inductive Latched (p : Procedure) (s : Settings) (h : BlockId) (first m : Machine) :
    Option BlockId → Prop
  | none (hno : ∀ b, Since first m b → h ∉ p.successors b) : Latched p s h first m none
  | some {l : BlockId} (hlast : LastBack p s h first m l) : Latched p s h first m (some l)

theorem Reaches.since_step (hm : Reaches p s m) (hstep : Step p s m m') (hb : Since first m' b) :
    Since first m b ∨ ∃ t f, Enters p s m b t f := by
  rcases hm.claimed_step hstep with ⟨c, t, f, he, hc⟩ | ⟨-, hc⟩
  · rcases (hc b).1 hb.2 with rfl | hold
    · exact .inr ⟨t, f, he⟩
    · exact .inl ⟨hb.1, hold⟩
  · exact .inl ⟨hb.1, hc ▸ hb.2⟩

theorem LastBack.of_enters (hm : Reaches p s m) (hpath : Leads p s first m)
    (hnext : step p s m = .ok m') (he : Enters p s m b t f) (hback : h ∈ p.successors b) :
    LastBack p s h first m' b := by
  have hstep := step_cases hnext
  have hsince : Since first m' b :=
    ⟨Leads.unclaimed hpath he.unclaimed, hm.claimed_of_enters hstep he⟩
  refine ⟨hsince, hback, m, t, f, hpath, he, .single hnext, ?_⟩
  intro c hc _ hne
  rcases hm.since_step hstep hc with hc | ⟨t', f', he'⟩
  · exact hc.2
  · exact absurd (he.deterministic he').1.symm hne

theorem Latched.kept {latch : Option BlockId} (hlatched : Latched p s h first m latch)
    (hnext : step p s m = .ok m')
    (hold : ∀ b, Since first m' b → h ∈ p.successors b → Since first m b) :
    Latched p s h first m' latch := by
  cases hlatched with
  | none hno => exact .none fun b hb hback => hno b (hold b hb hback) hback
  | some hlast =>
    obtain ⟨hsince, hback, mid, t, f, hmid, he, hpath, hothers⟩ := hlast
    exact .some ⟨⟨hsince.1, (step_cases hnext).claimed_mono hsince.2⟩, hback, mid, t, f, hmid, he,
      hpath.tail hnext, fun b hb hh => hothers b (hold b hb hh) hh⟩

/-- A block that the loop processes becomes the latch if it leads back; otherwise the latch is as
before. -/
theorem Latched.absorbed {r r' : LoopRun} {f' : Facts}
    (hlatched : Latched p s r.header first m r.latch) (hm : Reaches p s m)
    (hpath : Leads p s first m) (hnext : step p s m = .ok m') (he : Enters p s m b t f)
    (ha : LoopRun.absorb p f₁ r (p.edgesFrom b) = (f', r')) :
    Latched p s r.header first m' r'.latch := by
  have hedges : ∀ e ∈ p.edgesFrom b, e.1 = b := by simp [Procedure.edgesFrom]
  by_cases hback : r.header ∈ p.successors b
  · have hlatch := LoopRun.latch_absorb (p := p) (f := f₁) hedges ⟨(b, r.header),
      List.mem_map_of_mem hback, rfl⟩
    rw [ha] at hlatch
    rw [hlatch]
    exact .some (.of_enters hm hpath hnext he hback)
  · have hlatch : r'.latch = r.latch := by
      rcases (LoopRun.grown_of_absorb ha).latch with heq | ⟨a, hmem, -⟩
      · exact heq
      · obtain ⟨c, hc, hpair⟩ := List.mem_map.1 hmem
        obtain ⟨-, rfl⟩ := Prod.mk.inj hpair
        exact absurd hc hback
    rw [hlatch]
    refine hlatched.kept hnext fun c hc hcb => ?_
    rcases hm.since_step (step_cases hnext) hc with hc | ⟨t', f', he'⟩
    · exact hc
    · rw [(he.deterministic he').1] at hback
      exact absurd hcb hback

/-- A step that neither opens nor ends a loop keeps the latch of the innermost one the last block
that leads back. -/
theorem Latched.step
    (hlatched : ∀ r outer, m.loops = r :: outer → Latched p s r.header first m r.latch)
    (hm : Reaches p s m) (hpath : Leads p s first m) (hnext : step p s m = .ok m')
    (hsame : m'.nesting = m.nesting) :
    ∀ r outer, m'.loops = r :: outer → Latched p s r.header first m' r.latch := by
  intro r' outer' hl'
  have hstep := step_cases hnext
  have hend : ∀ {r : LoopRun} {outer f}, m.loops = r :: outer → ¬ Ended s m r f := by
    intro r outer f hl he
    refine hm.not_mem_nesting_of_ended hstep hl he ?_
    rw [hsame, Machine.nesting, hl]
    exact List.mem_cons_self ..
  cases hstep with
  | walked hl he hp hb hpend hf =>
    rw [(follow_eq_ok hf).2.2.1] at hl'
    cases hl'
  | opened hl => simp [Machine.nesting, hl] at hsame
  | skipped hl =>
    rw [hl] at hl'
    cases hl'
  | pended hl =>
    rw [hl] at hl'
    cases hl'
  | @looped r outer b queue t f f₁ hl hq he hp hb f' r₁ ha =>
    obtain ⟨rfl, -⟩ := List.cons.inj hl'
    rw [(LoopRun.grown_of_absorb ha).header]
    have hold : Latched p s r.header first m r.latch := hlatched r outer hl
    exact Latched.absorbed (r := { r with queue, taken := r.taken + 1, stalled := 0 }) hold hm
      hpath hnext he ha
  | nested hl =>
    have hlen := congrArg List.length hsame
    simp [Machine.nesting, hl] at hlen
  | deferred hl =>
    obtain ⟨rfl, -⟩ := List.cons.inj hl'
    exact (hlatched _ _ hl).kept hnext fun b hb _ => hb
  | closed hl he => exact absurd he (hend hl)
  | returned hl he => exact absurd he (hend hl)
  | finished => exact (hlatched _ _ hl').kept hnext fun b hb _ => hb

/-- Without other loops inside, the latch is the last block that leads back, all through the work on
a loop. -/
theorem Span.latched {before after : Machine} (hs : Span p s h before first last after)
    (hplain : ∀ b, Since first last b → p.isLoopHeader b = false) :
    ∀ r outer, last.loops = r :: outer → Latched p s r.header first last r.latch := by
  refine hs.works.at_work (h := h)
    (P := fun m => (∀ b, Since first m b → p.isLoopHeader b = false) →
      ∀ r outer, m.loops = r :: outer →
      Latched p s r.header first m r.latch) hs.reaches_first hs.claimed
    (by rw [hs.stays]; exact List.mem_cons_self ..) ?_ ?_ hplain
  · intro _ r outer hl
    have hhead : r.header = h := by simpa [Machine.nesting, hl] using congrArg List.head? hs.nests
    rw [hs.latch_first r (by rw [hl]; exact List.mem_cons_self ..) hhead]
    exact .none fun b hb => absurd hb.2 (by simp [hb.1])
  · intro m m' hm hpath ih hnext hh hplain'
    have hplain : ∀ b, Since first m b → p.isLoopHeader b = false := fun b hb =>
      hplain' b ⟨hb.1, (step_cases hnext).claimed_mono hb.2⟩
    have hmem := (step_cases hnext).mem_nesting_of_claimed (Leads.claimed hpath hs.claimed) hh
    have hn := (hs.inside hpath hmem).nesting_eq hm hplain
    have hn' := (hs.inside (hpath.tail hnext) hh).nesting_eq (hm.tail hnext) hplain'
    exact Latched.step (ih hplain) hm hpath hnext (hn'.trans hn.symm)

/-- What the work on a loop does to what blocks leave, whichever loops are opened and ended in
between, and also if the loop is given up. Blocks other than its header that were processed before
leave what they left. The header leaves what it left or what some block leaves that was processed
since and leads back to it. If no loop header was among the blocks processed since, and some of them
lead back, this is the last one that does. -/
theorem loop_touches_header {before after : Machine} (hs : Span p s h before first last after) :
    (∀ b t, b ≠ h → first.facts.exposed[b]? = some t → after.facts.exposed[b]? = some t) ∧
    (after.facts.exposed[h]? = first.facts.exposed[h]? ∨
      ∃ l, Since first after l ∧ h ∈ p.successors l ∧
        after.facts.exposed[h]? = after.facts.exposed[l]?) ∧
    ((∀ b, Since first after b → p.isLoopHeader b = false) →
    (∃ b, Since first after b ∧ h ∈ p.successors b) →
      ∃ l, LastBack p s h first after l ∧ after.facts.exposed[h]? = after.facts.exposed[l]?) := by
  have hm : Reaches p s last := hs.reaches_first.trans hs.works
  have hin := hs.inside hs.works (by rw [hs.stays]; exact List.mem_cons_self ..)
  obtain ⟨r, outer, hl, hhead, hclaimed, hclose⟩ := hs.closed
  have hr : r ∈ last.loops := by rw [hl]; exact List.mem_cons_self ..
  -- the last step leaves all blocks but the header as they are
  have hkept : ∀ b, b ≠ h → last.facts.claimed b = true →
      after.facts.exposed[b]? = last.facts.exposed[b]? := by
    intro b hne hc
    refine hm.exposed_kept (step_cases hs.ends) hc fun hb => ?_
    rw [hs.stays] at hb
    rw [hs.leaves]
    exact (List.mem_cons.1 hb).resolve_left hne
  have hsince : ∀ b, Since first after b ↔ Since first last b :=
    fun b => by rw [Since, Since, hclaimed]
  have hlatch : ∀ l, Since first last l → after.facts.exposed[l]? = last.facts.exposed[l]? := by
    refine fun l hl => hkept l ?_ hl.2
    rintro rfl
    exact absurd hs.claimed (by simp [hl.1])
  refine ⟨fun b t hne ht => ?_, ?_, fun hplain hback => ?_⟩
  · have hc : first.facts.claimed b = true := Facts.claimed_iff.2 ⟨t, ht⟩
    rw [hkept b hne (Leads.claimed hs.works hc), hin.exposed b hc, ht]
  · rcases hclose with ⟨-, heq⟩ | ⟨l, hlast, heq⟩
    · rw [heq]
      exact .inl (hin.exposed h hs.claimed)
    · obtain ⟨hback, hl⟩ := hin.latch r hr hhead l hlast
      exact .inr ⟨l, (hsince l).2 hl, hback, heq.trans (hlatch l hl).symm⟩
  · have hlatched := hs.latched (fun b hb => hplain b ((hsince b).2 hb)) r outer hl
    rw [hhead] at hlatched
    rcases hclose with ⟨hnone, -⟩ | ⟨l, hsome, heq⟩
    · rw [hnone] at hlatched
      cases hlatched with
      | none hno =>
        obtain ⟨b, hb, hmem⟩ := hback
        exact absurd hmem (hno b ((hsince b).1 hb))
    · rw [hsome] at hlatched
      cases hlatched with
      | some hlast =>
        obtain ⟨hl, hmem, mid, t, f, hmid, he, hpath, hothers⟩ := hlast
        refine ⟨l, ⟨(hsince l).2 hl, hmem, mid, t, f, hmid, he, hpath.tail hs.ends, fun b hb => ?_⟩,
          heq.trans (hlatch l hl).symm⟩
        exact hothers b ((hsince b).1 hb)

end Machine

/-- A loop whose body has two arms, both of which write and lead back to the header. -/
def twoLatches : Draft where
  name := "two latches"
  blocks := [(⟨0⟩, [⟨⟨0⟩, 1, "a = new", .create "a"⟩]), (⟨1⟩, [⟨⟨1⟩, 2, "while", .other⟩]),
    (⟨2⟩, [⟨⟨2⟩, 3, "if", .other⟩]), (⟨3⟩, [⟨⟨3⟩, 4, "a[i] = x", .write ⟨"a", .expr "i"⟩⟩]),
    (⟨4⟩, [⟨⟨4⟩, 5, "a[j] = x", .write ⟨"a", .expr "j"⟩⟩]),
    (⟨5⟩, [⟨⟨5⟩, 6, "y = a[i]", .read ⟨"a", .expr "i"⟩⟩])]
  edges := [(⟨0⟩, ⟨1⟩), (⟨1⟩, ⟨2⟩), (⟨1⟩, ⟨5⟩), (⟨2⟩, ⟨3⟩), (⟨2⟩, ⟨4⟩), (⟨3⟩, ⟨1⟩), (⟨4⟩, ⟨1⟩)]
  loops := [.blocks ⟨1⟩ ⟨5⟩]

open Machine in
theorem loop_touches_header_twoLatches :
    ∃ p before first last after, twoLatches.build = .ok p ∧ Span p {} ⟨1⟩ before first last after ∧
      (first.facts.exposed.table ⟨1⟩)["a"]?.map Version.leaves = some [(⟨0⟩, ⟨0⟩)] ∧
      Since first after ⟨3⟩ ∧ ⟨1⟩ ∈ p.successors ⟨3⟩ ∧ Since first after ⟨4⟩ ∧
      ⟨1⟩ ∈ p.successors ⟨4⟩ ∧
      (∃ l, LastBack p {} ⟨1⟩ first after l ∧ after.facts.exposed[(⟨1⟩ : BlockId)]? =
        after.facts.exposed[l]?) ∧
      (after.facts.exposed.table ⟨1⟩)["a"]?.map Version.leaves = some [(⟨4⟩, ⟨4⟩)] ∧
      after.facts.exposed[(⟨0⟩ : BlockId)]? = first.facts.exposed[(⟨0⟩ : BlockId)]? := by
  obtain ⟨p, r, hb, -, hP⟩ := Draft.check_eq_true (d := twoLatches) (s := {})
    (P := fun p _ => checkOk (run p {} 1 (.start p {})) fun before =>
        checkOk (step p {} before) fun first =>
      checkOk (run p {} 3 first) fun last => checkOk (step p {} last) fun after =>
        before.nesting = [] ∧ first.nesting = [⟨1⟩] ∧ last.nesting = [⟨1⟩] ∧ after.nesting = [] ∧
        (first.facts.exposed.table ⟨1⟩)["a"]?.map Version.leaves = some [(⟨0⟩, ⟨0⟩)] ∧
        first.facts.claimed ⟨0⟩ = true ∧ first.facts.claimed ⟨1⟩ = true ∧
        (first.facts.claimed ⟨3⟩ = false ∧ after.facts.claimed ⟨3⟩ = true) ∧
        ⟨1⟩ ∈ p.successors ⟨3⟩ ∧
        (first.facts.claimed ⟨4⟩ = false ∧ after.facts.claimed ⟨4⟩ = true) ∧
        ⟨1⟩ ∈ p.successors ⟨4⟩ ∧ (after.facts.exposed.table ⟨1⟩)["a"]?.map Version.leaves =
        some [(⟨4⟩, ⟨4⟩)]) (by decide +kernel)
  obtain ⟨before, hbefore, hP⟩ := checkOk_eq_true hP
  obtain ⟨first, hfirst, hP⟩ := checkOk_eq_true hP
  obtain ⟨last, hlast, hP⟩ := checkOk_eq_true hP
  obtain ⟨after, hafter, hP⟩ := checkOk_eq_true hP
  obtain ⟨hn, hn₁, hn₂, hn₃, hold, hzero, hone, hthree, hback, hfour, hback', hnew⟩ :=
    of_decide_eq_true hP
  have hs : Span p {} ⟨1⟩ before first last after :=
    ⟨⟨leads_of_run hbefore, hfirst, by rw [hn, hn₁]⟩, leads_of_run hlast, by rw [hn, hn₂], hafter,
      hn₃.trans hn.symm⟩
  obtain ⟨hkept, -, hlatch⟩ := loop_touches_header hs
  have hplain : ∀ b, Since first after b → p.isLoopHeader b = false := by
    intro b hsince
    have hloops : twoLatches.loops = [((⟨1⟩ : BlockId), (⟨5⟩ : BlockId))].map fun e =>
      .blocks e.1 e.2 := rfl
    rw [← Bool.not_eq_true, Draft.isLoopHeader_build hb hloops]
    rintro ⟨c, hc⟩
    obtain ⟨rfl, -⟩ := Prod.mk.inj (List.mem_singleton.1 hc)
    exact absurd hone (by simp [hsince.1])
  obtain ⟨t, ht⟩ := Facts.claimed_iff.1 hzero
  exact ⟨p, before, first, last, after, hb, hs, hold, hthree, hback, hfour, hback',
    hlatch hplain ⟨⟨3⟩, hthree, hback⟩, hnew, (hkept ⟨0⟩ t (by decide) ht).trans ht.symm⟩

end ArrayFlow
