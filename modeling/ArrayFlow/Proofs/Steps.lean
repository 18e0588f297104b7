import ArrayFlow.Proofs.Tables

/-!
# The steps of the analysis

What a step can do is said once, here; statements on whole runs follow from it by induction.

* `LoopRun.Grown`     : a loop after it took up some edges;
* `Machine.Enters`    : the next step processes a block, entered with some bindings and facts;
* `Machine.Ended`     : the next step ends the innermost loop;
* `Machine.Step`      : all that a step can do; `step_cases` says that there is nothing else;
* `Step.change`, `Step.visits_cases`, `Step.loop` : the same, part by part, for statements about one
  part only.
-/

namespace ArrayFlow

variable {p : Procedure} {s : Settings}

/-! ## edges taken up by a loop -/

namespace LoopRun

/-- The loop `r` with the facts `f` becomes `r'` with `f'` by taking up some edges: those for which
`isExit` holds are set aside, and the blocks that others lead to wait in the queue, unless they are
processed. -/
structure Grown (p : Procedure) (isExit : BlockId → BlockId × BlockId → Bool)
    (f : Facts) (r : LoopRun) (edges : List (BlockId × BlockId)) (f' : Facts) (r' : LoopRun) :
    Prop where
  core : f'.core = f.core
  header : r'.header = r.header
  taken : r'.taken = r.taken
  stalled : r'.stalled = r.stalled
  exits : r'.exits = r.exits ++ edges.filter (isExit r.header)
  queue : ∀ c, c ∈ r'.queue ↔ c ∈ r.queue ∨
    (∃ e ∈ edges, e.2 = c) ∧ c ≠ r.header ∧ p.isLoopExit r.header c = false ∧ f.claimed c = false
  nodup : r.queue.Nodup → r'.queue.Nodup
  latch : r'.latch = r.latch ∨ ∃ a, (a, r.header) ∈ edges ∧ r'.latch = some a

namespace Grown

variable {isExit : BlockId → BlockId × BlockId → Bool} {f f' f'' : Facts} {r r' r'' : LoopRun}
  {es es' : List (BlockId × BlockId)}

theorem refl (f : Facts) (r : LoopRun) : Grown p isExit f r [] f r where
  core := rfl
  header := rfl
  taken := rfl
  stalled := rfl
  exits := by simp
  queue := by simp
  nodup := id
  latch := .inl rfl

theorem trans (h : Grown p isExit f r es f' r') (h' : Grown p isExit f' r' es' f'' r'') :
    Grown p isExit f r (es ++ es') f'' r'' where
  core := h'.core.trans h.core
  header := h'.header.trans h.header
  taken := h'.taken.trans h.taken
  stalled := h'.stalled.trans h.stalled
  exits := by rw [h'.exits, h.exits, h.header, List.filter_append, List.append_assoc]
  queue c := by
    rw [h'.queue, h.queue, h.header, Facts.claimed_of_core h.core]
    simp only [List.mem_append]
    grind
  nodup hn := h'.nodup (h.nodup hn)
  latch := by
    rcases h'.latch with he | ⟨a, ha, he⟩
    · rcases h.latch with hl | ⟨a, ha, hl⟩
      · exact .inl (he.trans hl)
      · exact .inr ⟨a, List.mem_append_left _ ha, he.trans hl⟩
    · rw [h.header] at ha
      exact .inr ⟨a, List.mem_append_right _ ha, he⟩

theorem mem_exits (h : Grown p isExit f r es f' r') {e : BlockId × BlockId} (he : e ∈ r'.exits) :
    e ∈ r.exits ∨ e ∈ es := by
  rw [h.exits, List.mem_append] at he
  exact he.imp_right fun he => List.mem_of_mem_filter he

theorem foldl {g : Facts × LoopRun → BlockId × BlockId → Facts × LoopRun} {header : BlockId}
    {es : List (BlockId × BlockId)}
    (hg : ∀ f r e, e ∈ es → r.header = header →
      Grown p isExit f r [e] (g (f, r) e).1 (g (f, r) e).2) (f : Facts)
    (r : LoopRun) (hr : r.header = header) :
    Grown p isExit f r es (es.foldl g (f, r)).1 (es.foldl g (f, r)).2 := by
  induction es generalizing f r with
  | nil => exact refl f r
  | cons e es ih =>
    have h1 := hg f r e (by simp) hr
    have h2 := ih (fun f r e' he' => hg f r e' (by simp [he'])) (g (f, r) e).1 (g (f, r) e).2
      (h1.header.trans hr)
    exact h1.trans h2

theorem queued {a c : BlockId} {queue : List BlockId} (hcore : f'.core = f.core)
    (hexit : isExit r.header (a, c) = false) (hne : c ≠ r.header)
    (hx : p.isLoopExit r.header c = false) (hc : f.claimed c = false)
    (hqueue : ∀ d, d ∈ queue ↔ d ∈ r.queue ∨ d = c) (hn : r.queue.Nodup → queue.Nodup) :
    Grown p isExit f r [(a, c)] f' { r with queue := queue } where
  core := hcore
  header := rfl
  taken := rfl
  stalled := rfl
  exits := by simp [hexit]
  queue d := by
    simp only [hqueue, List.mem_singleton, exists_eq_left]
    grind
  nodup := hn
  latch := .inl rfl

end Grown

theorem pushBack_eq (r : LoopRun) (b : BlockId) :
    ∃ queue, r.pushBack b = { r with queue := queue } ∧
    (∀ c, c ∈ queue ↔ c ∈ r.queue ∨ c = b) ∧ (r.queue.Nodup → queue.Nodup) := by
  unfold pushBack
  split
  · rename_i hb
    exact ⟨r.queue, rfl, fun c => (or_iff_left_of_imp fun h => h ▸ hb).symm, id⟩
  · rename_i hb
    exact ⟨r.queue ++ [b], rfl, by simp,
      fun h => List.Nodup.append h (List.nodup_singleton b) (by simpa using hb)⟩

theorem pushFront_eq (r : LoopRun) (b : BlockId) :
    ∃ queue, r.pushFront b = { r with queue := queue } ∧
    (∀ c, c ∈ queue ↔ c ∈ r.queue ∨ c = b) ∧ (r.queue.Nodup → queue.Nodup) := by
  unfold pushFront
  split
  · rename_i hb
    exact ⟨r.queue, rfl, fun c => (or_iff_left_of_imp fun h => h ▸ hb).symm, id⟩
  · rename_i hb
    exact ⟨b :: r.queue, rfl, by simp [or_comm], fun h => List.nodup_cons.2 ⟨hb, h⟩⟩

/-- Inside a loop, an edge to the header is no exit whatever was declared. -/
def leaves (p : Procedure) (header : BlockId) (e : BlockId × BlockId) : Bool :=
  e.2 != header && p.isLoopExit header e.2

theorem absorb_grown (f : Facts) (r : LoopRun) (edges : List (BlockId × BlockId)) :
    Grown p (leaves p) f r edges (absorb p f r edges).1 (absorb p f r edges).2 := by
  refine Grown.foldl (fun f r e _ _ => ?_) f r rfl
  obtain ⟨a, c⟩ := e
  unfold absorbEdge
  by_cases hc : c = r.header
  · simp only [hc, if_true]
    exact ⟨rfl, rfl, rfl, rfl, by simp [leaves], by simp, id, .inr ⟨a, by simp, rfl⟩⟩
  · by_cases hx : p.isLoopExit r.header c = true
    · simp only [hc, hx, if_false, if_true]
      exact ⟨rfl, rfl, rfl, rfl, by simp [leaves, leave, hc, hx], by simp [leave, hx], id, .inl rfl⟩
    · by_cases hf : f.claimed c = true
      · simp only [hc, hx, hf, if_false, if_true, Bool.false_eq_true]
        exact ⟨rfl, rfl, rfl, rfl, by simp [leaves, hx], by simp [hf], id, .inl rfl⟩
      · obtain ⟨queue, heq, hqueue, hn⟩ := pushBack_eq r c
        simp only [hc, hx, hf, if_false, Bool.false_eq_true, heq]
        exact .queued rfl (by simp [leaves, hx]) hc (by simpa using hx)
          (by simpa using hf) hqueue hn

theorem grown_of_absorb {f f' : Facts} {r r' : LoopRun} {edges : List (BlockId × BlockId)}
    (h : absorb p f r edges = (f', r')) : Grown p (leaves p) f r edges f' r' := by
  have hg := absorb_grown (p := p) f r edges
  rwa [h] at hg

theorem seed_grown (f : Facts) (r : LoopRun) (c : BlockId) :
    Grown p (fun h e => p.isLoopExit h e.2) f r [(r.header, c)] (seed p (f, r) c).1
      (seed p (f, r) c).2 := by
  unfold seed
  by_cases hx : p.isLoopExit r.header c = true
  · simp only [hx, if_true]
    exact ⟨rfl, rfl, rfl, rfl, by simp [leave, hx], by simp [leave, hx], id, .inl rfl⟩
  · by_cases hc : c = r.header
    · subst hc
      simp only [hx, if_false, if_true, Bool.false_eq_true]
      exact ⟨rfl, rfl, rfl, rfl, by simp [hx], by simp, id, .inl rfl⟩
    · by_cases hf : f.claimed c = true
      · simp only [hx, hc, hf, if_false, if_true, Bool.false_eq_true]
        exact ⟨rfl, rfl, rfl, rfl, by simp [hx], by simp [hf], id, .inl rfl⟩
      · obtain ⟨queue, heq, hqueue, hn⟩ := pushFront_eq r c
        simp only [hx, hc, hf, if_false, Bool.false_eq_true, heq]
        exact .queued rfl (by simpa using hx) hc (by simpa using hx) (by simpa using hf) hqueue hn

theorem opened_eq_foldl (f : Facts) (header : BlockId) :
    opened p f header = (p.edgesFrom header).foldl (fun state e => seed p state e.2) (f,
      start header) := by
  simp only [opened, Procedure.edgesFrom, List.foldl_map]

theorem opened_grown (f : Facts) (header : BlockId) :
    Grown p (fun h e => p.isLoopExit h e.2) f (start header) (p.edgesFrom header)
      (opened p f header).1
      (opened p f header).2 := by
  rw [opened_eq_foldl]
  refine Grown.foldl (fun f r e he hr => ?_) f (start header) (rfl : _ = header)
  obtain ⟨c, -, rfl⟩ := List.mem_map.1 he
  rw [← hr]
  exact seed_grown f r c

/-- A block of a loop is entered without bindings, or with what some of its predecessors leave. -/
theorem entry_eq_some {f f' : Facts} {header b : BlockId} {t : Bindings}
    (h : entry p s f header b = .ok (some (t, f'))) :
    (t = ∅ ∧ f' = f ∧ (p.predecessors b = [] ∨ ∃ a, p.predecessors b = [a] ∧
      p.isLoopExit header a = true)) ∨
      ∃ preds, preds ≠ [] ∧ preds.Sublist (p.predecessors b) ∧
        Merge.predecessors s f b (p.headLine b) preds = .ok (t, f') := by
  unfold entry at h
  split at h
  · rename_i hp
    cases h
    exact .inl ⟨rfl, rfl, .inl hp⟩
  · rename_i a hp
    split at h
    · rename_i hx
      cases h
      exact .inl ⟨rfl, rfl, .inr ⟨a, hp, hx⟩⟩
    · simp only [bind_eq_ok, pure_eq_ok, Option.some.injEq, Prod.mk.injEq] at h
      obtain ⟨u, hu, rfl, rfl⟩ := h
      refine .inr ⟨[a], by simp, by simp [hp], ?_⟩
      simp [Merge.predecessors, hu, bind, Except.bind, pure, Except.pure]
  · rename_i hp
    dsimp only at h
    rw [← hp] at h
    split at h
    · split at h
      · cases h
      · rename_i hne
        simp only [bind_eq_ok, pure_eq_ok, Option.some.injEq] at h
        obtain ⟨x, hx, rfl⟩ := h
        exact .inr ⟨_, hne, Exposed.readyOf_sublist _, hx⟩
    · split at h
      · simp only [bind_eq_ok, pure_eq_ok, Option.some.injEq] at h
        obtain ⟨x, hx, rfl⟩ := h
        exact .inr ⟨_, by simp [hp], List.Sublist.refl _, hx⟩
      · cases h

/-- Behind a loop the header leaves what its last latch leaves, and nothing else changes. -/
theorem close_eq_ok {f f' : Facts} {r : LoopRun} (h : close f r = .ok f') :
    (r.latch = none ∧ f' = f) ∨
      ∃ l t, r.latch = some l ∧ f.exposed[l]? = some t ∧ f' = f.expose r.header t := by
  unfold close at h
  split at h
  · rename_i l hl
    simp only [bind_eq_ok, pure_eq_ok, Exposed.get_eq_ok] at h
    obtain ⟨t, ht, rfl⟩ := h
    exact .inr ⟨l, t, hl, ht, rfl⟩
  · rename_i hl
    cases h
    exact .inl ⟨hl, rfl⟩

end LoopRun

namespace Machine

/-! ## edges followed by the walk -/

theorem follow_cons (m : Machine) (e : BlockId × BlockId) (es : List (BlockId × BlockId)) :
    follow p m (e :: es) = follow p m es >>= fun m' => followEdge p m' e := by
  simp [follow, List.foldlM_append]

/-- The walk goes on to the targets that are not processed, the first one first, with what their
sources leave. -/
theorem follow_eq_ok {m m' : Machine} {es : List (BlockId × BlockId)} (h : follow p m es = .ok m') :
    m'.facts.core = m.facts.core ∧ m'.pending = m.pending ∧ m'.loops = m.loops ∧
      (∀ e ∈ es, m.facts.claimed e.2 = false → m.facts.claimed e.1 = true) ∧
      m'.visits = (es.filter fun e => !m.facts.claimed e.2).map
        (fun e => (e.2, m.facts.exposed.table e.1)) ++
        m.visits := by
  induction es generalizing m' with
  | nil =>
    cases h
    simp
  | cons e es ih =>
    rw [follow_cons, bind_eq_ok] at h
    obtain ⟨m₁, h₁, h⟩ := h
    obtain ⟨hcore, hpend, hloops, hsrc, hvis⟩ := ih h₁
    obtain ⟨a, c⟩ := e
    have hcl := congrFun (Facts.claimed_of_core hcore) c
    unfold followEdge at h
    dsimp only at h
    by_cases hc : m.facts.claimed c = true
    · rw [if_pos (hcl.trans hc)] at h
      cases h
      refine ⟨hcore, hpend, hloops, ?_, ?_⟩
      · intro e he hne
        rcases List.mem_cons.1 he with rfl | he
        · simp [hc] at hne
        · exact hsrc e he hne
      · simpa [hc] using hvis
    · rw [if_neg (by rw [hcl]; exact hc)] at h
      simp only [bind_eq_ok, pure_eq_ok, Exposed.get_eq_ok, Facts.exposed_of_core hcore] at h
      obtain ⟨t, ht, rfl⟩ := h
      refine ⟨hcore, hpend, hloops, ?_, ?_⟩
      · intro e he hne
        rcases List.mem_cons.1 he with rfl | he
        · exact Facts.claimed_iff.2 ⟨t, ht⟩
        · exact hsrc e he hne
      · simp [hc, hvis, Exposed.table_eq ht]

theorem follow_isOk {m : Machine} {es : List (BlockId × BlockId)}
    (h : ∀ e ∈ es, m.facts.claimed e.1 = true) :
    ∃ m', follow p m es = .ok m' := by
  induction es with
  | nil => exact ⟨m, rfl⟩
  | cons e es ih =>
    obtain ⟨m₁, h₁⟩ := ih fun e' he' => h e' (by simp [he'])
    obtain ⟨hcore, -, -, -, -⟩ := follow_eq_ok h₁
    obtain ⟨t, ht⟩ := Facts.claimed_iff.1 (h e (by simp))
    rw [follow_cons, h₁]
    simp only [bind, Except.bind, followEdge]
    split
    · exact ⟨_, rfl⟩
    · rw [Exposed.get_eq_ok.2 (by rw [Facts.exposed_of_core hcore]; exact ht)]
      exact ⟨_, rfl⟩

/-! ## what a step can do -/

/-- The next step processes the block `b`, which is entered with the bindings `t` and the facts
`f`. -/
inductive Enters (p : Procedure) (s : Settings) (m : Machine) (b : BlockId) :
    Bindings → Facts → Prop
  /-- The walk comes to a block and goes on with what it brings. -/
  | brought {t : Bindings} {visits : List (BlockId × Bindings)} (hl : m.loops = [])
      (hv : m.visits = (b, t) :: visits) (hc : m.facts.claimed b = false)
      (hp : (p.predecessors b).length < 2 ∨
        p.isLoopHeader b = true ∧ (m.facts.exposed.readyOf (p.predecessors b)).length < 2) :
      Enters p s m b t m.facts
  /-- The walk comes to a loop header that several predecessors were processed of. -/
  | header {t₀ t : Bindings} {f : Facts} {visits : List (BlockId × Bindings)} (hl : m.loops = [])
      (hv : m.visits = (b, t₀) :: visits) (hc : m.facts.claimed b = false)
      (hb : p.isLoopHeader b = true) (hr : 2 ≤ (m.facts.exposed.readyOf (p.predecessors b)).length)
      (hm : Merge.predecessors s m.facts b (p.headLine b)
      (m.facts.exposed.readyOf (p.predecessors b)) = .ok (t, f)) :
      Enters p s m b t f
  /-- The walk comes to a merge that all predecessors were processed of. -/
  | merge {t₀ t : Bindings} {f : Facts} {visits : List (BlockId × Bindings)} (hl : m.loops = [])
      (hv : m.visits = (b, t₀) :: visits) (hc : m.facts.claimed b = false)
      (hb : p.isLoopHeader b = false) (hp : 2 ≤ (p.predecessors b).length)
      (hr : m.facts.exposed.allReady (p.predecessors b) = true)
      (hm : Merge.predecessors s m.facts b (p.headLine b) (p.predecessors b) = .ok (t, f)) :
      Enters p s m b t f
  /-- The walk has come to its end, and a pending merge makes do with some predecessors. -/
  | settled {t : Bindings} {f : Facts} (hl : m.loops = []) (hv : m.visits = [])
      (hr : m.resolvable? p = some b)
      (hm : Merge.predecessors s m.facts b (p.headLine b)
      (m.facts.exposed.readyOf (p.predecessors b)) = .ok (t, f)) :
      Enters p s m b t f
  /-- The innermost loop takes a block from its queue. -/
  | looped {r : LoopRun} {outer : List LoopRun} {queue : List BlockId} {t : Bindings} {f : Facts}
      (hl : m.loops = r :: outer) (hq : r.queue = b :: queue) (ht : r.taken < s.maxIterations)
      (hc : m.facts.claimed b = false)
      (hm : LoopRun.entry p s m.facts r.header b = .ok (some (t, f))) :
      Enters p s m b t f

/-- The next step ends the innermost loop `r`, which leaves the facts `f`: its queue is empty, or it
is given up. -/
inductive Ended (s : Settings) (m : Machine) (r : LoopRun) : Facts → Prop
  | drained (hq : r.queue = []) : Ended s m r m.facts
  | limit {b : BlockId} {queue : List BlockId} (hq : r.queue = b :: queue)
      (ht : s.maxIterations ≤ r.taken) :
      Ended s m r (m.facts.report (.ofFault (.loopLimit r.header s.maxIterations)))
  | reentry {b : BlockId} {queue : List BlockId} (hq : r.queue = b :: queue)
      (ht : r.taken < s.maxIterations) (hc : m.facts.claimed b = true) :
      Ended s m r (m.facts.report (.ofFault (.loopReentry r.header b)))

/-- All that a step can do. -/
inductive Step (p : Procedure) (s : Settings) (m : Machine) : Machine → Prop
  /-- The walk processes a block and goes on behind it. -/
  | walked {b : BlockId} {t : Bindings} {f f₁ : Facts} {pending : Std.ExtTreeSet BlockId}
      {m' : Machine} (hl : m.loops = []) (he : Enters p s m b t f)
      (hp : Transfer.process s b p t f = .ok f₁) (hb : p.isLoopHeader b = false)
      (hpend : pending = m.pending ∨ pending = m.pending.erase b)
      (hf : follow p ⟨f₁, pending, m.visits.tail, []⟩ (p.edgesFrom b) = .ok m') : Step p s m m'
  /-- The walk processes a loop header and opens its loop. -/
  | opened {b : BlockId} {t : Bindings} {f f₁ : Facts} {pending : Std.ExtTreeSet BlockId}
      (hl : m.loops = []) (he : Enters p s m b t f) (hp : Transfer.process s b p t f = .ok f₁)
      (hb : p.isLoopHeader b = true) (hpend : pending = m.pending ∨ pending = m.pending.erase b) :
      Step p s m ⟨(LoopRun.opened p f₁ b).1, pending, m.visits.tail, [(LoopRun.opened p f₁ b).2]⟩
  /-- The walk comes to a block that was processed. -/
  | skipped {b : BlockId} {t : Bindings} {visits : List (BlockId × Bindings)} (hl : m.loops = [])
      (hv : m.visits = (b, t) :: visits) (hc : m.facts.claimed b = true) :
      Step p s m { m with visits := visits }
  /-- The walk comes to a merge that has to wait. -/
  | pended {b : BlockId} {t : Bindings} {visits : List (BlockId × Bindings)} (hl : m.loops = [])
      (hv : m.visits = (b, t) :: visits) (hc : m.facts.claimed b = false)
        (hp : 2 ≤ (p.predecessors b).length)
      (hb : p.isLoopHeader b = false) (hr : m.facts.exposed.allReady (p.predecessors b) = false) :
      Step p s m { m with visits := visits, pending := m.pending.insert b }
  /-- The innermost loop processes a block. -/
  | looped {r : LoopRun} {outer : List LoopRun} {b : BlockId} {queue : List BlockId} {t : Bindings}
      {f f₁ : Facts}
      (hl : m.loops = r :: outer) (hq : r.queue = b :: queue) (he : Enters p s m b t f)
      (hp : Transfer.process s b p t f = .ok f₁) (hb : p.isLoopHeader b = false) {f' : Facts}
        {r' : LoopRun}
      (ha : LoopRun.absorb p f₁ { r with queue := queue, taken := r.taken + 1, stalled :=
        0 } (p.edgesFrom b) = (f', r')) :
      Step p s m ⟨f', m.pending.erase b, m.visits, r' :: outer⟩
  /-- The innermost loop processes a loop header and opens its loop. -/
  | nested {r : LoopRun} {outer : List LoopRun} {b : BlockId} {queue : List BlockId} {t : Bindings}
      {f f₁ : Facts}
      (hl : m.loops = r :: outer) (hq : r.queue = b :: queue) (he : Enters p s m b t f)
      (hp : Transfer.process s b p t f = .ok f₁) (hb : p.isLoopHeader b = true) :
      Step p s m ⟨(LoopRun.opened p f₁ b).1, m.pending.erase b, m.visits,
        (LoopRun.opened p f₁ b).2 :: { r with queue := queue, taken := r.taken + 1, stalled := 0 } :: outer⟩
  /-- The innermost loop puts a merge back. -/
  | deferred {r : LoopRun} {outer : List LoopRun} {b : BlockId} {queue : List BlockId}
      (hl : m.loops = r :: outer)
      (hq : r.queue = b :: queue) (ht : r.taken < s.maxIterations) (hc : m.facts.claimed b = false)
      (hm : LoopRun.entry p s m.facts r.header b = .ok none) (hs : r.stalled < queue.length) :
      Step p s m { m with
        loops := { r with queue := queue ++ [b], taken := r.taken + 1, stalled :=
        r.stalled + 1 } :: outer }
  /-- The only loop at work ends, and the walk goes on. -/
  | closed {r : LoopRun} {f f₁ : Facts} {m' : Machine} (hl : m.loops = [r]) (he : Ended s m r f)
      (hc : LoopRun.close f r = .ok f₁) (hf : follow p ⟨f₁, m.pending, m.visits, []⟩ r.exits =
        .ok m') : Step p s m m'
  /-- The innermost loop ends, and the loop around it goes on. -/
  | returned {r o : LoopRun} {rest : List LoopRun} {f f₁ : Facts} (hl : m.loops = r :: o :: rest)
      (he : Ended s m r f) (hc : LoopRun.close f r = .ok f₁) {f' : Facts} {o' : LoopRun}
      (ha : LoopRun.absorb p f₁ o r.exits = (f', o')) :
        Step p s m ⟨f', m.pending, m.visits, o' :: rest⟩
  /-- There is nothing left to do. -/
  | finished (h : m.finished p = true) : Step p s m m

/-! ### there is nothing else -/

variable {m m' : Machine} {b : BlockId} {t : Bindings} {f f₁ : Facts}

/-- Behind a block that the walk processed. -/
theorem enter_eq_ok {pending : Std.ExtTreeSet BlockId} (hl : m.loops = []) (he : Enters p s m b t f)
    (hpend : pending = m.pending ∨ pending = m.pending.erase b)
    (h : enter p s ⟨f, pending, m.visits.tail, []⟩ b t = .ok m') : Step p s m m' := by
  simp only [enter, bind_eq_ok] at h
  obtain ⟨f₁, hp, h⟩ := h
  by_cases hb : p.isLoopHeader b = true
  · rw [if_pos hb, pure_eq_ok] at h
    rw [← h]
    exact .opened hl he hp hb hpend
  · rw [if_neg hb] at h
    exact .walked hl he hp (by simpa using hb) hpend h

theorem visit_cases {visits : List (BlockId × Bindings)} (hl : m.loops = [])
    (hv : m.visits = (b, t) :: visits) (h : visit p s { m with visits := visits } b t = .ok m') :
    Step p s m m' := by
  have htail : visits = m.visits.tail := by rw [hv]; rfl
  unfold visit at h
  dsimp only at h
  by_cases hc : m.facts.claimed b = true
  · rw [if_pos hc] at h
    cases h
    exact .skipped hl hv hc
  · have hc' : m.facts.claimed b = false := by simpa using hc
    rw [if_neg hc] at h
    by_cases h2 : (p.predecessors b).length < 2
    · rw [if_pos h2, htail, hl] at h
      exact enter_eq_ok hl (.brought hl hv hc' (.inl h2)) (.inl rfl) h
    · rw [if_neg h2] at h
      by_cases hb : p.isLoopHeader b = true
      · rw [if_pos hb] at h
        by_cases hr : (m.facts.exposed.readyOf (p.predecessors b)).length < 2
        · rw [if_pos hr, htail, hl] at h
          exact enter_eq_ok hl (.brought hl hv hc' (.inr ⟨hb, hr⟩)) (.inl rfl) h
        · rw [if_neg hr, htail, hl] at h
          simp only [enterMerged, bind_eq_ok] at h
          obtain ⟨⟨t', f⟩, hm, h⟩ := h
          exact enter_eq_ok hl (.header hl hv hc' hb (by omega) hm) (.inl rfl) h
      · rw [if_neg hb] at h
        by_cases hr : m.facts.exposed.allReady (p.predecessors b) = true
        · rw [if_pos hr, htail, hl] at h
          simp only [enterMerged, bind_eq_ok] at h
          obtain ⟨⟨t', f⟩, hm, h⟩ := h
          exact enter_eq_ok hl (.merge hl hv hc' (by simpa using hb) (by omega) hr hm) (.inr rfl) h
        · rw [if_neg hr] at h
          cases h
          exact .pended hl hv hc' (by omega) (by simpa using hb) (by simpa using hr)

theorem leave_cases {r r₁ : LoopRun} {outer : List LoopRun} (hl : m.loops = r :: outer)
    (he : Ended s m r f) (hr : r₁.header = r.header ∧ r₁.latch = r.latch ∧ r₁.exits = r.exits)
    (h : leave p m f r₁ outer = .ok m') :
    Step p s m m' := by
  have hclose : LoopRun.close f r₁ = LoopRun.close f r := by simp [LoopRun.close, hr.1, hr.2.1]
  simp only [leave, hclose, hr.2.2, bind_eq_ok] at h
  obtain ⟨f₁, hc, h⟩ := h
  cases outer with
  | nil => exact .closed hl he hc h
  | cons o rest =>
    rw [pure_eq_ok] at h
    rw [← h]
    exact .returned hl he hc rfl

theorem take_cases {r : LoopRun} {outer : List LoopRun} {queue : List BlockId}
    (hl : m.loops = r :: outer) (hq : r.queue = b :: queue)
    (h : take p s m { r with queue := queue } outer b = .ok m') : Step p s m m' := by
  unfold take at h
  dsimp only at h
  by_cases ht : s.maxIterations < r.taken + 1
  · rw [if_pos ht] at h
    exact leave_cases hl (.limit hq (by omega)) ⟨rfl, rfl, rfl⟩ h
  · rw [if_neg ht] at h
    by_cases hc : m.facts.claimed b = true
    · rw [if_pos hc] at h
      exact leave_cases hl (.reentry hq (by omega) hc) ⟨rfl, rfl, rfl⟩ h
    · have hc' : m.facts.claimed b = false := by simpa using hc
      rw [if_neg hc, bind_eq_ok] at h
      obtain ⟨entry, hm, h⟩ := h
      cases entry with
      | none =>
        simp only [defer] at h
        split at h
        · cases h
        · rename_i hs
          cases h
          refine .deferred hl hq (by omega) hc' hm ?_
          simp only [List.length_append, List.length_singleton] at hs
          omega
      | some x =>
        obtain ⟨t, f⟩ := x
        have he : Enters p s m b t f := .looped hl hq (by omega) hc' hm
        simp only [enterLooped, bind_eq_ok] at h
        obtain ⟨f₁, hp, h⟩ := h
        by_cases hb : p.isLoopHeader b = true
        · rw [if_pos hb, pure_eq_ok] at h
          rw [← h]
          exact .nested hl hq he hp hb
        · rw [if_neg hb, pure_eq_ok] at h
          rw [← h]
          exact .looped hl hq he hp (by simpa using hb) rfl

/-- A step does one of the things that `Step` lists. -/
theorem step_cases (h : step p s m = .ok m') : Step p s m m' := by
  unfold step at h
  split at h
  · rename_i r outer _ hl
    split at h
    · rename_i b queue hq
      exact take_cases hl hq h
    · rename_i hq
      exact leave_cases hl (.drained hq) ⟨rfl, rfl, rfl⟩ h
  · rename_i b t visits hl hv
    exact visit_cases hl hv h
  · rename_i hl hv
    split at h
    · rename_i b hr
      simp only [settle, enterMerged, bind_eq_ok] at h
      obtain ⟨⟨t, f⟩, hm, h⟩ := h
      refine enter_eq_ok hl (.settled hl hv hr hm) (.inr rfl) ?_
      rwa [hl, ← show m.visits.tail = m.visits by rw [hv]; rfl] at h
    · rename_i hr
      cases h
      exact .finished (by simp [Machine.finished, hl, hv, hr])

/-! ### blocks that are entered -/

theorem resolvable?_eq_some (h : m.resolvable? p = some b) :
    b ∈ m.pending ∧ m.facts.claimed b = false ∧
    m.facts.exposed.readyOf (p.predecessors b) ≠ [] := by
  unfold resolvable? at h
  have hmem := List.mem_of_find?_eq_some h
  have htest := List.find?_some h
  simp only [Bool.and_eq_true, Bool.not_eq_true', List.isEmpty_eq_false_iff] at htest
  exact ⟨Std.ExtTreeSet.mem_toList.1 hmem, htest.1, htest.2⟩

namespace Enters

theorem unclaimed (h : Enters p s m b t f) : m.facts.claimed b = false := by
  cases h with
  | brought _ _ hc => exact hc
  | header _ _ hc => exact hc
  | merge _ _ hc => exact hc
  | settled _ _ hr => exact (resolvable?_eq_some hr).2.1
  | looped _ _ _ hc => exact hc

/-- Outside of loops a block is entered at the first visit, or at the end of the walk. -/
theorem first_visit (h : Enters p s m b t f) (hl : m.loops = []) :
    (∃ u visits, m.visits = (b, u) :: visits) ∨ m.visits = [] ∧ m.resolvable? p = some b := by
  cases h with
  | brought _ hv => exact .inl ⟨_, _, hv⟩
  | header _ hv => exact .inl ⟨_, _, hv⟩
  | merge _ hv => exact .inl ⟨_, _, hv⟩
  | settled _ hv hr => exact .inr ⟨hv, hr⟩
  | looped hl' => rw [hl] at hl'; cases hl'

/-- A block is entered that the walk comes to, that was pending, or that was waiting in the
innermost loop. -/
theorem waited (h : Enters p s m b t f) :
    m.loops = [] ∧ ((∃ u, (b, u) ∈ m.visits) ∨ b ∈ m.pending) ∨ ∃ r outer, m.loops = r :: outer ∧
      b ∈ r.queue := by
  have hfirst : ∀ {u visits}, m.visits = (b, u) :: visits → ∃ u, (b, u) ∈ m.visits := fun hv =>
    ⟨_, by rw [hv]; exact List.mem_cons_self ..⟩
  cases h with
  | brought hl hv => exact .inl ⟨hl, .inl (hfirst hv)⟩
  | header hl hv => exact .inl ⟨hl, .inl (hfirst hv)⟩
  | merge hl hv => exact .inl ⟨hl, .inl (hfirst hv)⟩
  | settled hl _ hr => exact .inl ⟨hl, .inr (resolvable?_eq_some hr).1⟩
  | looped hl hq => exact .inr ⟨_, _, hl, by rw [hq]; exact List.mem_cons_self ..⟩

/-- At any time one block can be entered, in one way. -/
theorem deterministic {b' : BlockId} {t' : Bindings} {f' : Facts} (h : Enters p s m b t f)
    (h' : Enters p s m b' t' f') : b = b' ∧ t = t' ∧ f = f' := by
  have hle := (Exposed.readyOf_sublist (x := m.facts.exposed) (p.predecessors b)).length_le
  cases h <;> cases h' <;> grind

/-- A block is entered with what the walk brings, or with what some of its predecessors leave. -/
theorem source (h : Enters p s m b t f) :
    ((b, t) ∈ m.visits ∧ f = m.facts) ∨
      ∃ preds, preds.Sublist (p.predecessors b) ∧
        Merge.predecessors s m.facts b (p.headLine b) preds = .ok (t, f) := by
  cases h with
  | brought _ hv => exact .inl ⟨by simp [hv], rfl⟩
  | header _ _ _ _ _ hm => exact .inr ⟨_, Exposed.readyOf_sublist _, hm⟩
  | merge _ _ _ _ _ _ hm => exact .inr ⟨_, List.Sublist.refl _, hm⟩
  | settled _ _ _ hm => exact .inr ⟨_, Exposed.readyOf_sublist _, hm⟩
  | looped _ _ _ _ hm =>
    rcases LoopRun.entry_eq_some hm with ⟨rfl, rfl, -⟩ | ⟨preds, -, hsub, hm⟩
    · exact .inr ⟨[], by simp, rfl⟩
    · exact .inr ⟨preds, hsub, hm⟩

theorem exposed_eq (h : Enters p s m b t f) : f.exposed = m.facts.exposed := by
  rcases h.source with ⟨-, rfl⟩ | ⟨preds, -, hm⟩
  · rfl
  · exact (Merge.predecessors_eq_ok hm).2.2.1

theorem diagnostics_eq (h : Enters p s m b t f) : f.diagnostics = m.facts.diagnostics := by
  rcases h.source with ⟨-, rfl⟩ | ⟨preds, -, hm⟩
  · rfl
  · exact (Merge.predecessors_eq_ok hm).2.2.2

theorem claimed_eq (h : Enters p s m b t f) : f.claimed = m.facts.claimed := by
  funext c
  rw [Facts.claimed, Facts.claimed, h.exposed_eq]

end Enters

theorem Ended.exposed_eq {r : LoopRun} (h : Ended s m r f) : f.exposed = m.facts.exposed := by
  cases h <;> rfl

theorem Ended.loops_ne {r : LoopRun} {outer : List LoopRun} (h : Ended s m r f)
    (hl : m.loops = r :: outer) {t' : Bindings} {f' : Facts} : ¬ Enters p s m b t' f' := by
  intro he
  cases h <;> cases he <;> simp_all
  omega

theorem not_enters_of_claimed {c : BlockId} {u : Bindings} {visits : List (BlockId × Bindings)}
    (hl : m.loops = []) (hv : m.visits = (c, u) :: visits) (hc : m.facts.claimed c = true) :
    ¬ Enters p s m b t f := by
  intro he
  cases he <;> simp_all

theorem not_enters_of_not_ready {c : BlockId} {u : Bindings} {visits : List (BlockId × Bindings)}
    (hl : m.loops = []) (hv : m.visits = (c, u) :: visits) (hp : 1 < (p.predecessors c).length)
    (hb : p.isLoopHeader c = false) (hr : m.facts.exposed.allReady (p.predecessors c) = false) :
    ¬ Enters p s m b t f := by
  intro he
  cases he <;> simp_all
  omega

theorem not_enters_of_finished (hf : m.finished p = true) : ¬ Enters p s m b t f := by
  intro he
  simp only [Machine.finished, Bool.and_eq_true, List.isEmpty_iff, Option.isNone_iff_eq_none] at hf
  cases he <;> simp_all

theorem not_enters_of_entry_none {r : LoopRun} {outer : List LoopRun} {c : BlockId}
    {queue : List BlockId} (hl : m.loops = r :: outer) (hq : r.queue = c :: queue)
    (hnone : LoopRun.entry p s m.facts r.header c = .ok none) :
    ¬ Enters p s m b t f := by
  intro he
  cases he <;> simp_all

/-! ### the facts behind a step -/

/-- The facts change when a block is processed, and when a loop ends. -/
inductive Change (p : Procedure) (s : Settings) (m : Machine) (f' : Facts) : Prop
  | processed {b : BlockId} {t : Bindings} {f f₁ : Facts} (he : Enters p s m b t f)
      (hp : Transfer.process s b p t f = .ok f₁) (hc : f'.core = f₁.core)
  | ended {r : LoopRun} {outer : List LoopRun} {f f₁ : Facts} (hl : m.loops = r :: outer)
      (he : Ended s m r f) (hc : LoopRun.close f r = .ok f₁) (hcore : f'.core = f₁.core)
  | none (hn : ∀ b t f, ¬ Enters p s m b t f) (hc : f'.core = m.facts.core)

theorem Step.change (h : Step p s m m') : Change p s m m'.facts := by
  cases h with
  | walked hl he hp hb hpend hf => exact .processed he hp (follow_eq_ok hf).1
  | opened hl he hp hb hpend => exact .processed he hp (LoopRun.opened_grown _ _).core
  | skipped hl hv hc => exact .none (fun _ _ _ => not_enters_of_claimed hl hv hc) rfl
  | pended hl hv hc hp hb hr =>
    exact .none (fun _ _ _ => not_enters_of_not_ready hl hv hp hb hr) rfl
  | looped hl hq he hp hb ha => exact .processed he hp (LoopRun.grown_of_absorb ha).core
  | nested hl hq he hp hb => exact .processed he hp (LoopRun.opened_grown _ _).core
  | deferred hl hq ht hc hm hs => exact .none (fun _ _ _ => not_enters_of_entry_none hl hq hm) rfl
  | closed hl he hc hf => exact .ended hl he hc (follow_eq_ok hf).1
  | returned hl he hc ha => exact .ended hl he hc (LoopRun.grown_of_absorb ha).core
  | finished hf => exact .none (fun _ _ _ => not_enters_of_finished hf) rfl

/-- What is processed stays so. -/
theorem Step.claimed_mono (h : Step p s m m') {c : BlockId} (hc : m.facts.claimed c = true) :
    m'.facts.claimed c = true := by
  cases h.change with
  | processed he hp hcore =>
    rw [Facts.claimed_of_core hcore, Transfer.claimed_process hp, he.claimed_eq]
    exact .inr hc
  | @ended r outer f f₁ hl he hclose hcore =>
    rw [Facts.claimed_of_core hcore]
    have hf : f.claimed c = true := by rw [Facts.claimed, he.exposed_eq]; exact hc
    rcases LoopRun.close_eq_ok hclose with ⟨-, rfl⟩ | ⟨l, t, -, -, rfl⟩
    · exact hf
    · exact (Facts.claimed_expose _ _ _).2 (.inr hf)
  | none hn hcore => rw [Facts.claimed_of_core hcore]; exact hc

/-- The next step of the walk goes along the edge from `a` to `c`: out of a block that it processes,
or out of a loop that ends. -/
inductive Follows (p : Procedure) (s : Settings) (m : Machine) (a c : BlockId) : Prop
  | walked {t : Bindings} {f : Facts} (hl : m.loops = []) (he : Enters p s m a t f)
      (hb : p.isLoopHeader a = false) (hc : c ∈ p.successors a)
  | left {r : LoopRun} {f : Facts} (hl : m.loops = [r]) (he : Ended s m r f) (hc : (a, c) ∈ r.exits)

/-- New visits are behind edges that were followed, and carry what the sources expose. -/
theorem Step.visits_cases (h : Step p s m m') {x : BlockId × Bindings} (hx : x ∈ m'.visits) :
    x ∈ m.visits ∨ ∃ a, Follows p s m a x.1 ∧ m'.facts.exposed[a]? = some x.2 := by
  -- what is left of the old visits, and what following edges adds to them
  have followed : ∀ {m₁ : Machine} {es : List (BlockId × BlockId)}, follow p m₁ es = .ok m' →
      (∀ y ∈ m₁.visits, y ∈ m.visits) → (∀ e ∈ es, Follows p s m e.1 e.2) →
      x ∈ m.visits ∨ ∃ a, Follows p s m a x.1 ∧ m'.facts.exposed[a]? = some x.2 := by
    intro m₁ es hf hold hes
    obtain ⟨hcore, -, -, hsrc, hvis⟩ := follow_eq_ok hf
    rw [hvis, List.mem_append, List.mem_map] at hx
    rcases hx with ⟨e, he, rfl⟩ | hx
    · have hnew := List.mem_filter.1 he
      have hready := hsrc e hnew.1 (by simpa using hnew.2)
      rw [Facts.exposed_of_core hcore]
      exact .inr ⟨e.1, hes e hnew.1, Exposed.isReady_iff.1 hready⟩
    · exact .inl (hold x hx)
  cases h with
  | walked hl he hp hb hpend hf =>
    refine followed hf (fun y hy => List.mem_of_mem_tail hy) fun e hmem => ?_
    obtain ⟨c, hc, rfl⟩ := List.mem_map.1 hmem
    exact .walked hl he hb hc
  | opened hl he hp hb hpend => exact .inl (List.mem_of_mem_tail hx)
  | skipped hl hv hc => exact .inl (by rw [hv]; exact List.mem_cons_of_mem _ hx)
  | pended hl hv hc hp hb hr => exact .inl (by rw [hv]; exact List.mem_cons_of_mem _ hx)
  | looped => exact .inl hx
  | nested => exact .inl hx
  | deferred => exact .inl hx
  | closed hl he hc hf => exact followed hf (fun y hy => hy) fun e hmem => .left hl he hmem
  | returned => exact .inl hx
  | finished => exact .inl hx

theorem Step.pending_cases (h : Step p s m m') {c : BlockId} (hc : c ∈ m'.pending) :
    c ∈ m.pending ∨ ∃ t, (c, t) ∈ m.visits := by
  have herase : ∀ {b : BlockId}, c ∈ m.pending.erase b → c ∈ m.pending :=
    fun hc => (Std.ExtTreeSet.mem_erase.1 hc).2
  have hor : ∀ {pending : Std.ExtTreeSet BlockId} {b : BlockId}, pending = m.pending ∨
      pending = m.pending.erase b →
      c ∈ pending → c ∈ m.pending := by
    rintro pending b (rfl | rfl) hc
    · exact hc
    · exact herase hc
  cases h with
  | walked hl he hp hb hpend hf =>
    rw [(follow_eq_ok hf).2.1] at hc
    exact .inl (hor hpend hc)
  | opened hl he hp hb hpend => exact .inl (hor hpend hc)
  | skipped => exact .inl hc
  | @pended b t visits hl hv =>
    rcases Std.ExtTreeSet.mem_insert.1 hc with heq | hc
    · obtain rfl := Std.LawfulEqOrd.eq_of_compare heq
      exact .inr ⟨t, by simp [hv]⟩
    · exact .inl hc
  | looped => exact .inl (herase hc)
  | nested => exact .inl (herase hc)
  | deferred => exact .inl hc
  | closed hl he hcl hf =>
    rw [(follow_eq_ok hf).2.1] at hc
    exact .inl hc
  | returned => exact .inl hc
  | finished => exact .inl hc

/-- Where a loop that is at work behind a step comes from. -/
inductive Loop (p : Procedure) (s : Settings) (m : Machine) : LoopRun → Prop
  /-- The innermost loop never stays as it was. -/
  | kept {r : LoopRun} (hr : r ∈ m.loops.tail) : Loop p s m r
  | opened {b : BlockId} {t : Bindings} {f f₁ : Facts} (he : Enters p s m b t f)
      (hp : Transfer.process s b p t f = .ok f₁) (hb : p.isLoopHeader b = true) :
      Loop p s m (LoopRun.opened p f₁ b).2
  | nested {r : LoopRun} {outer : List LoopRun} {b : BlockId} {queue : List BlockId}
      {t : Bindings} {f : Facts} (hl : m.loops = r :: outer) (hq : r.queue = b :: queue)
      (he : Enters p s m b t f) :
      Loop p s m { r with queue := queue, taken := r.taken + 1, stalled := 0 }
  | looped {r : LoopRun} {outer : List LoopRun} {b : BlockId} {queue : List BlockId} {t : Bindings}
      {f f₁ f' : Facts}
      {r' : LoopRun} (hl : m.loops = r :: outer) (hq : r.queue = b :: queue)
        (he : Enters p s m b t f)
      (hp : Transfer.process s b p t f = .ok f₁) (hb : p.isLoopHeader b = false)
      (hg : LoopRun.Grown p (LoopRun.leaves p) f₁ { r with queue := queue, taken := r.taken + 1, stalled := 0 }
        (p.edgesFrom b) f' r') : Loop p s m r'
  | deferred {r : LoopRun} {outer : List LoopRun} {b : BlockId} {queue : List BlockId}
      (hl : m.loops = r :: outer)
      (hq : r.queue = b :: queue) (hm : LoopRun.entry p s m.facts r.header b = .ok none)
      (hs : r.stalled < queue.length) :
      Loop p s m { r with queue := queue ++ [b], taken := r.taken + 1, stalled := r.stalled + 1 }
  | returned {r o : LoopRun} {rest : List LoopRun} {f f₁ f' : Facts} {o' : LoopRun}
      (hl : m.loops = r :: o :: rest)
      (he : Ended s m r f) (hc : LoopRun.close f r = .ok f₁)
      (hg : LoopRun.Grown p (LoopRun.leaves p) f₁ o r.exits f' o') : Loop p s m o'

theorem Step.loop (h : Step p s m m') {r : LoopRun} (hr : r ∈ m'.loops) : Loop p s m r := by
  have hkept : ∀ {q outer}, m.loops = q :: outer → ∀ r ∈ outer, Loop p s m r := fun hl r hr =>
    .kept (by rw [hl]; exact hr)
  cases h with
  | walked hl he hp hb hpend hf =>
    rw [(follow_eq_ok hf).2.2.1] at hr
    cases hr
  | opened hl he hp hb hpend =>
    obtain rfl := List.mem_singleton.1 hr
    exact .opened he hp hb
  | skipped hl hv hc =>
    rw [hl] at hr
    cases hr
  | pended hl hv hc hp hb hrd =>
    rw [hl] at hr
    cases hr
  | looped hl hq he hp hb ha =>
    rcases List.mem_cons.1 hr with rfl | hr
    · exact .looped hl hq he hp hb (LoopRun.grown_of_absorb ha)
    · exact hkept hl r hr
  | nested hl hq he hp hb =>
    rcases List.mem_cons.1 hr with rfl | hr
    · exact .opened he hp hb
    · rcases List.mem_cons.1 hr with rfl | hr
      · exact .nested hl hq he
      · exact hkept hl r hr
  | deferred hl hq ht hc hm hs =>
    rcases List.mem_cons.1 hr with rfl | hr
    · exact .deferred hl hq hm hs
    · exact hkept hl r hr
  | closed hl he hc hf =>
    rw [(follow_eq_ok hf).2.2.1] at hr
    cases hr
  | returned hl he hc ha =>
    rcases List.mem_cons.1 hr with rfl | hr
    · exact .returned hl he hc (LoopRun.grown_of_absorb ha)
    · exact hkept hl r (List.mem_cons_of_mem _ hr)
  | finished hf =>
    simp only [Machine.finished, Bool.and_eq_true, List.isEmpty_iff] at hf
    rw [hf.1.1] at hr
    cases hr

/-- The headers of the loops at work: one is added when its block is processed, and taken off when
its loop ends. -/
theorem Step.headers (h : Step p s m m') :
    (∃ b t f, Enters p s m b t f ∧ p.isLoopHeader b = true ∧
      m'.loops.map (·.header) = b :: m.loops.map (·.header)) ∨
    m'.loops.map (·.header) = m.loops.map (·.header) ∨
    m'.loops.map (·.header) = m.loops.tail.map (·.header) := by
  cases h with
  | walked hl he hp hb hpend hf => exact .inr (.inl (by rw [(follow_eq_ok hf).2.2.1, hl]))
  | opened hl he hp hb hpend =>
    exact .inl ⟨_, _, _, he,
      hb, by simp [hl, (LoopRun.opened_grown (p := p) _ _).header, LoopRun.start]⟩
  | skipped => exact .inr (.inl rfl)
  | pended => exact .inr (.inl rfl)
  | looped hl hq he hp hb ha =>
    exact .inr (.inl (by simp [hl, (LoopRun.grown_of_absorb ha).header]))
  | nested hl hq he hp hb =>
    exact .inl ⟨_, _, _, he,
      hb, by simp [hl, (LoopRun.opened_grown (p := p) _ _).header, LoopRun.start]⟩
  | deferred hl => exact .inr (.inl (by simp [hl]))
  | closed hl he hc hf => exact .inr (.inr (by simp [(follow_eq_ok hf).2.2.1, hl]))
  | returned hl he hc ha => exact .inr (.inr (by simp [hl, (LoopRun.grown_of_absorb ha).header]))
  | finished => exact .inr (.inl rfl)

/-- A loop at work ends, or it stays at work; then no edge out of it is forgotten, and no block of
its queue but the one that it takes and that is entered. -/
theorem Step.loop_kept (h : Step p s m m') {q : LoopRun} (hq : q ∈ m.loops) :
    (∃ outer f, m.loops = q :: outer ∧ Ended s m q f) ∨
      ∃ q' ∈ m'.loops, q'.header = q.header ∧ (∀ e ∈ q.exits, e ∈ q'.exits) ∧
        ∀ c ∈ q.queue, c ∈ q'.queue ∨ m.loops.head? = some q ∧ ∃ t f, Enters p s m c t f := by
  -- a loop that is not touched, and one that only takes up edges
  have hsame : q ∈ m'.loops → ∃ q' ∈ m'.loops, q'.header = q.header ∧
      (∀ e ∈ q.exits, e ∈ q'.exits) ∧
      ∀ c ∈ q.queue, c ∈ q'.queue ∨ m.loops.head? = some q ∧ ∃ t f, Enters p s m c t f := fun hq =>
    ⟨q, hq, rfl, fun _ he => he, fun _ hc => .inl hc⟩
  have hexits : ∀ {es f f' r r'}, LoopRun.Grown p (LoopRun.leaves p) f r es f' r' →
      r.exits = q.exits →
      ∀ e ∈ q.exits, e ∈ r'.exits := by
    intro es f f' r r' hg hr e he
    rw [hg.exits, hr]
    exact List.mem_append_left _ he
  cases h with
  | walked hl => rw [hl] at hq; cases hq
  | opened hl => rw [hl] at hq; cases hq
  | skipped hl => rw [hl] at hq; cases hq
  | pended hl => rw [hl] at hq; cases hq
  | @looped r outer b queue t f f₁ hl hqueue he hp hb f' r' ha =>
    have hg := LoopRun.grown_of_absorb ha
    rw [hl] at hq
    rcases List.mem_cons.1 hq with rfl | hq
    · refine .inr ⟨r', List.mem_cons_self .., hg.header, hexits hg rfl, fun c hc => ?_⟩
      rw [hqueue] at hc
      rcases List.mem_cons.1 hc with rfl | hc
      · exact .inr ⟨by rw [hl]; rfl, t, f, he⟩
      · exact .inl ((hg.queue c).2 (.inl hc))
    · exact .inr (hsame (List.mem_cons_of_mem _ hq))
  | @nested r outer b queue t f f₁ hl hqueue he hp hb =>
    rw [hl] at hq
    rcases List.mem_cons.1 hq with rfl | hq
    · refine .inr ⟨_, List.mem_cons_of_mem _ (List.mem_cons_self ..), rfl, fun _ he => he,
        fun c hc => ?_⟩
      rw [hqueue] at hc
      rcases List.mem_cons.1 hc with rfl | hc
      · exact .inr ⟨by rw [hl]; rfl, t, f, he⟩
      · exact .inl hc
    · exact .inr (hsame (List.mem_cons_of_mem _ (List.mem_cons_of_mem _ hq)))
  | @deferred r outer b queue hl hqueue =>
    rw [hl] at hq
    rcases List.mem_cons.1 hq with rfl | hq
    · refine .inr ⟨_, List.mem_cons_self .., rfl, fun _ he => he, fun c hc => .inl ?_⟩
      rw [hqueue] at hc
      simpa [or_comm] using hc
    · exact .inr (hsame (List.mem_cons_of_mem _ hq))
  | closed hl he =>
    rw [hl] at hq
    obtain rfl := List.mem_singleton.1 hq
    exact .inl ⟨_, _, hl, he⟩
  | @returned r o rest f f₁ hl he hc f' o' ha =>
    have hg := LoopRun.grown_of_absorb ha
    rw [hl] at hq
    rcases List.mem_cons.1 hq with rfl | hq
    · exact .inl ⟨_, _, hl, he⟩
    · rcases List.mem_cons.1 hq with rfl | hq
      · exact .inr ⟨o', List.mem_cons_self .., hg.header, hexits hg rfl,
          fun c hc => .inl ((hg.queue c).2 (.inl hc))⟩
      · exact .inr (hsame (List.mem_cons_of_mem _ hq))
  | finished => exact .inr (hsame hq)

end Machine

end ArrayFlow
