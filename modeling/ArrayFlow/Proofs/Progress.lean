import ArrayFlow.Proofs.Clean

/-!
# Analyses that come to their end

Where loops are nested and all arrays are defined at the entry, no step fails, and the analysis ends
with a clean report.

* `visit_isOk`, `take_isOk`, `leave_isOk` : when the parts of a step succeed;
* `Covered.not_stuck`    : a loop whose first block has to wait has others that do not;
* `Reaches.step_isOk`    : a state that is reached has a next one;
* `Nested.analyze_clean` : the analysis ends, its report is clean, and every reachable block was
  processed.
-/

namespace ArrayFlow

open Procedure

variable {p : Procedure} {s : Settings} {b : BlockId} {t : Bindings} {arrays : List String}

namespace Machine

variable {owner : BlockId → Option BlockId} {rank : BlockId → Nat} {m m' : Machine} {f f₁ : Facts}

/-! ## there is always a next step -/

theorem Reaches.latch_claimed (hn : Nested p owner rank) (hm : Reaches p s m) :
    ∀ r ∈ m.loops, ∀ l, r.latch = some l → m.facts.claimed l = true := by
  refine hm.invariant (P := fun m => ∀ r ∈ m.loops, ∀ l, r.latch = some l →
    m.facts.claimed l = true)
    (by simp [start]) ?_
  intro m m' hm ih hstep r hr l hl
  have hhead : ∀ {q outer}, m.loops = q :: outer → q.latch = some l → m'.facts.claimed l = true :=
      fun hq hlatch =>
    hstep.claimed_mono (ih _ (by rw [hq]; exact List.mem_cons_self ..) l hlatch)
  cases hstep.loop hr with
  | kept hr => exact hstep.claimed_mono (ih r (List.mem_of_mem_tail hr) l hl)
  | @opened b t f f₁ he hp hb =>
    rcases (LoopRun.opened_grown (p := p) f₁ b).latch with hnone | ⟨a, ha, hlatch⟩
    · rw [hl] at hnone
      cases hnone
    · rw [hl] at hlatch
      cases hlatch
      obtain ⟨c, -, heq⟩ := List.mem_map.1 ha
      cases heq
      exact hm.claimed_of_enters hstep he
  | nested hq => exact hhead hq hl
  | @looped q outer b queue t f f₁ f' r hq hqueue he hp hb hg =>
    rcases hg.latch with hold | ⟨a, ha, hlatch⟩
    · exact hhead hq (hold.symm.trans hl)
    · rw [hl] at hlatch
      cases hlatch
      obtain ⟨c, -, heq⟩ := List.mem_map.1 ha
      cases heq
      exact hm.claimed_of_enters hstep he
  | deferred hq => exact hhead hq hl
  | @returned q o rest f f₁ f' o' hq he hc hg =>
    have hqm : q ∈ m.loops := by rw [hq]; simp
    rcases hg.latch with hold | ⟨a, ha, hlatch⟩
    · exact hstep.claimed_mono (ih o (by rw [hq]; simp) l (hold.symm.trans hl))
    · rw [hl] at hlatch
      cases hlatch
      obtain rfl : l = q.header := (((hm.placed hn).loops q hqm).exits _ ha).1
      exact hstep.claimed_mono (hm.header_claimed q hqm)

theorem enter_isOk {m₀ : Machine} (h : Transfer.process s b p t m₀.facts = .ok f₁) :
    ∃ m', enter p s m₀ b t = .ok m' := by
  simp only [enter, h, bind, Except.bind]
  split
  · exact ⟨_, rfl⟩
  · refine follow_isOk fun e he => ?_
    obtain ⟨c, -, rfl⟩ := List.mem_map.1 he
    exact (Transfer.claimed_process h b).2 (.inl rfl)

theorem leave_isOk {r : LoopRun} {outer : List LoopRun}
    (hlatch : ∀ l, r.latch = some l → f.claimed l = true)
    (hexits : ∀ e ∈ r.exits, f.claimed e.1 = true) : ∃ m', leave p m f r outer = .ok m' := by
  obtain ⟨f₁, hclose, hmono⟩ : ∃ f₁, LoopRun.close f r = .ok f₁ ∧ ∀ c, f.claimed c = true →
      f₁.claimed c = true := by
    unfold LoopRun.close
    cases hl : r.latch with
    | none => exact ⟨f, rfl, fun _ => id⟩
    | some l =>
      obtain ⟨u, hu⟩ := Facts.claimed_iff.1 (hlatch l hl)
      refine ⟨f.expose r.header u, ?_, fun c hc => (Facts.claimed_expose _ _ _).2 (.inr hc)⟩
      simp only [Exposed.get_eq_ok.2 hu]
      rfl
  simp only [leave, hclose, bind, Except.bind]
  cases outer with
  | nil => exact follow_isOk fun e he => hmono _ (hexits e he)
  | cons o rest => exact ⟨_, rfl⟩

/-- A block of a loop that a predecessor was processed of can be entered, or has to wait. -/
theorem entry_isOk {header a : BlockId} (ha : a ∈ p.predecessors b) (hc : f.claimed a = true) :
    ∃ x, LoopRun.entry p s f header b = .ok x := by
  obtain ⟨u, hu⟩ := Facts.claimed_iff.1 hc
  unfold LoopRun.entry
  split
  · exact ⟨_, rfl⟩
  · rename_i c hp
    obtain rfl : a = c := List.mem_singleton.1 (hp ▸ ha)
    split
    · exact ⟨_, rfl⟩
    · simp only [Exposed.get_eq_ok.2 hu]
      exact ⟨_, rfl⟩
  · rename_i hp
    dsimp only
    rw [← hp]
    split
    · split
      · rename_i hnone
        have := Exposed.mem_readyOf.2 ⟨ha, hc⟩
        simp [hnone] at this
      · have hm : ∃ t f', Merge.predecessors s f b (p.headLine b)
          (f.exposed.readyOf (p.predecessors b)) = .ok (t, f') :=
          Merge.predecessors_isOk fun c hc => (Exposed.mem_readyOf.1 hc).2
        obtain ⟨t, f', hm⟩ := hm
        rw [hm]
        exact ⟨_, rfl⟩
    · split
      · rename_i hready
        have hm : ∃ t f', Merge.predecessors s f b (p.headLine b) (p.predecessors b) =
          .ok (t, f') :=
          Merge.predecessors_isOk (Exposed.allReady_iff.1 hready)
        obtain ⟨t, f', hm⟩ := hm
        rw [hm]
        exact ⟨_, rfl⟩
      · exact ⟨_, rfl⟩

/-- The walk can go on at a block, provided that the blocks that are entered can be processed. -/
theorem visit_isOk {visits : List (BlockId × Bindings)} (hl : m.loops = [])
    (hv : m.visits = (b, t) :: visits)
    (hproc : ∀ t f, Enters p s m b t f → ∃ f₁, Transfer.process s b p t f = .ok f₁) :
    ∃ m', visit p s { m with visits := visits } b t = .ok m' := by
  have henter : ∀ {m₀ : Machine} {t}, Enters p s m b t m₀.facts →
      ∃ m', enter p s m₀ b t = .ok m' := fun he =>
    enter_isOk (hproc _ _ he).choose_spec
  have hmerged : ∀ (m₀ : Machine) (preds : List BlockId), m₀.facts = m.facts →
      (∀ c ∈ preds, m.facts.claimed c = true) →
      (∀ t f, Merge.predecessors s m.facts b (p.headLine b) preds = .ok (t, f) →
        Enters p s m b t f) →
      ∃ m', enterMerged p s m₀ b preds = .ok m' := by
    intro m₀ preds hfacts hready he
    have hm : ∃ t f, Merge.predecessors s m.facts b (p.headLine b) preds = .ok (t, f) :=
      Merge.predecessors_isOk hready
    obtain ⟨t, f, hm⟩ := hm
    simp only [enterMerged, hfacts, hm, bind, Except.bind]
    exact henter (he t f hm)
  unfold visit
  dsimp only
  by_cases hc : m.facts.claimed b = true
  · rw [if_pos hc]
    exact ⟨_, rfl⟩
  · have hc' : m.facts.claimed b = false := by simpa using hc
    rw [if_neg hc]
    by_cases h2 : (p.predecessors b).length < 2
    · rw [if_pos h2]
      exact henter (.brought hl hv hc' (.inl h2))
    · rw [if_neg h2]
      by_cases hb : p.isLoopHeader b = true
      · rw [if_pos hb]
        by_cases hr : (m.facts.exposed.readyOf (p.predecessors b)).length < 2
        · rw [if_pos hr]
          exact henter (.brought hl hv hc' (.inr ⟨hb, hr⟩))
        · rw [if_neg hr]
          exact hmerged _ _ rfl (fun c hc => (Exposed.mem_readyOf.1 hc).2) fun t f hm =>
            .header hl hv hc' hb (by omega) hm
      · rw [if_neg hb]
        by_cases hr : m.facts.exposed.allReady (p.predecessors b) = true
        · rw [if_pos hr]
          exact hmerged _ _ rfl (Exposed.allReady_iff.1 hr) fun t f hm =>
            .merge hl hv hc' (by simpa using hb) (by omega) hr hm
        · rw [if_neg hr]
          exact ⟨_, rfl⟩

/-- A loop can go on at a block that waits in its queue, provided that the block can be processed
and that not all blocks of the queue have to wait. -/
theorem take_isOk {r : LoopRun} {outer : List LoopRun} {queue : List BlockId} {a : BlockId}
    (hl : m.loops = r :: outer) (hq : r.queue = b :: queue) (ht : r.taken < s.maxIterations)
    (hc : m.facts.claimed b = false) (ha : a ∈ p.predecessors b) (hac : m.facts.claimed a = true)
    (hproc : ∀ t f, Enters p s m b t f → ∃ f₁, Transfer.process s b p t f = .ok f₁)
    (hstuck : LoopRun.entry p s m.facts r.header b = .ok none → r.stalled < queue.length) :
    ∃ m', take p s m { r with queue := queue } outer b = .ok m' := by
  obtain ⟨x, hx⟩ : ∃ x, LoopRun.entry p s m.facts r.header b = .ok x := entry_isOk ha hac
  unfold take
  dsimp only
  rw [if_neg (by omega), if_neg (by simp [hc]), hx]
  cases x with
  | none =>
    simp only [bind, Except.bind, defer]
    have := hstuck hx
    rw [if_neg (by simp; omega)]
    exact ⟨_, rfl⟩
  | some x =>
    obtain ⟨t, f⟩ := x
    obtain ⟨f₁, hp⟩ := hproc t f (.looped hl hq ht hc hx)
    simp only [bind, Except.bind, enterLooped, hp]
    split <;> exact ⟨_, rfl⟩

/-- The innermost loop is not stuck: some block of its queue does not have to wait. -/
theorem Covered.not_stuck (hw : p.WellFormed) (hn : Nested p owner rank) (hm : Reaches p s m)
    (h : Covered p owner rank m) {r : LoopRun} {outer : List LoopRun} {queue : List BlockId}
    (hl : m.loops = r :: outer) (hq : r.queue = b :: queue)
    (hnone : LoopRun.entry p s m.facts r.header b = .ok none) :
    r.stalled < queue.length := by
  have hr : r ∈ m.loops := by rw [hl]; simp
  have hb : b ∈ r.queue := by simp [hq]
  obtain ⟨hreach, howner, -⟩ := ((hm.placed hn).loops r hr).queue b hb
  have ho := hm.orderly hn
  obtain ⟨c, hc, hready⟩ :=
    h.exists_ready hw hn (hm.placed hn) hm hl b hreach (ho.unclaimed r hr b hb) howner
  by_contra hlen
  refine hready ?_
  -- the first block has to wait, and all the others were put back before
  rw [hq] at hc
  rcases List.mem_cons.1 hc with rfl | hc
  · exact (entry_eq_none.1 hnone).2
  · exact ho.blocked r hr c (mem_lastOf hq (Nat.le_of_not_lt hlen) hc)

theorem Reaches.step_isOk (hw : p.WellFormed) (hn : Nested p owner rank) (hc : p.Closed arrays)
    (hlim : ∀ m, Reaches p s m → ∀ r ∈ m.loops, r.queue ≠ [] → r.taken < s.maxIterations)
    (hm : Reaches p s m) :
    ∃ m', step p s m = .ok m' := by
  have hproc : ∀ b t f, Enters p s m b t f → ∃ f₁, Transfer.process s b p t f = .ok f₁ :=
      fun b t f he =>
    ((hm.clean hw hn hc hlim).process_isOk hw hn hc hm he).imp fun _ h => h.1
  have hplaced := hm.placed hn
  unfold step
  split
  · rename_i r outer hl
    have hr : r ∈ m.loops := by rw [hl]; simp
    split
    · rename_i b queue hq
      have hb : b ∈ r.queue := by simp [hq]
      obtain ⟨-, -, a, ha, hac⟩ := (hplaced.loops r hr).queue b hb
      exact take_isOk hl hq (hlim m hm r hr (List.ne_nil_of_mem hb))
        ((hm.orderly hn).unclaimed r hr b hb)
        ((hw.mem_predecessors a b).2 ha) hac (hproc b)
          ((hm.covered hw hn hlim).not_stuck hw hn hm hl hq)
    · refine leave_isOk (hm.latch_claimed hn r hr) fun e he => ?_
      rw [((hplaced.loops r hr).exits e he).1]
      exact hm.header_claimed r hr
  · rename_i b t visits hl hv
    exact visit_isOk hl hv (hproc b)
  · rename_i hl hv
    split
    · rename_i b hr
      have hmerge : ∃ t f, Merge.predecessors s m.facts b (p.headLine b)
          (m.facts.exposed.readyOf (p.predecessors b)) = .ok (t, f) :=
        Merge.predecessors_isOk fun c hc => (Exposed.mem_readyOf.1 hc).2
      obtain ⟨t, f, hmerge⟩ := hmerge
      obtain ⟨f₁, hp⟩ := hproc b t f (.settled hl hv hr hmerge)
      simp only [settle, enterMerged, hmerge, bind, Except.bind]
      exact enter_isOk hp
    · exact ⟨m, rfl⟩

theorem Reaches.run_isOk (hstep : ∀ m, Reaches p s m → ∃ m', step p s m = .ok m') (n : Nat)
    (hm : Reaches p s m) :
    ∃ m', run p s n m = .ok m' := by
  induction n generalizing m with
  | zero => exact ⟨m, rfl⟩
  | succ n ih =>
    rw [run]
    split
    · exact ⟨m, rfl⟩
    · obtain ⟨m₁, h₁⟩ := hstep m hm
      simp only [h₁, bind, Except.bind]
      exact ih (hm.tail h₁)

end Machine

/-! ## clean reports -/

theorem Procedure.WellFormed.card_targets_le (hw : p.WellFormed) :
    p.targets.card ≤ p.blocks.length := by
  have hsub : p.targets ⊆ p.blockIds.toFinset := by
    intro b hb
    rw [List.mem_toFinset]
    rcases Finset.mem_insert.1 hb with rfl | hb
    · exact hw.entry_mem
    · obtain ⟨k, hk, hb⟩ := List.mem_flatMap.1 (List.mem_toFinset.1 hb)
      refine hw.successors_mem k.id b ?_
      rw [successors, block?_eq_some hw.ids_nodup hk]
      exact hb
  refine (Finset.card_le_card hsub).trans ((List.toFinset_card_le _).trans ?_)
  rw [blockIds, List.length_map]

/-- With nested loops over known arrays, and enough iterations for every loop, the analysis ends
with a clean report in which exactly the reachable blocks were processed. -/
theorem Procedure.Nested.analyze_clean {owner : BlockId → Option BlockId} {rank : BlockId → Nat}
    (hw : p.WellFormed) (hn : Nested p owner rank) (hc : p.Closed arrays)
    (hmax : p.blocks.length * p.blocks.length ≤ s.maxIterations) :
    ∃ r, analyze p s = .ok r ∧ r.facts.diagnostics = [] ∧ r.facts.falsePhis = [] ∧
      ∀ b, r.facts.claimed b = true ↔ p.Reachable b := by
  have hlim : ∀ m, Machine.Reaches p s m → ∀ r ∈ m.loops, r.queue ≠ [] →
      r.taken < s.maxIterations := by
    intro m hm r hr hq
    have hcard := hw.card_targets_le
    exact (hm.taken_lt hr hq).trans_le ((Nat.mul_le_mul hcard hcard).trans hmax)
  have hstep : ∀ m, Machine.Reaches p s m → ∃ m', Machine.step p s m = .ok m' := fun m hm =>
    hm.step_isOk hw hn hc hlim
  obtain ⟨m, hrun⟩ := Machine.Reaches.run_isOk hstep p.stepBound .refl
  have hm : Machine.Reaches p s m := Machine.reaches_of_run .refl hrun
  have hall := hm.all_claimed hw hn hlim (Machine.run_finished hrun)
  have hclean := hm.clean hw hn hc hlim
  have hleft : (m.pending.toList.filter fun b => !m.facts.claimed b) = [] := by
    refine List.filter_eq_nil_iff.2 fun b hb => ?_
    have hreach := ((hm.placed hn).pending b (Std.ExtTreeSet.mem_toList.1 hb)).1
    simp [hall b hreach]
  have hconclude : m.conclude = m.facts := by
    rw [Machine.conclude_eq, hleft, List.map_nil, List.append_nil]
  refine ⟨⟨p.name, m.conclude⟩, ?_, ?_⟩
  · unfold analyze
    rw [if_pos (contains_iff.2 hw.entry_mem), hrun]
    rfl
  · rw [hconclude]
    exact ⟨hclean.diagnostics, hclean.falsePhis, fun b => ⟨(hm.placed hn).claimed b, hall b⟩⟩

end ArrayFlow
