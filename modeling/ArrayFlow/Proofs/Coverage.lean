import ArrayFlow.Proofs.Nesting

/-!
# Nested loops are worked off as a whole

Where loops are properly nested, the walk and the loops at work never get stuck, never give up, and
come to every block that control can come to.

* `Machine.Ripe`      : enough of the edges into a block were taken up for the block to be
  processed;
* `Machine.Covered`   : every block that could be processed is waiting;
* `Covered.all_claimed`, `Covered.exists_ready` : nothing is left over, and no loop is stuck, by
  induction on the rank;
* `Reaches.covered`   : this is so in every state that is reached.
-/

namespace ArrayFlow

open Procedure

namespace Machine

variable {p : Procedure} {s : Settings} {owner : BlockId → Option BlockId} {rank : BlockId → Nat}
  {m m' : Machine} {b : BlockId} {t : Bindings} {f : Facts}

/-! ## blocks that could be processed -/

/-- The edge was taken up: its source was processed, and no loop at work keeps it back for its
end. -/
def Taken (m : Machine) (a c : BlockId) : Prop :=
  m.facts.claimed a = true ∧ ∀ r ∈ m.loops, r.header = a → (a, c) ∉ r.exits

/-- Enough of the edges into a block were taken up: a forward one for a header, all of them for
another block. -/
def Ripe (p : Procedure) (rank : BlockId → Nat) (m : Machine) (b : BlockId) : Prop :=
  if p.isLoopHeader b = true then ∃ a, b ∈ p.successors a ∧ rank a < rank b ∧ Taken m a b
  else ∀ a, b ∈ p.successors a → Taken m a b

/-- The block is waiting where it belongs. -/
def Waiting (owner : BlockId → Option BlockId) (m : Machine) (b : BlockId) : Prop :=
  match owner b with
  | none => ∃ t, (b, t) ∈ m.visits
  | some h => ∃ r ∈ m.loops, r.header = h ∧ b ∈ r.queue

/-- Every block that could be processed is waiting. -/
def Covered (p : Procedure) (owner : BlockId → Option BlockId) (rank : BlockId → Nat)
    (m : Machine) : Prop :=
  ∀ b, p.Reachable b → m.facts.claimed b = false → Ripe p rank m b → Waiting owner m b

theorem waiting_of_owner_none (h : owner b = none) :
    Waiting owner m b ↔ ∃ t, (b, t) ∈ m.visits := by
  simp only [Waiting, h]

theorem waiting_of_owner_some {o : BlockId} (h : owner b = some o) :
    Waiting owner m b ↔ ∃ r ∈ m.loops, r.header = o ∧ b ∈ r.queue := by
  simp only [Waiting, h]

theorem ripe_of_forward (hn : Nested p owner rank) (hb : p.Reachable b)
    (h : ∀ a, b ∈ p.successors a → rank a < rank b → Taken m a b) : Ripe p rank m b := by
  unfold Ripe
  split
  · rename_i hheader
    have hne : b ≠ p.entry := by
      rintro rfl
      rw [hn.entry_plain] at hheader
      cases hheader
    obtain ⟨a, hsucc, hrank⟩ := hn.forward b hb hne
    exact ⟨a, hsucc, hrank, h a hsucc hrank⟩
  · rename_i hheader
    exact fun a hsucc => h a hsucc (hn.rank_lt hb (by simpa using hheader) hsucc)

theorem Ripe.not_blocked (hw : p.WellFormed) (h : Ripe p rank m b) : ¬ Blocked p m.facts b := by
  rintro ⟨hb, a, ha, hc⟩
  simp only [Ripe, hb, Bool.false_eq_true, if_false] at h
  rw [(h a ((hw.mem_predecessors a b).1 ha)).1] at hc
  cases hc

namespace Covered

/-- When nothing waits any more, everything was processed. -/
theorem all_claimed (hn : Nested p owner rank) (h : Covered p owner rank m) (hl : m.loops = [])
    (hv : m.visits = []) :
    ∀ b, p.Reachable b → m.facts.claimed b = true := by
  intro b hb
  -- by induction on the rank: the sources of forward edges were processed
  induction hk : rank b using Nat.strong_induction_on generalizing b with
  | _ k ih =>
    subst hk
    by_contra hc
    have hripe : Ripe p rank m b := ripe_of_forward hn hb fun a hsucc hrank =>
      ⟨ih (rank a) hrank a (hn.source a b hb hsucc) rfl, by simp [hl]⟩
    have hwait := h b hb (by simpa using hc) hripe
    cases ho : owner b with
    | none =>
      obtain ⟨t, ht⟩ := (waiting_of_owner_none ho).1 hwait
      simp [hv] at ht
    | some o =>
      obtain ⟨r, hr, -⟩ := (waiting_of_owner_some ho).1 hwait
      simp [hl] at hr

/-- While the innermost loop owns a block that was not processed, a block that need not wait is in
its queue. -/
theorem exists_ready (hw : p.WellFormed) (hn : Nested p owner rank) (hp : Placed p owner m)
    (hm : Reaches p s m) (h : Covered p owner rank m) {r : LoopRun} {outer : List LoopRun}
    (hl : m.loops = r :: outer) :
    ∀ b, p.Reachable b → m.facts.claimed b = false → owner b = some r.header →
      ∃ c ∈ r.queue, ¬ Blocked p m.facts c := by
  have hrm : r ∈ m.loops := by rw [hl]; simp
  have hreach := hp.header_reachable hm hrm
  have hstack := hp.stack
  rw [hl] at hstack
  have hrank : ∀ q ∈ m.loops, rank q.header ≤ rank r.header := by
    intro q hq
    rw [hl] at hq
    rcases List.mem_cons.1 hq with rfl | hq
    · exact Nat.le_refl _
    · exact Nat.le_of_lt (Stack.rank_lt hn hstack hreach _ (List.mem_map_of_mem hq))
  intro b hb hc ho
  -- by induction on the rank: either a block of lower rank is left, or this one need not wait
  induction hk : rank b using Nat.strong_induction_on generalizing b with
  | _ k ih =>
    subst hk
    by_cases hlow : ∃ a, p.Reachable a ∧ m.facts.claimed a = false ∧ owner a = some r.header ∧
      rank a < rank b
    · obtain ⟨a, ha, hca, hoa, hlt⟩ := hlow
      exact ih (rank a) hlt a ha hca hoa rfl
    · have hforward : ∀ a, b ∈ p.successors a → rank a < rank b → Taken m a b := by
        intro a hsucc hlt
        have ha := hn.source a b hb hsucc
        cases hn.edge a b ha hsucc with
        | level _ howner _ =>
          have hoa : owner a = some r.header := howner ▸ ho
          refine ⟨?_, fun q hq heq => ?_⟩
          · by_contra hca
            exact hlow ⟨a, ha, by simpa using hca, hoa, hlt⟩
          · -- loops inside the innermost one have ended
            have hin := (hn.owner_spec a r.header ha hoa).2.2
            have hle := hrank q hq
            rw [heq] at hle
            omega
        | enter _ howner _ hexit =>
          obtain rfl := Option.some.inj (howner.symm.trans ho)
          refine ⟨hm.header_claimed r hrm, fun q hq heq hmem => ?_⟩
          have hx := ((hp.loops q hq).exits _ hmem).2.2
          rw [heq, hexit] at hx
          cases hx
        | back howner _ =>
          have hgt := (hn.owner_spec a b ha howner).2.2
          omega
      have hripe := ripe_of_forward hn hb hforward
      have hwait := h b hb hc hripe
      obtain ⟨q, hq, hhead, hbq⟩ := (waiting_of_owner_some ho).1 hwait
      have hqr : q = r := by
        rw [hl] at hq
        rcases List.mem_cons.1 hq with rfl | hq
        · rfl
        · have := Stack.rank_lt hn hstack hreach _ (List.mem_map_of_mem hq)
          rw [hhead] at this
          exact absurd this (Nat.lt_irrefl _)
      exact ⟨b, hqr ▸ hbq, hripe.not_blocked hw⟩

/-- It is enough that waiting blocks go on waiting, and that those behind edges newly taken up begin
to. -/
theorem of_step (h : Covered p owner rank m)
    (hmono : ∀ c, m.facts.claimed c = true → m'.facts.claimed c = true)
    (hwait : ∀ c, m'.facts.claimed c = false → Ripe p rank m' c → Waiting owner m c →
      Waiting owner m' c)
    (hnew : ∀ a c, c ∈ p.successors a → m'.facts.claimed c = false → Taken m' a c → ¬ Taken m a c →
      Waiting owner m' c) : Covered p owner rank m' := by
  intro b hb hc hripe
  have hold : m.facts.claimed b = false := by
    by_contra hm
    rw [hmono b (by simpa using hm)] at hc
    cases hc
  by_cases hr : Ripe p rank m b
  · exact hwait b hc hripe (h b hb hold hr)
  · -- some edge into the block was not taken up before
    have hripe' := hripe
    unfold Ripe at hr hripe
    split at hr
    · rename_i hheader
      rw [if_pos hheader] at hripe
      obtain ⟨a, hsucc, hrank, ht⟩ := hripe
      exact hnew a b hsucc hc ht fun ht' => hr ⟨a, hsucc, hrank, ht'⟩
    · rename_i hheader
      rw [if_neg hheader] at hripe
      simp only [not_forall] at hr
      obtain ⟨a, hsucc, ht⟩ := hr
      exact hnew a b hsucc hc (hripe a hsucc) ht

/-- An edge is newly taken up when its source is processed, or when the loop of its source ends. -/
theorem source (hm : Reaches p s m) (hstep : Step p s m m') {a c : BlockId} (ht : Taken m' a c)
    (hno : ¬ Taken m a c) :
    (∃ t f, Enters p s m a t f) ∨
      ∃ r outer f, m.loops = r :: outer ∧ Ended s m r f ∧ r.header = a ∧ (a, c) ∈ r.exits := by
  by_cases hc : m.facts.claimed a = true
  · simp only [Taken, hc, true_and, not_forall, not_not] at hno
    obtain ⟨q, hq, hhead, hmem⟩ := hno
    rcases hstep.loop_kept hq with ⟨outer, f, hl, he⟩ | ⟨q', hq', hhead', hsub, -⟩
    · exact .inr ⟨q, outer, f, hl, he, hhead, hmem⟩
    · exact absurd (hsub _ hmem) (ht.2 q' hq' (hhead'.trans hhead))
  · rcases hm.claimed_step hstep with ⟨b, t, f, he, hcl⟩ | ⟨-, hcl⟩
    · obtain rfl := ((hcl a).1 ht.1).resolve_right hc
      exact .inl ⟨t, f, he⟩
    · exact absurd (hcl ▸ ht.1) hc

/-- Outside of loops, a block is entered when it is visited: pending merges are never left over. -/
theorem visited (hn : Nested p owner rank) (hp : Placed p owner m) (h : Covered p owner rank m)
    (hl : m.loops = []) (he : Enters p s m b t f) : ∃ t₀ rest, m.visits = (b, t₀) :: rest := by
  refine (he.first_visit hl).resolve_right fun ⟨hv, hr⟩ => ?_
  obtain ⟨hpend, hc, -⟩ := resolvable?_eq_some hr
  rw [h.all_claimed hn hl hv b (hp.pending b hpend).1] at hc
  cases hc

/-- A loop ends when its queue is empty: it is never given up. -/
theorem drained (ho : Orderly p m) (hlim : ∀ r ∈ m.loops, r.queue ≠ [] → r.taken < s.maxIterations)
    {r : LoopRun} (hr : r ∈ m.loops) (he : Ended s m r f) : r.queue = [] ∧ f = m.facts := by
  cases he with
  | drained hq => exact ⟨hq, rfl⟩
  | limit hq ht =>
    have := hlim r hr (by simp [hq])
    omega
  | reentry hq ht hc =>
    rw [ho.unclaimed r hr _ (by rw [hq]; exact List.mem_cons_self ..)] at hc
    cases hc

theorem ne_of_claimed {f : Facts} {c b : BlockId} (hc : f.claimed c = false)
    (hb : f.claimed b = true) : c ≠ b := by
  rintro rfl
  rw [hb] at hc
  cases hc

/-- A ripe block goes on waiting until it is processed. -/
theorem waiting_kept (hw : p.WellFormed) (ho : Orderly p m) (hm : Reaches p s m)
    (hlim : ∀ r ∈ m.loops, r.queue ≠ [] → r.taken < s.maxIterations) (hstep : Step p s m m')
    (hc : m'.facts.claimed b = false) (hripe : Ripe p rank m' b) (hwait : Waiting owner m b) :
    Waiting owner m' b := by
  cases hown : owner b with
  | none =>
    obtain ⟨u, hu⟩ := (waiting_of_owner_none hown).1 hwait
    rcases hstep.visit_kept hm hu with hcl | hu | ⟨-, hblocked⟩
    · exact absurd (hc.symm.trans hcl) Bool.false_ne_true
    · exact (waiting_of_owner_none hown).2 ⟨u, hu⟩
    · exact absurd hblocked (hripe.not_blocked hw)
  | some h =>
    obtain ⟨r, hr, hhead, hq⟩ := (waiting_of_owner_some hown).1 hwait
    rcases hstep.loop_kept hr with ⟨outer, f, -, he⟩ | ⟨r', hr', hhead', -, hqueue⟩
    · -- a loop ends when nothing waits in it
      rw [(drained ho hlim hr he).1] at hq
      cases hq
    · refine (waiting_of_owner_some hown).2 ⟨r', hr', hhead'.trans hhead,
        (hqueue b hq).resolve_right ?_⟩
      rintro ⟨-, t, f, he⟩
      exact Bool.false_ne_true (hc.symm.trans (hm.claimed_of_enters hstep he))

theorem waiting_opened (hn : Nested p owner rank) {a c : BlockId} {f₁ : Facts} (ha : p.Reachable a)
    (hheader : p.isLoopHeader a = true) (hr : (LoopRun.opened p f₁ a).2 ∈ m'.loops)
    (hsucc : c ∈ p.successors a) (hc : f₁.claimed c = false) (hne : c ≠ a) (ht : Taken m' a c) :
    Waiting owner m' c := by
  have hg := LoopRun.opened_grown (p := p) f₁ a
  have hmem : (a, c) ∈ p.edgesFrom a := List.mem_map_of_mem hsucc
  have hstays : p.isLoopExit a c = false := by
    by_contra hno
    refine ht.2 _ hr hg.header ?_
    rw [hg.exits]
    have hleaves : p.isLoopExit a c = true := by simpa using hno
    exact List.mem_append_right _ (List.mem_filter.2 ⟨hmem, hleaves⟩)
  exact (waiting_of_owner_some (hn.owner_of_stays ha hsucc hheader hstays)).2
    ⟨_, hr, hg.header, (hg.queue c).2 (.inr ⟨⟨_, hmem, rfl⟩, hne, hstays, hc⟩)⟩

theorem waiting_grown (hn : Nested p owner rank) {r r' : LoopRun} {f₁ f' : Facts} {a c : BlockId}
    {es : List (BlockId × BlockId)} (hg : LoopRun.Grown p (LoopRun.leaves p) f₁ r es f' r')
    (hr' : r' ∈ m'.loops) (hr : p.Reachable r.header) (hrc : f₁.claimed r.header = true)
    (ha : owner a = some r.header) (hown : owner c = owner a ∨ owner a = some c)
    (hmem : (a, c) ∈ es) (hc : f₁.claimed c = false) :
    Waiting owner m' c := by
  have hne := ne_of_claimed hc hrc
  rcases hown with ho | ho
  · have ho := ho.trans ha
    exact (waiting_of_owner_some ho).2 ⟨r', hr', hg.header,
      (hg.queue c).2 (.inr ⟨⟨_, hmem, rfl⟩, hne, hn.not_isLoopExit hr ho, hc⟩)⟩
  · rw [ha] at ho
    exact absurd (Option.some.inj ho).symm hne

theorem waiting_followed {m₁ : Machine} {es : List (BlockId × BlockId)} {a c : BlockId}
    (hf : follow p m₁ es = .ok m') (hown : owner c = none) (hmem : (a, c) ∈ es)
    (hc : m'.facts.claimed c = false) :
    Waiting owner m' c := by
  obtain ⟨hcore, -, -, -, hvis⟩ := follow_eq_ok hf
  rw [Facts.claimed_of_core hcore] at hc
  refine (waiting_of_owner_none hown).2 ⟨m₁.facts.exposed.table a, ?_⟩
  rw [hvis]
  exact List.mem_append_left _
    (List.mem_map.2 ⟨(a, c), List.mem_filter.2 ⟨hmem, by simp [hc]⟩, rfl⟩)

theorem waiting_entered (hn : Nested p owner rank) (hp : Placed p owner m) (hm : Reaches p s m)
    (hstep : Step p s m m') {a c : BlockId} (he : Enters p s m a t f) (hsucc : c ∈ p.successors a)
    (hc : m'.facts.claimed c = false) (ht : Taken m' a c) : Waiting owner m' c := by
  have hne := ne_of_claimed hc (hm.claimed_of_enters hstep he)
  obtain ⟨hreach, hown⟩ := hp.enters he
  have hstep' := hstep
  cases hstep with
  | walked hl he' hproc hb hpend hf =>
    obtain ⟨rfl, -, -⟩ := he.deterministic he'
    exact waiting_followed hf (hp.follows hn hm (.walked hl he hb hsucc)).2
      (List.mem_map_of_mem hsucc) hc
  | opened hl he' hproc hb hpend =>
    obtain ⟨rfl, -, -⟩ := he.deterministic he'
    exact waiting_opened hn hreach hb (List.mem_cons_self ..) hsucc
      (hm.claimed_process hstep' he' hproc ▸ hc) hne ht
  | nested hl hq he' hproc hb =>
    obtain ⟨rfl, -, -⟩ := he.deterministic he'
    exact waiting_opened hn hreach hb (List.mem_cons_self ..) hsucc
      (hm.claimed_process hstep' he' hproc ▸ hc) hne ht
  | @looped r outer b queue _ _ f₁ hl hq he' hproc hb f' r' ha =>
    obtain ⟨rfl, -, -⟩ := he.deterministic he'
    have hr : r ∈ m.loops := by rw [hl]; simp
    have hsame := hm.claimed_process hstep' he' hproc
    rw [hl] at hown
    exact waiting_grown hn (LoopRun.grown_of_absorb ha) (List.mem_cons_self ..)
      (hp.header_reachable hm hr :)
      (hsame ▸ hstep'.claimed_mono (hm.header_claimed r hr)) hown
        (hn.owner_of_leaves hreach hsucc (.inl hb))
      (List.mem_map_of_mem hsucc) (hsame ▸ hc)
  | skipped hl hv hcl => exact absurd he (not_enters_of_claimed hl hv hcl)
  | pended hl hv _ hpred hb hr => exact absurd he (not_enters_of_not_ready hl hv hpred hb hr)
  | deferred hl hq _ _ hnone => exact absurd he (not_enters_of_entry_none hl hq hnone)
  | closed hl he' => exact absurd he (he'.loops_ne hl)
  | returned hl he' => exact absurd he (he'.loops_ne hl)
  | finished hf => exact absurd he (not_enters_of_finished hf)

/-- A block behind an edge out of a loop that ends is waiting. -/
theorem waiting_ended (hn : Nested p owner rank) (hp : Placed p owner m) (hm : Reaches p s m)
    (hstep : Step p s m m') {r : LoopRun} {outer : List LoopRun} {c : BlockId}
    (hl : m.loops = r :: outer) (he : Ended s m r f) (hmem : (r.header, c) ∈ r.exits)
    (hc : m'.facts.claimed c = false) : Waiting owner m' c := by
  have hr : r ∈ m.loops := by rw [hl]; simp
  cases hstep with
  | closed hl' he' hclose hf =>
    rw [hl'] at hl
    obtain ⟨rfl, rfl⟩ := List.cons.inj hl
    exact waiting_followed hf (hp.follows hn hm (.left hl' he hmem)).2 hmem hc
  | @returned r' o rest f' f₁ hl' he' hclose f₂ o' ha =>
    obtain ⟨rfl, rfl⟩ := List.cons.inj (hl'.symm.trans hl)
    have hg := LoopRun.grown_of_absorb ha
    have hom : o ∈ m.loops := by rw [hl]; simp
    have hstack := hp.stack
    rw [hl] at hstack
    exact waiting_grown hn hg (List.mem_cons_self ..) (hp.header_reachable hm hom)
      (hm.claimed_close hr he' hclose ▸ hm.header_claimed o hom) hstack.1
        (hp.exit_owner hn hm hr hmem).2 hmem
      (Facts.claimed_of_core hg.core ▸ hc)
  | walked _ he' => exact absurd he' (he.loops_ne hl)
  | opened _ he' => exact absurd he' (he.loops_ne hl)
  | looped _ _ he' => exact absurd he' (he.loops_ne hl)
  | nested _ _ he' => exact absurd he' (he.loops_ne hl)
  | skipped hl' => rw [hl'] at hl; cases hl
  | pended hl' => rw [hl'] at hl; cases hl
  | deferred hl' hq ht hcl =>
    cases he <;> simp_all
    omega
  | finished hf =>
    simp only [Machine.finished, Bool.and_eq_true, List.isEmpty_iff] at hf
    rw [hf.1.1] at hl
    cases hl

/-- Where loops are nested, every step leaves no block out that could be processed. -/
theorem step (hw : p.WellFormed) (hn : Nested p owner rank) (hp : Placed p owner m)
    (ho : Orderly p m) (hm : Reaches p s m) (h : Covered p owner rank m)
    (hlim : ∀ r ∈ m.loops, r.queue ≠ [] → r.taken < s.maxIterations) (hstep : Step p s m m') :
    Covered p owner rank m' := by
  refine h.of_step (fun c => hstep.claimed_mono) (fun c hc hripe hwait =>
    waiting_kept hw ho hm hlim hstep hc hripe hwait)
    fun a c hsucc hc ht hno => ?_
  rcases source hm hstep ht hno with ⟨t, f, he⟩ | ⟨r, outer, f, hl, he, rfl, hmem⟩
  · exact waiting_entered hn hp hm hstep he hsucc hc ht
  · exact waiting_ended hn hp hm hstep hl he hmem hc

end Covered

/-- Where loops are nested, and none is given up, every block that could be processed is waiting. -/
theorem Reaches.covered (hw : p.WellFormed) (hn : Nested p owner rank)
    (hlim : ∀ m, Reaches p s m → ∀ r ∈ m.loops, r.queue ≠ [] → r.taken < s.maxIterations)
    (hm : Reaches p s m) :
    Covered p owner rank m := by
  refine hm.invariant ?_ fun m m' hm ih hstep => ?_
  · intro b hb hc hripe
    by_cases hentry : b = p.entry
    · subst hentry
      exact (waiting_of_owner_none hn.entry_owner).2 ⟨∅, List.mem_singleton_self _⟩
    · -- no edge was taken up yet
      obtain ⟨a, hsucc, -⟩ := hn.forward b hb hentry
      have hno : ∀ a c, ¬ Taken (start p s) a c := by
        rintro a c ⟨ha, -⟩
        simp [start] at ha
      unfold Ripe at hripe
      split at hripe
      · obtain ⟨a, -, -, ht⟩ := hripe
        exact absurd ht (hno a b)
      · exact absurd (hripe a hsucc) (hno a b)
  · exact ih.step hw hn (hm.placed hn) (hm.orderly hn) hm (hlim m hm) hstep

/-- At the end of an analysis, every block that control can come to was processed. -/
theorem Reaches.all_claimed (hw : p.WellFormed) (hn : Nested p owner rank)
    (hlim : ∀ m, Reaches p s m → ∀ r ∈ m.loops, r.queue ≠ [] → r.taken < s.maxIterations)
    (hm : Reaches p s m) (hf : m.finished p = true) :
    ∀ b, p.Reachable b → m.facts.claimed b = true := by
  simp only [finished, Bool.and_eq_true, List.isEmpty_iff] at hf
  exact (hm.covered hw hn hlim).all_claimed hn hf.1.1 hf.1.2

end Machine

end ArrayFlow
