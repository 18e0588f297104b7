import ArrayFlow.Proofs.Findings
import ArrayFlow.Proofs.Nesting

/-!
# The analysis comes to every block once

Whatever the control flow looks like: as long as no loop is given up, the analysis comes to the
blocks that control can come to, to no others, and to each of them once.

* `Machine.Within`  : all that was processed or waits lies in a set of blocks;
* `Reaches.within`  : the set may be any that holds the entry and what comes behind processed blocks
  of the set;
* `Machine.Noted`   : the block was processed, or waits somewhere;
* `Reaches.noted`   : what comes behind a processed block is noted, by induction on the run;
* `Machine.Applies` : a step applies the statements of a block;
* `analyze_covers`  : the processed blocks are the reachable ones, each was processed in one step,
  and no merge is left over.
-/

namespace ArrayFlow

open Procedure

namespace Machine

variable {p : Procedure} {s : Settings} {R : BlockId → Prop} {m m' : Machine} {b c : BlockId}
  {t : Bindings} {f f' f₁ : Facts} {r r' : LoopRun} {outer : List LoopRun}
  {es : List (BlockId × BlockId)}

/-! ## what is come to -/

/-- All that was processed or waits is in the set `R`. -/
structure Within (R : BlockId → Prop) (m : Machine) : Prop where
  claimed : ∀ b, m.facts.claimed b = true → R b
  visits : ∀ x ∈ m.visits, R x.1
  pending : ∀ b ∈ m.pending, R b
  loops : ∀ r ∈ m.loops, (∀ b ∈ r.queue, R b) ∧ ∀ e ∈ r.exits, R e.2

namespace Within

theorem start (h : R p.entry) : Within R (start p s) where
  claimed := by simp [Machine.start]
  visits := by simpa [Machine.start] using h
  pending := by simp [Machine.start]
  loops := by simp [Machine.start]

theorem enters (h : Within R m) (he : Enters p s m b t f) : R b := by
  rcases he.waited with ⟨-, ⟨u, hv⟩ | hpend⟩ | ⟨r, outer, hl, hq⟩
  · exact h.visits (b, u) hv
  · exact h.pending b hpend
  · exact (h.loops r (by rw [hl]; exact List.mem_cons_self ..)).1 b hq

theorem grown {isExit : BlockId → BlockId × BlockId → Bool}
    (hg : LoopRun.Grown p isExit f r es f' r') (h : (∀ b ∈ r.queue, R b) ∧ ∀ e ∈ r.exits, R e.2)
    (hes : ∀ e ∈ es, R e.2) :
    (∀ b ∈ r'.queue, R b) ∧ ∀ e ∈ r'.exits, R e.2 := by
  refine ⟨fun b hb => ?_, fun e he => ?_⟩
  · rcases (hg.queue b).1 hb with hb | ⟨⟨e, he, rfl⟩, -⟩
    · exact h.1 b hb
    · exact hes e he
  · rcases hg.mem_exits he with he | he
    · exact h.2 e he
    · exact hes e he

/-- A step does not lead out of a set that holds what comes behind its processed blocks. -/
theorem step (h : Within R m) (hm : Reaches p s m) (hstep : Step p s m m')
    (hclosed : ∀ a c, m'.facts.claimed a = true → R a → c ∈ p.successors a → R c) :
    Within R m' := by
  have hbehind : ∀ {b t f}, Enters p s m b t f → ∀ e ∈ p.edgesFrom b, R e.2 := by
    intro b t f he e hmem
    obtain ⟨c, hc, rfl⟩ := List.mem_map.1 hmem
    exact hclosed b c (hm.claimed_of_enters hstep he) (h.enters he) hc
  refine ⟨fun c hc => ?_, fun x hx => ?_, fun c hc => ?_, fun r' hr' => ?_⟩
  · rcases hm.claimed_step hstep with ⟨b, t, f, he, hcl⟩ | ⟨-, hcl⟩
    · rcases (hcl c).1 hc with rfl | hc
      · exact h.enters he
      · exact h.claimed c hc
    · exact h.claimed c (hcl ▸ hc)
  · rcases hstep.visits_cases hx with hx | ⟨a, hf, -⟩
    · exact h.visits x hx
    · cases hf with
      | walked _ he _ hc => exact hbehind he (a, x.1) (List.mem_map_of_mem hc)
      | left hl _ hc => exact (h.loops _ (by rw [hl]; exact List.mem_cons_self ..)).2 _ hc
  · rcases hstep.pending_cases hc with hc | ⟨t, hx⟩
    · exact h.pending c hc
    · exact h.visits _ hx
  · have htaken : ∀ {r outer b queue}, m.loops = r :: outer → r.queue = b :: queue →
        (∀ c ∈ queue, R c) ∧ ∀ e ∈ r.exits, R e.2 := by
      intro r outer b queue hl hq
      obtain ⟨hqueue, hexits⟩ := h.loops r (by rw [hl]; exact List.mem_cons_self ..)
      exact ⟨fun c hc => hqueue c (by rw [hq]; exact List.mem_cons_of_mem _ hc), hexits⟩
    cases hstep.loop hr' with
    | kept hr => exact h.loops r' (List.mem_of_mem_tail hr)
    | opened he hp hb =>
      exact grown (LoopRun.opened_grown _ _) (by simp [LoopRun.start]) (hbehind he)
    | @nested r outer b queue t f hl hq he => exact htaken (r := r) hl hq
    | @looped r outer b queue t f f₁ f' r' hl hq he hp hb hg =>
      exact grown hg (htaken (r := r) hl hq) (hbehind he)
    | @deferred r outer b queue hl hq hm hs =>
      obtain ⟨hqueue, hexits⟩ := h.loops r (by rw [hl]; exact List.mem_cons_self ..)
      exact ⟨fun c hc => hqueue c (by rw [hq]; simpa [or_comm] using hc), hexits⟩
    | @returned r o rest f f₁ f' o' hl he hc hg =>
      exact grown hg (h.loops o (by rw [hl]; simp)) (h.loops r (by rw [hl]; simp)).2

end Within

/-- An analysis stays in any set that holds the entry and what comes behind the blocks of the set
that it processed so far. -/
theorem Reaches.within (hm : Reaches p s m) (hentry : R p.entry)
    (hclosed : ∀ a c, m.facts.claimed a = true → R a → c ∈ p.successors a → R c) : Within R m := by
  revert hclosed
  refine hm.invariant (P := fun m => (∀ a c, m.facts.claimed a = true → R a → c ∈ p.successors a →
    R c) → Within R m)
    (fun _ => .start hentry) ?_
  intro m m' hm ih hstep hclosed
  exact (ih fun a c ha => hclosed a c (hstep.claimed_mono ha)).step hm hstep hclosed

theorem Reaches.reachable (hm : Reaches p s m) : Within p.Reachable m :=
  hm.within .refl fun _ _ _ ha hc => ha.step hc

/-! ## what is not forgotten -/

/-- The block was processed, or it waits: on the walk, among the pending merges, in a loop, or
behind one. -/
inductive Noted (m : Machine) (c : BlockId) : Prop
  | claimed (h : m.facts.claimed c = true)
  | visited {t : Bindings} (h : (c, t) ∈ m.visits)
  | pending (h : c ∈ m.pending)
  | queued {r : LoopRun} (hr : r ∈ m.loops) (h : c ∈ r.queue)
  | left {r : LoopRun} {a : BlockId} (hr : r ∈ m.loops) (h : (a, c) ∈ r.exits)

/-- No loop was given up. -/
def Quiet (f : Facts) : Prop := ∀ d ∈ f.diagnostics, d.kind ≠ .loopReentry ∧ d.kind ≠ .loopLimit

theorem Quiet.of_step (h : Quiet m'.facts) (hstep : Step p s m m') : Quiet m.facts :=
  fun d hd => h d (hstep.mem_diagnostics hd)

theorem Ended.deterministic (h : Ended s m r f) (h' : Ended s m r f') : f = f' := by
  cases h with
  | drained hq => cases h' <;> simp_all
  | limit hq ht =>
    cases h' with
    | drained hq' => simp_all
    | limit => rfl
    | reentry _ ht' => omega
  | reentry hq ht =>
    cases h' with
    | drained hq' => simp_all
    | limit _ ht' => omega
    | reentry hq' =>
      rw [hq] at hq'
      cases hq'
      rfl

theorem Step.of_ended (h : Step p s m m') (hl : m.loops = r :: outer) (he : Ended s m r f) :
    ∃ f₁, LoopRun.close f r = .ok f₁ ∧ m'.facts.core = f₁.core ∧
      ((outer = [] ∧ follow p ⟨f₁, m.pending, m.visits, []⟩ r.exits = .ok m') ∨
        ∃ o rest o', outer = o :: rest ∧
          LoopRun.Grown p (LoopRun.leaves p) f₁ o r.exits m'.facts o' ∧
          m'.loops = o' :: rest) := by
  cases h with
  | closed hl' he' hc hf =>
    obtain ⟨rfl, rfl⟩ := List.cons.inj (hl'.symm.trans hl)
    obtain rfl := he.deterministic he'
    exact ⟨_, hc, (follow_eq_ok hf).1, .inl ⟨rfl, hf⟩⟩
  | returned hl' he' hc ha =>
    obtain ⟨rfl, rfl⟩ := List.cons.inj (hl'.symm.trans hl)
    obtain rfl := he.deterministic he'
    have hg := LoopRun.grown_of_absorb ha
    exact ⟨_, hc, hg.core, .inr ⟨_, _, _, rfl, hg, rfl⟩⟩
  | walked _ he' => exact absurd he' (he.loops_ne hl)
  | opened _ he' => exact absurd he' (he.loops_ne hl)
  | looped _ _ he' => exact absurd he' (he.loops_ne hl)
  | nested _ _ he' => exact absurd he' (he.loops_ne hl)
  | skipped hl' => rw [hl'] at hl; cases hl
  | pended hl' => rw [hl'] at hl; cases hl
  | deferred hl' hq ht hcl =>
    obtain ⟨rfl, rfl⟩ := List.cons.inj (hl'.symm.trans hl)
    cases he with
    | drained hq' => simp_all
    | limit _ ht' => omega
    | reentry hq' _ hc' => simp_all
  | finished hf =>
    simp only [Machine.finished, Bool.and_eq_true, List.isEmpty_iff] at hf
    rw [hf.1.1] at hl
    cases hl

theorem Step.drained (h : Step p s m m') (hquiet : Quiet m'.facts) (hl : m.loops = r :: outer)
    (he : Ended s m r f) :
    r.queue = [] := by
  obtain ⟨f₁, hc, hcore, -⟩ := h.of_ended hl he
  obtain ⟨ds, hds, hkind, hnil⟩ := he.diagnostics
  refine hnil (List.eq_nil_iff_forall_not_mem.2 fun d hd => ?_)
  have hmem : d ∈ m'.facts.diagnostics := by
    rw [Facts.diagnostics_of_core hcore, diagnostics_close hc, hds]
    exact List.mem_append_right _ hd
  rcases hkind d hd with hk | hk
  · exact (hquiet d hmem).2 hk
  · exact (hquiet d hmem).1 hk

/-- The walk comes to the blocks behind the edges that it follows, unless they were processed. -/
theorem visited_of_follow {m₁ : Machine} {a : BlockId} (hf : follow p m₁ es = .ok m')
    (he : (a, c) ∈ es) :
    m'.facts.claimed c = true ∨ ∃ t, (c, t) ∈ m'.visits := by
  obtain ⟨hcore, -, -, -, hvis⟩ := follow_eq_ok hf
  by_cases hc : m₁.facts.claimed c = true
  · exact .inl (by rw [Facts.claimed_of_core hcore]; exact hc)
  · refine .inr ⟨m₁.facts.exposed.table a, ?_⟩
    rw [hvis]
    exact List.mem_append_left _
      (List.mem_map.2 ⟨(a, c), List.mem_filter.2 ⟨he, by simpa using hc⟩, rfl⟩)

theorem Step.pending_kept (hstep : Step p s m m') (hm : Reaches p s m) (hx : c ∈ m.pending) :
    m'.facts.claimed c = true ∨ c ∈ m'.pending := by
  have herase : ∀ {b u f}, Enters p s m b u f → m'.pending = m.pending ∨
      m'.pending = m.pending.erase b →
      m'.facts.claimed c = true ∨ c ∈ m'.pending := by
    intro b u f he hpend
    rcases hpend with heq | heq
    · exact .inr (heq ▸ hx)
    · by_cases hcb : c = b
      · exact .inl (hcb ▸ hm.claimed_of_enters hstep he)
      · refine .inr ?_
        rw [heq, Std.ExtTreeSet.mem_erase]
        exact ⟨fun hcmp => hcb (Std.LawfulEqOrd.eq_of_compare hcmp).symm, hx⟩
  cases hstep with
  | walked hl he hproc hb hpend hf =>
    refine herase he ?_
    rw [(follow_eq_ok hf).2.1]
    exact hpend
  | opened hl he hproc hb hpend => exact herase he hpend
  | skipped => exact .inr hx
  | pended => exact .inr (Std.ExtTreeSet.mem_insert.2 (.inr hx))
  | looped hl hq he => exact herase he (.inr rfl)
  | nested hl hq he => exact herase he (.inr rfl)
  | deferred => exact .inr hx
  | closed hl he hc hf => exact .inr (by rw [(follow_eq_ok hf).2.1]; exact hx)
  | returned => exact .inr hx
  | finished => exact .inr hx

namespace Noted

/-- A block behind an edge that the walk follows. -/
theorem followed {m₁ : Machine} {a : BlockId} (hf : follow p m₁ es = .ok m') (he : (a, c) ∈ es) :
    Noted m' c := by
  rcases visited_of_follow hf he with hc | ⟨t, hx⟩
  · exact .claimed hc
  · exact .visited hx

theorem grown {isExit : BlockId → BlockId × BlockId → Bool} {a : BlockId}
    (hg : LoopRun.Grown p isExit f r es f' r') (hr' : r' ∈ m'.loops)
    (hsame : m'.facts.claimed = f.claimed) (hheader : f.claimed r.header = true)
    (hexit : isExit r.header (a, c) = false → c = r.header ∨ p.isLoopExit r.header c = false)
    (he : (a, c) ∈ es) :
    Noted m' c := by
  by_cases hx : isExit r.header (a, c) = true
  · refine .left hr' (a := a) ?_
    rw [hg.exits]
    exact List.mem_append_right _ (List.mem_filter.2 ⟨he, hx⟩)
  · by_cases hc : f.claimed c = true
    · exact .claimed (hsame ▸ hc)
    · have hne : c ≠ r.header := by
        rintro rfl
        exact hc hheader
      have hstays := (hexit (by simpa using hx)).resolve_left hne
      exact .queued hr' ((hg.queue c).2 (.inr ⟨⟨_, he, rfl⟩, hne, hstays, by simpa using hc⟩))

/-- The edges that `leaves` does not set aside lead to the header or stay inside the loop. -/
theorem absorbed {a : BlockId} (hg : LoopRun.Grown p (LoopRun.leaves p) f r es f' r')
    (hr' : r' ∈ m'.loops) (hsame : m'.facts.claimed = f.claimed)
    (hheader : f.claimed r.header = true) (he : (a, c) ∈ es) : Noted m' c := by
  refine grown hg hr' hsame hheader (fun hx => ?_) he
  simpa [LoopRun.leaves, or_iff_not_imp_left] using hx

theorem of_ended {a : BlockId} (hm : Reaches p s m) (hstep : Step p s m m')
    (hl : m.loops = r :: outer) (he : Ended s m r f) (hx : (a, c) ∈ r.exits) : Noted m' c := by
  obtain ⟨f₁, hc, hcore, ⟨-, hf⟩ | ⟨o, rest, o', rfl, hg, hl'⟩⟩ := hstep.of_ended hl he
  · exact followed hf hx
  · have hclose := hm.claimed_close (by rw [hl]; exact List.mem_cons_self ..) he hc
    refine absorbed hg (by rw [hl']; exact List.mem_cons_self ..)
      (Facts.claimed_of_core hcore) ?_ hx
    rw [hclose]
    exact hm.header_claimed o (by rw [hl]; simp)

/-- As long as no loop is given up, nothing that was noted is forgotten. -/
theorem step (hm : Reaches p s m) (hstep : Step p s m m') (hquiet : Quiet m'.facts)
    (h : Noted m c) : Noted m' c := by
  cases h with
  | claimed h => exact .claimed (hstep.claimed_mono h)
  | visited h =>
    rcases hstep.visit_kept hm h with hc | hx | ⟨hx, -⟩
    · exact .claimed hc
    · exact .visited hx
    · exact .pending hx
  | pending h => exact (hstep.pending_kept hm h).elim .claimed .pending
  | queued hr h =>
    rcases hstep.loop_kept hr with ⟨outer, f, hl, he⟩ | ⟨q, hq, -, -, hqueue⟩
    · rw [hstep.drained hquiet hl he] at h
      cases h
    · rcases hqueue c h with h | ⟨-, t, f, he⟩
      · exact .queued hq h
      · exact .claimed (hm.claimed_of_enters hstep he)
  | left hr h =>
    rcases hstep.loop_kept hr with ⟨outer, f, hl, he⟩ | ⟨q, hq, -, hexits, -⟩
    · exact of_ended hm hstep hl he h
    · exact .left hq (hexits _ h)

theorem of_enters (hm : Reaches p s m) (hstep : Step p s m m') (he : Enters p s m b t f)
    (hc : c ∈ p.successors b) :
    Noted m' c := by
  have hmem : (b, c) ∈ p.edgesFrom b := List.mem_map_of_mem hc
  have hopened : ∀ {f₁}, Transfer.process s b p t f = .ok f₁ →
      (LoopRun.opened p f₁ b).2 ∈ m'.loops → Noted m' c := by
    intro f₁ hproc hr
    refine grown (LoopRun.opened_grown (p := p) f₁ b) hr (hm.claimed_process hstep he hproc) ?_
      (fun hx => .inr hx) hmem
    rw [Transfer.claimed_process hproc]
    exact .inl rfl
  have hstep' := hstep
  cases hstep with
  | walked hl he' hproc hb hpend hf =>
    obtain ⟨rfl, -, -⟩ := he.deterministic he'
    exact followed hf hmem
  | opened hl he' hproc hb hpend =>
    obtain ⟨rfl, rfl, rfl⟩ := he.deterministic he'
    exact hopened hproc (List.mem_cons_self ..)
  | nested hl hq he' hproc hb =>
    obtain ⟨rfl, rfl, rfl⟩ := he.deterministic he'
    exact hopened hproc (List.mem_cons_self ..)
  | @looped r outer b queue t f f₁ hl hq he' hproc hb f' r' ha =>
    obtain ⟨rfl, rfl, rfl⟩ := he.deterministic he'
    have hsame := hm.claimed_process hstep' he hproc
    refine absorbed (LoopRun.grown_of_absorb ha) (List.mem_cons_self ..) hsame ?_ hmem
    rw [← hsame]
    exact hstep'.claimed_mono (hm.header_claimed r (by rw [hl]; exact List.mem_cons_self ..))
  | skipped hl hv hcl => exact absurd he (not_enters_of_claimed hl hv hcl)
  | pended hl hv _ hpred hb hr => exact absurd he (not_enters_of_not_ready hl hv hpred hb hr)
  | deferred hl hq _ _ hnone => exact absurd he (not_enters_of_entry_none hl hq hnone)
  | closed hl he' => exact absurd he (he'.loops_ne hl)
  | returned hl he' => exact absurd he (he'.loops_ne hl)
  | finished hf => exact absurd he (not_enters_of_finished hf)

end Noted

/-- As long as no loop is given up, what comes behind a processed block is noted. -/
theorem Reaches.noted (hm : Reaches p s m) (hquiet : Quiet m.facts) :
    ∀ a c, m.facts.claimed a = true → c ∈ p.successors a → Noted m c := by
  revert hquiet
  refine hm.invariant (P := fun m => Quiet m.facts → ∀ a c, m.facts.claimed a = true →
    c ∈ p.successors a → Noted m c)
    ?_ ?_
  · simp [start]
  · intro m m' hm ih hstep hquiet a c ha hc
    by_cases hold : m.facts.claimed a = true
    · exact (ih (hquiet.of_step hstep) a c hold hc).step hm hstep hquiet
    · rcases hm.claimed_step hstep with ⟨b, t, f, he, hcl⟩ | ⟨-, hcl⟩
      · obtain rfl := ((hcl a).1 ha).resolve_right hold
        exact .of_enters hm hstep he hc
      · exact absurd (hcl ▸ ha) hold

/-- An entry that does not have to wait for predecessors is processed first. -/
theorem Reaches.entry_claimed
    (hentry : (p.predecessors p.entry).length < 2 ∨ p.isLoopHeader p.entry = true)
    (hm : Reaches p s m) : m = start p s ∨ m.facts.claimed p.entry = true := by
  have hfirst : Enters p s (start p s) p.entry ∅ (.start s) := by
    refine .brought rfl rfl (by simp [start]) (hentry.imp id fun h => ⟨h, ?_⟩)
    have hready : (start p s).facts.exposed.readyOf (p.predecessors p.entry) = [] := by
      simp [start, Facts.start, Exposed.readyOf, Exposed.isReady]
    rw [hready]
    decide
  refine hm.invariant (P := fun m => m = start p s ∨ m.facts.claimed p.entry = true) (.inl rfl) ?_
  rintro m m' hm (rfl | hc) hstep
  · exact .inr (hm.claimed_of_enters hstep hfirst)
  · exact .inr (hstep.claimed_mono hc)

/-- When nothing is left to do, a pending merge that some predecessor was processed of was
processed; it would be next. -/
theorem claimed_of_pending {a : BlockId} (hf : m.finished p = true) (hc : c ∈ m.pending)
    (hpred : a ∈ p.predecessors c) (ha : m.facts.claimed a = true) : m.facts.claimed c = true := by
  simp only [finished, Bool.and_eq_true, Option.isNone_iff_eq_none] at hf
  by_contra hno
  refine List.find?_eq_none.1 hf.2 c (Std.ExtTreeSet.mem_toList.2 hc) ?_
  simp only [Bool.and_eq_true, Bool.not_eq_true', List.isEmpty_eq_false_iff]
  exact ⟨by simpa using hno, List.ne_nil_of_mem (Exposed.mem_readyOf.2 ⟨hpred, ha⟩)⟩

/-- When nothing is left to do, the blocks that control can come to were processed. -/
theorem Reaches.claimed_of_reachable (hw : p.WellFormed)
    (hentry : (p.predecessors p.entry).length < 2 ∨ p.isLoopHeader p.entry = true)
    (hm : Reaches p s m) (hf : m.finished p = true) (hquiet : Quiet m.facts) (hb : p.Reachable b) :
    m.facts.claimed b = true := by
  obtain ⟨hl, hv⟩ : m.loops = [] ∧ m.visits = [] := by
    simp only [finished, Bool.and_eq_true, List.isEmpty_iff] at hf
    exact hf.1
  induction hb with
  | refl =>
    refine (hm.entry_claimed hentry).resolve_left ?_
    rintro rfl
    cases hv
  | @tail a c _ hc ih =>
    cases hm.noted hquiet a c ih hc with
    | claimed h => exact h
    | visited h => rw [hv] at h; cases h
    | queued h => rw [hl] at h; cases h
    | left h => rw [hl] at h; cases h
    | pending h => exact claimed_of_pending hf h ((hw.mem_predecessors a c).2 hc) ih

/-! ## each block once -/

theorem run_of_finished (hf : m.finished p = true) (n : Nat) : run p s n m = .ok m := by
  cases n with
  | zero => rfl
  | succ n => rw [run, if_pos hf]

theorem run_add (n k : Nat) (m : Machine) : run p s (n + k) m = run p s n m >>= run p s k := by
  induction n generalizing m with
  | zero =>
    rw [Nat.zero_add]
    rfl
  | succ n ih =>
    rw [Nat.succ_add, run, run]
    split
    · rename_i hf
      exact (run_of_finished hf k).symm
    · cases step p s m with
      | error e => rfl
      | ok m' => exact ih m'

theorem run_succ {n : Nat} (hrun : run p s n (start p s) = .ok m) (hf : m.finished p = false)
    (hstep : Machine.step p s m = .ok m') : run p s (n + 1) (start p s) = .ok m' := by
  rw [run_add, hrun]
  show run p s 1 m = .ok m'
  rw [run, if_neg (by simp [hf]), hstep]
  rfl

theorem step_of_finished (hf : m.finished p = true) : Machine.step p s m = .ok m := by
  simp only [finished, Bool.and_eq_true, List.isEmpty_iff, Option.isNone_iff_eq_none] at hf
  simp only [Machine.step, hf.1.1, hf.1.2, hf.2]

theorem Reaches.exists_run (hm : Reaches p s m) : ∃ n, run p s n (start p s) = .ok m := by
  induction hm with
  | refl => exact ⟨0, rfl⟩
  | @tail m m' _ hstep ih =>
    obtain ⟨n, hn⟩ := ih
    by_cases hf : m.finished p = true
    · rw [step_of_finished hf] at hstep
      exact ⟨n, hn.trans hstep⟩
    · exact ⟨n + 1, run_succ hn (by simpa using hf) hstep⟩

theorem claimed_run {n : Nat} (hrun : run p s n m = .ok m') (hc : m.facts.claimed b = true) :
    m'.facts.claimed b = true := by
  induction n generalizing m with
  | zero =>
    cases hrun
    exact hc
  | succ n ih =>
    rw [run] at hrun
    split at hrun
    · cases hrun
      exact hc
    · rw [bind_eq_ok] at hrun
      obtain ⟨m₁, h₁, hrun⟩ := hrun
      exact ih hrun ((step_cases h₁).claimed_mono hc)

theorem Reaches.claimed_of_finished (hm : Reaches p s m) (hm' : Reaches p s m')
    (hf : m'.finished p = true) (hc : m.facts.claimed b = true) : m'.facts.claimed b = true := by
  obtain ⟨n, hn⟩ := hm.exists_run
  obtain ⟨k, hk⟩ := hm'.exists_run
  rcases Nat.le_total n k with hle | hle
  · obtain ⟨j, rfl⟩ := Nat.exists_eq_add_of_le hle
    rw [run_add, hn] at hk
    exact claimed_run hk hc
  · obtain ⟨j, rfl⟩ := Nat.exists_eq_add_of_le hle
    rw [run_add, hk] at hn
    obtain rfl : m' = m := Except.ok.inj ((run_of_finished hf j).symm.trans hn)
    exact hc

/-- Step number `n` of the analysis applies the statements of the block `b`: what they leave is what
the step leaves, the flow graph apart. -/
def Applies (p : Procedure) (s : Settings) (n : Nat) (b : BlockId) : Prop :=
  ∃ m m' t f f₁, run p s n (start p s) = .ok m ∧ Machine.step p s m = .ok m' ∧ Enters p s m b t f ∧
    Transfer.process s b p t f = .ok f₁ ∧ m'.facts.core = f₁.core

theorem Reaches.exists_applies (hm : Reaches p s m) (hc : m.facts.claimed b = true) :
    ∃ n, Applies p s n b := by
  induction hm with
  | refl => simp [start] at hc
  | @tail m m' hm hstep ih =>
    by_cases hold : m.facts.claimed b = true
    · exact ih hold
    · obtain ⟨n, hn⟩ := Reaches.exists_run hm
      cases (step_cases hstep).change with
      | @processed b' t f f₁ he hp hcore =>
        rw [Facts.claimed_of_core hcore, Transfer.claimed_process hp, he.claimed_eq] at hc
        obtain rfl := hc.resolve_right hold
        exact ⟨n, m, m', t, f, f₁, hn, hstep, he, hp, hcore⟩
      | ended hl he hclose hcore =>
        rw [Facts.claimed_of_core hcore,
          Reaches.claimed_close hm (by rw [hl]; exact List.mem_cons_self ..) he hclose] at hc
        exact absurd hc hold
      | none hn hcore =>
        rw [Facts.claimed_of_core hcore] at hc
        exact absurd hc hold

theorem Applies.unique {n k : Nat} (h : Applies p s n b) (h' : Applies p s k b) : n = k := by
  -- once a block was processed it stays so, and only blocks that were not are
  have later : ∀ {n k : Nat}, Applies p s n b → Applies p s k b → ¬ n < k := by
    rintro n k ⟨m, m₁, t, f, f₁, hn, hstep, he, -, -⟩ ⟨m', -, t', f', -, hk, -, he', -, -⟩ hlt
    have hm : Reaches p s m := reaches_of_run .refl hn
    have hnf : m.finished p = false := by
      by_contra hf
      exact not_enters_of_finished (by simpa using hf) he
    obtain ⟨j, rfl⟩ := Nat.exists_eq_add_of_lt hlt
    rw [Nat.add_right_comm, run_add, run_succ hn hnf hstep] at hk
    have hc : m'.facts.claimed b = true :=
      claimed_run hk (hm.claimed_of_enters (step_cases hstep) he)
    rw [he'.unclaimed] at hc
    cases hc
  have h₁ := later h h'
  have h₂ := later h' h
  omega

theorem Applies.reachable {n : Nat} (h : Applies p s n b) : p.Reachable b := by
  obtain ⟨m, -, t, f, -, hn, -, he, -, -⟩ := h
  exact (reaches_of_run .refl hn : Reaches p s m).reachable.enters he

end Machine

/-- Where the entry does not have to wait, and no loop is given up, an analysis that comes to an end
exposes the bindings of the blocks that control can come to and of no others; it applied the
statements of each of them in one step, and those of no other block; and no merge is left over. -/
theorem analyze_covers {d : Draft} {p : Procedure} {s : Settings} {r : Report}
    (hb : d.build = .ok p)
    (hentry : (p.predecessors p.entry).length < 2 ∨ p.isLoopHeader p.entry = true)
    (h : analyze p s = .ok r)
    (hquiet : ∀ x ∈ r.facts.diagnostics, x.kind ≠ .loopReentry ∧ x.kind ≠ .loopLimit) :
    (∀ b, r.facts.claimed b = true ↔ p.Reachable b) ∧
    (∀ b, p.Reachable b → ∃! n, Machine.Applies p s n b) ∧
    (∀ b n, Machine.Applies p s n b → p.Reachable b) ∧
    ∀ x ∈ r.facts.diagnostics, x.kind ≠ .unreachableMerge := by
  obtain ⟨-, m, hrun, hm, rfl⟩ := analyze_eq_ok h
  have hf := Machine.run_finished hrun
  have hq : Machine.Quiet m.facts := by
    intro x hx
    refine hquiet x ?_
    rw [Machine.conclude_eq]
    exact List.mem_append_left _ hx
  have hall : ∀ b, p.Reachable b → m.facts.claimed b = true := fun b =>
    hm.claimed_of_reachable (.of_build hb) hentry hf hq
  refine ⟨fun b => ?_, fun b hb => ?_, fun b n hn => hn.reachable, fun x hx => ?_⟩
  · rw [Machine.conclude_eq]
    exact ⟨hm.reachable.claimed b, hall b⟩
  · obtain ⟨n, hn⟩ := hm.exists_applies (hall b hb)
    exact ⟨n, hn, fun k hk => hk.unique hn⟩
  · rw [Machine.conclude_eq, List.mem_append] at hx
    rcases hx with hx | hx
    · exact hm.not_unreachableMerge x hx
    · -- a merge that is left over would be reachable and not processed
      obtain ⟨c, hc, rfl⟩ := List.mem_map.1 hx
      obtain ⟨hc, hno⟩ := List.mem_filter.1 hc
      rw [hall c (hm.reachable.pending c (Std.ExtTreeSet.mem_toList.1 hc))] at hno
      cases hno

/-- A loop with two exits around another one, a cycle that is not declared as a loop, and a block
that control does not come to in front of a merge. -/
def tangledFlow : Draft where
  name := "tangled flow"
  blocks := (List.range 10).map fun i => (⟨i⟩, [⟨⟨i⟩, i, "skip", .other⟩])
  edges := [(⟨0⟩, ⟨1⟩), (⟨1⟩, ⟨2⟩), (⟨2⟩, ⟨3⟩), (⟨3⟩, ⟨2⟩), (⟨2⟩, ⟨4⟩), (⟨4⟩, ⟨1⟩), (⟨1⟩, ⟨5⟩),
    (⟨4⟩, ⟨6⟩), (⟨5⟩, ⟨7⟩), (⟨7⟩, ⟨5⟩), (⟨6⟩, ⟨8⟩), (⟨9⟩, ⟨8⟩)]
  loops := [.blocks ⟨1⟩ ⟨5⟩, .blocks ⟨1⟩ ⟨6⟩, .blocks ⟨2⟩ ⟨4⟩]

theorem analyze_covers_tangledFlow :
    ∃ p r, tangledFlow.build = .ok p ∧ analyze p {} = .ok r ∧ (p.predecessors p.entry).length < 2 ∧
      r.facts.diagnostics = [] ∧ r.facts.claimed ⟨8⟩ = true ∧ r.facts.claimed ⟨9⟩ = false ∧
      (∃! n, Machine.Applies p {} n ⟨8⟩) ∧ ∀ n, ¬ Machine.Applies p {} n ⟨9⟩ := by
  obtain ⟨p, r, hb, h, hP⟩ := Draft.check_eq_true (d := tangledFlow) (s := {})
    (P := fun p r => (p.predecessors p.entry).length < 2 ∧ r.facts.diagnostics = [] ∧
      r.facts.claimed ⟨8⟩ = true ∧ r.facts.claimed ⟨9⟩ = false) (by decide +kernel)
  obtain ⟨hentry, hnone, height, hnine⟩ := of_decide_eq_true hP
  obtain ⟨hiff, honce, honly, -⟩ := analyze_covers hb (.inl hentry) h (by simp [hnone])
  refine ⟨p, r, hb, h, hentry, hnone, height, hnine, honce _ ((hiff _).1 height), fun n hn => ?_⟩
  rw [(hiff _).2 (honly _ n hn)] at hnine
  cases hnine

end ArrayFlow
