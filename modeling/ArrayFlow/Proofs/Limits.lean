import ArrayFlow.Proofs.Progress
import ArrayFlow.Proofs.Lockstep

/-!
# Every analysis ends, and when a loop is cut short

The steps of an analysis are bounded by the control-flow graph, whatever limit is set for loops. The
limit is a precaution: a loop that it does not cut short does not depend on it, and one over few
blocks never comes to it.

* `step_wellFounded`    : no analysis goes on forever;
* `Facts.Uncut`         : no loop was cut short;
* `Step.uncut_iff`      : a step cuts a loop short exactly when the innermost one is at its limit
  and not done;
* `Reaches.taken_le_sq` : how often a loop takes a block from its queue;
* `analyze_terminates`  : every analysis ends, and with a limit of the square of the number of
  blocks no loop is cut short;
* `step_raised`, `run_raised` : a larger limit makes no difference to steps and runs that cut no
  loop short;
* `analyze_limit_raised` : so it makes none to the report.
-/

namespace ArrayFlow

variable {p : Procedure} {s : Settings}

/-- No loop was cut short. -/
def Facts.Uncut (f : Facts) : Prop := ∀ d ∈ f.diagnostics, d.kind ≠ .loopLimit

namespace Machine

variable {m m' : Machine} {r : LoopRun}

/-! ## the end of an analysis -/

/-- There is no infinite run: the potential drops with every step until nothing is left to do. -/
theorem step_wellFounded (p : Procedure) (s : Settings) :
    WellFounded fun m' m : Machine => Reaches p s m ∧ m.finished p = false ∧ step p s m = .ok m' :=
  Subrelation.wf (fun ⟨hm, hf, hstep⟩ => hm.potential_lt (step_cases hstep) hf)
    (measure (potential p)).wf

/-- With enough steps, a run fails or comes to an end, and more steps change nothing. -/
theorem run_settles (p : Procedure) (s : Settings) :
    (∃ fault, ∀ n, p.stepBound ≤ n → run p s n (start p s) = .error fault) ∨
      ∃ m, m.finished p = true ∧ ∀ n, p.stepBound ≤ n → run p s n (start p s) = .ok m := by
  cases h : run p s p.stepBound (start p s) with
  | error fault => exact .inl ⟨fault, fun n hn => (run_enough hn).trans h⟩
  | ok m => exact .inr ⟨m, run_finished h, fun n hn => (run_enough hn).trans h⟩

theorem Reaches.taken_le_sq (hm : Reaches p s m) (hr : r ∈ m.loops) :
    r.taken ≤ p.targets.card * p.targets.card := by
  by_cases hq : r.queue = []
  · have htaken := hm.taken_le r hr
    have hstalled := (hm.bounded.loops r hr).stalled
    rw [hq, List.length_nil] at hstalled
    omega
  · exact (hm.taken_lt hr hq).le

/-! ## loops that are cut short -/

/-- A step cuts no loop short, unless blocks wait in the innermost one and it has taken as many as
it may. -/
theorem Step.uncut_iff (h : Step p s m m') :
    m'.facts.Uncut ↔
      m.facts.Uncut ∧ ∀ r outer, m.loops = r :: outer → r.queue ≠ [] →
        r.taken < s.maxIterations := by
  constructor
  · intro huncut
    refine ⟨fun d hd => huncut d (h.mem_diagnostics hd), fun r outer hl hq => ?_⟩
    by_contra hlimit
    obtain ⟨b, queue, hq⟩ := List.exists_cons_of_ne_nil hq
    obtain ⟨f₁, hc, hcore, -⟩ := h.of_ended hl (.limit hq (Nat.le_of_not_lt hlimit))
    refine huncut (.ofFault (.loopLimit r.header s.maxIterations)) ?_ rfl
    rw [Facts.diagnostics_of_core hcore, diagnostics_close hc]
    simp [Facts.report]
  · rintro ⟨huncut, hroom⟩ d hd
    cases h.change with
    | processed he hp hcore =>
      rw [Facts.diagnostics_of_core hcore] at hd
      obtain ⟨t', f', hs, rfl⟩ := Transfer.process_eq_ok.1 hp
      obtain ⟨ds, hds, hmem⟩ := Transfer.statements_diagnostics hs
      rw [show (f'.expose _ t').diagnostics = _ from hds, he.diagnostics_eq, List.mem_append] at hd
      rcases hd with hd | hd
      · exact huncut d hd
      · obtain ⟨i, stmt, u, g, -, -, hfound⟩ := (hmem d).1 hd
        rw [(Transfer.finding?_kind hfound).1]
        decide
    | ended hl he hc hcore =>
      rw [Facts.diagnostics_of_core hcore, diagnostics_close hc] at hd
      cases he with
      | drained => exact huncut d hd
      | limit hq ht => exact absurd (hroom _ _ hl (by simp [hq])) (Nat.not_lt_of_ge ht)
      | reentry =>
        rcases List.mem_append.1 hd with hd | hd
        · exact huncut d hd
        · rw [List.mem_singleton.1 hd]
          exact DiagnosticKind.noConfusion
    | none _ hcore =>
      rw [Facts.diagnostics_of_core hcore] at hd
      exact huncut d hd

theorem Reaches.uncut (hm : Reaches p s m)
    (hroom : ∀ m, Reaches p s m → ∀ r ∈ m.loops, r.queue ≠ [] → r.taken < s.maxIterations) :
    m.facts.Uncut := by
  refine hm.invariant (P := fun m => m.facts.Uncut) (by simp [start, Facts.start, Facts.Uncut]) ?_
  intro m m' hm ih hstep
  exact hstep.uncut_iff.2 ⟨ih, fun r outer hl => hroom m hm r (by rw [hl]; simp)⟩

theorem uncut_conclude (m : Machine) : m.conclude.Uncut ↔ m.facts.Uncut := by
  rw [conclude_eq]
  refine ⟨fun h d hd => h d (List.mem_append_left _ hd), fun h d hd => ?_⟩
  rcases List.mem_append.1 hd with hd | hd
  · exact h d hd
  · obtain ⟨b, -, rfl⟩ := List.mem_map.1 hd
    exact DiagnosticKind.noConfusion

/-! ## larger limits -/

/-- The limit is looked at in one place, and there it was not reached. -/
theorem step_raised {k : Nat} (hk : s.maxIterations ≤ k) (h : step p s m = .ok m')
    (hm' : m'.facts.Uncut) :
    step p { s with maxIterations := k } m = .ok m' := by
  have hroom := ((step_cases h).uncut_iff.1 hm').2
  cases hl : m.loops with
  | nil =>
    cases hv : m.visits with
    | nil =>
      simp only [step, hl, hv] at h ⊢
      exact h
    | cons v visits =>
      simp only [step, hl, hv] at h ⊢
      exact h
  | cons r outer =>
    cases hq : r.queue with
    | nil =>
      simp only [step, hl, hq] at h ⊢
      exact h
    | cons b queue =>
      have ht := hroom r outer hl (by simp [hq])
      simp only [step, hl, hq, take] at h ⊢
      rw [if_neg (by omega)] at h ⊢
      exact h

theorem run_raised {k n : Nat} (hk : s.maxIterations ≤ k) (h : run p s n m = .ok m')
    (hm' : m'.facts.Uncut) : run p { s with maxIterations := k } n m = .ok m' := by
  induction n generalizing m with
  | zero => exact h
  | succ n ih =>
    rw [run] at h ⊢
    by_cases hf : m.finished p = true
    · rw [if_pos hf] at h ⊢
      exact h
    · rw [if_neg hf, bind_eq_ok] at h
      obtain ⟨m₁, h₁, h⟩ := h
      -- what was cut short stays reported
      obtain ⟨ds, hds⟩ := run_diagnostics h
      have hm₁ : m₁.facts.Uncut := fun d hd => hm' d (by rw [hds]; exact List.mem_append_left _ hd)
      rw [if_neg hf, step_raised hk h₁ hm₁]
      exact ih h

end Machine

/-- Two loops, one inside the other, in which merges are taken from the queue before their
predecessors: block 4 before 3, and block 7 before 6. -/
def mergesTooEarly : Draft where
  name := "merges too early"
  blocks := (List.range 9).map fun i => (⟨i⟩, [⟨⟨i⟩, i + 1, "a[i] = x", .write ⟨"a", .expr "i"⟩⟩])
  edges := [(⟨0⟩, ⟨1⟩), (⟨1⟩, ⟨2⟩), (⟨2⟩, ⟨3⟩), (⟨2⟩, ⟨4⟩), (⟨3⟩, ⟨4⟩), (⟨4⟩, ⟨2⟩), (⟨2⟩, ⟨5⟩),
    (⟨5⟩, ⟨7⟩), (⟨5⟩, ⟨6⟩), (⟨6⟩, ⟨7⟩), (⟨7⟩, ⟨1⟩), (⟨1⟩, ⟨8⟩)]
  loops := [.blocks ⟨1⟩ ⟨8⟩, .blocks ⟨2⟩ ⟨5⟩]

/-- Every analysis ends, whatever the limit for loops: no run is infinite, and the steps that an
analysis is given lead to a fault or to a state with nothing left to do, which more steps do not
change. In a finished procedure of `n` blocks a loop takes at most `n * n` blocks from its queue, so
that with a limit of `n * n` none is ever cut short. -/
theorem analyze_terminates (p : Procedure) (s : Settings) :
    (WellFounded fun m' m : Machine =>
      Machine.Reaches p s m ∧ m.finished p = false ∧ Machine.step p s m = .ok m') ∧
    ((∃ fault, ∀ n, p.stepBound ≤ n → Machine.run p s n (.start p s) = .error fault) ∨
      ∃ m, m.finished p = true ∧ ∀ n, p.stepBound ≤ n → Machine.run p s n (.start p s) = .ok m) ∧
    ∀ d : Draft, d.build = .ok p →
      (∀ m, Machine.Reaches p s m → ∀ r ∈ m.loops, r.taken ≤ p.blocks.length * p.blocks.length ∧
        (r.queue ≠ [] → r.taken < p.blocks.length * p.blocks.length)) ∧
      (p.blocks.length * p.blocks.length ≤ s.maxIterations →
        (∀ m, Machine.Reaches p s m → ∀ d ∈ m.facts.diagnostics, d.kind ≠ .loopLimit) ∧
        ∀ r, analyze p s = .ok r → ∀ d ∈ r.facts.diagnostics, d.kind ≠ .loopLimit) := by
  refine ⟨Machine.step_wellFounded p s, Machine.run_settles p s, fun d hb => ?_⟩
  have hcard := (Procedure.WellFormed.of_build hb).card_targets_le
  have hsq := Nat.mul_le_mul hcard hcard
  refine ⟨fun m hm r hr =>
    ⟨(hm.taken_le_sq hr).trans hsq, fun hq => (hm.taken_lt hr hq).trans_le hsq⟩, fun hmax => ?_⟩
  have huncut : ∀ m, Machine.Reaches p s m → m.facts.Uncut := fun m hm =>
    hm.uncut fun m hm r hr hq => (hm.taken_lt hr hq).trans_le (hsq.trans hmax)
  refine ⟨huncut, fun r hr => ?_⟩
  obtain ⟨-, m, -, hm, rfl⟩ := analyze_eq_ok hr
  exact (Machine.uncut_conclude m).2 (huncut m hm)

theorem analyze_terminates_mergesTooEarly :
    ∃ p r r', mergesTooEarly.build = .ok p ∧ p.blocks.length = 9 ∧
      analyze p { maxIterations := 4 } = .ok r ∧ r.facts.diagnostics.map (·.kind) = [.loopLimit] ∧
      analyze p { maxIterations := 81 } = .ok r' ∧ r'.facts.claimed ⟨7⟩ = true ∧
      (∀ d ∈ r'.facts.diagnostics, d.kind ≠ .loopLimit) ∧
      ∀ m, Machine.Reaches p { maxIterations := 4 } m → ∀ q ∈ m.loops, q.taken ≤ 81 := by
  obtain ⟨p, r, hb, h, hP⟩ :=
    Draft.check_eq_true (d := mergesTooEarly) (s := { maxIterations := 4 })
    (P := fun p r => p.blocks.length = 9 ∧ r.facts.diagnostics.map (·.kind) = [.loopLimit])
      (by decide +kernel)
  obtain ⟨p', r', hb', h', hP'⟩ :=
    Draft.check_eq_true (d := mergesTooEarly) (s := { maxIterations := 81 })
    (P := fun _ r => r.facts.claimed ⟨7⟩) (by decide +kernel)
  obtain rfl : p = p' := Except.ok.inj (hb.symm.trans hb')
  obtain ⟨hn, hkinds⟩ := of_decide_eq_true hP
  obtain ⟨htaken, -⟩ := (analyze_terminates p { maxIterations := 4 }).2.2 _ hb
  obtain ⟨-, huncut⟩ := (analyze_terminates p { maxIterations := 81 }).2.2 _ hb
  rw [hn] at htaken huncut
  exact ⟨p, r, r', hb, hn, h, hkinds, h', hP', (huncut (by decide)).2 r' h',
    fun m hm q hq => (htaken m hm q hq).1⟩

/-- A larger limit makes no difference to an analysis in which no loop was cut short. -/
theorem analyze_limit_raised {r : Report} {k : Nat} (hk : s.maxIterations ≤ k)
    (h : analyze p s = .ok r) (hr : ∀ d ∈ r.facts.diagnostics, d.kind ≠ .loopLimit) :
    analyze p { s with maxIterations := k } = .ok r := by
  obtain ⟨hentry, m, hrun, -, rfl⟩ := analyze_eq_ok h
  have hrun' : Machine.run p { s with maxIterations := k } p.stepBound
      (.start p { s with maxIterations := k }) = .ok m :=
    Machine.run_raised hk hrun ((Machine.uncut_conclude m).1 hr)
  unfold analyze
  rw [if_pos hentry, hrun']
  rfl

theorem analyze_limit_raised_mergesTooEarly :
    ∃ p r, mergesTooEarly.build = .ok p ∧ analyze p { maxIterations := 5 } = .ok r ∧
      r.facts.diagnostics = [] ∧ analyze p { maxIterations := 6 } = .ok r ∧
          analyze p {} = .ok r := by
  obtain ⟨p, r, hb, h, hP⟩ :=
    Draft.check_eq_true (d := mergesTooEarly) (s := { maxIterations := 5 })
    (P := fun _ r => r.facts.diagnostics = []) (by decide +kernel)
  have hnone := of_decide_eq_true hP
  have hraised (k : Nat) (hk : 5 ≤ k) : analyze p { maxIterations := k } = .ok r :=
    analyze_limit_raised (s := { maxIterations := 5 }) hk h (by simp [hnone])
  exact ⟨p, r, hb, h, hnone, hraised 6 (by decide), hraised 100000 (by decide)⟩

end ArrayFlow
