import ArrayFlow.Proofs.Spans

/-!
# Loops that are stuck

A loop puts a merge back that has to wait, and counts how many blocks in a row it put back. When it
comes to put back as many as there are, it fails.

* `Machine.Stalls`      : the step fails because the innermost loop is stuck;
* `Stalls.stuck`        : then every block of its queue is stuck, as those behind the first one were
  put back before;
* `Stalls.missing`      : the fault names a predecessor that the first one waits for;
* `Machine.Tried`       : a loop takes a block from its queue and processes it;
* `Leads.queued`        : as long as a loop is at work, a block stays in its queue until it is
  tried;
* `Reaches.stalls`      : a queue of stuck blocks is noticed in one pass;
* `stall_exact`         : so a loop fails when nothing in its queue can be processed, and not
  before.
-/

namespace ArrayFlow

variable {p : Procedure} {s : Settings}

theorem LoopRun.missing_spec {f : Facts} {b : BlockId}
    (h : ∃ a ∈ p.predecessors b, f.claimed a = false) :
    missing p f b ∈ p.predecessors b ∧ f.claimed (missing p f b) = false := by
  unfold missing
  cases hfind : (p.predecessors b).find? (!f.claimed ·) with
  | none =>
    obtain ⟨a, ha, hc⟩ := h
    have := List.find?_eq_none.1 hfind a ha
    simp [hc] at this
  | some a =>
    have hc : f.claimed a = false := by simpa using List.find?_some hfind
    exact ⟨List.mem_of_find?_eq_some hfind, hc⟩

namespace Machine

variable {m m' : Machine} {r q : LoopRun} {b c h : BlockId} {fault : Fault}

/-! ## the fault -/

/-- The step fails because of a stall: the innermost loop `r` takes `b` from its queue, the block
has to wait, and it is not put back. -/
structure Stalls (p : Procedure) (s : Settings) (m : Machine) (r : LoopRun) (b : BlockId)
    (fault : Fault) : Prop where
  innermost : m.loops.head? = some r
  next : r.queue.head? = some b
  limit : r.taken < s.maxIterations
  unclaimed : m.facts.claimed b = false
  waits : LoopRun.entry p s m.facts r.header b = .ok none
  fails : step p s m = .error fault

theorem step_eq_defer {outer : List LoopRun} {queue : List BlockId} (hl : m.loops = r :: outer)
    (hq : r.queue = b :: queue) (ht : r.taken < s.maxIterations) (hc : m.facts.claimed b = false)
    (hwaits : LoopRun.entry p s m.facts r.header b = .ok none) :
    step p s m = defer p m { r with queue, taken := r.taken + 1 } outer b := by
  unfold step
  simp only [hl, hq]
  unfold take
  dsimp only
  rw [if_neg (by omega), if_neg (by simp [hc]), hwaits]
  rfl

namespace Stalls

theorem full (h : Stalls p s m r b fault) :
    ∃ queue, r.queue = b :: queue ∧ queue.length ≤ r.stalled ∧
      fault = .blockNotProcessed (LoopRun.missing p m.facts b) := by
  obtain ⟨outer, hl⟩ := List.head?_eq_some_iff.1 h.innermost
  obtain ⟨queue, hq⟩ := List.head?_eq_some_iff.1 h.next
  have hfails := h.fails
  rw [step_eq_defer hl hq h.limit h.unclaimed h.waits] at hfails
  unfold defer at hfails
  dsimp only at hfails
  split at hfails
  · rename_i hlen
    cases hfails
    refine ⟨queue, hq, ?_, rfl⟩
    simpa using hlen
  · cases hfails

theorem stuck (h : Stalls p s m r b fault) (hm : Reaches p s m) :
    ∀ c ∈ r.queue, Stuck p m.facts c := by
  intro c hc
  obtain ⟨queue, hq, hlen, -⟩ := h.full
  rw [hq] at hc
  rcases List.mem_cons.1 hc with rfl | hc
  · exact ⟨h.unclaimed, entry_eq_none.1 h.waits⟩
  · exact hm.stuck r (List.mem_of_mem_head? h.innermost) c (mem_lastOf hq hlen hc)

theorem missing (h : Stalls p s m r b fault) :
    ∃ a ∈ p.predecessors b, m.facts.claimed a = false ∧ fault = .blockNotProcessed a := by
  obtain ⟨queue, -, -, hfault⟩ := h.full
  obtain ⟨hmem, hc⟩ := LoopRun.missing_spec (entry_eq_none.1 h.waits).2.2
  exact ⟨_, hmem, hc, hfault⟩

end Stalls

/-! ## blocks that can be processed -/

theorem Stuck.of_leads (hpath : Leads p s m m') (h : Stuck p m'.facts b) : Stuck p m.facts b := by
  obtain ⟨hc, hlen, hb, a, ha, hac⟩ := h
  exact ⟨Leads.unclaimed hpath hc, hlen, hb, a, ha, Leads.unclaimed hpath hac⟩

/-- Between the two states, the loop of `h` takes `c` from its queue, and processes it. -/
def Tried (p : Procedure) (s : Settings) (h c : BlockId) (m m' : Machine) : Prop :=
  ∃ m₁ r t f, Leads p s m m₁ ∧ m₁.loops.head? = some r ∧ r.header = h ∧ r.queue.head? = some c ∧
    Enters p s m₁ c t f ∧ Leads p s m₁ m'

/-- As long as a loop is at work, a block stays in its queue until it is tried. -/
theorem Leads.queued (hpath : Leads p s m m') (hm : Reaches p s m) (hq : q ∈ m.loops)
    (hc : c ∈ q.queue) (hh : q.header ∈ m'.nesting) :
    (∃ r ∈ m'.loops, r.header = q.header ∧ c ∈ r.queue) ∨ Tried p s q.header c m m' := by
  refine hpath.at_work (P := fun m' => (∃ r ∈ m'.loops, r.header = q.header ∧ c ∈ r.queue) ∨
    Tried p s q.header c m m') hm (hm.header_claimed q hq) hh (.inl ⟨q, hq, rfl, hc⟩) ?_
  intro m₁ m₂ hm₁ hpath ih hnext hh
  rcases ih with ⟨r, hr, hhead, hc⟩ | ⟨m₀, r, t, f, hpath₀, hfirst, hhead, htake, he, hrest⟩
  · have hstep := step_cases hnext
    rcases hstep.loop_kept hr with ⟨outer, f, hl, he⟩ | ⟨r', hr', hhead', -, hqueue⟩
    · -- the loop does not end, as it is at work behind the step
      rw [← hhead] at hh
      exact absurd hh (hm₁.not_mem_nesting_of_ended hstep hl he)
    · rcases hqueue c hc with hc | ⟨hfirst, t, f, he⟩
      · exact .inl ⟨r', hr', hhead'.trans hhead, hc⟩
      · refine .inr ⟨m₁, r, t, f, hpath, hfirst, hhead, ?_, he, .single hnext⟩
        obtain ⟨outer, hl⟩ := List.head?_eq_some_iff.1 hfirst
        cases he <;> simp_all
  · exact .inr ⟨m₀, r, t, f, hpath₀, hfirst, hhead, htake, he, hrest.tail hnext⟩

/-- A queue in which all blocks are stuck is noticed in one pass, unless the loop comes to its
limit. -/
theorem Reaches.stalls {outer : List LoopRun} (hm : Reaches p s m) (hl : m.loops = r :: outer)
    (hne : r.queue ≠ []) (hstuck : ∀ c ∈ r.queue, Stuck p m.facts c)
    (hlimit : r.taken + (r.queue.length - r.stalled) ≤ s.maxIterations) :
    ∃ m' r' b fault, Leads p s m m' ∧ Stalls p s m' r' b fault ∧ r'.header = r.header := by
  -- by induction on the number of blocks that were not put back yet
  induction hn : r.queue.length - r.stalled generalizing m r with
  | zero =>
    rcases (hm.bounded.loops r (by rw [hl]; exact List.mem_cons_self ..)).stalled with hz | hlt
    · have := List.length_pos_iff.2 hne
      omega
    · omega
  | succ n ih =>
    obtain ⟨b, queue, hq⟩ := List.exists_cons_of_ne_nil hne
    obtain ⟨hc, hwait⟩ := hstuck b (by rw [hq]; exact List.mem_cons_self ..)
    have hnone : LoopRun.entry p s m.facts r.header b = .ok none := entry_eq_none.2 hwait
    have ht : r.taken < s.maxIterations := by omega
    have hstep := step_eq_defer hl hq ht hc hnone
    rw [hq, List.length_cons] at hn hlimit
    by_cases hfull : queue.length ≤ r.stalled
    · have hfails : step p s m = .error (.blockNotProcessed (LoopRun.missing p m.facts b)) := by
        rw [hstep]
        unfold defer
        dsimp only
        rw [if_pos (by simpa using hfull)]
      exact ⟨m, r, b, _, .refl, ⟨by rw [hl]; rfl, by rw [hq]; rfl, ht, hc, hnone, hfails⟩, rfl⟩
    · let r' : LoopRun :=
        { r with queue := queue ++ [b], taken := r.taken + 1, stalled := r.stalled + 1 }
      have hnext : step p s m = .ok { m with loops := r' :: outer } := by
        rw [hstep]
        unfold defer
        dsimp only
        rw [if_neg (by simpa using hfull)]
      obtain ⟨m', r₁, b₁, fault, hpath, hs, hhead⟩ :=
        ih (r := r') (hm.tail hnext) rfl (by simp [r'])
        (fun c hc => hstuck c (by rw [hq]; simpa [r', or_comm] using hc)) (by simp [r']; omega)
          (by simp [r']; omega)
      exact ⟨m', r₁, b₁, fault, .head hnext hpath, hs, hhead⟩

/-- A loop fails exactly when it is stuck. When it fails, every block of its queue is a merge, no
header, that was not processed and that has to wait for a predecessor; the fault names such a
predecessor of the block that the loop took last; and a block that could be processed when it was in
the queue was tried before. The other way round, a queue of which all blocks are stuck makes the
loop fail after one pass, unless it comes to its limit. -/
theorem stall_exact (hm : Reaches p s m) :
    (∀ r b fault, Stalls p s m r b fault →
      (∀ c ∈ r.queue, Stuck p m.facts c ∧ LoopRun.entry p s m.facts r.header c = .ok none) ∧
      (∃ a ∈ p.predecessors b, m.facts.claimed a = false ∧ fault = .blockNotProcessed a) ∧
      ∀ m₀ q c, Reaches p s m₀ → Leads p s m₀ m → q ∈ m₀.loops → q.header = r.header → c ∈ q.queue →
        ¬ Stuck p m₀.facts c → Tried p s r.header c m₀ m) ∧
    ∀ r outer, m.loops = r :: outer → r.queue ≠ [] → (∀ c ∈ r.queue, Stuck p m.facts c) →
      r.taken + r.queue.length ≤ s.maxIterations →
      ∃ m' r' b fault, Leads p s m m' ∧ Stalls p s m' r' b fault ∧ r'.header = r.header := by
  refine ⟨fun r b fault hs => ⟨fun c hc => ?_, hs.missing, ?_⟩,
    fun r outer hl hne hstuck hlimit => ?_⟩
  · have hstuck := hs.stuck hm c hc
    exact ⟨hstuck, entry_eq_none.2 hstuck.2⟩
  · intro m₀ q c hm₀ hpath hq hhead hc hready
    have hr : r ∈ m.loops := List.mem_of_mem_head? hs.innermost
    rw [← hhead]
    refine (hpath.queued hm₀ hq hc (mem_nesting.2 ⟨r, hr, hhead.symm⟩)).resolve_left ?_
    rintro ⟨r', hr', hhead', hc'⟩
    -- no two loops at work have the same header, so the block is in the queue of the loop that
    -- fails
    obtain rfl : r' = r := List.inj_on_of_nodup_map hm.nesting_nodup hr' hr (hhead'.trans hhead)
    exact hready (.of_leads hpath (hs.stuck hm c hc'))
  · exact hm.stalls hl hne hstuck (by omega)

end Machine

/-- A loop with a plain block and two merges, both of which wait for a block that control does not
come to. -/
def twoWaitingMerges : Draft where
  name := "two waiting merges"
  blocks := [(⟨0⟩, [⟨⟨0⟩, 1, "a = new", .create "a"⟩]), (⟨1⟩, [⟨⟨1⟩, 2, "while", .other⟩]),
    (⟨2⟩, [⟨⟨2⟩, 3, "a[i] = x", .write ⟨"a", .expr "i"⟩⟩]), (⟨3⟩, [⟨⟨3⟩, 4, "skip", .other⟩]),
    (⟨4⟩, [⟨⟨4⟩, 5, "y = a[i]", .read ⟨"a", .expr "i"⟩⟩]), (⟨5⟩, [⟨⟨5⟩, 6, "skip", .other⟩]),
    (⟨6⟩, [⟨⟨6⟩, 7, "skip", .other⟩])]
  edges := [(⟨0⟩, ⟨1⟩), (⟨1⟩, ⟨2⟩), (⟨1⟩, ⟨3⟩), (⟨1⟩, ⟨6⟩), (⟨1⟩, ⟨4⟩), (⟨2⟩, ⟨3⟩), (⟨5⟩, ⟨3⟩),
    (⟨5⟩, ⟨6⟩), (⟨3⟩, ⟨1⟩), (⟨6⟩, ⟨1⟩)]
  loops := [.blocks ⟨1⟩ ⟨4⟩]

open Machine in
theorem stall_exact_twoWaitingMerges :
    ∃ p first mid m r, twoWaitingMerges.build = .ok p ∧ Reaches p {} first ∧ Leads p {} first mid ∧
      Leads p {} mid m ∧
      first.loops.map (·.queue) = [[⟨6⟩, ⟨3⟩, ⟨2⟩]] ∧ Stuck p first.facts ⟨3⟩ ∧
      ¬ Stuck p first.facts ⟨2⟩ ∧
      Stalls p {} m r ⟨3⟩ (.blockNotProcessed ⟨5⟩) ∧ r.queue = [⟨3⟩, ⟨6⟩] ∧ Stuck p m.facts ⟨3⟩ ∧
      Stuck p m.facts ⟨6⟩ ∧
      Tried p {} ⟨1⟩ ⟨2⟩ first m ∧
      -- the other way round, before the last pass
      mid.loops.map (fun r => (r.queue, r.stalled)) = [([⟨6⟩, ⟨3⟩], 0)] ∧
      ∃ m' r' b fault, Leads p {} mid m' ∧ Stalls p {} m' r' b fault ∧ r'.header = ⟨1⟩ := by
  obtain ⟨p, hb, hP⟩ := checkOk_eq_true (x := twoWaitingMerges.build)
    (P := fun p => checkOk (run p {} 2 (.start p {})) fun first =>
        checkOk (run p {} 3 first) fun mid =>
      checkOk (run p {} 1 mid) fun m =>
        first.loops = [⟨⟨1⟩, [⟨6⟩, ⟨3⟩, ⟨2⟩], [(⟨1⟩, ⟨4⟩)], none, 0, 0⟩] ∧
        mid.loops = [⟨⟨1⟩, [⟨6⟩, ⟨3⟩], [(⟨1⟩, ⟨4⟩)], none, 3, 0⟩] ∧
        m.loops = [⟨⟨1⟩, [⟨3⟩, ⟨6⟩], [(⟨1⟩, ⟨4⟩)], none, 4, 1⟩] ∧ Stuck p first.facts ⟨3⟩ ∧
        ¬ Stuck p first.facts ⟨2⟩ ∧ (∀ c ∈ [(⟨6⟩ : BlockId), ⟨3⟩], Stuck p mid.facts c) ∧
        Stuck p m.facts ⟨3⟩ ∧ (step p {} m).toOption.isNone ∧
        LoopRun.missing p m.facts ⟨3⟩ = ⟨5⟩) (by decide +kernel)
  obtain ⟨first, hfirst, hP⟩ := checkOk_eq_true hP
  obtain ⟨mid, hmid, hP⟩ := checkOk_eq_true hP
  obtain ⟨m, hrun, hP⟩ := checkOk_eq_true hP
  obtain ⟨hl₀, hl₁, hl, hold, hready, hpass, hstuck, hfails, hmissing⟩ := of_decide_eq_true hP
  have hm₀ : Reaches p {} first := reaches_of_run .refl hfirst
  have hm₁ : Reaches p {} mid := reaches_of_run hm₀ hmid
  have hpath : Leads p {} first m := (leads_of_run hmid).trans (leads_of_run hrun)
  obtain ⟨fault, hfault⟩ : ∃ fault, step p {} m = .error fault := by
    cases h : step p {} m with
    | ok m' => simp [h, Except.toOption] at hfails
    | error fault => exact ⟨fault, rfl⟩
  have hs : Stalls p {} m ⟨⟨1⟩, [⟨3⟩, ⟨6⟩], [(⟨1⟩, ⟨4⟩)], none, 4, 1⟩ ⟨3⟩ fault :=
    ⟨by rw [hl]; rfl, rfl, by decide, hstuck.1, entry_eq_none.2 hstuck.2, hfault⟩
  obtain ⟨-, -, -, rfl⟩ := hs.full
  rw [hmissing] at hs
  obtain ⟨hall, -, htried⟩ := (stall_exact (hm₀.trans hpath)).1 _ _ _ hs
  have hloop : ⟨⟨1⟩, [⟨6⟩, ⟨3⟩, ⟨2⟩], [(⟨1⟩, ⟨4⟩)], none, 0, 0⟩ ∈ first.loops := by
    rw [hl₀]
    exact List.mem_cons_self ..
  exact ⟨p, first, mid, m, _, hb, hm₀, leads_of_run hmid, leads_of_run hrun, by rw [hl₀]; rfl, hold,
    hready, hs, rfl, hstuck, (hall ⟨6⟩ (by simp)).1,
    htried first _ ⟨2⟩ hm₀ hpath hloop rfl (by simp) hready, by rw [hl₁]; rfl,
    (stall_exact hm₁).2 _ _ hl₁ (by simp) hpass (by decide)⟩

end ArrayFlow
