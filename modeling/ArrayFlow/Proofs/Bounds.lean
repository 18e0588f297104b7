import ArrayFlow.Proofs.Runs
import Mathlib.Algebra.BigOperators.Group.Finset.Piecewise
import Mathlib.Algebra.Order.BigOperators.Group.Finset
import Mathlib.Algebra.Group.Action.Defs
import Mathlib.Data.Finset.Card
import Mathlib.Tactic.Linarith

/-!
# How long an analysis takes

* `Procedure.targets` : the entry and the blocks that edges lead to; no other block is ever met;
* `Machine.Bounded`   : whatever waits is a target, and the queue of a loop holds it once;
* `Machine.potential` : a number that drops with every step until nothing is left to do;
* `run_finished`      : the steps that an analysis is given are enough;
* `Reaches.taken_lt`  : a loop takes fewer blocks from its queue than the square of the number of
  targets.
-/

namespace ArrayFlow

/-! ## targets -/

namespace Procedure

variable (p : Procedure)

/-- The entry, and the blocks that edges lead to. -/
def targets : Finset BlockId := insert p.entry (p.blocks.flatMap (·.successors)).toFinset

/-- One more than the number of edges. -/
def size : Nat := (p.blocks.map (·.successors.length)).sum + 1

def degree (b : BlockId) : Nat := (p.successors b).length

theorem stepBound_eq : p.stepBound = 2 * (p.size + 2) * (p.size + 2) := by
  have hfold : ∀ ks : List Block, ks.foldr (fun b n => b.successors.length + n) 1 =
      (ks.map (·.successors.length)).sum + 1 := by
    intro ks
    induction ks with
    | nil => rfl
    | cons k ks ih => simp [ih, Nat.add_assoc]
  simp only [stepBound, hfold, size]

theorem card_targets_le : p.targets.card ≤ p.size := by
  refine (Finset.card_insert_le _ _).trans (Nat.succ_le_succ ?_)
  refine (List.toFinset_card_le _).trans (Nat.le_of_eq ?_)
  rw [List.length_flatMap]

variable {p}

theorem entry_mem_targets : p.entry ∈ p.targets := Finset.mem_insert_self ..

theorem mem_targets_of_mem_successors {a b : BlockId} (h : b ∈ p.successors a) : b ∈ p.targets := by
  unfold successors at h
  cases hk : p.block? a with
  | none => simp [hk] at h
  | some k =>
    rw [hk] at h
    exact Finset.mem_insert_of_mem (List.mem_toFinset.2 (List.mem_flatMap.2 ⟨k, block?_mem hk, h⟩))

/-- Distinct names belong to distinct blocks, so their edges are among all edges. -/
theorem sum_degree_le (bs : Finset BlockId) : ∑ b ∈ bs, p.degree b + 1 ≤ p.size := by
  have hsum : ∀ ks : List Block,
      ∑ b ∈ bs, (((ks.find? (·.id = b)).map (·.successors)).getD []).length ≤
          (ks.map (·.successors.length)).sum := by
    intro ks
    induction ks with
    | nil => simp
    | cons k ks ih =>
      have hsplit : ∀ b ∈ bs, ((((k :: ks).find? (·.id = b)).map (·.successors)).getD []).length ≤
          (if k.id = b then k.successors.length else 0) +
            (((ks.find? (·.id = b)).map (·.successors)).getD []).length := by
        intro b _
        by_cases hk : k.id = b <;> simp [hk]
      refine (Finset.sum_le_sum hsplit).trans ?_
      rw [Finset.sum_add_distrib, Finset.sum_ite_eq, List.map_cons, List.sum_cons]
      refine Nat.add_le_add ?_ ih
      split <;> simp
  exact Nat.succ_le_succ (hsum p.blocks)

end Procedure

/-! ## what waits -/

variable {p : Procedure} {s : Settings}

/-- What waits in a loop: targets, each once. Fewer blocks were put back in a row than are
waiting. -/
structure LoopRun.Bounded (p : Procedure) (r : LoopRun) : Prop where
  queue : ∀ b ∈ r.queue, b ∈ p.targets
  exits : ∀ e ∈ r.exits, e.2 ∈ p.targets
  nodup : r.queue.Nodup
  stalled : r.stalled = 0 ∨ r.stalled < r.queue.length

namespace LoopRun.Bounded

variable {r r' : LoopRun} {f f' : Facts}

theorem start (p : Procedure) (header : BlockId) : (LoopRun.start header).Bounded p := by
  constructor <;> simp [LoopRun.start]

theorem grown {isExit : BlockId → BlockId × BlockId → Bool} {es : List (BlockId × BlockId)}
    (h : r.Bounded p) (hg : LoopRun.Grown p isExit f r es f' r') (hes : ∀ e ∈ es, e.2 ∈ p.targets) :
    r'.Bounded p where
  queue := by
    intro b hb
    rcases (hg.queue b).1 hb with hb | ⟨⟨e, he, rfl⟩, -⟩
    · exact h.queue b hb
    · exact hes e he
  exits := fun e he => (hg.mem_exits he).elim (h.exits e) (hes e)
  nodup := hg.nodup h.nodup
  stalled := by
    have hlen : r.queue.length ≤ r'.queue.length :=
      (List.subperm_of_subset h.nodup fun b hb => (hg.queue b).2 (.inl hb)).length_le
    rw [hg.stalled]
    exact h.stalled.imp id fun hs => hs.trans_le hlen

theorem taken {b : BlockId} {queue : List BlockId} (h : r.Bounded p) (hq : r.queue = b :: queue) :
    ({ r with queue := queue, taken := r.taken + 1, stalled := 0 } : LoopRun).Bounded p where
  queue := fun c hc => h.queue c (by rw [hq]; exact List.mem_cons_of_mem _ hc)
  exits := h.exits
  nodup := by
    have := h.nodup
    rw [hq] at this
    exact this.of_cons
  stalled := .inl rfl

theorem deferred {b : BlockId} {queue : List BlockId} (h : r.Bounded p) (hq : r.queue = b :: queue)
    (hs : r.stalled < queue.length) :
    ({ r with queue := queue ++ [b], taken := r.taken + 1, stalled := r.stalled + 1 } :
    LoopRun).Bounded p where
  queue := fun c hc => h.queue c (by rw [hq]; simpa [or_comm] using hc)
  exits := h.exits
  nodup := by
    have := h.nodup
    rw [hq, List.nodup_cons] at this
    refine List.nodup_append.2 ⟨this.2, List.nodup_singleton b, fun c hc d hd heq => ?_⟩
    rw [heq, List.mem_singleton.1 hd] at hc
    exact this.1 hc
  stalled := .inr (by simpa using hs)

theorem length_le (h : r.Bounded p) : r.queue.length ≤ p.targets.card := by
  rw [← List.toFinset_card_of_nodup h.nodup]
  exact Finset.card_le_card fun b hb => h.queue b (List.mem_toFinset.1 hb)

end LoopRun.Bounded

namespace Machine

variable {m m' : Machine} {b : BlockId} {t : Bindings} {f : Facts}

/-- Whatever waits is a target. -/
structure Bounded (p : Procedure) (m : Machine) : Prop where
  visits : ∀ x ∈ m.visits, x.1 ∈ p.targets
  pending : ∀ b ∈ m.pending, b ∈ p.targets
  loops : ∀ r ∈ m.loops, r.Bounded p

theorem Bounded.enters (h : Bounded p m) (he : Enters p s m b t f) : b ∈ p.targets := by
  rcases he.waited with ⟨-, ⟨u, hv⟩ | hpend⟩ | ⟨r, outer, hl, hq⟩
  · exact h.visits (b, u) hv
  · exact h.pending b hpend
  · exact (h.loops r (by rw [hl]; exact List.mem_cons_self ..)).queue b hq

theorem mem_targets_of_mem_edgesFrom {e : BlockId × BlockId} (h : e ∈ p.edgesFrom b) :
    e.2 ∈ p.targets := by
  obtain ⟨c, hc, rfl⟩ := List.mem_map.1 h
  exact Procedure.mem_targets_of_mem_successors hc

theorem Bounded.step (h : Bounded p m) (hstep : Step p s m m') : Bounded p m' where
  visits := by
    intro x hx
    rcases hstep.visits_cases hx with hx | ⟨a, hf, -⟩
    · exact h.visits x hx
    · cases hf with
      | walked _ _ _ hc => exact Procedure.mem_targets_of_mem_successors hc
      | left hl _ hc => exact (h.loops _ (by rw [hl]; simp)).exits _ hc
  pending := by
    intro c hc
    rcases hstep.pending_cases hc with hc | ⟨t, hx⟩
    · exact h.pending c hc
    · exact h.visits _ hx
  loops := by
    intro r hr
    cases hstep.loop hr with
    | kept hr => exact h.loops r (List.mem_of_mem_tail hr)
    | opened he hp hb =>
      exact (LoopRun.Bounded.start p _).grown (LoopRun.opened_grown _ _) fun e he =>
        mem_targets_of_mem_edgesFrom he
    | nested hl hq he => exact (h.loops _ (by rw [hl]; simp)).taken hq
    | looped hl hq he hp hb hg =>
      exact ((h.loops _ (by rw [hl]; simp)).taken hq).grown hg fun e he =>
        mem_targets_of_mem_edgesFrom he
    | deferred hl hq hm hs => exact (h.loops _ (by rw [hl]; simp)).deferred hq hs
    | @returned r o rest f f₁ f' o' hl he hc hg =>
      exact (h.loops o (by rw [hl]; simp)).grown hg (h.loops r (by rw [hl]; simp)).exits

theorem Reaches.bounded (h : Reaches p s m) : Bounded p m := by
  refine h.invariant ?_ fun m m' _ ih hstep => ih.step hstep
  refine ⟨?_, ?_, ?_⟩
  · simpa [start] using Procedure.entry_mem_targets
  · simp [start]
  · simp [start]

/-! ## the potential -/

def remaining (p : Procedure) (m : Machine) : Finset BlockId :=
  p.targets.filter fun b => m.facts.claimed b = false

theorem mem_remaining : b ∈ m.remaining p ↔ b ∈ p.targets ∧ m.facts.claimed b = false :=
  Finset.mem_filter

theorem Reaches.mem_remaining_of_enters (h : Reaches p s m) (he : Enters p s m b t f) :
    b ∈ m.remaining p :=
  mem_remaining.2 ⟨h.bounded.enters he, he.unclaimed⟩

theorem Reaches.remaining_step (h : Reaches p s m) (hstep : Step p s m m') :
    (∃ b t f, Enters p s m b t f ∧ m'.remaining p = (m.remaining p).erase b) ∨
      (∀ b t f, ¬ Enters p s m b t f) ∧ m'.remaining p = m.remaining p := by
  rcases h.claimed_step hstep with ⟨b, t, f, he, hc⟩ | ⟨hn, hc⟩
  · refine .inl ⟨b, t, f, he, Finset.ext fun c => ?_⟩
    simp only [mem_remaining, Finset.mem_erase, ← Bool.not_eq_true, hc]
    grind
  · refine .inr ⟨hn, Finset.ext fun c => ?_⟩
    simp only [mem_remaining, ← Bool.not_eq_true, hc]

theorem Reaches.remaining_enters (h : Reaches p s m) (hstep : Step p s m m')
    (he : Enters p s m b t f) :
    m'.remaining p = (m.remaining p).erase b := by
  rcases h.remaining_step hstep with ⟨b', t', f', he', hr⟩ | ⟨hn, -⟩
  · obtain ⟨rfl, -, -⟩ := he.deterministic he'
    exact hr
  · exact absurd he (hn _ _ _)

/-- What a block that is not processed yet may still cost. -/
def cost (p : Procedure) (b : BlockId) : Nat := 2 * p.targets.card + 2 + p.degree b

/-- What a loop at work may still cost: blocks that are put back, edges out of it, and its end. -/
def charge (p : Procedure) (r : LoopRun) : Nat := (p.targets.card - r.stalled) + r.exits.length + 1

/-- An upper bound for the number of steps to come. -/
def potential (p : Procedure) (m : Machine) : Nat :=
  ∑ b ∈ m.remaining p, cost p b + (m.loops.map (charge p)).sum + m.visits.length

theorem length_follow_visits {m₁ : Machine} {es : List (BlockId × BlockId)}
    (hf : follow p m₁ es = .ok m') :
    m'.visits.length ≤ es.length + m₁.visits.length := by
  rw [(follow_eq_ok hf).2.2.2.2, List.length_append, List.length_map]
  exact Nat.add_le_add_right (List.length_filter_le _ _) _

theorem charge_opened_le (f₁ : Facts) (b : BlockId) :
    charge p (LoopRun.opened p f₁ b).2 ≤ p.targets.card + p.degree b + 1 := by
  have hg := LoopRun.opened_grown (p := p) f₁ b
  have hexits : (LoopRun.opened p f₁ b).2.exits.length ≤ p.degree b := by
    rw [hg.exits]
    refine (List.length_filter_le _ _).trans (Nat.le_of_eq ?_)
    simp [Procedure.edgesFrom, Procedure.degree]
  unfold charge
  omega

theorem charge_grown_le {isExit : BlockId → BlockId × BlockId → Bool} {f f' : Facts}
    {r r' : LoopRun} {es : List (BlockId × BlockId)} (hg : LoopRun.Grown p isExit f r es f' r') :
    charge p r' ≤ charge p r + es.length := by
  have := List.length_filter_le (isExit r.header) es
  simp only [charge, hg.exits, hg.stalled, List.length_append]
  omega

/-- Every step lowers the potential, until there is nothing left to do. -/
theorem Reaches.potential_lt (h : Reaches p s m) (hstep : Step p s m m')
    (hf : m.finished p = false) :
    m'.potential p < m.potential p := by
  have hpaid : ∀ {b t f}, Enters p s m b t f →
      cost p b + ∑ c ∈ m'.remaining p, cost p c = ∑ c ∈ m.remaining p, cost p c := by
    intro b t f he
    rw [h.remaining_enters hstep he]
    exact Finset.add_sum_erase _ _ (h.mem_remaining_of_enters he)
  have hkept : (∀ b t f, ¬ Enters p s m b t f) →
      ∑ c ∈ m'.remaining p, cost p c = ∑ c ∈ m.remaining p, cost p c := by
    intro hn
    rcases h.remaining_step hstep with ⟨b, t, f, he, -⟩ | ⟨-, hr⟩
    · exact absurd he (hn _ _ _)
    · rw [hr]
  have hdegree : ∀ b, (p.edgesFrom b).length = p.degree b :=
    fun b => by simp [Procedure.edgesFrom, Procedure.degree]
  have htail : m.visits.tail.length ≤ m.visits.length := by simp
  unfold potential
  cases hstep with
  | @walked b t f f₁ pending m' hl he hp hb hpend hfol =>
    have hvis := length_follow_visits hfol
    have hcost := hpaid he
    rw [hdegree] at hvis
    rw [(follow_eq_ok hfol).2.2.1, hl]
    dsimp only at hvis ⊢
    rw [List.map_nil, List.sum_nil]
    unfold cost at hcost ⊢
    omega
  | @opened b t f f₁ pending hl he hp hb hpend =>
    have hcharge := charge_opened_le (p := p) f₁ b
    have hcost := hpaid he
    simp only [hl, List.map_cons, List.map_nil, List.sum_cons, List.sum_nil]
    unfold cost at hcost ⊢
    omega
  | @skipped b t visits hl hv hc =>
    simp only [hv, List.length_cons]
    exact Nat.lt_succ_self _
  | @pended b t visits hl hv hc hp hb hr =>
    simp only [hv, List.length_cons]
    exact Nat.lt_succ_self _
  | @looped r outer b queue t f f₁ hl hq he hp hb f' r' ha =>
    have hcharge := charge_grown_le (LoopRun.grown_of_absorb ha)
    have hcost := hpaid he
    rw [hdegree] at hcharge
    simp only [hl, List.map_cons, List.sum_cons]
    unfold cost at hcost ⊢
    unfold charge at hcharge ⊢
    dsimp only at hcharge
    omega
  | @nested r outer b queue t f f₁ hl hq he hp hb =>
    have hcharge := charge_opened_le (p := p) f₁ b
    have hcost := hpaid he
    simp only [hl, List.map_cons, List.sum_cons]
    unfold cost at hcost ⊢
    unfold charge at hcharge ⊢
    dsimp only at hcharge ⊢
    omega
  | @deferred r outer b queue hl hq ht hc hm hs =>
    -- the queue has room for one more in a row
    have hlen := (h.bounded.loops r (by rw [hl]; simp)).length_le
    rw [hq, List.length_cons] at hlen
    have hsame : remaining p { m with
        loops := { r with queue := queue ++ [b], taken := r.taken + 1, stalled :=
        r.stalled + 1 } :: outer } =
        remaining p m := rfl
    simp only [hsame, hl, List.map_cons, List.sum_cons]
    unfold charge
    dsimp only
    omega
  | @closed r f f₁ m' hl he hc hfol =>
    have hvis := length_follow_visits hfol
    have hcost := hkept fun b t f => he.loops_ne hl
    rw [(follow_eq_ok hfol).2.2.1, hl]
    dsimp only at hvis ⊢
    simp only [List.map_cons, List.map_nil, List.sum_cons, List.sum_nil]
    unfold charge
    omega
  | @returned r o rest f f₁ hl he hc f' o' ha =>
    have hcharge := charge_grown_le (LoopRun.grown_of_absorb ha)
    have hcost := hkept fun b t f => he.loops_ne hl
    simp only [hl, List.map_cons, List.sum_cons]
    unfold charge at hcharge ⊢
    omega
  | finished hfin =>
    rw [hf] at hfin
    cases hfin

theorem potential_start_lt (p : Procedure) (s : Settings) :
    (start p s).potential p < p.stepBound := by
  have hcard := p.card_targets_le
  have hsum : ∑ b ∈ (start p s).remaining p,
      cost p b ≤ p.targets.card * (2 * p.targets.card + 2) + p.size := by
    have hdeg := p.sum_degree_le ((start p s).remaining p)
    have hsub : ((start p s).remaining p).card ≤ p.targets.card :=
      Finset.card_le_card (Finset.filter_subset _ _)
    have hmul := Nat.mul_le_mul_right (2 * p.targets.card + 2) hsub
    simp only [cost, Finset.sum_add_distrib, Finset.sum_const, smul_eq_mul] at hmul ⊢
    rw [← Nat.mul_add]
    omega
  have hquad : p.targets.card * (2 * p.targets.card + 2) ≤ p.size * (2 * p.size + 2) := by gcongr
  have hpot : (start p s).potential p = ∑ b ∈ (start p s).remaining p, cost p b + 1 := by
    simp [potential, start]
  rw [hpot, p.stepBound_eq]
  nlinarith

/-- A run that has more steps than the potential ends when nothing is left to do. -/
theorem run_finished_of_potential_lt {n : Nat} (h : Reaches p s m) (hn : m.potential p < n)
    (hrun : run p s n m = .ok m') : m'.finished p = true := by
  induction n generalizing m with
  | zero => omega
  | succ n ih =>
    rw [run] at hrun
    split at hrun
    · rename_i hfin
      cases hrun
      exact hfin
    · rename_i hfin
      rw [bind_eq_ok] at hrun
      obtain ⟨m₁, h₁, hrun⟩ := hrun
      have hlt := h.potential_lt (step_cases h₁) (by simpa using hfin)
      exact ih (h.tail h₁) (by omega) hrun

theorem run_finished (hrun : run p s p.stepBound (start p s) = .ok m) : m.finished p = true :=
  run_finished_of_potential_lt .refl (potential_start_lt p s) hrun

/-! ## loops -/

/-- Each block that a loop processes lets it put back every waiting block once. -/
theorem Reaches.taken_le (h : Reaches p s m) : ∀ r ∈ m.loops,
    r.taken + p.targets.card * ((m.remaining p).card + 1) ≤ p.targets.card * p.targets.card +
      r.stalled := by
  refine h.invariant (P := fun m => ∀ r ∈ m.loops,
    r.taken + p.targets.card * ((m.remaining p).card + 1) ≤ p.targets.card * p.targets.card +
    r.stalled)
    (by simp [start]) ?_
  intro m m' hm ih hstep r' hr'
  have hle : (m'.remaining p).card ≤ (m.remaining p).card := by
    rcases hm.remaining_step hstep with ⟨b, t, f, -, hr⟩ | ⟨-, hr⟩
    · rw [hr]
      exact Finset.card_erase_le
    · rw [hr]
  have hmono : p.targets.card * ((m'.remaining p).card + 1) ≤
    p.targets.card * ((m.remaining p).card + 1) := by gcongr
  have hentered : ∀ {b t f}, Enters p s m b t f →
      (m'.remaining p).card + 1 = (m.remaining p).card := by
    intro b t f he
    rw [hm.remaining_enters hstep he]
    exact Finset.card_erase_add_one (hm.mem_remaining_of_enters he)
  -- a block was processed, so that what was put back before is paid for
  have hpaid : ∀ {r outer b queue t f}, m.loops = r :: outer → r.queue = b :: queue →
      Enters p s m b t f →
      r.taken + 1 + p.targets.card * ((m'.remaining p).card + 1) ≤
          p.targets.card * p.targets.card := by
    intro r outer b queue t f hl hq he
    have hmem : r ∈ m.loops := by rw [hl]; simp
    have hlen := (hm.bounded.loops r hmem).length_le
    have hst := (hm.bounded.loops r hmem).stalled
    have hbound := ih r hmem
    rw [hq, List.length_cons] at hlen hst
    rw [hentered he]
    rw [Nat.mul_add] at hbound
    omega
  cases hstep.loop hr' with
  | kept hr => exact (Nat.add_le_add_left hmono _).trans (ih _ (List.mem_of_mem_tail hr))
  | opened he hp hb =>
    have hg := LoopRun.opened_grown (p := p)
    rw [(hg _ _).taken, (hg _ _).stalled, hentered he]
    have hsub : (m.remaining p).card ≤ p.targets.card :=
      Finset.card_le_card (Finset.filter_subset _ _)
    simpa [LoopRun.start] using Nat.mul_le_mul_left p.targets.card hsub
  | nested hl hq he => exact hpaid hl hq he
  | looped hl hq he hp hb hg =>
    rw [hg.taken, hg.stalled]
    exact hpaid hl hq he
  | @deferred r _ _ _ hl hq hmn hs =>
    have := ih r (by rw [hl]; simp)
    dsimp only
    omega
  | @returned r o _ _ _ _ _ hl he hc hg =>
    have := ih o (by rw [hl]; simp)
    rw [hg.taken, hg.stalled]
    omega

/-- A loop that goes on has taken fewer blocks than the square of the number of targets. -/
theorem Reaches.taken_lt {r : LoopRun} (h : Reaches p s m) (hr : r ∈ m.loops) (hq : r.queue ≠ []) :
    r.taken < p.targets.card * p.targets.card := by
  have hb := h.bounded.loops r hr
  have hlen := hb.length_le
  have hst := hb.stalled
  have hpos := List.length_pos_iff.2 hq
  have htaken := h.taken_le r hr
  rw [Nat.mul_add] at htaken
  omega

end Machine

end ArrayFlow
