import ArrayFlow.Proofs.Bounds

/-!
# Nested loops are worked off in order

Where loops are properly nested, blocks wait for their turn where they belong.

* `Procedure.Nested`  : each reachable block has the header of its innermost loop as its owner, and
  a rank that grows along all edges but those that lead back to a header;
* `Machine.Placed`    : blocks wait where they belong, on the walk or in the queue of their owner;
* `Reaches.stuck`     : blocks that a loop has just put back one after another are stuck, whether
  loops are nested or not;
* `Machine.Orderly`   : no block that waits in a loop was processed, and blocks that were put back
  still have to wait.
-/

namespace ArrayFlow

namespace Procedure

/-- Control can come to the block. -/
def Reachable (p : Procedure) (b : BlockId) : Prop :=
  Relation.ReflTransGen (fun a c => c ∈ p.successors a) p.entry b

/-- How an edge goes with the nesting of the loops. -/
inductive Edge (p : Procedure) (owner : BlockId → Option BlockId) (rank : BlockId → Nat)
    (a c : BlockId) : Prop
  /-- It stays inside the same loops; out of a header, it leaves the loop of the header. -/
  | level (hrank : rank a < rank c) (howner : owner c = owner a)
      (hexit : p.isLoopHeader a = true → p.isLoopExit a c = true)
  /-- It leads from a header into its loop. -/
  | enter (hrank : rank a < rank c) (howner : owner c = some a) (hheader : p.isLoopHeader a = true)
      (hexit : p.isLoopExit a c = false)
  /-- It leads back to the header of the innermost loop. -/
  | back (howner : owner a = some c) (hexit : p.isLoopHeader a = true → p.isLoopExit a c = true)

/-- The loops of the reachable blocks are nested as `owner` says. -/
structure Nested (p : Procedure) (owner : BlockId → Option BlockId) (rank : BlockId → Nat) :
    Prop where
  entry_owner : owner p.entry = none
  entry_plain : p.isLoopHeader p.entry = false
  source : ∀ a b, p.Reachable b → b ∈ p.successors a → p.Reachable a
  forward : ∀ b, p.Reachable b → b ≠ p.entry → ∃ a, b ∈ p.successors a ∧ rank a < rank b
  edge : ∀ a c, p.Reachable a → c ∈ p.successors a → Edge p owner rank a c
  exit_edge : ∀ h c, p.Reachable h → p.isLoopExit h c = true → c ∈ p.successors h
  owner_spec : ∀ b h, p.Reachable b → owner b = some h →
    p.Reachable h ∧ p.isLoopHeader h = true ∧ rank h < rank b

variable {p : Procedure} {owner : BlockId → Option BlockId} {rank : BlockId → Nat}

theorem Reachable.step {a c : BlockId} (h : p.Reachable a)
    (hc : c ∈ p.successors a) : p.Reachable c :=
  Relation.ReflTransGen.tail h hc

namespace Nested

theorem not_isLoopExit (hn : Nested p owner rank) {h c : BlockId} (hh : p.Reachable h)
    (hc : owner c = some h) :
    p.isLoopExit h c = false := by
  by_contra hx
  have hx : p.isLoopExit h c = true := by simpa using hx
  have hsucc := hn.exit_edge h c hh hx
  cases hn.edge h c hh hsucc with
  | level hrank howner _ =>
    rw [hc] at howner
    exact absurd (hn.owner_spec h h hh howner.symm).2.2 (Nat.lt_irrefl _)
  | enter _ _ _ hexit => rw [hx] at hexit; cases hexit
  | back howner _ =>
    have hlt := (hn.owner_spec h c hh howner).2.2
    have hlt' := (hn.owner_spec c h (hh.step hsucc) hc).2.2
    omega

/-- All edges into a block that is not a header are forward ones. -/
theorem rank_lt (hn : Nested p owner rank) {a c : BlockId} (hc : p.Reachable c)
    (hb : p.isLoopHeader c = false) (h : c ∈ p.successors a) : rank a < rank c := by
  have ha := hn.source a c hc h
  cases hn.edge a c ha h with
  | level hrank => exact hrank
  | enter hrank => exact hrank
  | back howner =>
    rw [(hn.owner_spec a c ha howner).2.1] at hb
    cases hb

/-- Out of a block that is not a header, or out of a loop, an edge stays inside the same loops or
leads back. -/
theorem owner_of_leaves (hn : Nested p owner rank) {a c : BlockId} (ha : p.Reachable a)
    (hc : c ∈ p.successors a) (h : p.isLoopHeader a = false ∨ p.isLoopExit a c = true) :
    owner c = owner a ∨ owner a = some c := by
  cases hn.edge a c ha hc with
  | level _ howner => exact .inl howner
  | enter _ _ hheader hexit =>
    rcases h with h | h
    · rw [hheader] at h
      cases h
    · rw [hexit] at h
      cases h
  | back howner => exact .inr howner

/-- The other edges out of a header lead into its loop. -/
theorem owner_of_stays (hn : Nested p owner rank) {a c : BlockId} (ha : p.Reachable a)
    (hc : c ∈ p.successors a) (hb : p.isLoopHeader a = true) (hx : p.isLoopExit a c = false) :
    owner c = some a := by
  cases hn.edge a c ha hc with
  | level _ _ hexit =>
    rw [hexit hb] at hx
    cases hx
  | enter _ howner => exact howner
  | back _ hexit =>
    rw [hexit hb] at hx
    cases hx

end Nested

end Procedure

open Procedure

namespace Machine

variable {p : Procedure} {s : Settings} {owner : BlockId → Option BlockId} {rank : BlockId → Nat}
  {m m' : Machine} {b : BlockId} {t : Bindings} {f : Facts}

/-! ## where blocks wait -/

/-- The headers of the loops at work, innermost first: each owns the one before it. -/
def Stack (owner : BlockId → Option BlockId) : List BlockId → Prop
  | [] => True
  | h :: hs => owner h = hs.head? ∧ Stack owner hs

theorem Stack.rank_lt (hn : Nested p owner rank) {h : BlockId} {hs : List BlockId}
    (hstack : Stack owner (h :: hs)) (hr : p.Reachable h) : ∀ x ∈ hs, rank x < rank h := by
  induction hs generalizing h with
  | nil => simp
  | cons o hs ih =>
    obtain ⟨hown, hrest⟩ := hstack
    obtain ⟨ho, -, hlt⟩ := hn.owner_spec h o hr hown
    intro x hx
    rcases List.mem_cons.1 hx with rfl | hx
    · exact hlt
    · exact (ih hrest ho x hx).trans hlt

/-- What waits in a loop at work is owned by its header, and lies behind a processed block. Edges
out of the loop are those of its header. -/
structure PlacedLoop (p : Procedure) (owner : BlockId → Option BlockId) (f : Facts) (r : LoopRun) :
    Prop where
  header : p.isLoopHeader r.header = true
  queue : ∀ b ∈ r.queue, p.Reachable b ∧ owner b = some r.header ∧ ∃ a, b ∈ p.successors a ∧
    f.claimed a = true
  exits : ∀ e ∈ r.exits, e.1 = r.header ∧ e.2 ∈ p.successors r.header ∧
    p.isLoopExit r.header e.2 = true

/-- Blocks wait where they belong: on the walk if no loop owns them, else in the queue of their
owner. -/
structure Placed (p : Procedure) (owner : BlockId → Option BlockId) (m : Machine) : Prop where
  claimed : ∀ b, m.facts.claimed b = true → p.Reachable b
  visits : ∀ x ∈ m.visits, p.Reachable x.1 ∧ owner x.1 = none
  pending : ∀ b ∈ m.pending, p.Reachable b ∧ owner b = none
  stack : Stack owner (m.loops.map (·.header))
  loops : ∀ r ∈ m.loops, PlacedLoop p owner m.facts r

namespace Placed

theorem enters (h : Placed p owner m) (he : Enters p s m b t f) :
    p.Reachable b ∧ owner b = (m.loops.map (·.header)).head? := by
  rcases he.waited with ⟨hl, ⟨u, hv⟩ | hpend⟩ | ⟨r, outer, hl, hq⟩
  · rw [hl]
    exact h.visits (b, u) hv
  · rw [hl]
    exact h.pending b hpend
  · obtain ⟨hr, ho, -⟩ := (h.loops r (by rw [hl]; exact List.mem_cons_self ..)).queue b hq
    rw [hl]
    exact ⟨hr, ho⟩

theorem start (hn : Nested p owner rank) : Placed p owner (start p s) := by
  refine ⟨?_, ?_, ?_, trivial, ?_⟩
  · simp [Machine.start]
  · intro x hx
    obtain rfl := List.mem_singleton.1 hx
    exact ⟨.refl, hn.entry_owner⟩
  · simp [Machine.start]
  · simp [Machine.start]

theorem header_reachable (h : Placed p owner m) (hm : Reaches p s m) {r : LoopRun}
    (hr : r ∈ m.loops) :
    p.Reachable r.header := h.claimed _ (hm.header_claimed r hr)

/-- An edge out of a loop at work leads to where the loop itself belongs, or back to the header
around it. -/
theorem exit_owner (hn : Nested p owner rank) (h : Placed p owner m)
    (hm : Reaches p s m) {r : LoopRun} (hr : r ∈ m.loops) {e : BlockId × BlockId}
    (he : e ∈ r.exits) :
    p.Reachable e.2 ∧ (owner e.2 = owner r.header ∨ owner r.header = some e.2) := by
  obtain ⟨-, hc, hx⟩ := (h.loops r hr).exits e he
  have hreach := h.header_reachable hm hr
  exact ⟨hreach.step hc, hn.owner_of_leaves hreach hc (.inr hx)⟩

theorem follows (hn : Nested p owner rank) (h : Placed p owner m) (hm : Reaches p s m)
    {a c : BlockId} (hf : Follows p s m a c) : p.Reachable c ∧ owner c = none := by
  cases hf with
  | walked hl he hb hc =>
    obtain ⟨ha, howner⟩ := h.enters he
    rw [hl] at howner
    rcases hn.owner_of_leaves ha hc (.inl hb) with ho | ho
    · exact ⟨ha.step hc, ho.trans howner⟩
    · rw [howner] at ho
      cases ho
  | @left r f hl he hc =>
    have hstack := h.stack
    rw [hl] at hstack
    obtain ⟨hreach, ho | ho⟩ := h.exit_owner hn hm (r := r) (by rw [hl]; simp) hc
    · exact ⟨hreach, ho.trans hstack.1⟩
    · rw [show owner r.header = none from hstack.1] at ho
      cases ho

theorem stack_step (h : Placed p owner m) (hstep : Step p s m m') :
    Stack owner (m'.loops.map (·.header)) := by
  rcases hstep.headers with ⟨b, t, f, he, -, heq⟩ | heq | heq
  · rw [heq]
    exact ⟨(h.enters he).2, h.stack⟩
  · rw [heq]
    exact h.stack
  · rw [heq]
    have hstack := h.stack
    cases hl : m.loops with
    | nil => trivial
    | cons r outer =>
      rw [hl] at hstack
      exact hstack.2

theorem grown (hn : Nested p owner rank) {r r' : LoopRun} {f f₁ f' : Facts} {a : BlockId}
    {es : List (BlockId × BlockId)} (h : PlacedLoop p owner f r) (hr : p.Reachable r.header)
    (hg : LoopRun.Grown p (LoopRun.leaves p) f₁ r es f' r') (ha : owner a = some r.header)
    (hc : f.claimed a = true)
    (hes : ∀ e ∈ es, e.2 ∈ p.successors a ∧ p.Reachable e.2 ∧
    (owner e.2 = owner a ∨ owner a = some e.2)) :
    PlacedLoop p owner f r' := by
  refine ⟨by rw [hg.header]; exact h.header, fun b hb => ?_, fun e he => ?_⟩
  · rw [hg.header]
    rcases (hg.queue b).1 hb with hb | ⟨⟨e, he, rfl⟩, hne, -, -⟩
    · exact h.queue b hb
    · obtain ⟨hsucc, hreach, ho | ho⟩ := hes e he
      · exact ⟨hreach, ho.trans ha, a, hsucc, hc⟩
      · rw [ha] at ho
        exact absurd (Option.some.inj ho).symm hne
  · -- no edge that is taken up leaves the loop
    rw [hg.exits, List.filter_eq_nil_iff.2, List.append_nil] at he
    · rw [hg.header]
      exact h.exits e he
    · intro e he hx
      simp only [LoopRun.leaves, Bool.and_eq_true, bne_iff_ne] at hx
      obtain ⟨-, -, ho | ho⟩ := hes e he
      · rw [hn.not_isLoopExit hr (ho.trans ha)] at hx
        cases hx.2
      · rw [ha] at ho
        exact hx.1 (Option.some.inj ho).symm

theorem opened (hn : Nested p owner rank) {f₁ f' : Facts} (hr : p.Reachable b)
    (hb : p.isLoopHeader b = true) (hc : f'.claimed b = true) :
    PlacedLoop p owner f' (LoopRun.opened p f₁ b).2 := by
  have hg := LoopRun.opened_grown (p := p) f₁ b
  refine ⟨by rw [hg.header]; exact hb, fun c hc => ?_, fun e he => ?_⟩
  · rw [hg.header]
    rcases (hg.queue c).1 hc with hc | ⟨⟨e, he, rfl⟩, -, hx, -⟩
    · simp [LoopRun.start] at hc
    · obtain ⟨c, hsucc, rfl⟩ := List.mem_map.1 he
      exact ⟨hr.step hsucc, hn.owner_of_stays hr hsucc hb hx, b, hsucc, ‹_›⟩
  · rw [hg.exits] at he
    obtain ⟨hmem, hx⟩ := List.mem_filter.1 he
    obtain ⟨c, hsucc, rfl⟩ := List.mem_map.1 hmem
    rw [hg.header]
    exact ⟨rfl, hsucc, hx⟩

theorem loops_step (hn : Nested p owner rank) (h : Placed p owner m) (hm : Reaches p s m)
    (hstep : Step p s m m') : ∀ r ∈ m'.loops, PlacedLoop p owner m'.facts r := by
  intro r' hr'
  have hold : ∀ r ∈ m.loops, PlacedLoop p owner m'.facts r := fun r hr =>
    ⟨(h.loops r hr).header, fun b hb => ((h.loops r hr).queue b hb).imp id fun ⟨ho, a, ha, hc⟩ =>
      ⟨ho, a, ha, hstep.claimed_mono hc⟩, (h.loops r hr).exits⟩
  have hclaimed : ∀ {b t f}, Enters p s m b t f → m'.facts.claimed b = true :=
    hm.claimed_of_enters hstep
  have htaken : ∀ {r outer b queue}, m.loops = r :: outer → r.queue = b :: queue →
      PlacedLoop p owner m'.facts { r with queue := queue, taken := r.taken + 1, stalled := 0 } := by
    intro r outer b queue hl hq
    have hr := hold r (by rw [hl]; simp)
    exact ⟨hr.header, fun c hc => hr.queue c (by rw [hq]; exact List.mem_cons_of_mem _ hc),
      hr.exits⟩
  cases hstep.loop hr' with
  | kept hr => exact hold _ (List.mem_of_mem_tail hr)
  | opened he hp hb => exact opened hn (h.enters he).1 hb (hclaimed he)
  | nested hl hq he => exact htaken hl hq
  | @looped r outer b queue t f f₁ f' r' hl hq he hp hb hg =>
    obtain ⟨hreach, howner⟩ := h.enters he
    rw [hl] at howner
    refine grown hn (a := b) (htaken hl hq)
      (h.header_reachable hm (r := r) (by rw [hl]; simp)) hg howner
      (hclaimed he) fun e he => ?_
    obtain ⟨c, hsucc, rfl⟩ := List.mem_map.1 he
    exact ⟨hsucc, hreach.step hsucc, hn.owner_of_leaves hreach hsucc (.inl hb)⟩
  | @deferred r outer b queue hl hq _ _ =>
    have hr := hold r (by rw [hl]; simp)
    exact ⟨hr.header, fun c hc => hr.queue c (by rw [hq]; simpa [or_comm] using hc), hr.exits⟩
  | @returned r o rest f f₁ f' o' hl he hc hg =>
    have hrm : r ∈ m.loops := by rw [hl]; simp
    have hstack := h.stack
    rw [hl] at hstack
    refine grown hn (a := r.header) (hold o (by rw [hl]; simp))
      (h.header_reachable hm (by rw [hl]; simp)) hg
      hstack.1 (hstep.claimed_mono (hm.header_claimed r hrm)) fun e he => ?_
    exact ⟨((h.loops r hrm).exits e he).2.1, h.exit_owner hn hm hrm he⟩

theorem step (hn : Nested p owner rank) (h : Placed p owner m) (hm : Reaches p s m)
    (hstep : Step p s m m') :
    Placed p owner m' where
  claimed := by
    intro c hc
    rcases hm.claimed_step hstep with ⟨b, t, f, he, hcl⟩ | ⟨-, hcl⟩
    · rcases (hcl c).1 hc with rfl | hc
      · exact (h.enters he).1
      · exact h.claimed c hc
    · exact h.claimed c (hcl ▸ hc)
  visits := by
    intro x hx
    rcases hstep.visits_cases hx with hx | ⟨a, hf, -⟩
    · exact h.visits x hx
    · exact h.follows hn hm hf
  pending := by
    intro c hc
    rcases hstep.pending_cases hc with hc | ⟨t, hx⟩
    · exact h.pending c hc
    · exact h.visits _ hx
  stack := h.stack_step hstep
  loops := h.loops_step hn hm hstep

end Placed

theorem Reaches.placed (hn : Nested p owner rank) (hm : Reaches p s m) : Placed p owner m :=
  hm.invariant (Placed.start hn) fun _ _ hm ih hstep => ih.step hn hm hstep

/-! ## queues -/

/-- The block has to wait inside a loop: it is a merge that some predecessor was not processed
of. -/
def Blocked (p : Procedure) (f : Facts) (b : BlockId) : Prop :=
  p.isLoopHeader b = false ∧ ∃ a ∈ p.predecessors b, f.claimed a = false

/-- The block cannot be processed inside a loop: it was not processed, and it is a merge that has to
wait. -/
def Stuck (p : Procedure) (f : Facts) (b : BlockId) : Prop :=
  f.claimed b = false ∧ 2 ≤ (p.predecessors b).length ∧ Blocked p f b

instance : Decidable (Blocked p f b) := inferInstanceAs (Decidable (_ ∧ _))

instance : Decidable (Stuck p f b) := inferInstanceAs (Decidable (_ ∧ _ ∧ _))

theorem blocked_iff :
    Blocked p f b ↔ p.isLoopHeader b = false ∧ f.exposed.allReady (p.predecessors b) = false := by
  simp [Blocked, ← Bool.not_eq_true, Exposed.allReady_iff, Facts.claimed]

/-- A visit stays, unless its block is processed, or put off because some predecessor was not. -/
theorem Step.visit_kept {c : BlockId} (hstep : Step p s m m') (hm : Reaches p s m)
    (hx : (c, t) ∈ m.visits) :
    m'.facts.claimed c = true ∨ (c, t) ∈ m'.visits ∨ c ∈ m'.pending ∧ Blocked p m'.facts c := by
  -- the walk takes the first visit, or none is left
  have hfirst : ∀ {b u f}, m.loops = [] → Enters p s m b u f → m'.facts.claimed c = true ∨
      (c, t) ∈ m.visits.tail := by
    intro b u f hl he
    rcases he.first_visit hl with ⟨t₀, rest, hv⟩ | ⟨hv, -⟩
    · rw [hv] at hx ⊢
      rcases List.mem_cons.1 hx with heq | hx
      · cases heq
        exact .inl (hm.claimed_of_enters hstep he)
      · exact .inr hx
    · rw [hv] at hx
      cases hx
  cases hstep with
  | walked hl he hproc hb hpend hf =>
    refine (hfirst hl he).imp id fun hx => .inl ?_
    rw [(follow_eq_ok hf).2.2.2.2]
    exact List.mem_append_right _ hx
  | opened hl he => exact (hfirst hl he).imp id .inl
  | skipped hl hv hc =>
    rw [hv] at hx
    rcases List.mem_cons.1 hx with heq | hx
    · cases heq
      exact .inl hc
    · exact .inr (.inl hx)
  | pended hl hv hc hpred hb hr =>
    rw [hv] at hx
    rcases List.mem_cons.1 hx with heq | hx
    · cases heq
      exact .inr (.inr ⟨by simp, blocked_iff.2 ⟨hb, hr⟩⟩)
    · exact .inr (.inl hx)
  | looped => exact .inr (.inl hx)
  | nested => exact .inr (.inl hx)
  | deferred => exact .inr (.inl hx)
  | closed hl he hc hf =>
    refine .inr (.inl ?_)
    rw [(follow_eq_ok hf).2.2.2.2]
    exact List.mem_append_right _ hx
  | returned => exact .inr (.inl hx)
  | finished => exact .inr (.inl hx)

/-- A loop puts back the merges that have to wait, and no other blocks. -/
theorem entry_eq_none {h : BlockId} :
    LoopRun.entry p s f h b = .ok none ↔ 2 ≤ (p.predecessors b).length ∧ Blocked p f b := by
  unfold LoopRun.entry
  split
  · rename_i hp
    simp [hp]
  · rename_i a hp
    split <;> simp [hp, bind_eq_ok, pure_eq_ok, -bind_pure_comp]
  · rename_i first rest hne hp
    have hlen : 2 ≤ (p.predecessors b).length := by
      have := List.length_pos_iff.2 hne
      simp only [hp, List.length_cons]
      omega
    dsimp only
    rw [← hp, blocked_iff]
    by_cases hb : p.isLoopHeader b = true
    · rw [if_pos hb]
      split <;> simp [hb, bind_eq_ok, pure_eq_ok, -bind_pure_comp]
    · rw [if_neg hb]
      by_cases hready : f.exposed.allReady (p.predecessors b) = true
      · simp [hready, bind_eq_ok, pure_eq_ok, -bind_pure_comp]
      · simp [hready, hb, hlen]

/-- The last blocks of a queue. -/
def lastOf (r : LoopRun) (n : Nat) : List BlockId := r.queue.drop (r.queue.length - n)

theorem lastOf_zero {r : LoopRun} (h : r.stalled = 0) : lastOf r r.stalled = [] := by
  simp [lastOf, h]

theorem lastOf_deferred {r : LoopRun} {queue : List BlockId} (hq : r.queue = b :: queue)
    (hs : r.stalled < queue.length) :
    lastOf { r with queue := queue ++ [b], taken := r.taken + 1, stalled := r.stalled + 1 }
      (r.stalled + 1) =
      lastOf r r.stalled ++ [b] := by
  have hlen : queue.length + 1 - r.stalled = queue.length - r.stalled + 1 := by omega
  simp only [lastOf, hq, List.length_append, List.length_cons, List.length_nil, hlen,
    List.drop_succ_cons]
  rw [List.drop_append_of_le_length (by omega)]
  congr 2
  omega

/-- When as many blocks were put back as are behind the first one, these are the last ones. -/
theorem mem_lastOf {r : LoopRun} {queue : List BlockId} {n : Nat} {c : BlockId}
    (hq : r.queue = b :: queue) (hn : queue.length ≤ n) (hc : c ∈ queue) : c ∈ lastOf r n := by
  have hle : r.queue.length - n ≤ 1 := by
    rw [hq, List.length_cons]
    omega
  unfold lastOf
  refine List.drop_subset_drop_left r.queue hle ?_
  rw [hq]
  exact hc

/-- Only the innermost loop puts blocks back, and it begins anew whenever a block is processed. -/
theorem Reaches.idle (hm : Reaches p s m) : ∀ r ∈ m.loops.tail, r.stalled = 0 := by
  refine hm.invariant (P := fun m => ∀ r ∈ m.loops.tail, r.stalled = 0) (by simp [start]) ?_
  intro m m' _ ih hstep r hr
  have hold : ∀ {q outer}, m.loops = q :: outer → ∀ r ∈ outer, r.stalled = 0 := fun hl r hr =>
    ih r (by rw [hl]; exact hr)
  cases hstep with
  | walked hl he hproc hb hpend hf => rw [(follow_eq_ok hf).2.2.1] at hr; cases hr
  | opened => cases hr
  | skipped => exact ih r hr
  | pended => exact ih r hr
  | looped hl => exact hold hl r hr
  | nested hl =>
    rcases List.mem_cons.1 hr with rfl | hr
    · rfl
    · exact hold hl r hr
  | deferred hl => exact hold hl r hr
  | closed hl he hc hf => rw [(follow_eq_ok hf).2.2.1] at hr; cases hr
  | returned hl => exact hold hl r (List.mem_cons_of_mem _ hr)
  | finished => exact ih r hr

/-- Blocks that were put back one after another are stuck still, as nothing was processed in
between. -/
theorem Reaches.stuck (hm : Reaches p s m) :
    ∀ r ∈ m.loops, ∀ b ∈ lastOf r r.stalled, Stuck p m.facts b := by
  refine hm.invariant (P := fun m => ∀ r ∈ m.loops, ∀ b ∈ lastOf r r.stalled, Stuck p m.facts b)
    (by simp [start]) ?_
  intro m m' hm ih hstep r' hr' c hc
  have hzero : r'.stalled = 0 → Stuck p m'.facts c := by
    intro hz
    rw [lastOf_zero hz] at hc
    cases hc
  have houter : ∀ {q outer}, m.loops = q :: outer → r' ∈ outer → Stuck p m'.facts c := fun hl hr =>
    hzero (hm.idle r' (by rw [hl]; exact hr))
  cases hstep with
  | walked hl he hproc hb hpend hf => rw [(follow_eq_ok hf).2.2.1] at hr'; cases hr'
  | opened =>
    obtain rfl := List.mem_singleton.1 hr'
    exact hzero (LoopRun.opened_grown _ _).stalled
  | skipped => exact ih r' hr' c hc
  | pended => exact ih r' hr' c hc
  | looped hl hq he hproc hb ha =>
    rcases List.mem_cons.1 hr' with rfl | hr'
    · exact hzero (LoopRun.grown_of_absorb ha).stalled
    · exact houter hl hr'
  | nested hl =>
    rcases List.mem_cons.1 hr' with rfl | hr'
    · exact hzero (LoopRun.opened_grown _ _).stalled
    · rcases List.mem_cons.1 hr' with rfl | hr'
      · exact hzero rfl
      · exact houter hl hr'
  | @deferred r outer b queue hl hq ht hclaimed hnone hs =>
    rcases List.mem_cons.1 hr' with rfl | hr'
    · -- no block was processed, so what was stuck still is, and so is the block that is put back
      rw [lastOf_deferred hq hs] at hc
      rcases List.mem_append.1 hc with hc | hc
      · exact ih r (by rw [hl]; simp) c hc
      · rw [List.mem_singleton.1 hc]
        exact ⟨hclaimed, entry_eq_none.1 hnone⟩
    · exact houter hl hr'
  | closed hl he hclose hf => rw [(follow_eq_ok hf).2.2.1] at hr'; cases hr'
  | returned hl he hclose ha =>
    rcases List.mem_cons.1 hr' with rfl | hr'
    · refine hzero ((LoopRun.grown_of_absorb ha).stalled.trans (hm.idle _ ?_))
      rw [hl]
      exact List.mem_cons_self ..
    · exact houter hl (List.mem_cons_of_mem _ hr')
  | finished => exact ih r' hr' c hc

/-- What waits inside loops was not processed, and the blocks that a loop has just put back have to
wait still. -/
structure Orderly (p : Procedure) (m : Machine) : Prop where
  unclaimed : ∀ r ∈ m.loops, ∀ b ∈ r.queue, m.facts.claimed b = false
  blocked : ∀ r ∈ m.loops, ∀ b ∈ lastOf r r.stalled, Blocked p m.facts b

namespace Orderly

/-- Loops around the innermost one own other blocks than the one that is processed. -/
theorem outer_ne (hn : Nested p owner rank) (hp : Placed p owner m) (hm : Reaches p s m)
    (he : Enters p s m b t f) {r : LoopRun} (hr : r ∈ m.loops.tail) {c : BlockId}
    (hc : c ∈ r.queue) : c ≠ b := by
  cases hl : m.loops with
  | nil => simp [hl] at hr
  | cons q outer =>
    rw [hl] at hr
    have howner := (hp.enters he).2
    have hstack := hp.stack
    rw [hl] at howner hstack
    have hlt := Stack.rank_lt hn hstack (hp.header_reachable hm (by rw [hl]; simp)) r.header
      (List.mem_map_of_mem hr)
    rintro rfl
    rw [((hp.loops r (by rw [hl]; exact List.mem_cons_of_mem _ hr)).queue c hc).2.1] at howner
    rw [Option.some.inj howner] at hlt
    exact Nat.lt_irrefl _ hlt

/-- What is put into a queue was not processed, and what is in one is not processed without being
taken out. -/
theorem step_unclaimed (hn : Nested p owner rank) (hp : Placed p owner m) (hm : Reaches p s m)
    (h : ∀ r ∈ m.loops, ∀ b ∈ r.queue, m.facts.claimed b = false) (hstep : Step p s m m') :
    ∀ r ∈ m'.loops, ∀ b ∈ r.queue, m'.facts.claimed b = false := by
  intro r' hr' c hc
  -- another block than the one that is processed stays as it was
  have hother : ∀ r ∈ m.loops, c ∈ r.queue → (∀ b t f, Enters p s m b t f → c ≠ b) →
      m'.facts.claimed c = false := by
    intro r hr hcr hne
    have hold := h r hr c hcr
    rcases hm.claimed_step hstep with ⟨b, t, f, he, hcl⟩ | ⟨-, hcl⟩
    · rw [← Bool.not_eq_true] at hold ⊢
      exact fun hnew => ((hcl c).1 hnew).elim (hne b t f he) hold
    · rw [hcl]
      exact hold
  -- the queue of the innermost loop holds the block that is processed once
  have hrest : ∀ {r outer b queue t f}, m.loops = r :: outer → r.queue = b :: queue →
      Enters p s m b t f →
      c ∈ queue → m'.facts.claimed c = false := by
    intro r outer b queue t f hl hq he hcq
    have hmem : r ∈ m.loops := by rw [hl]; simp
    have hnodup := (hm.bounded.loops r hmem).nodup
    rw [hq, List.nodup_cons] at hnodup
    refine hother r hmem (by rw [hq]; exact List.mem_cons_of_mem _ hcq) fun b' t' f' he' heq => ?_
    obtain ⟨rfl, -, -⟩ := he.deterministic he'
    exact hnodup.1 (heq ▸ hcq)
  cases hstep.loop hr' with
  | kept hr => exact hother r' (List.mem_of_mem_tail hr) hc fun b t f he => outer_ne hn hp hm he hr hc
  | opened he hproc hb =>
    rw [hm.claimed_process hstep he hproc]
    rcases ((LoopRun.opened_grown _ _).queue c).1 hc with hc | ⟨-, -, -, hcl⟩
    · simp [LoopRun.start] at hc
    · exact hcl
  | nested hl hq he => exact hrest hl hq he hc
  | looped hl hq he hproc hb hg =>
    rcases (hg.queue c).1 hc with hc | ⟨-, -, -, hcl⟩
    · exact hrest hl hq he hc
    · rw [hm.claimed_process hstep he hproc]
      exact hcl
  | @deferred r outer b queue hl hq hnone hs =>
    exact hother r (by rw [hl]; simp) (by rw [hq]; simpa [or_comm] using hc) fun b' t' f' he' =>
      absurd he' (not_enters_of_entry_none hl hq hnone)
  | @returned r o rest f f₁ f' o' hl he hclose hg =>
    rcases (hg.queue c).1 hc with hc | ⟨-, -, -, hcl⟩
    · exact hother o (by rw [hl]; simp) hc fun b t f he' => absurd he' (he.loops_ne hl)
    · rw [hm.claimed_close (r := r) (by rw [hl]; simp) he hclose] at hcl
      rcases hm.claimed_step hstep with ⟨b, t, f, he', -⟩ | ⟨-, hsame⟩
      · exact absurd he' (he.loops_ne hl)
      · rw [hsame]
        exact hcl

end Orderly

theorem Reaches.orderly (hn : Nested p owner rank) (hm : Reaches p s m) : Orderly p m where
  unclaimed := hm.invariant (P := fun m => ∀ r ∈ m.loops, ∀ b ∈ r.queue, m.facts.claimed b = false)
    (by simp [start])
    fun _ _ hm ih hstep => Orderly.step_unclaimed hn (hm.placed hn) hm ih hstep
  blocked := fun r hr b hb => (hm.stuck r hr b hb).2.2

end Machine

end ArrayFlow
