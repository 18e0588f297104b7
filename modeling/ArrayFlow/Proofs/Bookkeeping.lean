import ArrayFlow.Proofs.Lockstep

/-!
# The analysis with its books

The analysis can be run with sets that say which blocks wait in a loop and which are claimed, in
place of searching the queue and the exposed bindings. A block stays in the set of a loop from the
moment it is put into the queue until it is processed, also while it is taken out and put back;
and it is claimed before its statements are processed. Still nothing changes.

* `Worklist`  : a queue with the set of its blocks;
* `Seen`      : the blocks claimed by the walk, and those claimed inside of loops;
* `Booked`    : a state of the analysis with these sets, and `Booked.plain` the state without them;
* `Booked.Kept` : the sets hold what they should: a queue and its set have the same blocks, and the
  claimed blocks are those with exposed bindings;
* `Booked.step_agrees` : a step with the sets is a step without them, and they are kept;
* `Booked.analyze_eq`  : both analyses give the same report, or the same fault.
-/

namespace ArrayFlow

variable {p : Procedure} {s : Settings}

/-! ## worklists -/

/-- The blocks that wait, and the set of those that were put in and are not done. -/
structure Worklist where
  queue : List BlockId
  queued : Std.ExtTreeSet BlockId

namespace Worklist

variable {w : Worklist} {b : BlockId} {queue : List BlockId}

def pushFront (w : Worklist) (b : BlockId) : Worklist :=
  if b ∈ w.queued then w else ⟨b :: w.queue, w.queued.insert b⟩

def pushBack (w : Worklist) (b : BlockId) : Worklist :=
  if b ∈ w.queued then w else ⟨w.queue ++ [b], w.queued.insert b⟩

/-- Puts a block back that was taken out; it never left the set. -/
def requeue (w : Worklist) (b : BlockId) : Worklist := { w with queue := w.queue ++ [b] }

def done (w : Worklist) (b : BlockId) : Worklist := { w with queued := w.queued.erase b }

/-- Queue and set have the same blocks, each of them once. -/
structure Kept (w : Worklist) : Prop where
  nodup : w.queue.Nodup
  mem_queued : ∀ b, b ∈ w.queued ↔ b ∈ w.queue

theorem Kept.pushFront (h : w.Kept) (b : BlockId) : (w.pushFront b).Kept := by
  unfold Worklist.pushFront
  split
  · exact h
  · rename_i hb
    rw [h.mem_queued] at hb
    refine ⟨List.nodup_cons.2 ⟨hb, h.nodup⟩, fun c => ?_⟩
    rw [Std.ExtTreeSet.mem_insert, Std.LawfulEqOrd.compare_eq_iff_eq, h.mem_queued, List.mem_cons,
      eq_comm]

theorem Kept.pushBack (h : w.Kept) (b : BlockId) : (w.pushBack b).Kept := by
  unfold Worklist.pushBack
  split
  · exact h
  · rename_i hb
    rw [h.mem_queued] at hb
    refine ⟨?_, fun c => ?_⟩
    · rw [List.nodup_append]
      refine ⟨h.nodup, List.nodup_singleton b, fun c hc d hd => ?_⟩
      rw [List.mem_singleton.1 hd]
      rintro rfl
      exact hb hc
    · rw [Std.ExtTreeSet.mem_insert, Std.LawfulEqOrd.compare_eq_iff_eq, h.mem_queued,
        List.mem_append, List.mem_singleton, eq_comm, or_comm]

theorem Kept.requeue (h : w.Kept) (hq : w.queue = b :: queue) :
    (({ w with queue := queue } : Worklist).requeue b).Kept := by
  have hperm : (queue ++ [b]).Perm w.queue := by
    rw [hq]
    exact List.perm_append_singleton b queue
  exact ⟨hperm.nodup_iff.2 h.nodup, fun c => (h.mem_queued c).trans hperm.mem_iff.symm⟩

theorem Kept.done (h : w.Kept) (hq : w.queue = b :: queue) :
    (({ w with queue := queue } : Worklist).done b).Kept := by
  have hnodup := h.nodup
  rw [hq, List.nodup_cons] at hnodup
  refine ⟨hnodup.2, fun c => ?_⟩
  simp only [Worklist.done, Std.ExtTreeSet.mem_erase, h.mem_queued, hq, List.mem_cons]
  constructor
  · rintro ⟨hne, rfl | hc⟩
    · exact absurd Std.ReflCmp.compare_self hne
    · exact hc
  · intro hc
    refine ⟨fun heq => ?_, .inr hc⟩
    rw [Std.LawfulEqOrd.eq_of_compare heq] at hnodup
    exact hnodup.1 hc

end Worklist

/-! ## claimed blocks -/

/-- The blocks that the walk claimed, and those that were claimed inside of loops. -/
structure Seen where
  walked : Std.ExtTreeSet BlockId
  looped : Std.ExtTreeSet BlockId

namespace Seen

variable {z : Seen} {f f' : Facts} {b : BlockId} {t : Bindings}

def has (z : Seen) (b : BlockId) : Bool := z.walked.contains b || z.looped.contains b

def walk (z : Seen) (b : BlockId) : Seen := { z with walked := z.walked.insert b }

def loop (z : Seen) (b : BlockId) : Seen := { z with looped := z.looped.insert b }

/-- The blocks that were seen are those with exposed bindings. -/
def Fits (z : Seen) (f : Facts) : Prop := ∀ b, z.has b = f.claimed b

theorem has_walk (z : Seen) (b c : BlockId) : (z.walk b).has c = true ↔ c = b ∨ z.has c = true := by
  rw [has, has, walk, Bool.or_eq_true, Bool.or_eq_true, Std.ExtTreeSet.contains_insert,
    Bool.or_eq_true, beq_iff_eq, Std.LawfulEqOrd.compare_eq_iff_eq, or_assoc, eq_comm]

theorem has_loop (z : Seen) (b c : BlockId) : (z.loop b).has c = true ↔ c = b ∨ z.has c = true := by
  rw [has, has, loop, Bool.or_eq_true, Bool.or_eq_true, Std.ExtTreeSet.contains_insert,
    Bool.or_eq_true, beq_iff_eq, Std.LawfulEqOrd.compare_eq_iff_eq, or_left_comm, eq_comm]

theorem Fits.of_exposed (h : z.Fits f) (hf : f'.exposed = f.exposed) : z.Fits f' := by
  intro b
  rw [h b, Facts.claimed, Facts.claimed, hf]

theorem Fits.process {z' : Seen} (h : z.Fits f) (hz : ∀ c, z'.has c = true ↔ c = b ∨ z.has c = true)
    (hf : Transfer.process s b p t f = .ok f') : z'.Fits f' := by
  intro c
  rw [Bool.eq_iff_iff, hz, h c, Transfer.claimed_process hf]

/-- The header of a loop is seen, so it is no new block when its bindings are set again. -/
theorem Fits.close {r : LoopRun} (h : z.Fits f) (hr : z.has r.header = true)
    (hf : LoopRun.close f r = .ok f') : z.Fits f' := by
  obtain ⟨-, rfl⟩ | ⟨l, t, -, -, rfl⟩ := LoopRun.close_eq_ok hf
  · exact h
  · intro c
    rw [Bool.eq_iff_iff, Facts.claimed_expose, ← h c]
    exact ⟨.inr, fun hc => hc.elim (fun heq => heq ▸ hr) id⟩

end Seen

/-! ## loops -/

/-- A loop that is worked off with a worklist. -/
structure BookedRun where
  header : BlockId
  work : Worklist
  exits : List (BlockId × BlockId)
  latch : Option BlockId
  taken : Nat
  stalled : Nat

namespace BookedRun

def plain (r : BookedRun) : LoopRun :=
  ⟨r.header, r.work.queue, r.exits, r.latch, r.taken, r.stalled⟩

def start (header : BlockId) : BookedRun := ⟨header, ⟨[], ∅⟩, [], none, 0, 0⟩

def leave (r : BookedRun) (e : BlockId × BlockId) : BookedRun := { r with exits := r.exits ++ [e] }

variable (p)

def seed (z : Seen) (state : Facts × BookedRun) (target : BlockId) : Facts × BookedRun :=
  let (f, r) := state
  if p.isLoopExit r.header target then (f, r.leave (r.header, target))
  else if target = r.header then (f.flowTo r.header target true, r)
  else if z.has target then (f.flowTo r.header target (p.isLoopHeader target), r)
  else (f.flowTo r.header target false, { r with work := r.work.pushFront target })

def opened (z : Seen) (f : Facts) (header : BlockId) : Facts × BookedRun :=
  (p.successors header).foldl (seed p z) (f, start header)

def absorbEdge (z : Seen) (state : Facts × BookedRun) (e : BlockId × BlockId) : Facts × BookedRun :=
  let (f, r) := state
  let (source, target) := e
  if target = r.header then (f.flowTo source target true, { r with latch := some source })
  else if p.isLoopExit r.header target then (f, r.leave e)
  else if z.has target then (f.flowTo source target (p.isLoopHeader target), r)
  else (f.flowTo source target false, { r with work := r.work.pushBack target })

def absorb (z : Seen) (f : Facts) (r : BookedRun) (edges : List (BlockId × BlockId)) :
    Facts × BookedRun :=
  edges.foldl (absorbEdge p z) (f, r)

variable {p}

/-- A loop with its books, and the facts, against those without: the worklist is kept, the header is
the same, and the blocks that are seen are the claimed ones. -/
structure Follows (z : Seen) (header : BlockId) (x : Facts × BookedRun) (y : Facts × LoopRun) :
    Prop where
  facts : x.1 = y.1
  run : x.2.plain = y.2
  kept : x.2.work.Kept
  fits : z.Fits x.1
  header : x.2.header = header

variable {z : Seen} {f : Facts} {r : BookedRun}

theorem plain_pushFront (h : r.work.Kept) (b : BlockId) :
    ({ r with work := r.work.pushFront b } : BookedRun).plain = r.plain.pushFront b := by
  unfold Worklist.pushFront LoopRun.pushFront
  simp only [plain, ← h.mem_queued b]
  split
  · rfl
  · rfl

theorem plain_pushBack (h : r.work.Kept) (b : BlockId) :
    ({ r with work := r.work.pushBack b } : BookedRun).plain = r.plain.pushBack b := by
  unfold Worklist.pushBack LoopRun.pushBack
  simp only [plain, ← h.mem_queued b]
  split
  · rfl
  · rfl

/-- An edge out of the header is taken up in the same way: the set of the loop says who waits. -/
theorem seed_follows (hk : r.work.Kept) (hz : z.Fits f) (c : BlockId) :
    Follows z r.header (seed p z (f, r) c) (LoopRun.seed p (f, r.plain) c) := by
  have hflow : ∀ back, z.Fits (f.flowTo r.header c back) := fun back => hz.of_exposed rfl
  unfold seed LoopRun.seed
  simp only [show r.plain.header = r.header from rfl, hz c]
  split
  · exact ⟨rfl, rfl, hk, hz, rfl⟩
  · split
    · exact ⟨rfl, rfl, hk, hflow _, rfl⟩
    · split
      · exact ⟨rfl, rfl, hk, hflow _, rfl⟩
      · exact ⟨rfl, plain_pushFront hk c, hk.pushFront c, hflow _, rfl⟩

theorem opened_follows (hz : z.Fits f) (b : BlockId) :
    Follows z b (opened p z f b) (LoopRun.opened p f b) := by
  refine List.foldl_rel (r := Follows z b) ⟨rfl, rfl, ⟨List.nodup_nil, by simp [start]⟩, hz, rfl⟩ ?_
  rintro c - ⟨g, q⟩ ⟨g', q'⟩ ⟨rfl, rfl, hk, hg, rfl⟩
  exact seed_follows hk hg c

theorem absorbEdge_follows (hk : r.work.Kept) (hz : z.Fits f) (e : BlockId × BlockId) :
    Follows z r.header (absorbEdge p z (f, r) e) (LoopRun.absorbEdge p (f, r.plain) e) := by
  have hflow : ∀ back, z.Fits (f.flowTo e.1 e.2 back) := fun back => hz.of_exposed rfl
  unfold absorbEdge LoopRun.absorbEdge
  simp only [show r.plain.header = r.header from rfl, hz e.2]
  split
  · exact ⟨rfl, rfl, hk, hflow _, rfl⟩
  · split
    · exact ⟨rfl, rfl, hk, hz, rfl⟩
    · split
      · exact ⟨rfl, rfl, hk, hflow _, rfl⟩
      · exact ⟨rfl, plain_pushBack hk e.2, hk.pushBack e.2, hflow _, rfl⟩

theorem absorb_follows (hk : r.work.Kept) (hz : z.Fits f) (es : List (BlockId × BlockId)) :
    Follows z r.header (absorb p z f r es) (LoopRun.absorb p f r.plain es) := by
  refine List.foldl_rel (r := Follows z r.header) ⟨rfl, rfl, hk, hz, rfl⟩ ?_
  rintro e - ⟨g, q⟩ ⟨g', q'⟩ ⟨rfl, rfl, hk, hg, hq⟩
  rw [← hq]
  exact absorbEdge_follows hk hg e

end BookedRun

/-! ## states -/

/-- A state of the analysis with its books. -/
structure Booked where
  facts : Facts
  seen : Seen
  pending : Std.ExtTreeSet BlockId
  visits : List (BlockId × Bindings)
  loops : List BookedRun

namespace Booked

/-- The state without its books. -/
def plain (c : Booked) : Machine := ⟨c.facts, c.pending, c.visits, c.loops.map BookedRun.plain⟩

def start (p : Procedure) (s : Settings) : Booked := ⟨.start s, ⟨∅, ∅⟩, ∅, [(p.entry, ∅)], []⟩

section Definitions

variable (p) (s)

def followEdge (c : Booked) (e : BlockId × BlockId) : Except Fault Booked :=
  let (source, target) := e
  if c.seen.has target then
    .ok { c with facts := c.facts.flowTo source target (p.isLoopHeader target) }
  else do
    let t ← c.facts.exposed.get source
    return { c with facts := c.facts.flowTo source target false, visits := (target, t) :: c.visits }

def follow (c : Booked) (edges : List (BlockId × BlockId)) : Except Fault Booked :=
  edges.reverse.foldlM (followEdge p) c

/-- A block is seen before its statements are processed. -/
def enter (c : Booked) (b : BlockId) (t : Bindings) : Except Fault Booked := do
  let z := c.seen.walk b
  let f ← Transfer.process s b p t c.facts
  if p.isLoopHeader b then
    let (f, r) := BookedRun.opened p z f b
    return { c with facts := f, seen := z, loops := r :: c.loops }
  else follow p { c with facts := f, seen := z } (p.edgesFrom b)

def enterMerged (c : Booked) (b : BlockId) (preds : List BlockId) : Except Fault Booked := do
  let (t, f) ← Merge.predecessors s c.facts b (p.headLine b) preds
  enter p s { c with facts := f } b t

def visit (c : Booked) (b : BlockId) (t : Bindings) : Except Fault Booked :=
  let preds := p.predecessors b
  if c.seen.has b then .ok c
  else if preds.length < 2 then enter p s c b t
  else if p.isLoopHeader b then
    let ready := c.facts.exposed.readyOf preds
    if ready.length < 2 then enter p s c b t else enterMerged p s c b ready
  else if c.facts.exposed.allReady preds then
    enterMerged p s { c with pending := c.pending.erase b } b preds
  else .ok { c with pending := c.pending.insert b }

def resolvable? (c : Booked) : Option BlockId :=
  c.pending.toList.find? fun b =>
    !c.seen.has b && !(c.facts.exposed.readyOf (p.predecessors b)).isEmpty

def settle (c : Booked) (b : BlockId) : Except Fault Booked :=
  enterMerged p s { c with pending := c.pending.erase b } b
    (c.facts.exposed.readyOf (p.predecessors b))

def leave (c : Booked) (f : Facts) (r : BookedRun) (outer : List BookedRun) :
    Except Fault Booked := do
  let f ← LoopRun.close f r.plain
  match outer with
  | [] => follow p { c with facts := f, loops := [] } r.exits
  | o :: rest =>
    let (f, o) := BookedRun.absorb p c.seen f o r.exits
    return { c with facts := f, loops := o :: rest }

/-- The block is done before its statements are processed, and so before a loop inside is run. -/
def enterLooped (c : Booked) (r : BookedRun) (outer : List BookedRun) (b : BlockId) (t : Bindings)
    (f : Facts) : Except Fault Booked := do
  let z := c.seen.loop b
  let r := { r with work := r.work.done b, stalled := 0 }
  let f ← Transfer.process s b p t f
  let c := { c with seen := z, pending := c.pending.erase b }
  if p.isLoopHeader b then
    let (f, inner) := BookedRun.opened p z f b
    return { c with facts := f, loops := inner :: r :: outer }
  else
    let (f, r) := BookedRun.absorb p z f r (p.edgesFrom b)
    return { c with facts := f, loops := r :: outer }

def defer (c : Booked) (r : BookedRun) (outer : List BookedRun) (b : BlockId) :
    Except Fault Booked :=
  let r := { r with work := r.work.requeue b, stalled := r.stalled + 1 }
  if r.work.queue.length ≤ r.stalled then .error (.blockNotProcessed (LoopRun.missing p c.facts b))
  else .ok { c with loops := r :: outer }

def take (c : Booked) (r : BookedRun) (outer : List BookedRun) (b : BlockId) :
    Except Fault Booked :=
  let r := { r with taken := r.taken + 1 }
  if s.maxIterations < r.taken then
    leave p c (c.facts.report (.ofFault (.loopLimit r.header s.maxIterations))) r outer
  else if c.seen.has b then
    leave p c (c.facts.report (.ofFault (.loopReentry r.header b))) r outer
  else do
    match ← LoopRun.entry p s c.facts r.header b with
    | some (t, f) => enterLooped p s c r outer b t f
    | none => defer p c r outer b

def step (c : Booked) : Except Fault Booked :=
  match c.loops, c.visits with
  | r :: outer, _ =>
    match r.work.queue with
    | b :: queue => take p s c { r with work := { r.work with queue := queue } } outer b
    | [] => leave p c c.facts r outer
  | [], (b, t) :: visits => visit p s { c with visits := visits } b t
  | [], [] =>
    match c.resolvable? p with
    | some b => settle p s c b
    | none => .ok c

def finished (c : Booked) : Bool := c.loops.isEmpty && c.visits.isEmpty && (c.resolvable? p).isNone

def run : (n : Nat) → Booked → Except Fault Booked
  | 0, c => .ok c
  | n + 1, c => if c.finished p then .ok c else do run n (← step p s c)

def conclude (c : Booked) : Facts :=
  (c.pending.toList.filter fun b => !c.seen.has b).foldl
    (fun f b => f.report (.unreachableMerge b)) c.facts

def analyze : Except Fault Report :=
  if p.contains p.entry then do
    let c ← run p s p.stepBound (.start p s)
    return ⟨p.name, c.conclude⟩
  else .error (.blockNotFound p.entry)

end Definitions

/-! ## the books are kept -/

structure Kept (c : Booked) : Prop where
  fits : c.seen.Fits c.facts
  runs : ∀ r ∈ c.loops, r.work.Kept
  headers : ∀ r ∈ c.loops, c.seen.has r.header = true

/-- A state with books that are kept, against the state without. -/
structure Shows (c : Booked) (m : Machine) : Prop where
  kept : c.Kept
  plain : c.plain = m

variable {c : Booked} {b : BlockId} {t : Bindings} {f : Facts} {r : BookedRun}
  {outer : List BookedRun}

theorem Kept.shows (h : c.Kept) : c.Shows c.plain := ⟨h, rfl⟩

theorem Kept.claimed (h : c.Kept) (b : BlockId) : c.plain.facts.claimed b = c.seen.has b :=
  (h.fits b).symm

theorem Kept.withFacts (h : c.Kept) (hf : f.exposed = c.facts.exposed) :
    ({ c with facts := f } : Booked).Kept :=
  ⟨h.fits.of_exposed hf, h.runs, h.headers⟩

theorem followEdge_agrees (h : c.Kept) (e : BlockId × BlockId) :
    Agree Shows (followEdge p c e) (Machine.followEdge p c.plain e) := by
  unfold followEdge Machine.followEdge
  simp only [h.claimed]
  split
  · exact .ok ⟨h.withFacts rfl, rfl⟩
  · change Agree Shows (c.facts.exposed.get e.1 >>= _) (c.facts.exposed.get e.1 >>= _)
    cases c.facts.exposed.get e.1 with
    | error fault => exact .error fault
    | ok t => exact .ok ⟨⟨h.fits.of_exposed rfl, h.runs, h.headers⟩, rfl⟩

theorem follow_agrees (h : c.Kept) (es : List (BlockId × BlockId)) :
    Agree Shows (follow p c es) (Machine.follow p c.plain es) := by
  refine Agree.foldlM h.shows ?_
  rintro c _ e ⟨hc, rfl⟩
  exact followEdge_agrees hc e

/-- Loops stay as they are when more blocks are seen. -/
theorem Kept.grown {z : Seen} {g : Facts} (h : c.Kept)
    (hz : ∀ d, z.has d = true ↔ d = b ∨ c.seen.has d = true)
    (hf : Transfer.process s b p t f = .ok g) (hexposed : f.exposed = c.facts.exposed) :
    ({ c with facts := g, seen := z } : Booked).Kept :=
  ⟨(h.fits.of_exposed hexposed).process hz hf, h.runs,
    fun r hr => (hz r.header).2 (.inr (h.headers r hr))⟩

theorem Kept.withRun {x : Facts × BookedRun} {y : Facts × LoopRun} {header : BlockId} (h : c.Kept)
    (hx : BookedRun.Follows c.seen header x y) (hheader : c.seen.has header = true)
    (houter : ∀ o ∈ outer, o ∈ c.loops) :
    Shows { c with facts := x.1, loops := x.2 :: outer }
      ⟨y.1, c.pending, c.visits, y.2 :: outer.map BookedRun.plain⟩ := by
  refine ⟨⟨hx.fits, ?_, ?_⟩, ?_⟩
  · exact List.forall_mem_cons.2 ⟨hx.kept, fun o ho => h.runs o (houter o ho)⟩
  · exact List.forall_mem_cons.2 ⟨hx.header ▸ hheader, fun o ho => h.headers o (houter o ho)⟩
  · simp only [plain, List.map_cons, hx.facts, hx.run]

theorem enter_agrees (h : c.Kept) (b : BlockId) (t : Bindings) :
    Agree Shows (enter p s c b t) (Machine.enter p s c.plain b t) := by
  unfold enter Machine.enter
  change Agree Shows (Transfer.process s b p t c.facts >>= _)
    (Transfer.process s b p t c.facts >>= _)
  cases hf : Transfer.process s b p t c.facts with
  | error fault => exact .error fault
  | ok f =>
    have hk := h.grown (Seen.has_walk c.seen b) hf rfl
    change Agree Shows (if p.isLoopHeader b then _ else _) (if p.isLoopHeader b then _ else _)
    split
    · have hseen : (c.seen.walk b).has b = true := (Seen.has_walk ..).2 (.inl rfl)
      exact .ok (hk.withRun (BookedRun.opened_follows hk.fits b) hseen fun _ ho => ho)
    · exact follow_agrees hk _

theorem enterMerged_agrees (h : c.Kept) (b : BlockId) (preds : List BlockId) :
    Agree Shows (enterMerged p s c b preds) (Machine.enterMerged p s c.plain b preds) := by
  unfold enterMerged Machine.enterMerged
  change Agree Shows (Merge.predecessors s c.facts b (p.headLine b) preds >>= _)
    (Merge.predecessors s c.facts b (p.headLine b) preds >>= _)
  cases hm : Merge.predecessors s c.facts b (p.headLine b) preds with
  | error fault => exact .error fault
  | ok x => exact enter_agrees (h.withFacts (Merge.predecessors_eq_ok hm).2.2.1) b x.1

theorem visit_agrees (h : c.Kept) (b : BlockId) (t : Bindings) :
    Agree Shows (visit p s c b t) (Machine.visit p s c.plain b t) := by
  have hpending : ∀ pending, ({ c with pending := pending } : Booked).Kept := fun _ =>
    ⟨h.fits, h.runs, h.headers⟩
  unfold visit Machine.visit
  simp only [h.claimed]
  split
  · exact .ok h.shows
  · split
    · exact enter_agrees h b t
    · split
      · change Agree Shows
          (if (c.facts.exposed.readyOf (p.predecessors b)).length < 2 then _ else _)
          (if (c.facts.exposed.readyOf (p.predecessors b)).length < 2 then _ else _)
        split
        · exact enter_agrees h b t
        · exact enterMerged_agrees h b _
      · change Agree Shows (if c.facts.exposed.allReady (p.predecessors b) then _ else _)
          (if c.facts.exposed.allReady (p.predecessors b) then _ else _)
        split
        · exact enterMerged_agrees (hpending _) b _
        · exact .ok (hpending _).shows

theorem settle_agrees (h : c.Kept) (b : BlockId) :
    Agree Shows (settle p s c b) (Machine.settle p s c.plain b) := by
  have hk : ({ c with pending := c.pending.erase b } : Booked).Kept := ⟨h.fits, h.runs, h.headers⟩
  exact enterMerged_agrees hk b _

theorem Kept.resolvable? (h : c.Kept) : c.plain.resolvable? p = c.resolvable? p := by
  unfold Machine.resolvable? Booked.resolvable?
  simp only [h.claimed]
  rfl

/-- A loop is left in the same way, whether its worklist is kept or not: only its exits are used. -/
theorem leave_agrees (h : c.Kept) (hf : f.exposed = c.facts.exposed)
    (hheader : c.seen.has r.header = true) (houter : ∀ o ∈ outer, o ∈ c.loops) :
    Agree Shows (leave p c f r outer)
      (Machine.leave p c.plain f r.plain (outer.map BookedRun.plain)) := by
  unfold leave Machine.leave
  cases hclose : LoopRun.close f r.plain with
  | error fault => exact .error fault
  | ok g =>
    have hg : c.seen.Fits g := (h.fits.of_exposed hf).close hheader hclose
    cases outer with
    | nil => exact follow_agrees ⟨hg, by simp, by simp⟩ r.exits
    | cons o rest =>
      obtain ⟨ho, hrest⟩ := List.forall_mem_cons.1 houter
      exact .ok (h.withRun (BookedRun.absorb_follows (h.runs o ho) hg r.exits)
        (h.headers o ho) hrest)

/-- The first block of a worklist is processed: by then it is done. -/
theorem enterLooped_agrees {queue : List BlockId} (h : c.Kept) (hl : c.loops = r :: outer)
    (hq : r.work.queue = b :: queue) (hf : f.exposed = c.facts.exposed) (n : Nat) (t : Bindings) :
    let r' : BookedRun := { r with work := { r.work with queue := queue }, taken := n }
    Agree Shows (enterLooped p s c r' outer b t f)
      (Machine.enterLooped p s c.plain r'.plain (outer.map BookedRun.plain) b t f) := by
  intro r'
  unfold enterLooped Machine.enterLooped
  cases hp : Transfer.process s b p t f with
  | error fault => exact .error fault
  | ok g =>
    have hseen : (c.seen.loop b).has b = true := (Seen.has_loop ..).2 (.inl rfl)
    obtain ⟨hrun, houter⟩ := List.forall_mem_cons.1 (hl ▸ h.runs)
    obtain ⟨hheader, hheaders⟩ := List.forall_mem_cons.1 (hl ▸ h.headers)
    have hfits : (c.seen.loop b).Fits g :=
      (h.fits.of_exposed hf).process (Seen.has_loop c.seen b) hp
    have hgrown : ∀ a, c.seen.has a = true → (c.seen.loop b).has a = true := fun a ha =>
      (Seen.has_loop ..).2 (.inr ha)
    -- the loop around, with the block done
    let around : BookedRun := { r' with work := r'.work.done b, stalled := 0 }
    have hk : (⟨g, c.seen.loop b, c.pending.erase b, c.visits, around :: outer⟩ : Booked).Kept :=
      ⟨hfits, List.forall_mem_cons.2 ⟨hrun.done hq, houter⟩,
        List.forall_mem_cons.2 ⟨hgrown _ hheader, fun o ho => hgrown _ (hheaders o ho)⟩⟩
    change Agree Shows (if p.isLoopHeader b then _ else _) (if p.isLoopHeader b then _ else _)
    split
    · exact .ok (hk.withRun (BookedRun.opened_follows hfits b) hseen fun _ ho => ho)
    · have hdone : around.work.Kept := hrun.done hq
      have habsorbed := BookedRun.absorb_follows (p := p) hdone hfits (p.edgesFrom b)
      exact .ok (hk.withRun habsorbed (hgrown _ hheader) fun _ ho => List.mem_cons_of_mem _ ho)

/-- The first block of a worklist is put back: it never left the set. -/
theorem defer_agrees {queue : List BlockId} (h : c.Kept) (hl : c.loops = r :: outer)
    (hq : r.work.queue = b :: queue) (n : Nat) :
    let r' : BookedRun := { r with work := { r.work with queue := queue }, taken := n }
    Agree Shows (defer p c r' outer b)
      (Machine.defer p c.plain r'.plain (outer.map BookedRun.plain) b) := by
  intro r'
  obtain ⟨hrun, houter⟩ := List.forall_mem_cons.1 (hl ▸ h.runs)
  unfold defer Machine.defer
  change Agree Shows (if (queue ++ [b]).length ≤ r.stalled + 1 then _ else _)
    (if (queue ++ [b]).length ≤ r.stalled + 1 then _ else _)
  split
  · exact .error _
  · refine .ok ⟨⟨h.fits, List.forall_mem_cons.2 ⟨hrun.requeue hq, houter⟩, ?_⟩, rfl⟩
    exact List.forall_mem_cons.2 (List.forall_mem_cons.1 (hl ▸ h.headers))

theorem entry_exposed {x : Bindings × Facts} {header : BlockId}
    (h : LoopRun.entry p s f header b = .ok (some x)) : x.2.exposed = f.exposed := by
  obtain ⟨-, hf, -⟩ | ⟨preds, -, -, hm⟩ := LoopRun.entry_eq_some h
  · rw [hf]
  · exact (Merge.predecessors_eq_ok hm).2.2.1

theorem take_agrees {queue : List BlockId} (h : c.Kept) (hl : c.loops = r :: outer)
    (hq : r.work.queue = b :: queue) :
    let r' : BookedRun := { r with work := { r.work with queue := queue } }
    Agree Shows (take p s c r' outer b)
      (Machine.take p s c.plain r'.plain (outer.map BookedRun.plain) b) := by
  intro r'
  have hheader : c.seen.has r.header = true := h.headers r (by simp [hl])
  have houter : ∀ o ∈ outer, o ∈ c.loops := fun o ho => hl ▸ List.mem_cons_of_mem _ ho
  unfold take Machine.take
  simp only [h.claimed]
  change Agree Shows (if s.maxIterations < r.taken + 1 then _ else _)
    (if s.maxIterations < r.taken + 1 then _ else _)
  split
  · exact leave_agrees h rfl hheader houter
  · split
    · exact leave_agrees h rfl hheader houter
    · change Agree Shows (LoopRun.entry p s c.facts r.header b >>= _)
        (LoopRun.entry p s c.facts r.header b >>= _)
      cases hentry : LoopRun.entry p s c.facts r.header b with
      | error fault => exact .error fault
      | ok x =>
        cases x with
        | none => exact defer_agrees h hl hq _
        | some x => exact enterLooped_agrees h hl hq (entry_exposed hentry) _ x.1

/-- A step with the books is a step without them, and they are kept. -/
theorem step_agrees (h : c.Kept) : Agree Shows (step p s c) (Machine.step p s c.plain) := by
  unfold step Machine.step
  rw [h.resolvable?]
  simp only [plain]
  cases hl : c.loops with
  | cons r outer =>
    simp only [List.map_cons, show r.plain.queue = r.work.queue from rfl]
    cases hq : r.work.queue with
    | cons b queue => exact take_agrees h hl hq
    | nil =>
      refine leave_agrees h rfl (h.headers r (by simp [hl])) fun o ho => ?_
      rw [hl]
      exact List.mem_cons_of_mem _ ho
  | nil =>
    have hidle : ∀ visits, (⟨c.facts, c.seen, c.pending, visits, []⟩ : Booked).Kept := fun _ =>
      ⟨h.fits, by simp, by simp⟩
    cases hv : c.visits with
    | cons x visits =>
      obtain ⟨facts, seen, pending, _, _⟩ := c
      obtain rfl : _ = [] := hl
      exact visit_agrees (hidle visits) x.1 x.2
    | nil =>
      obtain ⟨facts, seen, pending, _, _⟩ := c
      obtain rfl : _ = [] := hl
      obtain rfl : _ = [] := hv
      simp only [List.map_nil]
      cases resolvable? p ⟨facts, seen, pending, [], []⟩ with
      | some b => exact settle_agrees h b
      | none => exact .ok h.shows

theorem Kept.finished (h : c.Kept) : c.plain.finished p = c.finished p := by
  rw [Machine.finished, Booked.finished, h.resolvable?, plain]
  cases c.loops with
  | nil => rfl
  | cons r outer => rfl

/-- Many steps with the books are as many without them, by induction on their number. -/
theorem run_agrees (h : c.Kept) (n : Nat) :
    Agree Shows (run p s n c) (Machine.run p s n c.plain) := by
  induction n generalizing c with
  | zero => exact .ok h.shows
  | succ n ih =>
    rw [run, Machine.run, h.finished]
    split
    · exact .ok h.shows
    · refine (step_agrees h).bind ?_
      rintro c' _ ⟨hc', rfl⟩
      exact ih hc'

theorem Kept.conclude (h : c.Kept) : c.plain.conclude = c.conclude := by
  unfold Machine.conclude Booked.conclude
  simp only [h.claimed]
  rfl

theorem start_kept (p : Procedure) (s : Settings) : (start p s).Kept :=
  ⟨fun b => by simp [start, Seen.has], by simp [start], by simp [start]⟩

/-- The sets change nothing: the analysis that keeps them gives the report, or the fault, of the one
that does without. -/
theorem analyze_eq (p : Procedure) (s : Settings) : analyze p s = ArrayFlow.analyze p s := by
  unfold analyze ArrayFlow.analyze
  split
  · have hrun : Agree Shows (run p s p.stepBound (start p s))
        (Machine.run p s p.stepBound (.start p s)) :=
      run_agrees (start_kept p s) p.stepBound
    obtain ⟨fault, hc, hm⟩ | ⟨c, m, hc, hm, hkept, rfl⟩ := hrun.cases_eq
    · rw [hc, hm]
      rfl
    · rw [hc, hm]
      change Except.ok (⟨p.name, c.conclude⟩ : Report) = .ok ⟨p.name, c.plain.conclude⟩
      rw [hkept.conclude]
  · rfl

end Booked

end ArrayFlow
