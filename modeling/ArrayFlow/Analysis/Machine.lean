import ArrayFlow.Analysis.Transfer
import ArrayFlow.Analysis.Merge

/-!
# The order of work

The analysis is a machine that takes one block at a time. Outside of loops it walks depth-first from
the entry; at a loop header it works off the loop first, and goes on where the loop is left. Every
block is processed once.

* `LoopRun` : a loop being worked off, with the blocks that are waiting (`queue`, next one first),
  the edges that leave the loop (`exits`), and the last block found to lead back to the header
  (`latch`);
* `Machine` : the facts, the walk (`visits`, next one first), the merges that wait for their
  predecessors (`pending`), and the loops at work (`loops`, innermost first);
* `Machine.step` : one block, or the end of one loop;
* `Machine.run`  : many steps.

A block is *claimed* once its bindings are exposed. Outside of loops a merge waits until all its
predecessors are claimed; when nothing else is left it makes do with those that are. Inside a loop a
merge goes back to the end of the queue, and a queue of nothing but such merges is a fault. A loop
that meets a claimed block, or takes too many, is given up and left as if it had ended.
-/

namespace ArrayFlow

/-- A loop that is being worked off. -/
structure LoopRun where
  header : BlockId
  /-- The blocks that are waiting, each once. Whether a block is among them is asked of the queue
  itself; a set of them would be kept as in `Worklist.Kept`. -/
  queue : List BlockId
  /-- The edges out of the loop, in the order in which they were found. -/
  exits : List (BlockId × BlockId)
  latch : Option BlockId
  /-- How many blocks were taken from the queue. -/
  taken : Nat
  /-- How many of them in a row had to wait again. -/
  stalled : Nat
  deriving DecidableEq, Inhabited, Repr

/-- A state of the analysis. -/
structure Machine where
  facts : Facts
  pending : Std.ExtTreeSet BlockId
  visits : List (BlockId × Bindings)
  loops : List LoopRun

/-- Was the block processed? No set of claimed blocks is kept, since a block is claimed and gets its
exposed bindings in one step; `Booked.analyze_eq` says that such sets change nothing. -/
def Facts.claimed (f : Facts) (b : BlockId) : Bool := f.exposed.isReady b

def Procedure.edgesFrom (p : Procedure) (b : BlockId) : List (BlockId × BlockId) :=
  (p.successors b).map (b, ·)

namespace LoopRun

def start (header : BlockId) : LoopRun := ⟨header, [], [], none, 0, 0⟩

/-- Puts a block in front of the queue, unless it is waiting. -/
def pushFront (r : LoopRun) (b : BlockId) : LoopRun :=
  if b ∈ r.queue then r else { r with queue := b :: r.queue }

/-- Puts a block at the end of the queue, unless it is waiting. -/
def pushBack (r : LoopRun) (b : BlockId) : LoopRun :=
  if b ∈ r.queue then r else { r with queue := r.queue ++ [b] }

def leave (r : LoopRun) (e : BlockId × BlockId) : LoopRun := { r with exits := r.exits ++ [e] }

variable (p : Procedure)

/-- Takes up an edge out of the header. -/
def seed (state : Facts × LoopRun) (target : BlockId) : Facts × LoopRun :=
  let (f, r) := state
  if p.isLoopExit r.header target then (f, r.leave (r.header, target))
  else if target = r.header then (f.flowTo r.header target true, r)
  else if f.claimed target then (f.flowTo r.header target (p.isLoopHeader target), r)
  else (f.flowTo r.header target false, r.pushFront target)

/-- Starts the loop of a header that was just processed. -/
def opened (f : Facts) (header : BlockId) : Facts × LoopRun :=
  (p.successors header).foldl (seed p) (f, start header)

/-- Takes up an edge out of a block of the loop, or out of a loop inside it. -/
def absorbEdge (state : Facts × LoopRun) (e : BlockId × BlockId) : Facts × LoopRun :=
  let (f, r) := state
  let (source, target) := e
  if target = r.header then (f.flowTo source target true, { r with latch := some source })
  else if p.isLoopExit r.header target then (f, r.leave e)
  else if f.claimed target then (f.flowTo source target (p.isLoopHeader target), r)
  else (f.flowTo source target false, r.pushBack target)

def absorb (f : Facts) (r : LoopRun) (edges : List (BlockId × BlockId)) : Facts × LoopRun :=
  edges.foldl (absorbEdge p) (f, r)

/-- Ends a loop: behind it, the header leaves what the last latch leaves. -/
def close (f : Facts) (r : LoopRun) : Except Fault Facts :=
  match r.latch with
  | some l => do return f.expose r.header (← f.exposed.get l)
  | none => .ok f

/-- The bindings that a block of the loop is entered with, or nothing if the block has to wait. A
sole predecessor that the loop is left to does not count. A header inside the loop makes do with the
predecessors that are claimed. -/
def entry (s : Settings) (f : Facts) (header b : BlockId) :
    Except Fault (Option (Bindings × Facts)) :=
  match p.predecessors b with
  | [] => .ok (some (∅, f))
  | [pred] => if p.isLoopExit header pred then .ok (some (∅, f))
      else do return some (← f.exposed.get pred, f)
  | first :: rest =>
    let preds := first :: rest
    if p.isLoopHeader b then
      match f.exposed.readyOf preds with
      | [] => .error (.blockNotProcessed first)
      | ready => do return some (← Merge.predecessors s f b (p.headLine b) ready)
    else if f.exposed.allReady preds then
      do return some (← Merge.predecessors s f b (p.headLine b) preds)
    else .ok none

def missing (f : Facts) (b : BlockId) : BlockId := ((p.predecessors b).find? (!f.claimed ·)).getD b

end LoopRun

namespace Machine

def start (p : Procedure) (s : Settings) : Machine := ⟨.start s, ∅, [(p.entry, ∅)], []⟩

variable (p : Procedure) (s : Settings)

/-! ## the walk -/

/-- Takes up an edge outside of loops: its target is visited next, unless it is claimed. -/
def followEdge (m : Machine) (e : BlockId × BlockId) : Except Fault Machine :=
  let (source, target) := e
  if m.facts.claimed target then
    .ok { m with facts := m.facts.flowTo source target (p.isLoopHeader target) }
  else do
    let t ← m.facts.exposed.get source
    return { m with facts := m.facts.flowTo source target false, visits := (target, t) :: m.visits }

/-- Takes up edges so that the first one is visited first. -/
def follow (m : Machine) (edges : List (BlockId × BlockId)) : Except Fault Machine :=
  edges.reverse.foldlM (followEdge p) m

def enter (m : Machine) (b : BlockId) (t : Bindings) : Except Fault Machine := do
  let f ← Transfer.process s b p t m.facts
  if p.isLoopHeader b then
    let (f, r) := LoopRun.opened p f b
    return { m with facts := f, loops := r :: m.loops }
  else follow p { m with facts := f } (p.edgesFrom b)

/-- Processes a block outside of loops with what some of its predecessors leave. -/
def enterMerged (m : Machine) (b : BlockId) (preds : List BlockId) : Except Fault Machine := do
  let (t, f) ← Merge.predecessors s m.facts b (p.headLine b) preds
  enter p s { m with facts := f } b t

def visit (m : Machine) (b : BlockId) (t : Bindings) : Except Fault Machine :=
  let preds := p.predecessors b
  if m.facts.claimed b then .ok m
  else if preds.length < 2 then enter p s m b t
  else if p.isLoopHeader b then
    let ready := m.facts.exposed.readyOf preds
    if ready.length < 2 then enter p s m b t else enterMerged p s m b ready
  else if m.facts.exposed.allReady preds then
    enterMerged p s { m with pending := m.pending.erase b } b preds
  else .ok { m with pending := m.pending.insert b }

/-- The first pending merge that some predecessor was processed of. -/
def resolvable? (m : Machine) : Option BlockId :=
  m.pending.toList.find? fun b => !m.facts.claimed b &&
    !(m.facts.exposed.readyOf (p.predecessors b)).isEmpty

def settle (m : Machine) (b : BlockId) : Except Fault Machine :=
  enterMerged p s { m with pending := m.pending.erase b } b
    (m.facts.exposed.readyOf (p.predecessors b))

/-! ## loops -/

/-- Ends the innermost loop `r` and goes on, in the loop around it or on the walk, where the loop is
left. -/
def leave (m : Machine) (f : Facts) (r : LoopRun) (outer : List LoopRun) :
    Except Fault Machine := do
  let f ← LoopRun.close f r
  match outer with
  | [] => follow p { m with facts := f, loops := [] } r.exits
  | o :: rest =>
    let (f, o) := LoopRun.absorb p f o r.exits
    return { m with facts := f, loops := o :: rest }

def giveUp (m : Machine) (r : LoopRun) (outer : List LoopRun) (fault : Fault) :
    Except Fault Machine :=
  leave p m (m.facts.report (.ofFault fault)) r outer

def enterLooped (m : Machine) (r : LoopRun) (outer : List LoopRun) (b : BlockId)
    (t : Bindings) (f : Facts) :
    Except Fault Machine := do
  let f ← Transfer.process s b p t f
  let m := { m with pending := m.pending.erase b }
  let r := { r with stalled := 0 }
  if p.isLoopHeader b then
    let (f, inner) := LoopRun.opened p f b
    return { m with facts := f, loops := inner :: r :: outer }
  else
    let (f, r) := LoopRun.absorb p f r (p.edgesFrom b)
    return { m with facts := f, loops := r :: outer }

/-- Puts a block of the innermost loop back; a queue in which every block was put back in a row is
stuck. -/
def defer (m : Machine) (r : LoopRun) (outer : List LoopRun) (b : BlockId) : Except Fault Machine :=
  let r := { r with queue := r.queue ++ [b], stalled := r.stalled + 1 }
  if r.queue.length ≤ r.stalled then .error (.blockNotProcessed (LoopRun.missing p m.facts b))
  else .ok { m with loops := r :: outer }

/-- Takes the next block of the innermost loop; `r` is the loop without it. -/
def take (m : Machine) (r : LoopRun) (outer : List LoopRun) (b : BlockId) : Except Fault Machine :=
  let r := { r with taken := r.taken + 1 }
  if s.maxIterations < r.taken then giveUp p m r outer (.loopLimit r.header s.maxIterations)
  else if m.facts.claimed b then giveUp p m r outer (.loopReentry r.header b)
  else do
    match ← LoopRun.entry p s m.facts r.header b with
    | some (t, f) => enterLooped p s m r outer b t f
    | none => defer p m r outer b

/-! ## steps -/

/-- One step: the innermost loop comes first, then the walk, then pending merges. Nothing left to do
is no step. -/
def step (m : Machine) : Except Fault Machine :=
  match m.loops, m.visits with
  | r :: outer, _ =>
    match r.queue with
    | b :: queue => take p s m { r with queue := queue } outer b
    | [] => leave p m m.facts r outer
  | [], (b, t) :: visits => visit p s { m with visits := visits } b t
  | [], [] =>
    match m.resolvable? p with
    | some b => settle p s m b
    | none => .ok m

def finished (m : Machine) : Bool := m.loops.isEmpty && m.visits.isEmpty && (m.resolvable? p).isNone

def run : (n : Nat) → Machine → Except Fault Machine
  | 0, m => .ok m
  | n + 1, m => if m.finished p then .ok m else do run n (← step p s m)

/-- The facts at the end. Pending merges are left over only where no predecessor was ever
processed. -/
def conclude (m : Machine) : Facts :=
  (m.pending.toList.filter fun b => !m.facts.claimed b).foldl
    (fun f b => f.report (.unreachableMerge b)) m.facts

end Machine

end ArrayFlow
