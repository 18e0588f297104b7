import ArrayFlow.Proofs.Clean

/-!
# Structured code

Code made of straight pieces, branches and loops, and the blocks and edges that it is laid out as.

* `Region`           : a piece of code; pieces in a row are a piece again, so that none is empty;
* `Lowering`         : the blocks, edges and loop exits laid out so far;
* `Region.lower`     : lays a region out behind a block, and gives the block where it ends;
* `Program.lower`    : lays a program out, with an entry that creates the arrays;
* `Lowering.Named`   : names are given in order, and every block is behind one with a smaller name.
-/

namespace ArrayFlow

/-! ## regions -/

def Action.text : Action → String
  | write a => a.base ++ "[" ++ a.index.text ++ "] = t"
  | read a => "t = " ++ a.base ++ "[" ++ a.index.text ++ "]"
  | create base => base ++ " = new int[n]"
  | rename source target => target ++ " = " ++ source
  | other => "t = t + 1"

/-- A piece of structured code. -/
inductive Region where
  | straight (body : List Action)
  | seq (first second : Region)
  | branch (left right : Region)
  | loop (body : Region)
  deriving DecidableEq, Inhabited, Repr

def Region.Within (arrays : List String) : Region → Prop
  | straight body => ∀ action ∈ body, action.Within arrays
  | seq first second => first.Within arrays ∧ second.Within arrays
  | branch left right => left.Within arrays ∧ right.Within arrays
  | loop body => body.Within arrays

/-! ## lowering -/

/-- What was laid out so far. -/
structure Lowering where
  blocks : List (BlockId × List Statement) := []
  edges : List (BlockId × BlockId) := []
  exits : List (BlockId × BlockId) := []
  /-- The headers of the loops that were laid out as a whole. -/
  headers : List BlockId := []
  nextStmt : Nat := 0
  deriving DecidableEq, Inhabited, Repr

namespace Lowering

/-- The name of the next block. -/
def next (l : Lowering) : BlockId := ⟨l.blocks.length⟩

/-- Statements with these actions, numbered from `k` on. -/
def statements : Nat → List Action → List Statement
  | _, [] => []
  | k, action :: rest => ⟨⟨k⟩, k + 1, action.text, action⟩ :: statements (k + 1) rest

/-- Adds a block, which opens with a statement that concerns no array. -/
def block (l : Lowering) (body : List Action) : Lowering :=
  { l with
    blocks := l.blocks ++ [(l.next, statements l.nextStmt (.other :: body))]
    nextStmt := l.nextStmt + (body.length + 1) }

/-- Adds an edge; out of the header of a loop that was laid out, it leaves the loop. -/
def connect (l : Lowering) (source target : BlockId) : Lowering :=
  { l with
    edges := l.edges ++ [(source, target)]
    exits := if source ∈ l.headers then l.exits ++ [(source, target)] else l.exits }

/-- Adds a block behind another one. -/
def append (l : Lowering) (tail : BlockId) (body : List Action) : Lowering :=
  (l.block body).connect tail l.next

/-- The loop of a header was laid out as a whole. -/
def close (l : Lowering) (header : BlockId) : Lowering := { l with headers := header :: l.headers }

def draft (l : Lowering) : Draft where
  name := "generated"
  blocks := l.blocks
  edges := l.edges
  loops := l.exits.map fun e => .blocks e.1 e.2

end Lowering

/-- Lays a region out behind the block `tail`, and gives the block where it ends. -/
def Region.lower : Region → BlockId → Lowering → BlockId × Lowering
  | straight body, tail, l => (l.next, l.append tail body)
  | seq first second, tail, l =>
    let (tail, l) := first.lower tail l
    second.lower tail l
  | branch left right, tail, l =>
    let head := l.next
    let (a, l) := left.lower head (l.append tail [])
    let (b, l) := right.lower head l
    (l.next, (l.append a []).connect b l.next)
  | loop body, tail, l =>
    let head := l.next
    let (a, l) := body.lower head (l.append tail [])
    (head, (l.connect a head).close head)

/-- A program over some arrays. -/
structure Program where
  arrays : List String
  regions : List Region
  deriving DecidableEq, Inhabited, Repr

/-- The layout of a program: the entry creates the arrays, the regions follow one after the other,
and a block without actions comes last. -/
def Program.lower (g : Program) : Lowering :=
  let entry : Lowering := {}
  let (tail, l) := g.regions.foldl (fun (tail, l) r => r.lower tail l) (entry.next,
    entry.block (g.arrays.map .create))
  l.append tail []

/-! ## names and bodies -/

namespace Lowering

theorem map_action_statements (k : Nat) (body : List Action) :
    (statements k body).map (·.action) = body := by
  induction body generalizing k with
  | nil => rfl
  | cons action rest ih => rw [statements, List.map_cons, ih]

theorem map_id_statements (k : Nat) (body : List Action) :
    (statements k body).map (·.id) = (List.range' k body.length).map .mk := by
  induction body generalizing k with
  | nil => rfl
  | cons action rest ih => rw [statements, List.map_cons, ih, List.length_cons, List.range'_succ,
      List.map_cons]

theorem within_statements {arrays : List String} {k : Nat} {body : List Action}
    (h : ∀ action ∈ body, action.Within arrays) :
    ∀ stmt ∈ statements k (.other :: body), stmt.action.Within arrays := by
  intro stmt hs
  have hmem := List.mem_map_of_mem (f := (·.action)) hs
  rw [map_action_statements] at hmem
  rcases List.mem_cons.1 hmem with heq | hmem
  · rw [heq]
    trivial
  · exact h _ hmem

theorem length_append_blocks (l : Lowering) (tail : BlockId) (body : List Action) :
    (l.append tail body).blocks.length = l.blocks.length + 1 := by
  simp [append, block, connect]

/-- The first block creates the arrays, blocks and statements are numbered in order, the arrays are
kept to, and every block but the first is behind one with a smaller number. -/
structure Named (arrays : List String) (l : Lowering) : Prop where
  entry : l.blocks.head? = some (⟨0⟩, statements 0 (.other :: arrays.map .create))
  names : l.blocks.map (·.1) = (List.range l.blocks.length).map .mk
  stmts : Draft.stmtIds l.blocks = (List.range l.nextStmt).map .mk
  within : ∀ k ∈ l.blocks, ∀ stmt ∈ k.2, stmt.action.Within arrays
  nonempty : ∀ k ∈ l.blocks, k.2 ≠ []
  forward : ∀ b : BlockId, 0 < b.index → b.index < l.blocks.length → ∃ a, (a, b) ∈ l.edges ∧
    a.index < b.index

namespace Named

variable {arrays : List String} {l : Lowering}

theorem start (arrays : List String) :
    Named arrays (({} : Lowering).block (arrays.map .create)) where
  entry := rfl
  names := rfl
  stmts := by
    simp only [block, Draft.stmtIds, List.nil_append, List.flatMap_cons, List.flatMap_nil,
      List.append_nil, map_id_statements, List.range_eq_range', List.length_cons, Nat.zero_add]
  within := by
    intro k hk
    obtain rfl := List.mem_singleton.1 hk
    refine within_statements fun action ha => ?_
    obtain ⟨base, hbase, rfl⟩ := List.mem_map.1 ha
    exact hbase
  nonempty := by
    intro k hk
    obtain rfl := List.mem_singleton.1 hk
    exact List.cons_ne_nil _ _
  forward := by
    intro b hpos hlt
    simp only [block, List.nil_append, List.length_singleton] at hlt
    omega

theorem append {tail : BlockId} {body : List Action} (h : Named arrays l)
    (ht : tail.index < l.blocks.length) (hbody : ∀ action ∈ body, action.Within arrays) :
    Named arrays (l.append tail body) where
  entry := by
    simp [Lowering.append, connect, block, h.entry]
  names := by
    simp [Lowering.append, connect, block, next, h.names, List.range_succ]
  stmts := by
    have hids := h.stmts
    unfold Draft.stmtIds at hids ⊢
    simp only [Lowering.append, connect, block, List.flatMap_append, List.flatMap_cons,
      List.flatMap_nil, List.append_nil, List.map_append, hids, map_id_statements, List.length_cons]
    have hrange := List.range'_append_1 (s := 0) (m := l.nextStmt) (n := body.length + 1)
    rw [Nat.zero_add] at hrange
    rw [← List.map_append, List.range_eq_range', hrange, List.range_eq_range']
  within := by
    intro k hk
    rcases List.mem_append.1 hk with hk | hk
    · exact h.within k hk
    · obtain rfl := List.mem_singleton.1 hk
      exact within_statements hbody
  nonempty := by
    intro k hk
    rcases List.mem_append.1 hk with hk | hk
    · exact h.nonempty k hk
    · obtain rfl := List.mem_singleton.1 hk
      exact List.cons_ne_nil _ _
  forward := by
    intro b hpos hlt
    rw [length_append_blocks] at hlt
    by_cases hb : b.index < l.blocks.length
    · obtain ⟨a, ha, hab⟩ := h.forward b hpos hb
      exact ⟨a, List.mem_append_left _ ha, hab⟩
    · obtain rfl : b = l.next := congrArg BlockId.mk (by omega : b.index = l.blocks.length)
      exact ⟨tail, List.mem_append_right _ (List.mem_singleton_self _), ht⟩

theorem connect {source target : BlockId} (h : Named arrays l) :
    Named arrays (l.connect source target) where
  entry := h.entry
  names := h.names
  stmts := h.stmts
  within := h.within
  nonempty := h.nonempty
  forward b hpos hlt := (h.forward b hpos hlt).imp fun _ ha => ⟨List.mem_append_left _ ha.1, ha.2⟩

theorem close {header : BlockId} (h : Named arrays l) : Named arrays (l.close header) :=
  ⟨h.1, h.2, h.3, h.4, h.5, h.6⟩

end Named

end Lowering

end ArrayFlow
