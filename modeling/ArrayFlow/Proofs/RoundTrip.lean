import ArrayFlow.Procedure.Interchange
import ArrayFlow.Proofs.WellFormed
import Mathlib.Data.List.Nodup

/-!
# Procedures written and read again

A procedure is written with its successors and its predecessors. The predecessors are not read: they
are found again from the successors, block by block, which is not the order in which the edges were
declared.

* `eraseDups_sublist`, `nodup_eraseDups` : a list without its repetitions;
* `filter_flatMap_key`, `flatMap_filter_key` : edges that are listed by their sources, and the parts
  of such a list;
* `Statement.ofJson?_toJson`, `Draft.ofJson?_toJson` : what is written is read;
* `Draft.ofBlocks`       : a draft that lists its edges block by block, and `ofJson?_eq_some`: no
  other draft is read;
* `Draft.Fits`           : its numbers are small enough for the interchange format;
* `Procedure.relisted`   : the procedure with its predecessors in the order of the blocks, which is
  what is read;
* `relisted_eq_self`     : nothing changes if the edges were declared block by block;
* `round_trip`           : a procedure is read as it was written, up to the order of predecessors,
  and exactly if it was read before.
-/

namespace ArrayFlow

/-! ## lists without repetitions -/

section

variable {α : Type} [BEq α]

theorem eraseDups_sublist (l : List α) : l.eraseDups.Sublist l := by
  match l with
  | [] => simp
  | a :: l =>
    rw [List.eraseDups_cons]
    exact ((eraseDups_sublist _).trans List.filter_sublist).cons_cons a
termination_by l.length
decreasing_by exact Nat.lt_succ_of_le (List.length_filter_le _ _)

theorem nodup_eraseDups [LawfulBEq α] (l : List α) : l.eraseDups.Nodup := by
  match l with
  | [] => simp
  | a :: l =>
    rw [List.eraseDups_cons, List.nodup_cons, List.mem_eraseDups]
    exact ⟨by simp, nodup_eraseDups _⟩
termination_by l.length
decreasing_by exact Nat.lt_succ_of_le (List.length_filter_le _ _)

theorem eraseDups_of_nodup [LawfulBEq α] {l : List α} (h : l.Nodup) : l.eraseDups = l := by
  induction l with
  | nil => simp
  | cons a l ih =>
    obtain ⟨ha, hl⟩ := List.nodup_cons.1 h
    have hkept : l.filter (fun b => !b == a) = l := by
      refine List.filter_eq_self.2 fun b hb => ?_
      simp only [Bool.not_eq_true', beq_eq_false_iff_ne]
      exact fun heq => ha (heq ▸ hb)
    rw [List.eraseDups_cons, hkept, ih hl]

end

/-! ## edges by their sources -/

section

variable {γ : Type} {xs : List γ} {key : γ → BlockId} {part : γ → List (BlockId × BlockId)}

/-- Of edges that are listed by their sources, those with one source are one part. -/
theorem filter_flatMap_key (hpart : ∀ x ∈ xs, ∀ e ∈ part x, e.1 = key x)
    (hn : (xs.map key).Nodup) {x : γ} (hx : x ∈ xs) :
    (xs.flatMap part).filter (·.1 = key x) = part x := by
  induction xs with
  | nil => cases hx
  | cons y xs ih =>
    rw [List.map_cons, List.nodup_cons] at hn
    have hrest : ∀ z ∈ xs, ∀ e ∈ part z, e.1 = key z := fun z hz =>
      hpart z (List.mem_cons_of_mem _ hz)
    have hhead : ∀ e ∈ part y, e.1 = key y := hpart y (List.mem_cons_self ..)
    rw [List.flatMap_cons, List.filter_append]
    rcases List.mem_cons.1 hx with rfl | hx
    · rw [List.filter_eq_self.2 (by simpa using hhead), List.filter_eq_nil_iff.2, List.append_nil]
      intro e he heq
      obtain ⟨z, hz, he⟩ := List.mem_flatMap.1 he
      exact hn.1 (List.mem_map.2 ⟨z, hz, (hrest z hz e he).symm.trans (of_decide_eq_true heq)⟩)
    · rw [ih hrest hn.2 hx, List.filter_eq_nil_iff.2, List.nil_append]
      intro e he heq
      exact hn.1 (List.mem_map.2 ⟨x, hx, (of_decide_eq_true heq).symm.trans (hhead e he)⟩)

/-- A list of edges that keeps to the order of the sources consists of its parts in this order. -/
theorem flatMap_filter_key (hpart : ∀ x ∈ xs, ∀ e ∈ part x, e.1 = key x) (hn : (xs.map key).Nodup)
    {l : List (BlockId × BlockId)} (hl : l.Sublist (xs.flatMap part)) :
    (xs.map key).flatMap (fun b => l.filter (·.1 = b)) = l := by
  induction xs generalizing l with
  | nil => simp_all
  | cons y xs ih =>
    rw [List.map_cons, List.nodup_cons] at hn
    obtain ⟨l₁, l₂, rfl, h₁, h₂⟩ := List.sublist_append_iff.1 hl
    have hhead : ∀ e ∈ l₁, e.1 = key y := fun e he =>
      hpart y (List.mem_cons_self ..) e (h₁.subset he)
    have hrest : ∀ e ∈ l₂, e.1 ∈ xs.map key := by
      intro e he
      obtain ⟨z, hz, he⟩ := List.mem_flatMap.1 (h₂.subset he)
      exact List.mem_map.2 ⟨z, hz, (hpart z (List.mem_cons_of_mem _ hz) e he).symm⟩
    have htail : (xs.map key).flatMap (fun b => (l₁ ++ l₂).filter (·.1 = b)) =
        (xs.map key).flatMap (fun b => l₂.filter (·.1 = b)) := by
      refine List.flatMap_congr fun b hb => ?_
      rw [List.filter_append, List.filter_eq_nil_iff.2, List.nil_append]
      intro e he heq
      exact hn.1 ((hhead e he).symm.trans (of_decide_eq_true heq) ▸ hb)
    rw [List.map_cons, List.flatMap_cons, htail,
      ih (fun z hz => hpart z (List.mem_cons_of_mem _ hz)) hn.2 h₂, List.filter_append,
      List.filter_eq_self.2 (by simpa using hhead), List.filter_eq_nil_iff.2, List.append_nil]
    intro e he heq
    exact hn.1 (of_decide_eq_true heq ▸ hrest e he)

end

/-! ## statements -/

theorem mapM_map_eq_some {α : Type} {write : α → Json} {read : Json → Option α} {xs : List α}
    (h : ∀ x ∈ xs, read (write x) = some x) : (xs.map write).mapM read = some xs := by
  induction xs with
  | nil => rfl
  | cons x xs ih =>
    rw [List.map_cons, List.mapM_cons, h x (List.mem_cons_self ..),
      ih fun y hy => h y (List.mem_cons_of_mem _ hy)]
    rfl

theorem mem_of_mapM_eq_some {α : Type} {read : Json → Option α} {js : List Json} {xs : List α}
    (h : js.mapM read = some xs) : ∀ x ∈ xs, ∃ j, read j = some x := by
  induction js generalizing xs with
  | nil =>
    cases h
    simp
  | cons j js ih =>
    simp only [List.mapM_cons, Option.bind_eq_bind, Option.bind_eq_some_iff, Option.pure_def,
      Option.some.injEq] at h
    obtain ⟨y, hy, ys, hys, rfl⟩ := h
    intro x hx
    rcases List.mem_cons.1 hx with rfl | hx
    · exact ⟨j, hy⟩
    · exact ih hys x hx

theorem Json.index?_nat {n : Nat} (h : n ≤ Json.maxIndex) : (Json.nat n).index? = some n := by
  simp [Json.index?, Json.nat?, h]

theorem Json.index?_le {j : Json} {n : Nat} (h : j.index? = some n) : n ≤ Json.maxIndex := by
  unfold Json.index? Json.nat? at h
  split at h
  · split at h
    · cases h
      assumption
    · cases h
  · cases h

theorem Subscript.ofJson?_toJson (i : Subscript) : Subscript.ofJson? i.toJson = some i := by
  cases i <;> simp [Subscript.toJson, Subscript.ofJson?]

theorem Access.ofJson?_toJson (a : Access) : Access.ofJson? a.toJson = some a := by
  simp [Access.toJson, Access.ofJson?, Json.record?, Json.str?, Subscript.ofJson?_toJson,
    List.lookup_cons]

theorem Subscript.readable_toJson (i : Subscript) :
    i.toJson.readable = true ∧ i.toJson.depth ≤ 1 := by
  cases i <;> simp [Subscript.toJson, Json.readable, Json.readableFields, Json.depth,
    Json.depthFields]

theorem Access.readable_toJson (a : Access) : a.toJson.readable = true ∧ a.toJson.depth ≤ 2 := by
  obtain ⟨hread, hdepth⟩ := a.index.readable_toJson
  have heq : a.toJson.depth = a.index.toJson.depth + 1 := by simp [Access.toJson, Json.depth,
    Json.depthFields]
  exact ⟨by simp [Access.toJson, Json.readable, Json.readableFields, hread], by omega⟩

theorem Action.readable_toJson (a : Action) : a.toJson.readable = true ∧ a.toJson.depth ≤ 3 := by
  cases a with
  | write a =>
    obtain ⟨hread, hdepth⟩ := a.readable_toJson
    have heq : (Action.write a).toJson.depth = a.toJson.depth + 1 := by simp [Action.toJson,
      Json.depth, Json.depthFields]
    exact ⟨by simp [Action.toJson, Json.readable, Json.readableFields, hread], by omega⟩
  | read a =>
    obtain ⟨hread, hdepth⟩ := a.readable_toJson
    have heq : (Action.read a).toJson.depth = a.toJson.depth + 1 := by simp [Action.toJson,
      Json.depth, Json.depthFields]
    exact ⟨by simp [Action.toJson, Json.readable, Json.readableFields, hread], by omega⟩
  | create b => simp [Action.toJson, Json.readable, Json.readableFields, Json.depth,
      Json.depthFields]
  | rename s t => simp [Action.toJson, Json.readable, Json.readableFields, Json.depth,
      Json.depthFields]
  | other => simp [Action.toJson, Json.readable, Json.readableFields, Json.depth, Json.depthFields]

/-- Every action is read as it is written, wherever there is room for an access. -/
theorem Action.ofJson?_toJson (a : Action) {room : Nat} (hroom : 3 ≤ room) :
    Action.ofJson? room a.toJson = some a := by
  obtain ⟨hread, hdepth⟩ := a.readable_toJson
  have hfits : (a.toJson.readable && decide (a.toJson.depth ≤ room)) = true := by
    simpa [hread] using Nat.le_trans hdepth hroom
  unfold Action.ofJson?
  rw [if_pos hfits]
  cases a with
  | write a | read a => simp [Action.toJson, Action.ofTag?, Json.record?, List.lookup_cons,
      Access.ofJson?_toJson]
  | create b => simp [Action.toJson, Action.ofTag?, Json.record?, List.lookup_cons, Json.str?]
  | rename s t => simp [Action.toJson, Action.ofTag?, Json.record?, List.lookup_cons, Json.str?]
  | other => simp [Action.toJson, Action.ofTag?, Json.record?]

/-- The numbers of the statement are small enough for the interchange format. -/
structure Statement.Fits (stmt : Statement) : Prop where
  id : stmt.id.index ≤ Json.maxIndex
  line : stmt.line ≤ Json.maxIndex

instance (stmt : Statement) : Decidable stmt.Fits :=
  decidable_of_iff (stmt.id.index ≤ Json.maxIndex ∧ stmt.line ≤ Json.maxIndex)
    ⟨fun h => ⟨h.1, h.2⟩, fun h => ⟨h.id, h.line⟩⟩

theorem Statement.ofJson?_toJson {stmt : Statement} (h : stmt.Fits) {outer : Nat}
    (houter : outer + 4 ≤ Json.maxDepth) :
    Statement.ofJson? outer stmt.toJson = some stmt := by
  have hroom : 3 ≤ Json.maxDepth - outer - 1 := by omega
  simp [Statement.toJson, Statement.ofJson?, Json.record?, List.lookup_cons, Json.str?,
    Json.index?_nat h.id, Json.index?_nat h.line, Action.ofJson?_toJson _ hroom]

theorem Statement.fits_of_ofJson? {stmt : Statement} {outer : Nat} {j : Json}
    (h : Statement.ofJson? outer j = some stmt) : stmt.Fits := by
  unfold Statement.ofJson? at h
  split at h
  · rename_i id line text kind hrecord
    cases line with
    | some l =>
      simp only [Option.bind_eq_bind, Option.bind_eq_some_iff, Option.pure_def,
        Option.some.injEq] at h
      obtain ⟨n, hn, i, hi, t, -, k, -, rfl⟩ := h
      exact ⟨Json.index?_le hi, Json.index?_le hn⟩
    | none =>
      simp only [Option.bind_eq_bind, Option.bind_some, Option.bind_eq_some_iff, Option.pure_def,
        Option.some.injEq] at h
      obtain ⟨i, hi, t, -, k, -, rfl⟩ := h
      exact ⟨Json.index?_le hi, Nat.zero_le _⟩
  · cases h

/-! ## drafts -/

structure LoopExit.Fits (pair : LoopExit) : Prop where
  header : pair.header.index ≤ Json.maxIndex
  exit : pair.exit.index ≤ Json.maxIndex

instance (pair : LoopExit) : Decidable pair.Fits :=
  decidable_of_iff (pair.header.index ≤ Json.maxIndex ∧ pair.exit.index ≤ Json.maxIndex)
    ⟨fun h => ⟨h.1, h.2⟩, fun h => ⟨h.header, h.exit⟩⟩

/-- A loop that is declared by blocks has no numbers of its own. -/
def LoopDecl.Fits : LoopDecl → Prop
  | stmts pair => pair.Fits
  | blocks .. => True

instance (decl : LoopDecl) : Decidable decl.Fits :=
  match decl with
  | .stmts pair => inferInstanceAs (Decidable pair.Fits)
  | .blocks .. => inferInstanceAs (Decidable True)

theorem LoopExit.ofJson?_toJson {pair : LoopExit} (h : pair.Fits) :
    LoopExit.ofJson? pair.toJson = some pair := by
  simp [LoopExit.toJson, LoopExit.ofJson?, Json.record?, List.lookup_cons, Json.index?_nat h.header,
    Json.index?_nat h.exit]

theorem LoopExit.fits_of_ofJson? {pair : LoopExit} {j : Json}
    (h : LoopExit.ofJson? j = some pair) : pair.Fits := by
  unfold LoopExit.ofJson? at h
  split at h
  · simp only [Option.bind_eq_bind, Option.bind_eq_some_iff, Option.pure_def,
      Option.some.injEq] at h
    obtain ⟨i, hi, k, hk, rfl⟩ := h
    exact ⟨Json.index?_le hi, Json.index?_le hk⟩
  · cases h

/-- What is read of the block is small enough for the interchange format. -/
structure Block.Fits (k : Block) : Prop where
  id : k.id.index ≤ Json.maxIndex
  statements : ∀ stmt ∈ k.statements, stmt.Fits
  successors : ∀ c ∈ k.successors, c.index ≤ Json.maxIndex

def Block.edges (k : Block) : List (BlockId × BlockId) := k.successors.map (k.id, ·)

theorem Block.source_of_mem_edges {k : Block} {e : BlockId × BlockId} (h : e ∈ k.edges) :
    e.1 = k.id := by
  obtain ⟨c, -, rfl⟩ := List.mem_map.1 h
  rfl

namespace Draft

/-- The draft with one more block and the edges out of it. -/
def withBlock (d : Draft) (k : Block) : Draft :=
  { d with blocks := d.blocks ++ [(k.id, k.statements)], edges := d.edges ++ k.edges }

/-- A draft that lists the edges block by block. -/
def ofBlocks (name : String) (entry : Option BlockId) (blocks : List Block)
    (pairs : List LoopExit) : Draft where
  name := name
  entry := entry
  blocks := blocks.map fun k => (k.id, k.statements)
  edges := blocks.flatMap Block.edges
  loops := pairs.map .stmts

theorem foldl_addEdge (d : Draft) (b : BlockId) (targets : List Nat) :
    targets.foldl (fun d c => d.addEdge b ⟨c⟩) d =
      { d with edges := d.edges ++ targets.map fun c => (b, ⟨c⟩) } := by
  induction targets generalizing d with
  | nil => simp
  | cons c targets ih =>
    rw [List.foldl_cons, ih]
    simp [addEdge]

theorem foldl_addLoopExit (d : Draft) (pairs : List LoopExit) :
    pairs.foldl addLoopExit d = { d with loops := d.loops ++ pairs.map .stmts } := by
  induction pairs generalizing d with
  | nil => simp
  | cons pair pairs ih => simp [ih, addLoopExit]

theorem foldl_withBlock (d : Draft) (ks : List Block) :
    ks.foldl withBlock d =
      { d with blocks := d.blocks ++ ks.map fun k => (k.id, k.statements), edges :=
  d.edges ++ ks.flatMap Block.edges } := by
  induction ks generalizing d with
  | nil => simp
  | cons k ks ih => simp [ih, withBlock]

theorem foldl_eq_ofBlocks (name : String) (entry : Option BlockId) (ks : List Block)
    (pairs : List LoopExit) :
    pairs.foldl addLoopExit (ks.foldl withBlock { name := name, entry := entry }) =
      ofBlocks name entry ks pairs := by
  rw [foldl_addLoopExit, foldl_withBlock]
  simp [ofBlocks]

theorem mem_of_list? {α : Type} {item : Json → Option α} {field : Option Json} {xs : List α}
    (h : list? item field = some xs) : ∀ x ∈ xs, ∃ j, item j = some x := by
  cases field with
  | none =>
    cases h
    simp
  | some j =>
    simp only [list?, Option.bind_eq_some_iff] at h
    obtain ⟨js, -, hjs⟩ := h
    exact mem_of_mapM_eq_some hjs

theorem addJson?_toJson (d : Draft) {k : Block} (h : k.Fits) :
    d.addJson? k.toJson = some (d.withBlock k) := by
  have hstmts : list? (Statement.ofJson? 4) (some (.arr (k.statements.map Statement.toJson))) =
    some k.statements :=
    mapM_map_eq_some fun stmt hstmt =>
      Statement.ofJson?_toJson (h.statements stmt hstmt) (by decide)
  have htargets : list? Json.index? (some (.ofBlocks k.successors)) =
      some (k.successors.map (·.index)) := by
    have hread : ((k.successors.map (·.index)).map Json.nat).mapM Json.index? =
        some (k.successors.map (·.index)) := by
      refine mapM_map_eq_some fun n hn => ?_
      obtain ⟨c, hc, rfl⟩ := List.mem_map.1 hn
      exact Json.index?_nat (h.successors c hc)
    rwa [List.map_map] at hread
  simp [addJson?, Block.toJson, Json.record?, List.lookup_cons, Json.index?_nat h.id, hstmts,
    htargets, foldl_addEdge, addBlock, withBlock, Block.edges]

theorem addJson?_eq_some {d d' : Draft} {j : Json} (h : d.addJson? j = some d') :
    ∃ k : Block, k.Fits ∧ d' = d.withBlock k := by
  unfold addJson? at h
  split at h
  · rename_i id statements successors hrecord
    simp only [Option.bind_eq_bind, Option.bind_eq_some_iff, Option.pure_def,
      Option.some.injEq] at h
    obtain ⟨i, hi, stmts, hstmts, targets, htargets, rfl⟩ := h
    refine ⟨⟨⟨i⟩, stmts, targets.map .mk, []⟩,
      ⟨Json.index?_le hi, fun stmt hstmt => ?_, fun c hc => ?_⟩, ?_⟩
    · obtain ⟨j, hj⟩ := mem_of_list? hstmts stmt hstmt
      exact Statement.fits_of_ofJson? hj
    · obtain ⟨n, hn, rfl⟩ := List.mem_map.1 hc
      obtain ⟨j, hj⟩ := mem_of_list? htargets n hn
      exact Json.index?_le hj
    · simp [foldl_addEdge, addBlock, withBlock, Block.edges]
  · cases h

theorem foldlM_addJson?_toJson (d : Draft) {ks : List Block} (h : ∀ k ∈ ks, k.Fits) :
    (ks.map Block.toJson).foldlM addJson? d = some (ks.foldl withBlock d) := by
  induction ks generalizing d with
  | nil => rfl
  | cons k ks ih =>
    rw [List.map_cons, List.foldlM_cons, addJson?_toJson d (h k (List.mem_cons_self ..))]
    exact ih (d.withBlock k) fun k' hk' => h k' (List.mem_cons_of_mem _ hk')

theorem foldlM_addJson?_eq_some {d d' : Draft} {js : List Json}
    (h : js.foldlM addJson? d = some d') :
    ∃ ks : List Block, (∀ k ∈ ks, k.Fits) ∧ d' = ks.foldl withBlock d := by
  induction js generalizing d with
  | nil =>
    cases h
    exact ⟨[], by simp, rfl⟩
  | cons j js ih =>
    simp only [List.foldlM_cons, Option.bind_eq_bind, Option.bind_eq_some_iff] at h
    obtain ⟨d₁, h₁, h⟩ := h
    obtain ⟨k, hk, rfl⟩ := addJson?_eq_some h₁
    obtain ⟨ks, hks, rfl⟩ := ih h
    exact ⟨k :: ks, by simpa using ⟨hk, hks⟩, rfl⟩

/-- Every draft that is read lists its edges block by block. -/
theorem ofJson?_eq_some {d : Draft} {j : Json} (h : Draft.ofJson? j = some d) :
    ∃ name entry ks pairs, d = ofBlocks name entry ks pairs ∧ (∀ k ∈ ks, k.Fits) ∧
      ∀ pair ∈ pairs, LoopExit.Fits pair := by
  unfold Draft.ofJson? at h
  split at h
  · rename_i name entry blocks loops hrecord
    have hrest : ∀ entry : Option Nat, (do
        let draft ← (← blocks.arr?).foldlM addJson? { name := ← name.str?, entry := entry.map BlockId.mk }
        let loops ← list? LoopExit.ofJson? loops
        return loops.foldl addLoopExit draft) = some d →
        ∃ name entry ks pairs, d = ofBlocks name entry ks pairs ∧ (∀ k ∈ ks, k.Fits) ∧
          ∀ pair ∈ pairs, LoopExit.Fits pair := by
      intro entry h
      simp only [Option.bind_eq_bind, Option.bind_eq_some_iff, Option.pure_def,
        Option.some.injEq] at h
      obtain ⟨js, -, text, -, d₁, h₁, pairs, hpairs, rfl⟩ := h
      obtain ⟨ks, hks, rfl⟩ := foldlM_addJson?_eq_some h₁
      refine ⟨text, entry.map .mk, ks, pairs, foldl_eq_ofBlocks _ _ _ _, hks, fun pair hpair => ?_⟩
      obtain ⟨j, hj⟩ := mem_of_list? hpairs pair hpair
      exact LoopExit.fits_of_ofJson? hj
    split at h
    · exact hrest none h
    · exact hrest none h
    · obtain ⟨e, -, h⟩ := Option.bind_eq_some_iff.1 h
      exact hrest e h
  · cases h

end Draft

/-- What is read of the procedure is small enough for the interchange format. -/
structure Procedure.Fits (p : Procedure) : Prop where
  entry : p.entry.index ≤ Json.maxIndex
  blocks : ∀ k ∈ p.blocks, k.Fits
  loopExits : ∀ pair ∈ p.loopExits, pair.Fits

/-- The draft that a procedure is read as. -/
def Procedure.draft (p : Procedure) : Draft := .ofBlocks p.name (some p.entry) p.blocks p.loopExits

theorem Draft.ofJson?_toJson {p : Procedure} (h : p.Fits) :
    Draft.ofJson? p.toJson = some p.draft := by
  have hpairs : list? LoopExit.ofJson? (some (.arr (p.loopExits.map LoopExit.toJson))) =
    some p.loopExits :=
    mapM_map_eq_some fun pair hpair => LoopExit.ofJson?_toJson (h.loopExits pair hpair)
  simp [Draft.ofJson?, Procedure.toJson, Json.record?, List.lookup_cons, Json.index?_nat h.entry,
    Json.arr?, Json.str?, hpairs, foldlM_addJson?_toJson _ h.blocks, foldl_eq_ofBlocks,
    Procedure.draft]

/-! ## building what was read -/

def Procedure.edges (p : Procedure) : List (BlockId × BlockId) := p.blocks.flatMap Block.edges

/-- The procedure with its predecessors in the order of the blocks. -/
def Procedure.relisted (p : Procedure) : Procedure :=
  { p with blocks := p.blocks.map fun k =>
    { k with predecessors := (p.edges.filter (·.2 = k.id)).map (·.1) } }

namespace Draft

variable {d : Draft} {p : Procedure}

/-- A draft with a declared entry is built if it has no defect. -/
theorem build_of_entry {entry : BlockId} {pairs : List LoopExit} (hentry : d.entry = some entry)
    (hmem : entry ∈ d.blockIds) (hnames : d.blockIds.Nodup) (hstmts : (stmtIds d.blocks).Nodup)
    (hedges : ∀ e ∈ d.edges, e.1 ∈ d.blockIds ∧ e.2 ∈ d.blockIds)
    (hpairs : d.loops.mapM d.resolve = .ok pairs) :
    d.build = .ok ⟨d.name, entry, d.blocks.map fun b => d.finishBlock b.1 b.2,
      pairs.eraseDups⟩ := by
  have hrepeated : repeated? [] [] d.blocks = none :=
    repeated?_eq_none.2 ⟨hnames, by simp, hstmts, by simp⟩
  have hknown : (d.edges.find? fun e => e.1 ∉ d.blockIds || e.2 ∉ d.blockIds) = none :=
    List.find?_eq_none.2 fun e he => by simp [hedges e he]
  rw [← joined_eq fun e he => (hedges e he).1]
  unfold build
  split
  · rename_i hempty
    simp [blockIds, hempty] at hmem
  · simp only [hrepeated, hentry, Option.getD_some, hmem, not_true_eq_false, if_false,
      hknown, hpairs]

/-- The edges of a procedure, block by block, are those of its draft, each once. -/
theorem edges_build (h : d.build = .ok p) :
    p.edges = d.blockIds.flatMap fun b => d.distinctEdges.filter (·.1 = b) := by
  rw [Procedure.edges, (build_eq_ok h).2.2.2.2, blockIds, List.flatMap_map, List.flatMap_map]
  refine List.flatMap_congr fun b _ => ?_
  rw [Block.edges, finishBlock, List.map_map]
  refine (List.map_congr_left fun e he => ?_).trans (List.map_id _)
  obtain ⟨source, target⟩ := e
  obtain ⟨-, hsource⟩ := List.mem_filter.1 he
  simpa using (of_decide_eq_true hsource).symm

theorem edges_perm (h : d.build = .ok p) : p.edges.Perm d.distinctEdges := by
  have hnodup : d.distinctEdges.Nodup := nodup_eraseDups _
  have hids : d.blockIds.Nodup := blockIds_build h ▸ blockIds_nodup h
  rw [edges_build h]
  refine (List.perm_ext_iff_of_nodup ?_ hnodup).2 fun e => ?_
  · refine List.nodup_flatMap.2 ⟨fun b _ => hnodup.filter _, hids.imp fun hne e ha hb => hne ?_⟩
    exact (of_decide_eq_true (List.mem_filter.1 ha).2).symm.trans
      (of_decide_eq_true (List.mem_filter.1 hb).2)
  · simp only [List.mem_flatMap, List.mem_filter, decide_eq_true_eq]
    refine ⟨fun ⟨_, _, he, _⟩ => he, fun he => ⟨e.1, ?_, he, rfl⟩⟩
    exact ((build_eq_ok h).2.2.1 e (List.mem_eraseDups.1 he)).1

theorem edges_nodup (h : d.build = .ok p) : p.edges.Nodup :=
  (edges_perm h).nodup_iff.2 (nodup_eraseDups _)

theorem predecessors_build (h : d.build = .ok p) {k : Block} (hk : k ∈ p.blocks) :
    k.predecessors = (d.distinctEdges.filter (·.2 = k.id)).map (·.1) := by
  rw [(build_eq_ok h).2.2.2.2] at hk
  obtain ⟨b, -, rfl⟩ := List.mem_map.1 hk
  rfl

theorem mapM_resolve_stmts (d : Draft) (pairs : List LoopExit) :
    (pairs.map .stmts).mapM d.resolve = .ok pairs := by
  induction pairs with
  | nil => rfl
  | cons pair pairs ih =>
    rw [List.map_cons, List.mapM_cons, ih]
    rfl

/-- A finished procedure can be taken apart and built again; its predecessors are then in the order
of the blocks. -/
theorem build_draft (h : d.build = .ok p) : p.draft.build = .ok p.relisted := by
  have hw : p.WellFormed := .of_build h
  obtain ⟨-, -, hedges, ⟨pairs, -, hexits⟩, -⟩ := build_eq_ok h
  have hids : p.draft.blockIds = p.blockIds := by
    simp [Procedure.draft, ofBlocks, blockIds, Procedure.blockIds]
  have hstmts : stmtIds p.draft.blocks = (p.blocks.flatMap (·.statements)).map (·.id) := by
    rw [stmtIds, Procedure.draft, ofBlocks, List.flatMap_map]
  have hknown : ∀ e ∈ p.draft.edges, e.1 ∈ p.draft.blockIds ∧ e.2 ∈ p.draft.blockIds := by
    intro e he
    rw [hids, blockIds_build h]
    exact hedges e (List.mem_eraseDups.1 ((edges_perm h).mem_iff.1 he))
  have hdistinct : p.draft.distinctEdges = p.edges := eraseDups_of_nodup (edges_nodup h)
  -- the edges out of a block are found again among all edges
  have hsuccessors : ∀ k ∈ p.blocks, (p.edges.filter (·.1 = k.id)).map (·.2) = k.successors := by
    intro k hk
    rw [Procedure.edges,
      filter_flatMap_key (fun k _ e he => Block.source_of_mem_edges he) hw.ids_nodup hk]
    simp [Block.edges, Function.comp_def]
  rw [build_of_entry rfl (hids ▸ hw.entry_mem) (hids ▸ hw.ids_nodup)
    (hstmts ▸ hw.stmts_nodup) hknown (mapM_resolve_stmts _ p.loopExits), hexits,
    eraseDups_of_nodup (nodup_eraseDups _), ← hexits]
  simp only [Procedure.relisted, finishBlock, hdistinct]
  congr 2
  rw [Procedure.draft, ofBlocks, List.map_map]
  refine List.map_congr_left fun k hk => ?_
  simp [hsuccessors k hk]

theorem relisted_blocks (h : d.build = .ok p) :
    List.Forall₂ (fun k k' => k'.id = k.id ∧ k'.statements = k.statements ∧
      k'.successors = k.successors ∧
      k'.predecessors.Perm k.predecessors) p.blocks p.relisted.blocks := by
  rw [Procedure.relisted, List.forall₂_map_right_iff]
  refine List.forall₂_same.2 fun k hk => ⟨rfl, rfl, rfl, ?_⟩
  rw [predecessors_build h hk]
  exact ((edges_perm h).filter _).map _

/-- Not even this changes if the edges were declared block by block. -/
theorem relisted_eq_self {name : String} {entry : Option BlockId} {ks : List Block}
    {pairs : List LoopExit} (h : (ofBlocks name entry ks pairs).build = .ok p) :
    p.relisted = p := by
  have hids : (ofBlocks name entry ks pairs).blockIds =
    ks.map (·.id) := by simp [ofBlocks, blockIds]
  have hnodup : (ks.map (·.id)).Nodup := by
    rw [← hids, ← blockIds_build h]
    exact blockIds_nodup h
  have hedges : p.edges = (ofBlocks name entry ks pairs).distinctEdges := by
    rw [edges_build h, hids]
    have hpart : ∀ k ∈ ks, ∀ e ∈ k.edges, e.1 = k.id := fun k _ e he => Block.source_of_mem_edges he
    exact flatMap_filter_key hpart hnodup (eraseDups_sublist _)
  rw [Procedure.relisted, hedges]
  congr 1
  refine (List.map_congr_left fun k hk => ?_).trans (List.map_id _)
  rw [← predecessors_build h hk]
  rfl

structure Fits (d : Draft) : Prop where
  blocks : ∀ b ∈ d.blocks, b.1.index ≤ Json.maxIndex ∧ ∀ stmt ∈ b.2, stmt.Fits
  loops : ∀ decl ∈ d.loops, decl.Fits

instance (d : Draft) : Decidable d.Fits :=
  decidable_of_iff ((∀ b ∈ d.blocks, b.1.index ≤ Json.maxIndex ∧ ∀ stmt ∈ b.2, stmt.Fits) ∧
    ∀ decl ∈ d.loops, decl.Fits)
    ⟨fun h => ⟨h.1, h.2⟩, fun h => ⟨h.blocks, h.loops⟩⟩

theorem Fits.build (hf : d.Fits) (h : d.build = .ok p) : p.Fits := by
  have hw : p.WellFormed := .of_build h
  obtain ⟨-, -, hedges, ⟨pairs, hpairs, hexits⟩, hblocks⟩ := build_eq_ok h
  have hid : ∀ b ∈ d.blockIds, b.index ≤ Json.maxIndex := by
    intro b hb
    obtain ⟨x, hx, rfl⟩ := List.mem_map.1 hb
    exact (hf.blocks x hx).1
  have hfit : ∀ k ∈ p.blocks, k.Fits := by
    intro k hk
    rw [hblocks] at hk
    obtain ⟨x, hx, rfl⟩ := List.mem_map.1 hk
    refine ⟨(hf.blocks x hx).1, (hf.blocks x hx).2, fun c hc => ?_⟩
    obtain ⟨e, he, rfl⟩ := List.mem_map.1 hc
    exact hid _ (hedges e (List.mem_eraseDups.1 (List.mem_of_mem_filter he))).2
  have hhead : ∀ {b σ}, d.head b = .ok σ → σ.index ≤ Json.maxIndex := by
    intro b σ hσ
    rw [head_eq_ok h, Procedure.head?, Option.map_eq_some_iff] at hσ
    obtain ⟨stmt, hstmt, rfl⟩ := hσ
    obtain ⟨k, hk, hmem⟩ := Procedure.mem_statementsOf.1 (List.mem_of_head? hstmt)
    exact ((hfit k (Procedure.block?_mem hk)).statements stmt hmem).id
  refine ⟨hid _ (blockIds_build h ▸ hw.entry_mem), hfit, fun pair hpair => ?_⟩
  rw [hexits, List.mem_eraseDups, mem_of_mapM_eq_ok hpairs] at hpair
  obtain ⟨decl, hdecl, hresolve⟩ := hpair
  cases decl with
  | stmts pair' =>
    cases hresolve
    exact hf.loops _ hdecl
  | blocks header exit =>
    simp only [resolve, bind_eq_ok, pure_eq_ok] at hresolve
    obtain ⟨σ, hσ, τ, hτ, rfl⟩ := hresolve
    exact ⟨hhead hσ, hhead hτ⟩

theorem fits_ofBlocks {name : String} {entry : Option BlockId} {ks : List Block}
    {pairs : List LoopExit} (hks : ∀ k ∈ ks, k.Fits) (hpairs : ∀ pair ∈ pairs, LoopExit.Fits pair) :
    (ofBlocks name entry ks pairs).Fits where
  blocks := by
    intro b hb
    obtain ⟨k, hk, rfl⟩ := List.mem_map.1 hb
    exact ⟨(hks k hk).id, (hks k hk).statements⟩
  loops := by
    intro decl hdecl
    obtain ⟨pair, hpair, rfl⟩ := List.mem_map.1 hdecl
    exact hpairs pair hpair

end Draft

/-- What is read of a finished procedure that was written. -/
theorem Procedure.ofJson_toJson {d : Draft} {p : Procedure} (h : d.build = .ok p) (hf : d.Fits) :
    Procedure.ofJson p.toJson = .ok p.relisted := by
  rw [Procedure.ofJson, Draft.ofJson?_toJson (hf.build h)]
  simp only [Draft.build_draft h, Except.mapError]

/-- A procedure that is built is written and read again: any text that stands for what is written is
read as a procedure with the same name, entry, loop exits and blocks in the same order, with the
same statements and successors and with the same predecessors in some order. A procedure that was
read is read again as it is. -/
theorem round_trip :
    (∀ (d : Draft) (p : Procedure), d.build = .ok p → d.Fits →
      ∃ q : Procedure, Procedure.ofJson p.toJson = .ok q ∧
        (∀ text, Json.parse? text = some p.toJson → Procedure.parse text = .ok q) ∧
        q.name = p.name ∧ q.entry = p.entry ∧ q.loopExits = p.loopExits ∧
        List.Forall₂ (fun k k' => k'.id = k.id ∧ k'.statements = k.statements ∧
          k'.successors = k.successors ∧
          k'.predecessors.Perm k.predecessors) p.blocks q.blocks) ∧
    ∀ (j : Json) (p : Procedure), Procedure.ofJson j = .ok p →
      Procedure.ofJson p.toJson = .ok p ∧ ∀ text, Json.parse? text = some p.toJson →
        Procedure.parse text = .ok p := by
  have hparse : ∀ {p q : Procedure}, Procedure.ofJson p.toJson = .ok q →
      ∀ text, Json.parse? text = some p.toJson → Procedure.parse text = .ok q := by
    intro p q hq text htext
    rw [Procedure.parse, htext]
    exact hq
  constructor
  · intro d p h hf
    have hq := Procedure.ofJson_toJson h hf
    exact ⟨p.relisted, hq, hparse hq, rfl, rfl, rfl, Draft.relisted_blocks h⟩
  · intro j p h
    unfold Procedure.ofJson at h
    split at h
    · cases h
    · rename_i d hd
      obtain ⟨name, entry, ks, pairs, rfl, hks, hpairs⟩ := Draft.ofJson?_eq_some hd
      have hb : (Draft.ofBlocks name entry ks pairs).build = .ok p := by
        cases hbuild : (Draft.ofBlocks name entry ks pairs).build with
        | error fault => simp [hbuild, Except.mapError] at h
        | ok q => simpa [hbuild, Except.mapError] using h
      have hq := Procedure.ofJson_toJson hb (Draft.fits_ofBlocks hks hpairs)
      rw [Draft.relisted_eq_self hb] at hq
      exact ⟨hq, hparse hq⟩

/-- A loop around all kinds of statements, with an edge into the exit that is declared before those
of earlier blocks. -/
def edgesOutOfOrder : Draft where
  name := "edges \"out of order\""
  entry := some ⟨7⟩
  blocks := [
    (⟨3⟩, [⟨⟨0⟩, 9, "return a[\\]", .read ⟨"a", .whole⟩⟩]),
    (⟨7⟩, [⟨⟨1⟩, 1, "ä = new", .create "ä"⟩]),
    (⟨1⟩, [⟨⟨2⟩, 2, "while", .other⟩, ⟨⟨3⟩, 3, "a = ä", .rename "ä" "a"⟩]),
    (⟨2⟩, [⟨⟨4⟩, 4, "a[i] = x", .write ⟨"a", .expr "i"⟩⟩])]
  edges := [(⟨2⟩, ⟨3⟩), (⟨7⟩, ⟨1⟩), (⟨1⟩, ⟨2⟩), (⟨2⟩, ⟨1⟩), (⟨1⟩, ⟨3⟩), (⟨1⟩, ⟨2⟩)]
  loops := [.blocks ⟨1⟩ ⟨3⟩, .stmts ⟨⟨2⟩, ⟨0⟩⟩, .stmts ⟨⟨9⟩, ⟨9⟩⟩]

theorem round_trip_edgesOutOfOrder :
    ∃ p q, edgesOutOfOrder.build = .ok p ∧ edgesOutOfOrder.Fits ∧
      Procedure.ofJson p.toJson = .ok q ∧
      p.predecessors ⟨3⟩ = [⟨2⟩, ⟨1⟩] ∧ q.predecessors ⟨3⟩ = [⟨1⟩, ⟨2⟩] ∧ q.entry = p.entry ∧
      q.loopExits = p.loopExits ∧
      List.Forall₂ (fun k k' => k'.id = k.id ∧ k'.statements = k.statements ∧
        k'.successors = k.successors ∧
        k'.predecessors.Perm k.predecessors) p.blocks q.blocks ∧
      Procedure.ofJson q.toJson = .ok q := by
  have hcheck : (match edgesOutOfOrder.build with
      | .ok p => match Procedure.ofJson p.toJson with
        | .ok q => decide (p.predecessors ⟨3⟩ = [⟨2⟩, ⟨1⟩] ∧ q.predecessors ⟨3⟩ = [⟨1⟩, ⟨2⟩])
        | .error _ => false
      | .error _ => false) = true := by decide +kernel
  have hfits : edgesOutOfOrder.Fits := by decide +kernel
  split at hcheck
  · rename_i p hp
    obtain ⟨q, hq, -, -, hentry, hexits, hblocks⟩ := round_trip.1 edgesOutOfOrder p hp hfits
    rw [hq] at hcheck
    obtain ⟨hbefore, hafter⟩ := of_decide_eq_true hcheck
    exact ⟨p, q, hp, hfits, hq, hbefore, hafter, hentry, hexits, hblocks,
      (round_trip.2 p.toJson q hq).1⟩
  · cases hcheck

end ArrayFlow
