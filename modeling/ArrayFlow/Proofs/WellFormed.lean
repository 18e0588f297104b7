import ArrayFlow.Procedure.Draft
import Mathlib.Data.List.Forall2
import Mathlib.Data.List.Induction
import Mathlib.Data.List.Nodup
import Mathlib.Data.List.Pairwise

/-!
# Finished procedures

What a procedure that was built from a draft can be relied on for.

* `Procedure.WellFormed` : block names and statement names are used once, the entry and all targets
  are blocks, and the neighbour lists agree with each other;
* `WellFormed.of_build`  : a draft is only ever built into a well-formed procedure;
* `WellFormed.stmt_inj`  : a statement name belongs to one statement of one block.
-/

namespace ArrayFlow

theorem bind_eq_ok {ε α β : Type} {x : Except ε α} {f : α → Except ε β} {b : β} :
    (x >>= f) = .ok b ↔ ∃ a, x = .ok a ∧ f a = .ok b := by
  cases x with
  | error e => simp [bind, Except.bind]
  | ok a => simp [bind, Except.bind]

theorem bind_eq_error {ε α β : Type} {x : Except ε α} {f : α → Except ε β} {e : ε} :
    (x >>= f) = .error e ↔ x = .error e ∨ ∃ a, x = .ok a ∧ f a = .error e := by
  cases x with
  | error e' => simp [bind, Except.bind]
  | ok a => simp [bind, Except.bind]

theorem pure_eq_ok {ε α : Type} {a b : α} : (pure a : Except ε α) = .ok b ↔ a = b := by
  simp [pure, Except.pure]

theorem mapM_isOk {ε α β : Type} {f : α → Except ε β} {xs : List α}
    (h : ∀ x ∈ xs, ∃ y, f x = .ok y) :
    ∃ ys, xs.mapM f = .ok ys := by
  induction xs with
  | nil => exact ⟨[], rfl⟩
  | cons x xs ih =>
    obtain ⟨y, hy⟩ := h x (by simp)
    obtain ⟨ys, hys⟩ := ih fun x' hx => h x' (by simp [hx])
    exact ⟨y :: ys, by rw [List.mapM_cons, hy, hys]; rfl⟩

theorem isOk_of_mapM_eq_ok {ε α β : Type} {f : α → Except ε β} {xs : List α} {ys : List β}
    (h : xs.mapM f = .ok ys) :
    ∀ x ∈ xs, ∃ y, f x = .ok y := by
  induction xs generalizing ys with
  | nil => simp
  | cons x xs ih =>
    rw [List.mapM_cons] at h
    simp only [bind_eq_ok, pure_eq_ok] at h
    obtain ⟨z, hz, zs, hzs, rfl⟩ := h
    exact List.forall_mem_cons.2 ⟨⟨z, hz⟩, ih hzs⟩

theorem mem_of_mapM_eq_ok {ε α β : Type} {f : α → Except ε β} {xs : List α} {ys : List β}
    (h : xs.mapM f = .ok ys) {y : β} : y ∈ ys ↔ ∃ x ∈ xs, f x = .ok y := by
  induction xs generalizing ys with
  | nil =>
    cases h
    simp
  | cons x xs ih =>
    rw [List.mapM_cons] at h
    simp only [bind_eq_ok, pure_eq_ok] at h
    obtain ⟨z, hz, zs, hzs, rfl⟩ := h
    simp only [List.mem_cons, exists_eq_or_imp, ih hzs, hz, Except.ok.injEq]
    rw [eq_comm]

namespace Draft

/-! ## names that are used once -/

theorem repeatedStmt?_eq_ok {stmts used : List StmtId} {body : List Statement} :
    repeated?.repeatedStmt? stmts body = .ok used ↔
      (body.map (·.id)).Nodup ∧ (∀ s ∈ body, s.id ∉ stmts) ∧
        used = (body.map (·.id)).reverse ++ stmts := by
  induction body generalizing stmts with
  | nil => simp [repeated?.repeatedStmt?, eq_comm]
  | cons s rest ih =>
    rw [repeated?.repeatedStmt?]
    by_cases hs : s.id ∈ stmts
    · simp [hs]
    · rw [if_neg hs, ih]
      simp only [List.mem_cons, List.map_cons, List.nodup_cons, List.mem_map,
        forall_eq_or_imp, not_or, List.reverse_cons, List.append_assoc, List.singleton_append,
        not_exists, not_and]
      constructor
      · rintro ⟨hn, hd, hu⟩
        exact ⟨⟨fun x hx => (hd x hx).1, hn⟩, ⟨hs, fun x hx => (hd x hx).2⟩, hu⟩
      · rintro ⟨⟨hne, hn⟩, ⟨-, hd⟩, hu⟩
        exact ⟨hn, fun x hx => ⟨hne x hx, hd x hx⟩, hu⟩

def stmtIds (blocks : List (BlockId × List Statement)) : List StmtId :=
  (blocks.flatMap (·.2)).map (·.id)

theorem repeated?_eq_none {names : List BlockId} {stmts : List StmtId}
    {blocks : List (BlockId × List Statement)} :
    repeated? names stmts blocks = none ↔
      (blocks.map (·.1)).Nodup ∧ (∀ b ∈ blocks.map (·.1), b ∉ names) ∧
      (stmtIds blocks).Nodup ∧ ∀ s ∈ stmtIds blocks, s ∉ stmts := by
  induction blocks generalizing names stmts with
  | nil => simp [repeated?, stmtIds]
  | cons b rest ih =>
    obtain ⟨b, body⟩ := b
    rw [repeated?]
    by_cases hb : b ∈ names
    · simp [hb]
    · rw [if_neg hb]
      cases hr : repeated?.repeatedStmt? stmts body with
      | error s =>
        -- some statement of the block repeats a name, so the names are not distinct
        have hno : ¬ ((body.map (·.id)).Nodup ∧ ∀ s ∈ body, s.id ∉ stmts) := by
          rintro ⟨h1, h2⟩
          have := repeatedStmt?_eq_ok.2 ⟨h1, h2, rfl⟩
          rw [hr] at this
          cases this
        simp only [reduceCtorEq, false_iff]
        rintro ⟨-, -, hn, hd⟩
        refine hno ⟨?_, fun s hs => hd s.id ?_⟩
        · rw [stmtIds, List.flatMap_cons, List.map_append, List.nodup_append] at hn
          exact hn.1
        · simp only [stmtIds, List.flatMap_cons, List.map_append, List.mem_append, List.mem_map]
          exact .inl ⟨s, hs, rfl⟩
      | ok used =>
        obtain ⟨hn, hd, rfl⟩ := repeatedStmt?_eq_ok.1 hr
        rw [ih]
        simp only [stmtIds, List.flatMap_cons, List.map_append, List.nodup_append, List.map_cons,
          List.nodup_cons, List.mem_cons, List.mem_append, List.mem_reverse, not_or,
          forall_eq_or_imp]
        grind

/-! ## neighbours -/

def distinctEdges (d : Draft) : List (BlockId × BlockId) := d.edges.eraseDups

/-- A declared block with its neighbours, in the order of the edges. -/
def finishBlock (d : Draft) (b : BlockId) (statements : List Statement) : Block where
  id := b
  statements := statements
  successors := (d.distinctEdges.filter (·.1 = b)).map (·.2)
  predecessors := (d.distinctEdges.filter (·.2 = b)).map (·.1)

theorem mem_successors_finishBlock {d : Draft} {b c : BlockId} {body : List Statement} :
    c ∈ (d.finishBlock b body).successors ↔ (b, c) ∈ d.edges := by
  simp [finishBlock, distinctEdges]

theorem distinctEdges_addEdge (d : Draft) (a b : BlockId) :
    (d.addEdge a b).distinctEdges =
      if (a, b) ∈ d.edges then d.distinctEdges else d.distinctEdges ++ [(a, b)] := by
  rw [distinctEdges, addEdge, List.eraseDups_append, distinctEdges]
  split
  · rename_i h
    simp [List.removeAll, h]
  · rename_i h
    simp [List.removeAll, h, List.eraseDups_cons]

/-- One more edge gives each of its ends one more neighbour, if it is new. -/
theorem joinEdge_finishBlock (d : Draft) {a : BlockId} (ha : a ∈ d.blockIds) (b : BlockId) :
    joinEdge (d.blocks.map fun k => d.finishBlock k.1 k.2) (a, b) =
      d.blocks.map fun k => (d.addEdge a b).finishBlock k.1 k.2 := by
  obtain ⟨body, hbody⟩ : ∃ body, (a, body) ∈ d.blocks := by simpa [blockIds] using ha
  have hjoined : ((d.blocks.map fun k => d.finishBlock k.1 k.2).any fun k =>
      k.id = a && b ∈ k.successors) = true ↔ (a, b) ∈ d.edges := by
    simp only [List.any_eq_true, List.mem_map, Bool.and_eq_true, decide_eq_true_eq]
    constructor
    · rintro ⟨_, ⟨k, -, rfl⟩, rfl, hb⟩
      exact mem_successors_finishBlock.1 hb
    · intro hedge
      exact ⟨_, ⟨(a, body), hbody, rfl⟩, rfl, mem_successors_finishBlock.2 hedge⟩
  by_cases hedge : (a, b) ∈ d.edges
  · rw [joinEdge, if_pos (hjoined.2 hedge)]
    simp only [finishBlock, distinctEdges_addEdge, if_pos hedge]
  · rw [joinEdge, if_neg (mt hjoined.1 hedge), List.map_map]
    refine List.map_congr_left fun k _ => ?_
    simp only [Function.comp_apply, finishBlock, distinctEdges_addEdge, if_neg hedge,
      List.filter_append, List.map_append, Block.mk.injEq, true_and]
    constructor
    · by_cases hk : k.1 = a
      · simp [hk]
      · simp [hk, Ne.symm hk]
    · by_cases hk : k.1 = b
      · simp [hk]
      · simp [hk, Ne.symm hk]

/-- The blocks that come out of the edges taken one by one have the neighbours that the edges
say. -/
theorem joined_eq {d : Draft} (h : ∀ e ∈ d.edges, e.1 ∈ d.blockIds) :
    d.joined = d.blocks.map fun k => d.finishBlock k.1 k.2 := by
  obtain ⟨name, entry, blocks, edges, loops⟩ := d
  -- the edges are taken from the front, so the last one of them is the last step
  induction edges using List.reverseRecOn with
  | nil => rfl
  | append_singleton edges e ih =>
    have hlast := h e (by simp)
    have hbefore := ih fun e' he' => h e' (by simp [show e' ∈ edges from he'])
    rw [joined, List.foldl_append]
    exact (congrArg (joinEdge · e) hbefore).trans
      (joinEdge_finishBlock ⟨name, entry, blocks, edges, loops⟩ hlast e.2)

/-! ## what a finished draft looks like -/

/-- What is checked when a draft is built, and the procedure that it is built into. -/
theorem build_eq_ok_iff {d : Draft} {p : Procedure} :
    d.build = .ok p ↔ ∃ k rest pairs, d.blocks = k :: rest ∧ repeated? [] [] d.blocks = none ∧
      d.entry.getD k.1 ∈ d.blockIds ∧ (∀ e ∈ d.edges, e.1 ∈ d.blockIds ∧ e.2 ∈ d.blockIds) ∧
      d.loops.mapM d.resolve = .ok pairs ∧
      p = ⟨d.name, d.entry.getD k.1, d.blocks.map (fun b => d.finishBlock b.1 b.2),
        pairs.eraseDups⟩ := by
  have hknown : (d.edges.find? fun e => e.1 ∉ d.blockIds || e.2 ∉ d.blockIds) = none ↔
      ∀ e ∈ d.edges, e.1 ∈ d.blockIds ∧ e.2 ∈ d.blockIds := by simp
  constructor
  · intro h
    unfold build at h
    split at h
    · cases h
    · rename_i first body rest hblocks
      split at h
      · cases h
      · rename_i hr
        dsimp only at h
        split at h
        · cases h
        · rename_i hentry
          split at h
          · cases h
          · rename_i hedges
            split at h
            · cases h
            · rename_i pairs hpairs
              cases h
              have hjoined := joined_eq fun e he => (hknown.1 hedges e he).1
              exact ⟨_, rest, pairs, hblocks, hr, not_not.1 hentry, hknown.1 hedges,
                hpairs, by rw [hjoined]⟩
  · rintro ⟨k, rest, pairs, hblocks, hr, hentry, hedges, hpairs, rfl⟩
    rw [← joined_eq fun e he => (hedges e he).1]
    unfold build
    split
    · simp_all
    · rename_i heq
      rw [heq] at hblocks
      cases hblocks
      simp only [hr, hentry, not_true_eq_false, if_false, hknown.2 hedges, hpairs]

/-- A draft is built into a procedure when its names are used once, its entry and the ends of its
edges are blocks, and the blocks of its loop declarations have head statements. -/
theorem build_eq_ok {d : Draft} {p : Procedure} (h : d.build = .ok p) :
    repeated? [] [] d.blocks = none ∧ p.entry ∈ d.blockIds ∧
      (∀ e ∈ d.edges, e.1 ∈ d.blockIds ∧ e.2 ∈ d.blockIds) ∧
      (∃ pairs, d.loops.mapM d.resolve = .ok pairs ∧ p.loopExits = pairs.eraseDups) ∧
      p.blocks = d.blocks.map (fun b => d.finishBlock b.1 b.2) := by
  obtain ⟨k, rest, pairs, -, hr, hentry, hedges, hpairs, rfl⟩ := build_eq_ok_iff.1 h
  exact ⟨hr, hentry, hedges, ⟨pairs, hpairs, rfl⟩, rfl⟩

/-- A draft with these properties is built; without a declared entry, the first block is the
entry. -/
theorem build_isOk {d : Draft} {k : BlockId × List Statement} (hfirst : d.blocks.head? = some k)
    (hentry : d.entry = none) (hnames : d.blockIds.Nodup) (hstmts : (stmtIds d.blocks).Nodup)
    (hedges : ∀ e ∈ d.edges, e.1 ∈ d.blockIds ∧ e.2 ∈ d.blockIds)
    (hloops : ∀ decl ∈ d.loops, ∃ pair, d.resolve decl = .ok pair) :
    ∃ p, d.build = .ok p ∧ p.entry = k.1 := by
  obtain ⟨rest, hblocks⟩ := List.head?_eq_some_iff.1 hfirst
  obtain ⟨pairs, hpairs⟩ := mapM_isOk hloops
  have hrepeated : repeated? [] [] d.blocks = none :=
    repeated?_eq_none.2 ⟨hnames, by simp, hstmts, by simp⟩
  have hmem : d.entry.getD k.1 ∈ d.blockIds := by simp [hentry, blockIds, hblocks]
  exact ⟨_, build_eq_ok_iff.2 ⟨k, rest, pairs, hblocks, hrepeated, hmem, hedges, hpairs,
    rfl⟩, by simp [hentry]⟩

end Draft

namespace Procedure

/-! ## blocks and their names -/

variable {p : Procedure}

theorem block?_id {b : BlockId} {k : Block} (h : p.block? b = some k) : k.id = b := by
  simpa using List.find?_some h

theorem block?_mem {b : BlockId} {k : Block} (h : p.block? b = some k) : k ∈ p.blocks :=
  List.mem_of_find?_eq_some h

theorem mem_blockIds_of_block? {b : BlockId} {k : Block} (h : p.block? b = some k) :
    b ∈ p.blockIds :=
  List.mem_map.2 ⟨k, block?_mem h, block?_id h⟩

theorem contains_iff {b : BlockId} : p.contains b = true ↔ b ∈ p.blockIds := by
  simp [contains, block?, blockIds]

theorem mem_blockIds_of_mem_successors {a b : BlockId} (h : b ∈ p.successors a) :
    a ∈ p.blockIds := by
  unfold successors at h
  cases hk : p.block? a with
  | none => simp [hk] at h
  | some k => exact mem_blockIds_of_block? hk

theorem block?_eq_some (hn : p.blockIds.Nodup) {k : Block} (h : k ∈ p.blocks) :
    p.block? k.id = some k := by
  have hsome : (p.block? k.id).isSome := by
    rw [block?, List.find?_isSome]
    exact ⟨k, h, by simp⟩
  obtain ⟨j, hj⟩ := Option.isSome_iff_exists.1 hsome
  rw [hj, List.inj_on_of_nodup_map hn (block?_mem hj) h (block?_id hj)]

/-- Where the blocks of two procedures are related in pairs with the same names, a name belongs to a
block in both procedures or in neither, and the two blocks are related. -/
theorem block?_forall₂ {q : Procedure} {R : Block → Block → Prop} (hid : ∀ k l, R k l → l.id = k.id)
    (h : List.Forall₂ R p.blocks q.blocks) (b : BlockId) :
    p.block? b = none ∧ q.block? b = none ∨ ∃ k l, p.block? b = some k ∧
      q.block? b = some l ∧ R k l := by
  unfold block?
  generalize p.blocks = ks, q.blocks = ls at h ⊢
  induction h with
  | nil => exact .inl ⟨rfl, rfl⟩
  | @cons k l ks ls hkl _ ih =>
    by_cases hb : k.id = b
    · exact .inr ⟨k, l, by simp [hb], by simp [hid k l hkl, hb], hkl⟩
    · simpa [List.find?_cons, hid k l hkl, hb] using ih

theorem mem_statementsOf {b : BlockId} {stmt : Statement} :
    stmt ∈ p.statementsOf b ↔ ∃ k, p.block? b = some k ∧ stmt ∈ k.statements := by
  unfold statementsOf
  cases p.block? b with
  | none => simp
  | some k => simp

/-! ## loops -/

theorem isLoopExit_iff {a c : BlockId} :
    p.isLoopExit a c = true ↔ ∃ σ τ, p.head? a = some σ ∧ p.head? c = some τ ∧
      ⟨σ, τ⟩ ∈ p.loopExits := by
  unfold isLoopExit loopExitsOf
  cases p.head? c with
  | none => simp
  | some τ =>
    cases p.head? a with
    | none => simp
    | some σ =>
      simp only [List.contains_eq_mem, List.mem_map, List.mem_filter, decide_eq_true_eq,
        Option.some.injEq, exists_eq_left', ↓existsAndEq, true_and]
      constructor
      · rintro ⟨⟨_, _⟩, ⟨hmem, rfl⟩, rfl⟩
        exact hmem
      · intro hmem
        exact ⟨_, ⟨hmem, rfl⟩, rfl⟩

theorem isLoopHeader_iff {a : BlockId} :
    p.isLoopHeader a = true ↔ ∃ σ τ, p.head? a = some σ ∧ ⟨σ, τ⟩ ∈ p.loopExits := by
  unfold isLoopHeader loopExitsOf
  cases p.head? a with
  | none => simp
  | some σ =>
    simp only [Bool.not_eq_true', List.isEmpty_eq_false_iff, ne_eq, List.map_eq_nil_iff,
      List.filter_eq_nil_iff, decide_eq_true_eq, not_forall, not_not, Option.some.injEq,
      exists_and_left, exists_eq_left']
    constructor
    · rintro ⟨⟨_, τ⟩, hmem, rfl⟩
      exact ⟨τ, hmem⟩
    · rintro ⟨τ, hmem⟩
      exact ⟨_, hmem, rfl⟩

/-! ## well-formed procedures -/

/-- Names are used once, the entry and all targets are blocks, and the neighbour lists agree. -/
structure WellFormed (p : Procedure) : Prop where
  ids_nodup : p.blockIds.Nodup
  stmts_nodup : ((p.blocks.flatMap (·.statements)).map (·.id)).Nodup
  entry_mem : p.entry ∈ p.blockIds
  mem_predecessors : ∀ a b, a ∈ p.predecessors b ↔ b ∈ p.successors a
  successors_mem : ∀ a b, b ∈ p.successors a → b ∈ p.blockIds

end Procedure

namespace Draft

variable {d : Draft} {p : Procedure}

theorem lookup_block? (h : d.build = .ok p) {b : BlockId} {k : Block} :
    p.block? b = some k → ∃ body, (b, body) ∈ d.blocks ∧ k = d.finishBlock b body := by
  intro hk
  obtain ⟨-, -, -, -, hb⟩ := build_eq_ok h
  have hm := Procedure.block?_mem hk
  rw [hb, List.mem_map] at hm
  obtain ⟨⟨c, body⟩, hc, rfl⟩ := hm
  obtain rfl : c = b := Procedure.block?_id hk
  exact ⟨body, hc, rfl⟩

theorem blockIds_build (h : d.build = .ok p) : p.blockIds = d.blockIds := by
  obtain ⟨-, -, -, -, hb⟩ := build_eq_ok h
  rw [Procedure.blockIds, Draft.blockIds, hb, List.map_map]
  rfl

theorem blockIds_nodup (h : d.build = .ok p) : p.blockIds.Nodup := by
  rw [blockIds_build h]
  exact (repeated?_eq_none.1 (build_eq_ok h).1).1

theorem block?_build (h : d.build = .ok p) {b : BlockId} {body : List Statement}
    (hb : (b, body) ∈ d.blocks) :
    p.block? b = some (d.finishBlock b body) := by
  have hm : d.finishBlock b body ∈ p.blocks := by
    rw [(build_eq_ok h).2.2.2.2]
    exact List.mem_map.2 ⟨(b, body), hb, rfl⟩
  exact Procedure.block?_eq_some (blockIds_nodup h) hm

theorem mem_successors_build (h : d.build = .ok p) {a b : BlockId} :
    b ∈ p.successors a ↔ (a, b) ∈ d.edges := by
  constructor
  · intro hb
    unfold Procedure.successors at hb
    cases hk : p.block? a with
    | none => simp [hk] at hb
    | some k =>
      obtain ⟨body, -, rfl⟩ := lookup_block? h hk
      simpa [hk, finishBlock, distinctEdges] using hb
  · intro he
    obtain ⟨body, hbody⟩ : ∃ body, (a, body) ∈ d.blocks := by
      have := ((build_eq_ok h).2.2.1 (a, b) he).1
      simpa [Draft.blockIds] using this
    simpa [Procedure.successors, block?_build h hbody, finishBlock, distinctEdges] using he

theorem mem_predecessors_build (h : d.build = .ok p) {a b : BlockId} :
    a ∈ p.predecessors b ↔ (a, b) ∈ d.edges := by
  constructor
  · intro ha
    unfold Procedure.predecessors at ha
    cases hk : p.block? b with
    | none => simp [hk] at ha
    | some k =>
      obtain ⟨body, -, rfl⟩ := lookup_block? h hk
      simpa [hk, finishBlock, distinctEdges] using ha
  · intro he
    obtain ⟨body, hbody⟩ : ∃ body, (b, body) ∈ d.blocks := by
      have := ((build_eq_ok h).2.2.1 (a, b) he).2
      simpa [Draft.blockIds] using this
    simpa [Procedure.predecessors, block?_build h hbody, finishBlock, distinctEdges] using he

end Draft

namespace Procedure.WellFormed

variable {p : Procedure}

/-- A draft is only ever built into a well-formed procedure. -/
theorem of_build {d : Draft} (h : d.build = .ok p) : p.WellFormed where
  ids_nodup := Draft.blockIds_nodup h
  stmts_nodup := by
    obtain ⟨hr, -, -, -, hb⟩ := Draft.build_eq_ok h
    have := (Draft.repeated?_eq_none.1 hr).2.2.1
    rwa [Draft.stmtIds, ← show (p.blocks.flatMap (·.statements)) = d.blocks.flatMap (·.2) by
      rw [hb, List.flatMap_map]; rfl] at this
  entry_mem := by
    rw [Draft.blockIds_build h]
    exact (Draft.build_eq_ok h).2.1
  mem_predecessors a b := by rw [Draft.mem_predecessors_build h, Draft.mem_successors_build h]
  successors_mem a b hb := by
    rw [Draft.blockIds_build h]
    exact ((Draft.build_eq_ok h).2.2.1 _ ((Draft.mem_successors_build h).1 hb)).2

theorem statements_nodup (hp : p.WellFormed) (b : BlockId) :
    ((p.statementsOf b).map (·.id)).Nodup := by
  unfold statementsOf
  cases hk : p.block? b with
  | none => simp
  | some k =>
    have hsub := List.sublist_flatten_of_mem
      (List.mem_map_of_mem (f := (·.statements)) (block?_mem hk))
    exact hp.stmts_nodup.sublist (hsub.map (·.id))

theorem stmt_inj (hp : p.WellFormed) {a b : BlockId} {s t : Statement} (hs : s ∈ p.statementsOf a)
    (ht : t ∈ p.statementsOf b) (h : s.id = t.id) : a = b ∧ s = t := by
  have hab : a = b := by
    by_contra hab
    obtain ⟨j, hj, hs⟩ := mem_statementsOf.1 hs
    obtain ⟨k, hk, ht⟩ := mem_statementsOf.1 ht
    have hne : j ≠ k := by
      rintro rfl
      exact hab ((block?_id hj).symm.trans (block?_id hk))
    have hn := hp.stmts_nodup
    rw [List.map_flatMap, List.nodup_flatMap] at hn
    have : Std.Symm (Function.onFun List.Disjoint fun k : Block => k.statements.map (·.id)) :=
      ⟨fun _ _ hd _ h1 h2 => hd h2 h1⟩
    have hd := hn.2.forall (block?_mem hj) (block?_mem hk) hne
    exact hd (List.mem_map_of_mem hs) (h ▸ List.mem_map_of_mem ht)
  subst hab
  exact ⟨rfl, List.inj_on_of_nodup_map (hp.statements_nodup a) hs ht h⟩

theorem head?_inj (hp : p.WellFormed) {a b : BlockId} {σ : StmtId} (ha : p.head? a = some σ)
    (hb : p.head? b = some σ) :
    a = b := by
  simp only [head?, Option.map_eq_some_iff] at ha hb
  obtain ⟨s, hs, rfl⟩ := ha
  obtain ⟨t, ht, heq⟩ := hb
  exact (hp.stmt_inj (List.mem_of_head? hs) (List.mem_of_head? ht) heq.symm).1

end Procedure.WellFormed

/-! ## declared loops -/

namespace Draft

variable {d : Draft} {p : Procedure}

theorem statementsOf_build (h : d.build = .ok p) {b : BlockId} {body : List Statement}
    (hb : (b, body) ∈ d.blocks) :
    p.statementsOf b = body := by
  rw [Procedure.statementsOf, block?_build h hb]
  rfl

theorem head_eq_ok (h : d.build = .ok p) {b : BlockId} {σ : StmtId} :
    d.head b = .ok σ ↔ p.head? b = some σ := by
  have hlookup : d.blocks.lookup b = (p.block? b).map (·.statements) := by
    rw [Procedure.block?, (build_eq_ok h).2.2.2.2]
    generalize d.blocks = ks
    induction ks with
    | nil => rfl
    | cons k ks ih =>
      rw [List.map_cons, List.find?_cons, List.lookup_cons, ih]
      by_cases hk : b = k.1
      · simp [hk, finishBlock]
      · rw [beq_false_of_ne hk,
          decide_eq_false (show ¬ (d.finishBlock k.1 k.2).id = b from Ne.symm hk)]
  unfold head Procedure.head? Procedure.statementsOf
  rw [hlookup]
  cases p.block? b with
  | none => simp
  | some k => cases hs : k.statements <;> simp [hs]

/-- Where all loops are declared by blocks, the head statements of these blocks are what the loops
are known by. -/
theorem mem_loopExits_build (h : d.build = .ok p) {exits : List (BlockId × BlockId)}
    (hloops : d.loops = exits.map fun e => .blocks e.1 e.2) {x : LoopExit} :
    x ∈ p.loopExits ↔ ∃ e ∈ exits, p.head? e.1 = some x.header ∧ p.head? e.2 = some x.exit := by
  obtain ⟨-, -, -, ⟨pairs, hpairs, hexits⟩, -⟩ := build_eq_ok h
  rw [hexits, List.mem_eraseDups, mem_of_mapM_eq_ok hpairs, hloops]
  simp only [List.mem_map, exists_exists_and_eq_and, resolve, bind_eq_ok, pure_eq_ok, head_eq_ok h]
  constructor
  · rintro ⟨e, he, σ, hσ, τ, hτ, rfl⟩
    exact ⟨e, he, hσ, hτ⟩
  · rintro ⟨e, he, hσ, hτ⟩
    exact ⟨e, he, _, hσ, _, hτ, rfl⟩

theorem head?_of_mem_exits (h : d.build = .ok p) {exits : List (BlockId × BlockId)}
    (hloops : d.loops = exits.map fun e => .blocks e.1 e.2) {a c : BlockId} (he : (a, c) ∈ exits) :
    ∃ σ τ, p.head? a = some σ ∧ p.head? c = some τ := by
  obtain ⟨-, -, -, ⟨pairs, hpairs, -⟩, -⟩ := build_eq_ok h
  obtain ⟨y, hy⟩ := isOk_of_mapM_eq_ok hpairs (.blocks a c) (hloops ▸ List.mem_map_of_mem he)
  simp only [resolve, bind_eq_ok, pure_eq_ok, head_eq_ok h] at hy
  obtain ⟨σ, hσ, τ, hτ, -⟩ := hy
  exact ⟨σ, τ, hσ, hτ⟩

/-- An edge leaves a loop when it was declared to. -/
theorem isLoopExit_build (h : d.build = .ok p) {exits : List (BlockId × BlockId)}
    (hloops : d.loops = exits.map fun e => .blocks e.1 e.2) {a c : BlockId} :
    p.isLoopExit a c = true ↔ (a, c) ∈ exits := by
  have hp := Procedure.WellFormed.of_build h
  rw [Procedure.isLoopExit_iff]
  constructor
  · rintro ⟨σ, τ, hσ, hτ, hmem⟩
    obtain ⟨⟨a', c'⟩, he, ha, hc⟩ := (mem_loopExits_build h hloops).1 hmem
    rwa [hp.head?_inj hσ ha, hp.head?_inj hτ hc]
  · intro he
    obtain ⟨σ, τ, hσ, hτ⟩ := head?_of_mem_exits h hloops he
    exact ⟨σ, τ, hσ, hτ, (mem_loopExits_build h hloops).2 ⟨_, he, hσ, hτ⟩⟩

/-- A block is a header when some edge was declared to leave its loop. -/
theorem isLoopHeader_build (h : d.build = .ok p) {exits : List (BlockId × BlockId)}
    (hloops : d.loops = exits.map fun e => .blocks e.1 e.2) {a : BlockId} :
    p.isLoopHeader a = true ↔ ∃ c, (a, c) ∈ exits := by
  have hp := Procedure.WellFormed.of_build h
  rw [Procedure.isLoopHeader_iff]
  constructor
  · rintro ⟨σ, τ, hσ, hmem⟩
    obtain ⟨⟨a', c⟩, he, ha, -⟩ := (mem_loopExits_build h hloops).1 hmem
    exact ⟨c, by rwa [hp.head?_inj hσ ha]⟩
  · rintro ⟨c, he⟩
    obtain ⟨σ, τ, hσ, hτ⟩ := head?_of_mem_exits h hloops he
    exact ⟨σ, τ, hσ, (mem_loopExits_build h hloops).2 ⟨_, he, hσ, hτ⟩⟩

end Draft

end ArrayFlow
