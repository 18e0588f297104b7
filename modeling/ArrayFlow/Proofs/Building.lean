import ArrayFlow.Proofs.WellFormed

/-!
# Procedures from declarations in any order

Blocks, edges and loops are declared in any order, and an edge may come before its blocks. When a
draft is built, names are checked first and then what refers to them, so that only the declarations
of one kind keep their order among each other.

* `FirstOccurrences`      : a list without its repetitions, in the order in which its elements come
  up;
* `Draft.Declaration`     : what can be declared, and `Draft.ofDeclarations` with everything that
  was;
* `Declaration.Valid`     : declarations that fit together;
* `build_isOk_iff`        : these are the ones that a procedure is built from;
* `Declaration.Describes` : what they say of a procedure;
* `build_describes`       : the procedure that is built is as they say;
* `build_exact`           : both.
-/

namespace ArrayFlow

/-! ## first occurrences -/

section

variable {α β : Type} {source l : List α}

/-- Going through the list, `x` comes up before `y` does. -/
def Before (source : List α) (x y : α) : Prop :=
  ∃ seen rest, source = seen ++ rest ∧ x ∈ seen ∧ y ∉ seen

/-- The elements of `source`, each once, in the order in which they come up first. -/
structure FirstOccurrences (source l : List α) : Prop where
  mem_iff : ∀ x, x ∈ l ↔ x ∈ source
  nodup : l.Nodup
  order : l.Pairwise (Before source)

theorem Before.cons {x y z : α} (h : Before source x y) (hy : y ≠ z) :
    Before (z :: source) x y := by
  obtain ⟨seen, rest, rfl, hx, hno⟩ := h
  exact ⟨z :: seen, rest, rfl, List.mem_cons_of_mem _ hx, by simp [hy, hno]⟩

theorem Before.of_filter {q : α → Bool} {x y : α} (h : Before (source.filter q) x y)
    (hy : q y = true) :
    Before source x y := by
  obtain ⟨seen, rest, heq, hx, hno⟩ := h
  obtain ⟨seen, rest, rfl, rfl, -⟩ := List.filter_eq_append_iff.1 heq
  exact ⟨seen, rest, rfl, (List.mem_filter.1 hx).1,
    fun hyseen => hno (List.mem_filter.2 ⟨hyseen, hy⟩)⟩

namespace FirstOccurrences

theorem eraseDups [BEq α] [LawfulBEq α] (source : List α) :
    FirstOccurrences source source.eraseDups := by
  suffices h : source.eraseDups.Pairwise fun x y => x ≠ y ∧ Before source x y from
    ⟨fun x => List.mem_eraseDups, h.imp And.left, h.imp And.right⟩
  match source with
  | [] => simp
  | a :: source =>
    have ih := eraseDups (source.filter fun b => !b == a)
    rw [List.eraseDups_cons, List.pairwise_cons]
    have hother : ∀ y ∈ (source.filter fun b => !b == a).eraseDups, y ≠ a := by simp
    refine ⟨fun y hy => ⟨(hother y hy).symm, [a], source, rfl, by simp, by simpa using hother y hy⟩,
      ?_⟩
    refine (ih.nodup.and ih.order).imp_of_mem fun hx hy h => ⟨h.1, ?_⟩
    exact (h.2.of_filter (by simpa using hother _ hy)).cons (hother _ hy)
termination_by source.length
decreasing_by exact Nat.lt_succ_of_le (List.length_filter_le _ _)

theorem filter (h : FirstOccurrences source l) (q : α → Bool) :
    FirstOccurrences (source.filter q) (l.filter q) where
  mem_iff x := by rw [List.mem_filter, List.mem_filter, h.mem_iff]
  nodup := h.nodup.filter q
  order := by
    refine (h.order.filter q).imp_of_mem fun hx _ hbefore => ?_
    obtain ⟨seen, rest, rfl, hxseen, hno⟩ := hbefore
    exact ⟨seen.filter q, rest.filter q, List.filter_append ..,
      List.mem_filter.2 ⟨hxseen, (List.mem_filter.1 hx).2⟩, fun hy => hno (List.mem_filter.1 hy).1⟩

theorem map (h : FirstOccurrences source l) {f : α → β}
    (hf : ∀ x ∈ source, ∀ y ∈ source, f x = f y → x = y) :
    FirstOccurrences (source.map f) (l.map f) where
  mem_iff y := by simp only [List.mem_map, h.mem_iff]
  nodup := h.nodup.map_on fun x hx y hy => hf x ((h.mem_iff x).1 hx) y ((h.mem_iff y).1 hy)
  order := by
    refine List.pairwise_map.2 (h.order.imp_of_mem fun hx hy hbefore => ?_)
    obtain ⟨seen, rest, rfl, hxseen, hno⟩ := hbefore
    refine ⟨seen.map f, rest.map f, List.map_append, List.mem_map_of_mem hxseen, fun hmem => ?_⟩
    obtain ⟨z, hz, heq⟩ := List.mem_map.1 hmem
    rw [hf z (List.mem_append_left _ hz) _ ((h.mem_iff _).1 hy) heq] at hz
    exact hno hz

end FirstOccurrences

end

/-- A declared loop exit, by the head statements of the blocks of a procedure. -/
def LoopDecl.exit? (p : Procedure) : LoopDecl → Option LoopExit
  | stmts pair => some pair
  | blocks header exit => (p.head? header).bind fun h => (p.head? exit).map fun e => ⟨h, e⟩

namespace Draft

/-! ## declarations -/

/-- What can be declared of a procedure. -/
inductive Declaration where
  | entry (b : BlockId)
  | block (b : BlockId) (statements : List Statement)
  | edge (source target : BlockId)
  | loopExit (pair : LoopExit)
  | loopBlocks (header exit : BlockId)
  deriving DecidableEq, Inhabited, Repr

def declare (d : Draft) : Declaration → Draft
  | .entry b => d.withEntry b
  | .block b statements => d.addBlock b statements
  | .edge source target => d.addEdge source target
  | .loopExit pair => d.addLoopExit pair
  | .loopBlocks header exit => d.addLoopBlocks header exit

/-- The draft of a procedure that was declared step by step. -/
def ofDeclarations (name : String) (calls : List Declaration) : Draft :=
  calls.foldl declare { name := name }

namespace Declaration

def entry? : Declaration → Option BlockId
  | entry b => some b
  | _ => none

def block? : Declaration → Option (BlockId × List Statement)
  | block b statements => some (b, statements)
  | _ => none

def edge? : Declaration → Option (BlockId × BlockId)
  | edge source target => some (source, target)
  | _ => none

def loop? : Declaration → Option LoopDecl
  | loopExit pair => some (.stmts pair)
  | loopBlocks header exit => some (.blocks header exit)
  | _ => none

def blocks (calls : List Declaration) : List (BlockId × List Statement) := calls.filterMap block?

def names (calls : List Declaration) : List BlockId := (blocks calls).map (·.1)

/-- The entry is the last one that was set, and the first block if none was. -/
def entryOf (calls : List Declaration) : Option BlockId :=
  (calls.filterMap entry?).getLast?.or ((blocks calls).head?.map (·.1))

/-- Some block of this name was declared with statements. -/
def Headed (calls : List Declaration) (b : BlockId) : Prop :=
  ∃ stmt rest, .block b (stmt :: rest) ∈ calls

/-- The declarations fit together: there are blocks, no name is used twice, the entry is a block,
edges join blocks, and loops that are declared by blocks have head statements. -/
structure Valid (calls : List Declaration) : Prop where
  blocks_ne : blocks calls ≠ []
  names_nodup : (names calls).Nodup
  stmts_nodup : (((blocks calls).flatMap (·.2)).map (·.id)).Nodup
  entry : ∀ b, entryOf calls = some b → b ∈ names calls
  edges : ∀ source target, .edge source target ∈ calls → source ∈ names calls ∧ target ∈ names calls
  loops : ∀ header exit, .loopBlocks header exit ∈ calls → Headed calls header ∧ Headed calls exit

/-- What declarations say of a procedure. Blocks are in the order of their declarations and are
found by their names. Neighbours are those that edges were declared to and from, each once, in the
order in which these edges came up first; so are the loop exits. -/
structure Describes (name : String) (calls : List Declaration) (p : Procedure) : Prop where
  name : p.name = name
  entry : entryOf calls = some p.entry
  blocks : p.blocks.map (fun k => (k.id, k.statements)) = blocks calls
  block? : ∀ b k, p.block? b = some k ↔ k ∈ p.blocks ∧ k.id = b
  neighbours : ∀ a b, a ∈ p.predecessors b ↔ b ∈ p.successors a
  successors : ∀ a, FirstOccurrences (((calls.filterMap edge?).filter (·.1 = a)).map (·.2))
    (p.successors a)
  predecessors : ∀ b, FirstOccurrences (((calls.filterMap edge?).filter (·.2 = b)).map (·.1))
    (p.predecessors b)
  loopExits : ∃ pairs, (calls.filterMap loop?).map (LoopDecl.exit? p) = pairs.map some ∧
    FirstOccurrences pairs p.loopExits

end Declaration

open Declaration

variable {name : String} {calls : List Declaration} {p : Procedure}

theorem foldl_declare (d : Draft) (calls : List Declaration) :
    calls.foldl declare d = {
      name := d.name
      entry := (calls.filterMap entry?).getLast?.or d.entry
      blocks := d.blocks ++ calls.filterMap Declaration.block?
      edges := d.edges ++ calls.filterMap edge?
      loops := d.loops ++ calls.filterMap loop? } := by
  induction calls generalizing d with
  | nil => simp
  | cons c calls ih =>
    rw [List.foldl_cons, ih]
    cases c with
    | entry b => simp [declare, withEntry, List.filterMap_cons, entry?, Declaration.block?, edge?,
        loop?, List.getLast?_cons]
    | block b statements => simp [declare, addBlock, List.filterMap_cons, entry?,
        Declaration.block?, edge?, loop?]
    | edge source target => simp [declare, addEdge, List.filterMap_cons, entry?,
        Declaration.block?, edge?, loop?]
    | loopExit pair => simp [declare, addLoopExit, List.filterMap_cons, entry?,
        Declaration.block?, edge?, loop?]
    | loopBlocks header exit =>
      simp [declare, addLoopBlocks, List.filterMap_cons, entry?, Declaration.block?, edge?, loop?]

@[simp] theorem name_ofDeclarations :
    (ofDeclarations name calls).name = name := by simp [ofDeclarations, foldl_declare]

@[simp] theorem entry_ofDeclarations :
    (ofDeclarations name calls).entry = (calls.filterMap entry?).getLast? := by
  simp [ofDeclarations, foldl_declare]

@[simp] theorem blocks_ofDeclarations :
    (ofDeclarations name calls).blocks = Declaration.blocks calls := by
  simp [ofDeclarations, foldl_declare, Declaration.blocks]

@[simp] theorem edges_ofDeclarations :
    (ofDeclarations name calls).edges = calls.filterMap edge? := by
  simp [ofDeclarations, foldl_declare]

@[simp] theorem loops_ofDeclarations :
    (ofDeclarations name calls).loops = calls.filterMap loop? := by
  simp [ofDeclarations, foldl_declare]

@[simp] theorem blockIds_ofDeclarations : (ofDeclarations name calls).blockIds = names calls := by
  simp [blockIds, names]

theorem mem_blocks {k : BlockId × List Statement} :
    k ∈ Declaration.blocks calls ↔ .block k.1 k.2 ∈ calls := by
  have hiff : ∀ c : Declaration, c.block? = some k ↔ c = .block k.1 k.2 := by
    intro c
    cases c <;> simp [Declaration.block?, Prod.ext_iff]
  simp [Declaration.blocks, hiff]

theorem mem_edges {e : BlockId × BlockId} : e ∈ calls.filterMap edge? ↔ .edge e.1 e.2 ∈ calls := by
  have hiff : ∀ c : Declaration, c.edge? = some e ↔ c = .edge e.1 e.2 := by
    intro c
    cases c <;> simp [edge?, Prod.ext_iff]
  simp [hiff]

/-! ## which declarations are built -/

/-- A block of a draft has a head statement if it was declared with statements; names have to be
used once. -/
theorem head_isOk_iff {d : Draft} (hnames : d.blockIds.Nodup) {b : BlockId} :
    (∃ σ, d.head b = .ok σ) ↔ ∃ stmt rest, (b, stmt :: rest) ∈ d.blocks := by
  unfold head
  constructor
  · rintro ⟨σ, h⟩
    split at h
    · rename_i stmt hstmt
      obtain ⟨body, hbody, hhead⟩ := Option.bind_eq_some_iff.1 hstmt
      obtain ⟨rest, rfl⟩ := List.head?_eq_some_iff.1 hhead
      obtain ⟨before, behind, heq, -⟩ := List.lookup_eq_some_iff.1 hbody
      exact ⟨stmt, rest, by simp [heq]⟩
    · cases h
  · rintro ⟨stmt, rest, hmem⟩
    obtain ⟨before, behind, heq⟩ := List.append_of_mem hmem
    -- the name is used once, so the block is the first that is found
    have hfirst : d.blocks.lookup b = some (stmt :: rest) := by
      refine List.lookup_eq_some_iff.2 ⟨before, behind, heq, fun k hk => ?_⟩
      rw [blockIds, heq, List.map_append, List.nodup_append] at hnames
      have hne := hnames.2.2 k.1 (List.mem_map_of_mem hk) b (by simp)
      simpa using Ne.symm hne
    exact ⟨stmt.id, by simp [hfirst]⟩

theorem resolve_isOk_iff {d : Draft} {decl : LoopDecl} :
    (∃ pair, d.resolve decl = .ok pair) ↔
      ∀ header exit, decl = .blocks header exit → (∃ σ, d.head header = .ok σ) ∧
        ∃ τ, d.head exit = .ok τ := by
  cases decl with
  | stmts pair => simp [resolve]
  | blocks header exit =>
    simp only [resolve, bind_eq_ok, pure_eq_ok, LoopDecl.blocks.injEq, and_imp]
    constructor
    · rintro ⟨pair, σ, hσ, τ, hτ, -⟩ _ _ rfl rfl
      exact ⟨⟨σ, hσ⟩, τ, hτ⟩
    · intro h
      obtain ⟨⟨σ, hσ⟩, τ, hτ⟩ := h header exit rfl rfl
      exact ⟨_, σ, hσ, τ, hτ, rfl⟩

theorem entryOf_eq {k : BlockId × List Statement} {rest : List (BlockId × List Statement)}
    (h : Declaration.blocks calls = k :: rest) :
    entryOf calls = some ((calls.filterMap entry?).getLast?.getD k.1) := by
  simp [entryOf, h, Option.or_some]

theorem loops_isOk_iff (hnames : (names calls).Nodup) :
    (∃ pairs, (ofDeclarations name calls).loops.mapM (ofDeclarations name calls).resolve =
      .ok pairs) ↔
      ∀ header exit, .loopBlocks header exit ∈ calls → Headed calls header ∧ Headed calls exit := by
  have hheaded : ∀ b, (∃ σ, (ofDeclarations name calls).head b = .ok σ) ↔ Headed calls b := by
    intro b
    rw [head_isOk_iff (by simpa using hnames)]
    simp only [blocks_ofDeclarations, mem_blocks, Headed]
  have hloop : ∀ header exit, LoopDecl.blocks header exit ∈ calls.filterMap loop? ↔
      .loopBlocks header exit ∈ calls := by
    intro header exit
    have hiff : ∀ c : Declaration, c.loop? = some (.blocks header exit) ↔
        c = .loopBlocks header exit := by
      intro c
      cases c <;> simp [loop?]
    simp [hiff]
  have hall : (∃ pairs, (ofDeclarations name calls).loops.mapM (ofDeclarations name calls).resolve =
      .ok pairs) ↔
      ∀ decl ∈ calls.filterMap loop?, ∃ pair, (ofDeclarations name calls).resolve decl =
          .ok pair := by
    rw [loops_ofDeclarations]
    exact ⟨fun ⟨_, h⟩ => isOk_of_mapM_eq_ok h, mapM_isOk⟩
  rw [hall]
  simp only [resolve_isOk_iff, hheaded]
  constructor
  · exact fun h header exit hmem => h _ ((hloop header exit).2 hmem) header exit rfl
  · rintro h decl hdecl header exit rfl
    exact h header exit ((hloop header exit).1 hdecl)

/-- A procedure is built from declarations exactly if they fit together. -/
theorem build_isOk_iff : (∃ p, (ofDeclarations name calls).build = .ok p) ↔ Valid calls := by
  constructor
  · rintro ⟨p, h⟩
    obtain ⟨k, rest, pairs, hblocks, hr, hentry, hedges, hpairs, -⟩ := build_eq_ok_iff.1 h
    obtain ⟨hnames, -, hstmts, -⟩ := repeated?_eq_none.1 hr
    simp only [blocks_ofDeclarations] at hblocks hnames hstmts
    simp only [blockIds_ofDeclarations, entry_ofDeclarations] at hentry hedges
    refine ⟨by simp [hblocks], hnames, hstmts, fun b hb => ?_, fun source target he => ?_,
      (loops_isOk_iff hnames).1 ⟨pairs, hpairs⟩⟩
    · rw [entryOf_eq hblocks] at hb
      cases hb
      exact hentry
    · refine hedges (source, target) ?_
      rw [edges_ofDeclarations, mem_edges]
      exact he
  · rintro ⟨hne, hnames, hstmts, hentry, hedges, hloops⟩
    obtain ⟨k, rest, hblocks⟩ := List.exists_cons_of_ne_nil hne
    obtain ⟨pairs, hpairs⟩ :
      ∃ pairs, (ofDeclarations name calls).loops.mapM (ofDeclarations name calls).resolve =
      .ok pairs :=
      (loops_isOk_iff hnames).2 hloops
    refine ⟨_, build_eq_ok_iff.2 ⟨k, rest, pairs, by simpa using hblocks, ?_, ?_,
      fun e he => ?_, hpairs, rfl⟩⟩
    · exact repeated?_eq_none.2
        ⟨by simpa [names] using hnames, by simp, by simpa [stmtIds] using hstmts, by simp⟩
    · simpa using hentry _ (entryOf_eq hblocks)
    · rw [edges_ofDeclarations, mem_edges] at he
      simpa using hedges _ _ he

/-! ## what is built -/

theorem filter_edges_eq_nil {d : Draft} (h : d.build = .ok p) {near : BlockId × BlockId → BlockId}
    (hnear : ∀ e ∈ d.edges, near e ∈ d.blockIds) {b : BlockId} (hb : p.block? b = none) :
    d.distinctEdges.filter (near · = b) = [] := by
  refine List.filter_eq_nil_iff.2 fun e he heq => ?_
  have hknown := hnear e (List.mem_eraseDups.1 he)
  rw [of_decide_eq_true heq, ← blockIds_build h, ← Procedure.contains_iff,
    Procedure.contains, hb] at hknown
  cases hknown

theorem successors_of_build {d : Draft} (h : d.build = .ok p) (a : BlockId) :
    p.successors a = (d.distinctEdges.filter (·.1 = a)).map (·.2) := by
  unfold Procedure.successors
  cases hk : p.block? a with
  | some k =>
    obtain ⟨body, -, rfl⟩ := lookup_block? h hk
    rfl
  | none => simp [filter_edges_eq_nil h (fun e he => ((build_eq_ok h).2.2.1 e he).1) hk]

theorem predecessors_of_build {d : Draft} (h : d.build = .ok p) (b : BlockId) :
    p.predecessors b = (d.distinctEdges.filter (·.2 = b)).map (·.1) := by
  unfold Procedure.predecessors
  cases hk : p.block? b with
  | some k =>
    obtain ⟨body, -, rfl⟩ := lookup_block? h hk
    rfl
  | none => simp [filter_edges_eq_nil h (fun e he => ((build_eq_ok h).2.2.1 e he).2) hk]

/-- Edges with one end in common are told apart by the other one. -/
theorem firstOccurrences_ends (edges : List (BlockId × BlockId))
    (near far : BlockId × BlockId → BlockId)
    (hends : ∀ e e', near e = near e' → far e = far e' → e = e') (b : BlockId) :
    FirstOccurrences ((edges.filter (near · = b)).map far)
      ((edges.eraseDups.filter (near · = b)).map far) := by
  refine ((FirstOccurrences.eraseDups edges).filter _).map fun e he e' he' heq => hends e e' ?_ heq
  have hb := of_decide_eq_true (List.mem_filter.1 he).2
  exact hb.trans (of_decide_eq_true (List.mem_filter.1 he').2).symm

theorem exit?_of_resolve {d : Draft} (h : d.build = .ok p) {decl : LoopDecl} {pair : LoopExit}
    (hd : d.resolve decl = .ok pair) : decl.exit? p = some pair := by
  cases decl with
  | stmts pair' =>
    cases hd
    rfl
  | blocks header exit =>
    simp only [resolve, bind_eq_ok, pure_eq_ok, head_eq_ok h] at hd
    obtain ⟨σ, hσ, τ, hτ, rfl⟩ := hd
    simp [LoopDecl.exit?, hσ, hτ]

theorem map_eq_of_mapM_eq_ok {ε α β : Type} {f : α → Except ε β} {g : α → Option β}
    (hfg : ∀ x y, f x = .ok y → g x = some y) {xs : List α} {ys : List β} (h : xs.mapM f = .ok ys) :
    xs.map g = ys.map some := by
  induction xs generalizing ys with
  | nil =>
    cases h
    rfl
  | cons x xs ih =>
    rw [List.mapM_cons] at h
    simp only [bind_eq_ok, pure_eq_ok] at h
    obtain ⟨y, hy, ys, hys, rfl⟩ := h
    rw [List.map_cons, List.map_cons, hfg x y hy, ih hys]

theorem build_describes (h : (ofDeclarations name calls).build = .ok p) :
    Describes name calls p := by
  obtain ⟨k, rest, pairs, hblocks, -, -, -, hpairs, hp⟩ := build_eq_ok_iff.1 h
  refine ⟨by simp [hp], ?_, ?_, fun b k => ?_, (Procedure.WellFormed.of_build h).mem_predecessors,
    fun a => ?_, fun b => ?_, pairs, ?_, ?_⟩
  · rw [entryOf_eq (by simpa using hblocks), hp]
    simp
  · simp [hp, finishBlock, Function.comp_def]
  · exact ⟨fun hk => ⟨Procedure.block?_mem hk, Procedure.block?_id hk⟩,
      fun hk => hk.2 ▸ Procedure.block?_eq_some (blockIds_nodup h) hk.1⟩
  · rw [successors_of_build h, distinctEdges, edges_ofDeclarations]
    exact firstOccurrences_ends _ (·.1) (·.2) (fun _ _ => Prod.ext) a
  · rw [predecessors_of_build h, distinctEdges, edges_ofDeclarations]
    exact firstOccurrences_ends _ (·.2) (·.1) (fun _ _ h1 h2 => Prod.ext h2 h1) b
  · have hloops : (ofDeclarations name calls).loops = calls.filterMap loop? := loops_ofDeclarations
    rw [← hloops]
    exact map_eq_of_mapM_eq_ok (fun _ _ => exit?_of_resolve h) hpairs
  · rw [hp]
    exact .eraseDups pairs

/-- A procedure is built from declarations, in whatever order they come, exactly if they fit
together, and it is as they say. -/
theorem build_exact (name : String) (calls : List Declaration) :
    ((∃ p, (ofDeclarations name calls).build = .ok p) ↔ Valid calls) ∧
      ∀ p, (ofDeclarations name calls).build = .ok p → Describes name calls p :=
  ⟨build_isOk_iff, fun _ => build_describes⟩

/-- A loop behind its entry, with edges and loops declared before their blocks, and some of them
twice. -/
def scattered : List Declaration := [
  .edge ⟨0⟩ ⟨2⟩, .loopBlocks ⟨1⟩ ⟨2⟩, .block ⟨1⟩ [⟨⟨1⟩, 2, "while", .other⟩], .entry ⟨2⟩,
    .edge ⟨0⟩ ⟨1⟩,
  .block ⟨0⟩ [⟨⟨0⟩, 1, "a = new", .create "a"⟩], .edge ⟨0⟩ ⟨2⟩, .edge ⟨1⟩ ⟨1⟩, .loopExit ⟨⟨1⟩, ⟨1⟩⟩,
    .edge ⟨1⟩ ⟨2⟩,
  .loopExit ⟨⟨1⟩, ⟨2⟩⟩, .block ⟨2⟩ [⟨⟨2⟩, 3, "y = a[i]", .read ⟨"a", .expr "i"⟩⟩], .entry ⟨0⟩]

theorem build_exact_scattered :
    ∃ p, (ofDeclarations "scattered" scattered).build = .ok p ∧ Valid scattered ∧ p.entry = ⟨0⟩ ∧
      p.blockIds = [⟨1⟩, ⟨0⟩, ⟨2⟩] ∧ p.successors ⟨0⟩ = [⟨2⟩, ⟨1⟩] ∧
      p.predecessors ⟨2⟩ = [⟨0⟩, ⟨1⟩] ∧
      p.loopExits = [⟨⟨1⟩, ⟨2⟩⟩, ⟨⟨1⟩, ⟨1⟩⟩] ∧
      FirstOccurrences [⟨2⟩, ⟨1⟩, ⟨2⟩] (p.successors ⟨0⟩) := by
  have hbuild : ∃ p, (ofDeclarations "scattered" scattered).build = .ok p ∧ p.entry = ⟨0⟩ ∧
      p.blockIds = [⟨1⟩, ⟨0⟩, ⟨2⟩] ∧ p.successors ⟨0⟩ = [⟨2⟩, ⟨1⟩] ∧
      p.predecessors ⟨2⟩ = [⟨0⟩, ⟨1⟩] ∧
      p.loopExits = [⟨⟨1⟩, ⟨2⟩⟩, ⟨⟨1⟩, ⟨1⟩⟩] :=
      ⟨_, rfl, by decide, by decide, by decide, by decide, by decide⟩
  obtain ⟨p, hp, hentry, hblocks, hsuccessors, hpredecessors, hexits⟩ := hbuild
  obtain ⟨hvalid, hdescribes⟩ := build_exact "scattered" scattered
  exact ⟨p, hp, hvalid.1 ⟨p, hp⟩, hentry, hblocks, hsuccessors, hpredecessors, hexits,
    (hdescribes p hp).successors ⟨0⟩⟩

end Draft

end ArrayFlow
