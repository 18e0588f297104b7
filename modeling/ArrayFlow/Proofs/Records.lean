import ArrayFlow.Proofs.Linking
import ArrayFlow.Proofs.Provenance

/-!
# Chains and definitions

A version that is made is entered twice: into the chain of its array, and as a definition into the
def-use graph. Nothing ties the two together but that whoever makes a version enters it in both
places. Without renames they never come apart.

* `Record.Matches`        : a record and a definition stand for one version, made in one way at one
  place;
* `Graph.definitionsOf`   : the definitions of an array, in the order in which they were added;
* `Facts.Matched`         : the chain of every array matches its definitions, one by one;
* `Matched.define`, `Matched.use` : adding a definition with its record keeps this, and adding a use
  does;
* `Reaches.matched`       : so it holds at every time, by induction on the run;
* `analyze_chains_match`  : and of a report.
-/

namespace ArrayFlow

open DefUse

/-- The record and the definition stand for one version, made in one way at one place. -/
structure Record.Matches (rec : Record) (n : Node) : Prop where
  version : rec.version = n.version
  stmt : rec.stmt = n.stmt
  block : rec.block = n.block
  line : rec.line = n.line
  create : rec.origin = .create ↔ n.isBase = true
  phi : rec.origin = .phi ↔ n.isPhi = true
  write : rec.origin = .write ↔ n.isBase = false ∧ n.isPhi = false

/-- The definitions of an array, in the order in which they were added. -/
def DefUse.Graph.definitionsOf (g : Graph) (base : String) : List Node :=
  g.nodes.toList.filter fun n => n.isDefinition && n.base == base

theorem DefUse.Graph.mem_definitionsOf {g : Graph} {base : String} {n : Node} :
    n ∈ g.definitionsOf base ↔ n ∈ g.nodes ∧ n.role = .defines ∧ n.base = base := by
  simp [definitionsOf, Node.isDefinition]

theorem DefUse.Graph.definitionsOf_push {g g' : Graph} {n : Node} (h : g'.nodes = g.nodes.push n)
    (base : String) :
    g'.definitionsOf base =
      g.definitionsOf base ++ if n.role = .defines ∧ n.base = base then [n] else [] := by
  simp [definitionsOf, h, List.filter_append, List.filter_singleton, Node.isDefinition]

theorem History.chain_record (h : History) (base : String) (rec : Record) (x : String) :
    (h.record base rec).chain x = h.chain x ++ if base = x then [rec] else [] := by
  simp only [record, chain, Std.ExtTreeMap.getElem?_insert, Std.compare_eq_iff_eq]
  split
  · rename_i hx
    simp [hx]
  · simp

/-! ## what keeps chains and definitions together -/

/-- The chain of every array matches its definitions, one by one, and no chain is empty. -/
structure Facts.Matched (f : Facts) : Prop where
  chains : ∀ x, List.Forall₂ Record.Matches (f.history.chain x) (f.graph.definitionsOf x)
  filled : ∀ x ∈ f.history, f.history.chain x ≠ []

namespace Facts.Matched

variable {p : Procedure} {s : Settings} {f f' f₁ : Facts} {b : BlockId} {t t' : Bindings}
  {stmt : Statement} {n : Node} {rec : Record}

theorem start (s : Settings) : (Facts.start s).Matched := by
  constructor
  · intro x
    simp [Facts.start, History.chain, Graph.definitionsOf, Graph.empty]
  · simp [Facts.start]

theorem congr (h : f.Matched) (hh : f'.history = f.history)
    (hn : f'.graph.nodes = f.graph.nodes) : f'.Matched := by
  constructor
  · intro x
    rw [Graph.definitionsOf, hn, hh]
    exact h.chains x
  · rw [hh]
    exact h.filled

theorem define (h : f.Matched) (hm : rec.Matches n) (hrole : n.role = .defines) :
    ((f.record n.base rec).define n).Matched := by
  constructor
  · intro x
    rw [Graph.definitionsOf_push (g := f.graph) (n := n) rfl]
    simp only [Facts.define, Facts.record, History.chain_record, hrole, true_and]
    refine List.rel_append (h.chains x) ?_
    split
    · exact .cons hm .nil
    · exact .nil
  · intro x hx
    simp only [Facts.define, Facts.record, History.chain_record] at hx ⊢
    by_cases hbase : n.base = x
    · simp [hbase]
    · have hold : x ∈ f.history := by simpa [History.record, hbase] using hx
      simpa [hbase] using h.filled x hold

theorem use (h : f.Matched) (hrole : n.role = .uses) (hh : f'.history = f.history)
    (hn : f'.graph.nodes = f.graph.nodes.push n) : f'.Matched := by
  constructor
  · intro x
    rw [Graph.definitionsOf_push hn, hh, hrole]
    simpa using h.chains x
  · rw [hh]
    exact h.filled

/-! ### statements -/

theorem write {a : Access} {v : Version} (h : f.Matched) (hb : v.block = b)
    (hl : v.line = stmt.line) (hphi : v.isPhi = false) :
    ((f.record a.base (.of v .write (some stmt.id))).define
      (.ofStatement .defines stmt a.base v a.index b)).Matched :=
  h.define (n := .ofStatement .defines stmt a.base v a.index b)
    ⟨rfl, rfl, hb, hl, by simp [Record.of, Node.ofStatement],
      by simp [Record.of, Node.ofStatement, Node.isPhi, hphi],
      by simp [Record.of, Node.ofStatement, Node.isPhi, hphi]⟩ rfl

theorem create (h : f.Matched) (t : Bindings) (base : String) :
    (Transfer.create b stmt base t f).2.Matched := by
  have hm : (Record.of (.created b stmt.id stmt.line) .create (some stmt.id)).Matches
      (.wholeArray stmt base (.created b stmt.id stmt.line) b) :=
    ⟨rfl, rfl, rfl, rfl, by simp [Record.of, Node.wholeArray], by simp [Record.of, Node.isPhi,
      Node.wholeArray, Node.ofStatement, Version.created, Version.isPhi], by simp [Record.of,
      Node.wholeArray]⟩
  exact (h.define hm rfl).congr rfl rfl

theorem statement (h : f.Matched) (hfree : stmt.action.isRename = false)
    (hs : Transfer.statement s b t f stmt = .ok (t', f')) : f'.Matched := by
  cases Transfer.statement_effect hs with
  | @write a v hact hv =>
    have hmade : v.block = b ∧ v.line = stmt.line ∧ v.isPhi = false := by
      rw [hv]
      split <;> exact ⟨rfl, rfl, rfl⟩
    exact h.write hmade.1 hmade.2.1 hmade.2.2
  | create => exact h.create t _
  | used | dangling => exact h.use rfl rfl (Graph.addUse_nodes _ _)
  | missed => exact h.congr rfl rfl
  | other => exact h
  | unmoved hact | moved hact | redefined hact => simp [hact, Action.isRename] at hfree

theorem statements {stmts : List Statement} (h : f.Matched)
    (hfree : ∀ stmt ∈ stmts, stmt.action.isRename = false)
    (hs : Transfer.statements s b stmts t f = .ok (t', f')) : f'.Matched := by
  induction stmts generalizing t f with
  | nil =>
    cases hs
    exact h
  | cons stmt rest ih =>
    rw [Transfer.statements_cons, bind_eq_ok] at hs
    obtain ⟨⟨t₁, f₁⟩, h₁, hs⟩ := hs
    exact ih (h.statement (hfree stmt (List.mem_cons_self ..)) h₁)
      (fun stmt' hmem => hfree stmt' (List.mem_cons_of_mem _ hmem)) hs

theorem process (h : f.Matched) (hfree : ∀ stmt ∈ p.statementsOf b, stmt.action.isRename = false)
    (hp : Transfer.process s b p t f = .ok f₁) : f₁.Matched := by
  obtain ⟨t', f', hs, rfl⟩ := Transfer.process_eq_ok.1 hp
  exact (h.statements hfree hs).congr rfl rfl

/-! ### merges -/

/-- A merge that is pruned, or that is a false one, is entered in neither place. -/
theorem name (h : f.Matched) (line : Nat) (preds : List BlockId) (tables : List Bindings)
    (base : String) :
    (Merge.name s b line preds tables t f base).2.Matched := by
  unfold Merge.name
  dsimp only
  split
  · exact h.congr rfl rfl
  · split
    · split <;> exact h
    · split
      · rename_i v hv
        have hmade : v.block = b ∧ v.isPhi = true := by
          unfold Version.phi? at hv
          split at hv <;> cases hv
          exact ⟨rfl, rfl⟩
        exact h.define (n := .ofPhi base v b)
          ⟨rfl, rfl, hmade.1, rfl, by simp [Record.of, Node.ofPhi], by simp [Record.of, Node.ofPhi,
            Node.isPhi, hmade.2], by simp [Record.of, Node.ofPhi, Node.isPhi, hmade.2]⟩ rfl
      · exact h

theorem names (h : f.Matched) (line : Nat) (preds : List BlockId) (tables : List Bindings)
    (bases : List String) :
    (bases.foldl (fun (t, f) base => Merge.name s b line preds tables t f base) (t,
      f)).2.Matched := by
  induction bases generalizing t f with
  | nil => exact h
  | cons base bases ih => exact ih (h.name line preds tables base)

theorem predecessors {line : Nat} {preds : List BlockId} (h : f.Matched)
    (hm : Merge.predecessors s f b line preds = .ok (t, f')) : f'.Matched := by
  rcases Merge.predecessors_cases hm with ⟨-, -, rfl⟩ | ⟨-, -, -, rfl⟩ | ⟨-, -, hm⟩
  · exact h
  · exact h
  · rw [← show _ = f' from congrArg Prod.snd hm]
    exact h.names line preds _ _

end Facts.Matched

/-! ## whole runs -/

namespace Machine

variable {p : Procedure} {s : Settings} {m m' : Machine} {b : BlockId} {t : Bindings} {f f₁ : Facts}

theorem Enters.matched (he : Enters p s m b t f) (h : m.facts.Matched) : f.Matched := by
  rcases he.source with ⟨-, rfl⟩ | ⟨preds, -, hm⟩
  · exact h
  · exact h.predecessors hm

/-- The end of a loop, whether it is done or given up, makes no versions. -/
theorem Ended.matched {r : LoopRun} (he : Ended s m r f) (h : m.facts.Matched)
    (hc : LoopRun.close f r = .ok f₁) :
    f₁.Matched := by
  have hf : f.Matched := by
    cases he with
    | drained => exact h
    | limit => exact h.congr rfl rfl
    | reentry => exact h.congr rfl rfl
  rcases LoopRun.close_eq_ok hc with ⟨-, rfl⟩ | ⟨l, u, -, -, rfl⟩
  · exact hf
  · exact hf.congr rfl rfl

theorem Reaches.matched (hm : Reaches p s m)
    (hfree : ∀ b, ∀ stmt ∈ p.statementsOf b, stmt.action.isRename = false) : m.facts.Matched := by
  refine hm.invariant (P := fun m => m.facts.Matched) (.start s) fun m m' _ ih hstep => ?_
  cases hstep.change with
  | processed he hp hcore =>
    exact ((he.matched ih).process (hfree _) hp).congr (Facts.history_of_core hcore)
      (congrArg Graph.nodes (Facts.graph_of_core hcore))
  | ended hl he hc hcore =>
    exact (he.matched ih hc).congr (Facts.history_of_core hcore)
      (congrArg Graph.nodes (Facts.graph_of_core hcore))
  | none hn hcore =>
    exact ih.congr (Facts.history_of_core hcore) (congrArg Graph.nodes (Facts.graph_of_core hcore))

end Machine

/-- Without renames, the chain of an array and its definitions in the order in which they were added
match one by one: in version, statement, block and line, and in the way in which the version was
made. An array has a chain exactly if it has a definition. -/
theorem analyze_chains_match {p : Procedure} {s : Settings} {r : Report}
    (hfree : ∀ b, ∀ stmt ∈ p.statementsOf b, stmt.action.isRename = false) (h : analyze p s = .ok r)
    (x : String) :
    List.Forall₂ Record.Matches (r.facts.history.chain x) (r.facts.graph.definitionsOf x) ∧
      (x ∈ r.facts.history.bases ↔ ∃ n ∈ r.facts.graph.nodes, n.role = .defines ∧ n.base = x) := by
  obtain ⟨-, m, -, hm, rfl⟩ := analyze_eq_ok h
  rw [Machine.conclude_eq]
  have hmatched := hm.matched hfree
  refine ⟨hmatched.chains x, ?_⟩
  -- an array has a chain exactly if the chain is not empty, and then it has as many definitions
  have hchain : x ∈ m.facts.history ↔ m.facts.history.chain x ≠ [] := by
    refine ⟨hmatched.filled x, fun hne => ?_⟩
    rw [Std.ExtTreeMap.mem_iff_isSome_getElem?]
    by_contra hnone
    exact hne (by simpa [History.chain] using congrArg (Option.getD · []) (Option.not_isSome_iff_eq_none.1 hnone))
  have hlength := (hmatched.chains x).length_eq
  rw [History.bases, Std.ExtTreeMap.mem_keys, hchain, ← List.length_pos_iff, hlength,
    List.length_pos_iff_exists_mem]
  simp only [Graph.mem_definitionsOf]

/-- A loop that is cut short behind a branch: both arms write `a`, `b` is written on one of them,
and the loop writes `a` in two blocks, the second of which is not come to. -/
def cutLoopBehindBranch : Draft where
  name := "cut loop behind a branch"
  blocks := [
    (⟨0⟩, [⟨⟨0⟩, 1, "a = new", .create "a"⟩]),
    (⟨1⟩, [⟨⟨1⟩, 2, "a[i] = x", .write ⟨"a", .expr "i"⟩⟩,
      ⟨⟨2⟩, 3, "b[i] = x", .write ⟨"b", .expr "i"⟩⟩]),
    (⟨2⟩, [⟨⟨3⟩, 4, "a[j] = x", .write ⟨"a", .expr "j"⟩⟩]),
    (⟨3⟩, [⟨⟨4⟩, 5, "y = a[i]", .read ⟨"a", .expr "i"⟩⟩]),
    (⟨4⟩, [⟨⟨5⟩, 6, "while", .other⟩]),
    (⟨5⟩, [⟨⟨6⟩, 7, "a[k] = x", .write ⟨"a", .expr "k"⟩⟩]),
    (⟨6⟩, [⟨⟨7⟩, 8, "a[k] = y", .write ⟨"a", .expr "k"⟩⟩]),
    (⟨7⟩, [⟨⟨8⟩, 9, "y = a[k]", .read ⟨"a", .expr "k"⟩⟩])]
  edges := [(⟨0⟩, ⟨1⟩), (⟨0⟩, ⟨2⟩), (⟨1⟩, ⟨3⟩), (⟨2⟩, ⟨3⟩), (⟨3⟩, ⟨4⟩), (⟨4⟩, ⟨5⟩), (⟨5⟩, ⟨6⟩),
    (⟨6⟩, ⟨4⟩), (⟨4⟩, ⟨7⟩)]
  loops := [.blocks ⟨4⟩ ⟨7⟩]

theorem analyze_chains_match_cutLoopBehindBranch :
    ∃ p r, cutLoopBehindBranch.build = .ok p ∧ analyze p { maxIterations := 1 } = .ok r ∧
      (∀ b, ∀ stmt ∈ p.statementsOf b, stmt.action.isRename = false) ∧
      (r.facts.history.chain "a").map (·.origin) = [.create, .write, .write, .phi, .write] ∧
      List.Forall₂ Record.Matches (r.facts.history.chain "a") (r.facts.graph.definitionsOf "a") ∧
      ("b" ∈ r.facts.history.bases ↔ ∃ n ∈ r.facts.graph.nodes, n.role = .defines ∧
          n.base = "b") := by
  obtain ⟨p, r, hb, h, hP⟩ :=
    Draft.check_eq_true (d := cutLoopBehindBranch) (s := { maxIterations := 1 })
    (P := fun p r => p.RenameFree ∧
      (r.facts.history.chain "a").map (·.origin) = [.create, .write, .write, .phi, .write])
      (by decide +kernel)
  obtain ⟨hfree, horigins⟩ := of_decide_eq_true hP
  have hfree : ∀ b, ∀ stmt ∈ p.statementsOf b, stmt.action.isRename = false := by
    intro b stmt hstmt
    obtain ⟨k, hk, hstmt⟩ := Procedure.mem_statementsOf.1 hstmt
    exact hfree k (Procedure.block?_mem hk) stmt hstmt
  exact ⟨p, r, hb, h, hfree, horigins, (analyze_chains_match hfree h "a").1,
    (analyze_chains_match hfree h "b").2⟩

end ArrayFlow
