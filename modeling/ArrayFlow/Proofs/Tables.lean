import ArrayFlow.Analysis.Report
import ArrayFlow.Proofs.WellFormed

/-!
# Bindings apart from the other facts

Statements and merges find many facts, but the bindings behind them depend on nothing but the
bindings before them.

* `Transfer.rebind`  : what a statement does to the bindings;
* `Transfer.Effect`  : what a statement can do to bindings and facts, case by case;
* `Merge.version?`   : the version of a name where several tables merge, if it has one;
* `Merge.joined`     : the bindings where tables merge;
* `Facts.absorb`     : the facts with definitions that stand for merges, their records, and false
  phis;
* `names_absorb`     : what a merge finds, name by name, which depends on the tables alone;
* `Exposed.table`    : the bindings that a block leaves, none if it was not processed;
* `process_eq_ok`, `predecessors_eq_ok` : blocks and merges by these functions, and the facts that
  they leave alone;
* `Facts.core`       : the facts without the flow graph, which nothing else reads.
-/

namespace ArrayFlow

theorem nodup_toList {α : Type} [Ord α] [Std.TransOrd α]
    (xs : Std.ExtTreeSet α) : xs.toList.Nodup := by
  refine (Std.ExtTreeSet.distinct_toList).imp fun hne heq => hne ?_
  rw [heq]
  exact Std.ReflCmp.compare_self

/-! ## facts without the flow graph -/

namespace Facts

/-- The facts with the flow graph left out. -/
def core (f : Facts) : Facts := { f with flow := .empty false }

variable {f g : Facts}

theorem graph_of_core (h : f.core = g.core) : f.graph = g.graph := (congrArg Facts.graph h :)

theorem exposed_of_core (h : f.core = g.core) : f.exposed = g.exposed :=
  (congrArg Facts.exposed h :)

theorem history_of_core (h : f.core = g.core) : f.history = g.history :=
  (congrArg Facts.history h :)

theorem falsePhis_of_core (h : f.core = g.core) : f.falsePhis = g.falsePhis :=
  (congrArg Facts.falsePhis h :)

theorem diagnostics_of_core (h : f.core = g.core) : f.diagnostics = g.diagnostics :=
  (congrArg Facts.diagnostics h :)

theorem claimed_of_core (h : f.core = g.core) : f.claimed = g.claimed := by
  funext b
  rw [claimed, claimed, exposed_of_core h]

theorem claimed_iff {b : BlockId} : f.claimed b = true ↔ ∃ t, f.exposed[b]? = some t := by
  rw [claimed, Exposed.isReady, Std.ExtTreeMap.contains_eq_isSome_getElem?,
    Option.isSome_iff_exists]

theorem getElem?_expose (b c : BlockId) (t : Bindings) :
    (f.expose b t).exposed[c]? = if b = c then some t else f.exposed[c]? := by
  simp [expose, Exposed.snapshot, Std.ExtTreeMap.getElem?_insert]

theorem claimed_expose (b c : BlockId) (t : Bindings) :
    (f.expose b t).claimed c = true ↔ c = b ∨ f.claimed c = true := by
  simp only [claimed_iff, getElem?_expose]
  by_cases h : b = c
  · simp [h]
  · simp [h, Ne.symm h]

@[simp] theorem claimed_start (s : Settings) (b : BlockId) : (start s).claimed b = false := by
  simp [start, claimed, Exposed.isReady]

end Facts

/-! ## exposed bindings -/

namespace Exposed

/-- The bindings that a block leaves, none if it was not processed. -/
def table (x : Exposed) (b : BlockId) : Bindings := x[b]?.getD ∅

variable {x : Exposed}

theorem get_eq_ok {b : BlockId} {t : Bindings} : x.get b = .ok t ↔ x[b]? = some t := by
  unfold get
  cases x[b]? <;> simp

theorem isReady_iff {b : BlockId} : x.isReady b = true ↔ x[b]? = some (x.table b) := by
  rw [isReady, Std.ExtTreeMap.contains_eq_isSome_getElem?, table]
  cases x[b]? with
  | none => simp only [Option.isSome_none, Bool.false_eq_true, reduceCtorEq]
  | some t => simp only [Option.isSome_some, Option.getD_some]

theorem table_eq {b : BlockId} {t : Bindings} (h : x[b]? = some t) :
    x.table b = t := by simp [table, h]

theorem mapM_get_eq_ok {bs : List BlockId} {tables : List Bindings} :
    bs.mapM x.get = .ok tables ↔ (∀ b ∈ bs, x.isReady b = true) ∧ tables = bs.map x.table := by
  induction bs generalizing tables with
  | nil =>
    rw [List.mapM_nil, pure_eq_ok]
    exact ⟨fun h => ⟨by simp, h.symm⟩, fun h => h.2.symm⟩
  | cons b bs ih =>
    rw [List.mapM_cons]
    simp only [bind_eq_ok, pure_eq_ok, get_eq_ok, List.mem_cons, forall_eq_or_imp, List.map_cons]
    constructor
    · rintro ⟨t, ht, ts, hts, rfl⟩
      obtain ⟨hr, rfl⟩ := ih.1 hts
      exact ⟨⟨isReady_iff.2 (by rw [ht, table_eq ht]), hr⟩, by rw [table_eq ht]⟩
    · rintro ⟨⟨hb, hr⟩, rfl⟩
      exact ⟨x.table b, isReady_iff.1 hb, bs.map x.table, ih.2 ⟨hr, rfl⟩, rfl⟩

theorem allReady_iff {bs : List BlockId} : x.allReady bs = true ↔ ∀ b ∈ bs, x.isReady b = true := by
  simp [allReady]

theorem mem_readyOf {bs : List BlockId} {b : BlockId} :
    b ∈ x.readyOf bs ↔ b ∈ bs ∧ x.isReady b = true := by
  simp [readyOf]

theorem readyOf_sublist (bs : List BlockId) : (x.readyOf bs).Sublist bs := List.filter_sublist

end Exposed

/-! ## statements -/

namespace Transfer

/-- What a statement does to the bindings. -/
def rebind (block : BlockId) (t : Bindings) (stmt : Statement) : Bindings :=
  match stmt.action with
  | .write a =>
    match t[a.base]? with
    | some v => t.insert a.base (v.next block stmt.id stmt.line)
    | none => t.insert a.base (.firstWrite block stmt.id stmt.line)
  | .read a =>
    match t[a.base]? with
    | some v => t.insert a.base v.markRead
    | none => t
  | .create b => t.insert b (.created block stmt.id stmt.line)
  | .rename source target =>
    match t[source]? with
    | some v => (t.erase source).insert target v
    | none => t
  | .other => t

variable {s : Settings} {block : BlockId} {p : Procedure} {t t' : Bindings} {f f' : Facts}

theorem recover_eq_ok {fault : Fault} (h : f.recover s fault = .ok f') :
    f' = f.report (.ofFault fault) := by
  unfold Facts.recover at h
  split at h
  · split at h
    · cases h
    · cases h; rfl
  · cases h; rfl

theorem write_eq_ok {stmt : Statement} {a : Access} (h : write block stmt a t f = .ok (t', f')) :
    ∃ v, t' = t.insert a.base v ∧
      v = (match t[a.base]? with
        | some w => w.next block stmt.id stmt.line
        | none => .firstWrite block stmt.id stmt.line) ∧
      f' = (f.record a.base (.of v .write (some stmt.id))).define
        (.ofStatement .defines stmt a.base v a.index block) := by
  unfold write Bindings.increment Bindings.firstWrite at h
  rw [Std.ExtTreeMap.contains_eq_isSome_getElem?] at h
  cases hv : t[a.base]? with
  | none =>
    simp only [hv, Option.isSome_none, Bool.false_eq_true, if_false, bind, Except.bind,
      pure_eq_ok] at h
    cases h
    exact ⟨_, rfl, rfl, rfl⟩
  | some w =>
    simp only [hv, Option.isSome_some, if_true, bind, Except.bind, pure_eq_ok] at h
    cases h
    exact ⟨_, rfl, rfl, rfl⟩

/-- A read of a name that is not bound changes no bindings; it is noted, if the analysis goes on. -/
theorem read_unbound {stmt : Statement} {a : Access} (hv : t[a.base]? = none)
    (h : read s block stmt a t f = .ok (t', f')) :
    t' = t ∧ f' = f.report (.ofFault (.danglingUse a.base "none" (some stmt.id) block)) := by
  simp only [read, Bindings.markRead, hv, bind_eq_ok, pure_eq_ok] at h
  obtain ⟨g, hg, h⟩ := h
  cases h
  exact ⟨rfl, recover_eq_ok hg⟩

/-- A read of a bound name marks its version as read, and adds a use. -/
theorem read_bound {stmt : Statement} {a : Access} {v : Version} (hv : t[a.base]? = some v)
    (h : read s block stmt a t f = .ok (t', f')) :
    let use := f.graph.addUse (.ofStatement .uses stmt a.base v.markRead a.index block)
    t' = t.insert a.base v.markRead ∧
      ((∃ e, use.1 = .ok e ∧ f' = { f with graph := use.2 }) ∨
        ∃ fault, use.1 = .error fault ∧
            f' = Facts.report { f with graph := use.2 } (.ofFault fault)) := by
  simp only [read, Bindings.markRead, hv] at h
  cases hu : f.graph.addUse (.ofStatement .uses stmt a.base v.markRead a.index block) with
  | mk result g =>
    cases result with
    | ok e =>
      simp only [hu] at h
      cases h
      exact ⟨rfl, .inl ⟨e, rfl, rfl⟩⟩
    | error fault =>
      simp only [hu, bind_eq_ok, pure_eq_ok] at h
      obtain ⟨g', hg, h⟩ := h
      cases h
      exact ⟨rfl, .inr ⟨fault, rfl, recover_eq_ok hg⟩⟩

theorem rename_unbound {stmt : Statement} {source target : String} (hv : t[source]? = none)
    (h : rename block stmt source target t f = .ok (t', f')) : t' = t ∧ f' = f := by
  simp only [rename, hv] at h
  cases h
  exact ⟨rfl, rfl⟩

/-- A rename of a bound name moves its version; the definition found for the version is handed over,
and a new one is made if none is found. -/
theorem rename_bound {stmt : Statement} {source target : String} {v : Version}
    (hv : t[source]? = some v) (h : rename block stmt source target t f = .ok (t', f')) :
    t' = (t.erase source).insert target v ∧
      ((∃ i, f.graph.resolve ⟨source, v.signature, .defines⟩ v = some i ∧
        f' = { f with
          graph := { f.graph with
            nodes := f.graph.nodes.modify i (·.rebind stmt target v), order :=
  f.graph.order.erase i ++ [i] },
          history := f.history.inherit source target (.of v .rename (some stmt.id)) }) ∨
      f.graph.resolve ⟨source, v.signature, .defines⟩ v = none ∧
        f' = { f.define (.wholeArray stmt target v block) with
          history := f.history.inherit source target (.of v .rename (some stmt.id)) }) := by
  simp only [rename, Bindings.rename, hv, bind, Except.bind, pure_eq_ok,
    DefUse.Graph.renameDef] at h
  cases hr : f.graph.resolve ⟨source, v.signature, .defines⟩ v with
  | some i =>
    simp only [hr] at h
    cases h
    exact ⟨rfl, .inl ⟨i, rfl, rfl⟩⟩
  | none =>
    simp only [hr] at h
    cases h
    exact ⟨rfl, .inr ⟨rfl, rfl⟩⟩

/-- What a statement stands for, by its action. -/
inductive Acts (s : Settings) (block : BlockId) (stmt : Statement) : Prop
  | write {a : Access} (hact : stmt.action = .write a)
      (heq : ∀ t f, statement s block t f stmt = Transfer.write block stmt a t f)
  | read {a : Access} (hact : stmt.action = .read a)
      (heq : ∀ t f, statement s block t f stmt = Transfer.read s block stmt a t f)
  | create {base : String} (hact : stmt.action = .create base)
      (heq : ∀ t f, statement s block t f stmt = .ok (Transfer.create block stmt base t f))
  | rename {source target : String} (hact : stmt.action = .rename source target)
      (heq : ∀ t f, statement s block t f stmt = Transfer.rename block stmt source target t f)
  | other (hact : stmt.action = .other) (heq : ∀ t f, statement s block t f stmt = .ok (t, f))

theorem statement_acts (s : Settings) (block : BlockId) (stmt : Statement) : Acts s block stmt := by
  cases hact : stmt.action with
  | write a => exact .write hact fun t f => by rw [statement, hact]
  | read a => exact .read hact fun t f => by rw [statement, hact]
  | create base => exact .create hact fun t f => by rw [statement, hact]
  | rename source target => exact .rename hact fun t f => by rw [statement, hact]
  | other => exact .other hact fun t f => by rw [statement, hact]

/-- What a statement that succeeds can do with the bindings `t` and the facts `f`. -/
inductive Effect (block : BlockId) (t : Bindings) (f : Facts) (stmt : Statement) :
    Bindings → Facts → Prop
  | write {a : Access} {v : Version} (hact : stmt.action = .write a)
      (hv : v = match t[a.base]? with
        | some w => w.next block stmt.id stmt.line
        | none => .firstWrite block stmt.id stmt.line) :
      Effect block t f stmt (t.insert a.base v)
        ((f.record a.base (.of v .write (some stmt.id))).define
          (.ofStatement .defines stmt a.base v a.index block))
  /-- The array that is read is not bound. -/
  | missed {a : Access} (hact : stmt.action = .read a) (hv : t[a.base]? = none) :
      Effect block t f stmt t
        (f.report (.ofFault (.danglingUse a.base "none" (some stmt.id) block)))
  /-- Its version has a definition. -/
  | used {a : Access} {v : Version} {e : Option Nat} (hact : stmt.action = .read a)
      (hv : t[a.base]? = some v)
      (huse : (f.graph.addUse (.ofStatement .uses stmt a.base v.markRead a.index block)).1 =
        .ok e) :
      Effect block t f stmt (t.insert a.base v.markRead)
        { f with graph :=
          (f.graph.addUse (.ofStatement .uses stmt a.base v.markRead a.index block)).2 }
  /-- Its version has none. -/
  | dangling {a : Access} {v : Version} {fault : Fault} (hact : stmt.action = .read a)
      (hv : t[a.base]? = some v)
      (huse : (f.graph.addUse (.ofStatement .uses stmt a.base v.markRead a.index block)).1 =
        .error fault) :
      Effect block t f stmt (t.insert a.base v.markRead)
        (Facts.report { f with graph :=
          (f.graph.addUse (.ofStatement .uses stmt a.base v.markRead a.index block)).2 }
          (.ofFault fault))
  | create {base : String} (hact : stmt.action = .create base) :
      Effect block t f stmt (t.insert base (.created block stmt.id stmt.line))
        (Facts.define
          { f.record base (.of (.created block stmt.id stmt.line) .create (some stmt.id)) with
            creations := f.creations.insert stmt.id }
          (.wholeArray stmt base (.created block stmt.id stmt.line) block))
  /-- The array that is renamed is not bound. -/
  | unmoved {source target : String} (hact : stmt.action = .rename source target)
      (hv : t[source]? = none) : Effect block t f stmt t f
  /-- The definition of its version goes along. -/
  | moved {source target : String} {v : Version} {i : Nat}
      (hact : stmt.action = .rename source target) (hv : t[source]? = some v)
      (hi : f.graph.resolve ⟨source, v.signature, .defines⟩ v = some i) :
      Effect block t f stmt ((t.erase source).insert target v)
        { f with
          graph := { f.graph with
            nodes := f.graph.nodes.modify i (·.rebind stmt target v)
            order := f.graph.order.erase i ++ [i] }
          history := f.history.inherit source target (.of v .rename (some stmt.id)) }
  /-- Its version has no definition that could go along. -/
  | redefined {source target : String} {v : Version}
      (hact : stmt.action = .rename source target) (hv : t[source]? = some v)
      (hi : f.graph.resolve ⟨source, v.signature, .defines⟩ v = none) :
      Effect block t f stmt ((t.erase source).insert target v)
        { f.define (.wholeArray stmt target v block) with
          history := f.history.inherit source target (.of v .rename (some stmt.id)) }
  | other (hact : stmt.action = .other) : Effect block t f stmt t f

theorem statement_effect {stmt : Statement} (h : statement s block t f stmt = .ok (t', f')) :
    Effect block t f stmt t' f' := by
  cases statement_acts s block stmt with
  | write hact heq =>
    rw [heq] at h
    obtain ⟨v, rfl, hv, rfl⟩ := write_eq_ok h
    exact .write hact hv
  | @read a hact heq =>
    rw [heq] at h
    cases hv : t[a.base]? with
    | none =>
      obtain ⟨rfl, rfl⟩ := read_unbound hv h
      exact .missed hact hv
    | some v =>
      obtain ⟨rfl, ⟨e, huse, rfl⟩ | ⟨fault, huse, rfl⟩⟩ := read_bound hv h
      · exact .used hact hv huse
      · exact .dangling hact hv huse
  | create hact heq =>
    rw [heq] at h
    cases h
    exact .create hact
  | @rename source target hact heq =>
    rw [heq] at h
    cases hv : t[source]? with
    | none =>
      obtain ⟨rfl, rfl⟩ := rename_unbound hv h
      exact .unmoved hact hv
    | some v =>
      obtain ⟨rfl, ⟨i, hi, rfl⟩ | ⟨hi, rfl⟩⟩ := rename_bound hv h
      · exact .moved hact hv hi
      · exact .redefined hact hv hi
  | other hact heq =>
    rw [heq] at h
    cases h
    exact .other hact

/-- The bindings behind a statement, and the facts that no statement touches. -/
theorem statement_eq_ok {stmt : Statement} (h : statement s block t f stmt = .ok (t', f')) :
    t' = rebind block t stmt ∧ f'.exposed = f.exposed ∧ f'.falsePhis = f.falsePhis := by
  unfold rebind
  cases statement_effect h with
  | write hact hv =>
    rw [hact, hv]
    refine ⟨?_, rfl, rfl⟩
    dsimp only
    split <;> rfl
  | missed hact hv | used hact hv | dangling hact hv | unmoved hact hv | moved hact hv
  | redefined hact hv =>
    rw [hact]
    dsimp only
    rw [hv]
    exact ⟨rfl, rfl, rfl⟩
  | create hact | other hact =>
    rw [hact]
    exact ⟨rfl, rfl, rfl⟩

theorem statements_cons {stmt : Statement} {rest : List Statement} :
    statements s block (stmt :: rest) t f =
      statement s block t f stmt >>= fun x => statements s block rest x.1 x.2 := by
  simp only [statements, List.foldlM_cons]

theorem statements_append {first rest : List Statement} :
    statements s block (first ++ rest) t f =
      statements s block first t f >>= fun x => statements s block rest x.1 x.2 := by
  simp only [statements, List.foldlM_append]

theorem statements_eq_ok {stmts : List Statement}
    (h : statements s block stmts t f = .ok (t', f')) :
    t' = stmts.foldl (rebind block) t ∧ f'.exposed = f.exposed ∧ f'.falsePhis = f.falsePhis := by
  induction stmts generalizing t f with
  | nil =>
    cases h
    exact ⟨rfl, rfl, rfl⟩
  | cons stmt rest ih =>
    rw [statements_cons, bind_eq_ok] at h
    obtain ⟨⟨t₁, f₁⟩, h₁, h⟩ := h
    obtain ⟨rfl, he, hφ⟩ := statement_eq_ok h₁
    obtain ⟨rfl, he', hφ'⟩ := ih h
    exact ⟨rfl, he'.trans he, hφ'.trans hφ⟩

/-- A block applies its statements and exposes the bindings behind them. -/
theorem process_eq_ok {f₁ : Facts} : process s block p t f = .ok f₁ ↔
    ∃ t' f', statements s block (p.statementsOf block) t f = .ok (t', f') ∧
      f₁ = f'.expose block t' := by
  simp only [process, bind_eq_ok, pure_eq_ok, Prod.exists]
  constructor
  · rintro ⟨t', f', h, rfl⟩
    exact ⟨t', f', h, rfl⟩
  · rintro ⟨t', f', h, rfl⟩
    exact ⟨t', f', h, rfl⟩

theorem exposed_process {f₁ : Facts} (h : process s block p t f = .ok f₁) (c : BlockId) :
    f₁.exposed[c]? = if block = c then some ((p.statementsOf block).foldl (rebind block) t)
      else f.exposed[c]? := by
  obtain ⟨t', f', hs, rfl⟩ := process_eq_ok.1 h
  obtain ⟨rfl, he, -⟩ := statements_eq_ok hs
  rw [Facts.getElem?_expose, he]

theorem claimed_process {f₁ : Facts} (h : process s block p t f = .ok f₁) (c : BlockId) :
    f₁.claimed c = true ↔ c = block ∨ f.claimed c = true := by
  obtain ⟨t', f', hs, rfl⟩ := process_eq_ok.1 h
  rw [Facts.claimed_expose]
  simp only [Facts.claimed, (statements_eq_ok hs).2.1]

end Transfer

/-! ## merges -/

/-- The facts with definitions that stand for merges, with a record of each of them, and with false
phis. -/
def Facts.absorb (f : Facts) (made : List DefUse.Node) (lost : List FalsePhi) : Facts :=
  { f with
    graph := { f.graph with
      nodes := f.graph.nodes ++ made.toArray
      order := f.graph.order ++ List.range' f.graph.nodes.size made.length }
    history := made.foldl (fun h n => h.record n.base (.of n.version .phi none)) f.history
    falsePhis := f.falsePhis ++ lost }

theorem Facts.absorb_nil (f : Facts) : f.absorb [] [] = f := by simp [absorb]

theorem Facts.absorb_absorb (f : Facts) (made made' : List DefUse.Node)
    (lost lost' : List FalsePhi) :
    (f.absorb made lost).absorb made' lost' = f.absorb (made ++ made') (lost ++ lost') := by
  simp only [absorb, List.foldl_append, List.append_assoc, List.length_append, Array.append_assoc,
    ← List.append_toArray, Array.size_append, List.size_toArray, ← List.range'_append, Nat.one_mul]

namespace Merge

variable (s : Settings) (block : BlockId) (line : Nat)

/-- The version of a name where tables merge: none unless all of them bind it, one of theirs where
they agree and such merges are pruned, and else a new one. -/
def version? (tables : List Bindings) (base : String) : Option Version :=
  let inputs := tables.filterMap fun u => u[base]?
  if inputs.length < tables.length then none
  else if s.pruneTrivial && Version.trivialMerge inputs then inputs.head?.map (shared · inputs)
  else Version.phi? inputs block line

/-- The bindings where tables merge; a sole table is copied. -/
def joined : List Bindings → Bindings
  | [] => ∅
  | [t] => t
  | tables =>
    (names tables).foldl (fun t base => match version? s block line tables base with
      | some v => t.insert base v
      | none => t) ∅

theorem mem_names {tables : List Bindings} {base : String} :
    base ∈ names tables ↔ ∃ u ∈ tables, base ∈ u := by
  simp [names, Bindings.names]

theorem names_nodup (tables : List Bindings) : (names tables).Nodup := nodup_toList _

/-! ### what is found -/

/-- The false phi of a name at a merge, if it is one. -/
def falsePhi? (b : BlockId) (preds : List BlockId) (tables : List Bindings)
    (base : String) : List FalsePhi :=
  if (tables.filterMap fun u => u[base]?).length < tables.length then
    [⟨b, base, contributors preds tables base⟩] else []

/-- The definition of a name at a merge, if a new version is made for it. -/
def phiNode? (tables : List Bindings) (base : String) : List DefUse.Node :=
  let inputs := tables.filterMap fun u => u[base]?
  if inputs.length < tables.length || s.pruneTrivial && Version.trivialMerge inputs then []
  else ((Version.phi? inputs block line).map (DefUse.Node.ofPhi base · block)).toList

/-- What is found for one name depends on the tables alone. -/
theorem name_absorb (preds : List BlockId) (tables : List Bindings) (t : Bindings) (f : Facts)
    (base : String) :
    (name s block line preds tables t f base).2 =
      f.absorb (phiNode? s block line tables base) (falsePhi? block preds tables base) := by
  unfold name phiNode? falsePhi?
  dsimp only
  generalize (tables.filterMap fun u => u[base]?) = inputs
  by_cases hlt : inputs.length < tables.length
  · simp [hlt, Facts.absorb]
  · simp only [hlt, if_false, decide_false, Bool.false_or]
    by_cases hprune : (s.pruneTrivial && Version.trivialMerge inputs) = true
    · rw [if_pos hprune, if_pos hprune, Facts.absorb_nil]
      cases inputs <;> rfl
    · rw [if_neg hprune, if_neg hprune]
      cases Version.phi? inputs block line with
      | none => simp [Facts.absorb_nil]
      | some v => simp [Facts.absorb, Facts.define, Facts.record, DefUse.Graph.addDef,
          DefUse.Graph.push, DefUse.Node.ofPhi]

theorem names_absorb (preds : List BlockId) (tables : List Bindings) (bases : List String)
    (t : Bindings) (f : Facts) :
    (bases.foldl (fun (t, f) base => name s block line preds tables t f base) (t, f)).2 =
      f.absorb (bases.flatMap (phiNode? s block line tables))
        (bases.flatMap (falsePhi? block preds tables)) := by
  induction bases generalizing t f with
  | nil => exact f.absorb_nil.symm
  | cons base bases ih =>
    rw [List.foldl_cons, ih, name_absorb, Facts.absorb_absorb, List.flatMap_cons, List.flatMap_cons]

/-- What becomes of one name: its version is bound, and a new one is recorded; the rest of the facts
is left alone. -/
theorem name_spec (preds : List BlockId) (tables : List Bindings) (t : Bindings) (f : Facts)
    (base : String) :
    let r := name s block line preds tables t f base
    r.1 = (match version? s block line tables base with
      | some v => t.insert base v
      | none => t) ∧
    r.2.exposed = f.exposed ∧ r.2.diagnostics = f.diagnostics := by
  dsimp only
  refine ⟨?_, by rw [name_absorb]; rfl, by rw [name_absorb]; rfl⟩
  unfold name version?
  dsimp only
  split
  · rfl
  · split
    · cases tables.filterMap fun u => u[base]? <;> rfl
    · cases Version.phi? (tables.filterMap fun u => u[base]?) block line <;> rfl

theorem foldl_name_spec (preds : List BlockId) (tables : List Bindings) (bases : List String)
    (t : Bindings) (f : Facts) :
    let r := bases.foldl (fun (t, f) base => name s block line preds tables t f base) (t, f)
    r.1 = bases.foldl (fun t base => match version? s block line tables base with
      | some v => t.insert base v
      | none => t) t ∧
    r.2.exposed = f.exposed ∧ r.2.diagnostics = f.diagnostics := by
  dsimp only
  refine ⟨?_, by rw [names_absorb]; rfl, by rw [names_absorb]; rfl⟩
  induction bases generalizing t f with
  | nil => rfl
  | cons base bases ih =>
    rw [List.foldl_cons, List.foldl_cons, ih, (name_spec s block line preds tables t f base).1]

variable {s block line} {preds : List BlockId} {tables : List Bindings} {t t' : Bindings}
  {f f' : Facts}

/-- Nothing is merged behind a sole predecessor. The tables of several are merged name by name. -/
theorem predecessors_cases (h : predecessors s f block line preds = .ok (t, f')) :
    (preds = [] ∧ t = ∅ ∧ f' = f) ∨ (∃ a, preds = [a] ∧ f.exposed[a]? = some t ∧ f' = f) ∨
      (2 ≤ preds.length ∧ (∀ a ∈ preds, f.claimed a = true) ∧
        (names (preds.map f.exposed.table)).foldl
          (fun (u, g) base => name s block line preds (preds.map f.exposed.table) u g base) (∅, f) =
          (t, f')) := by
  unfold predecessors at h
  simp only [bind_eq_ok] at h
  obtain ⟨tables, hm, h⟩ := h
  obtain ⟨hready, rfl⟩ := Exposed.mapM_get_eq_ok.1 hm
  match preds with
  | [] =>
    cases h
    exact .inl ⟨rfl, rfl, rfl⟩
  | [a] =>
    cases h
    exact .inr (.inl ⟨a, rfl, Exposed.isReady_iff.1 (hready a (List.mem_singleton_self a)), rfl⟩)
  | a :: c :: rest => exact .inr (.inr ⟨by simp, hready, pure_eq_ok.1 h⟩)

/-- A merge joins the tables of its predecessors, all of which have one. -/
theorem predecessors_eq_ok (h : predecessors s f block line preds = .ok (t, f')) :
    (∀ b ∈ preds, f.claimed b = true) ∧ t = joined s block line (preds.map f.exposed.table) ∧
      f'.exposed = f.exposed ∧ f'.diagnostics = f.diagnostics := by
  rcases predecessors_cases h with ⟨rfl, rfl, rfl⟩ | ⟨a, rfl, ha, rfl⟩ | ⟨h2, hready, h⟩
  · exact ⟨nofun, rfl, rfl, rfl⟩
  · refine ⟨fun b hb => ?_, (Exposed.table_eq ha).symm, rfl, rfl⟩
    rw [List.mem_singleton.1 hb]
    exact Facts.claimed_iff.2 ⟨t, ha⟩
  · obtain ⟨h1, hexposed, hdiagnostics⟩ := foldl_name_spec s block line preds
      (preds.map f.exposed.table) (names (preds.map f.exposed.table)) ∅ f
    rw [h] at h1 hexposed hdiagnostics
    refine ⟨hready, h1.trans ?_, hexposed, hdiagnostics⟩
    match preds, h2 with
    | a :: c :: rest, _ => rfl

theorem predecessors_isOk (h : ∀ b ∈ preds, f.claimed b = true) :
    ∃ t f', predecessors s f block line preds = .ok (t, f') := by
  unfold predecessors
  rw [Exposed.mapM_get_eq_ok.2 ⟨h, rfl⟩]
  simp only [bind, Except.bind]
  split <;> exact ⟨_, _, rfl⟩

/-! ### the joined bindings, name by name -/

theorem getElem?_foldl_version (tables : List Bindings) (bases : List String) (t : Bindings)
    (base : String) :
    (bases.foldl (fun t base => match version? s block line tables base with
      | some v => t.insert base v
      | none => t) t)[base]? =
    if base ∈ bases ∧ (version? s block line tables base).isSome then
      version? s block line tables base
    else t[base]? := by
  induction bases generalizing t with
  | nil => simp
  | cons b bases ih =>
    rw [List.foldl_cons, ih]
    by_cases hb : base = b
    · subst hb
      cases hv : version? s block line tables base with
      | none => simp
      | some v => simp
    · cases hv : version? s block line tables b with
      | none => simp [hb]
      | some v => simp [hb, Std.ExtTreeMap.getElem?_insert, Ne.symm hb]

theorem inputs_length_le (tables : List Bindings) (base : String) :
    (tables.filterMap fun u => u[base]?).length ≤ tables.length := List.length_filterMap_le _ _

/-- Where at least two tables merge, a name is bound as `version?` says. -/
theorem getElem?_joined (h : 2 ≤ tables.length) (base : String) :
    (joined s block line tables)[base]? = version? s block line tables base := by
  have hj : joined s block line tables =
      (names tables).foldl (fun t base => match version? s block line tables base with
        | some v => t.insert base v
        | none => t) ∅ := by
    unfold joined
    split
    · simp at h
    · simp at h
    · rfl
  rw [hj, getElem?_foldl_version]
  split
  · rfl
  · rename_i hno
    rw [Std.ExtTreeMap.getElem?_empty]
    -- a name with a version is bound in the first table, so it is among the names
    cases hv : version? s block line tables base with
    | none => rfl
    | some v =>
      refine absurd ⟨?_, by simp [hv]⟩ hno
      unfold version? at hv
      dsimp only at hv
      split at hv
      · cases hv
      · rename_i hlen
        have hpos : 0 < (tables.filterMap fun u => u[base]?).length := by omega
        obtain ⟨w, hw⟩ := List.exists_mem_of_length_pos hpos
        obtain ⟨u, hu, huw⟩ := List.mem_filterMap.1 hw
        exact mem_names.2 ⟨u, hu, Std.ExtTreeMap.mem_iff_isSome_getElem?.2 (by simp [huw])⟩

end Merge

end ArrayFlow
