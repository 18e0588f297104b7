import ArrayFlow.Proofs.Control
import ArrayFlow.Proofs.Monotone
import ArrayFlow.Proofs.Subgraph

/-!
# Arrays are analysed apart

All arrays share one table of bindings, one graph and one list of everything else. Without renames
they do not get into each other's way: what is found of an array is what is found when all other
arrays are left out.

* `Procedure.only`   : the procedure in which statements about other arrays do nothing;
* `Facts.about`      : what the facts say of one array;
* `Graph.Apart`      : edges join nodes of one array, and end at statements that are about it, so
  that no edge of one array is in the way of an edge of another;
* `Transfer.statement_elsewhere`, `Transfer.statement_there` : a statement about another array
  leaves the facts about an array alone, and what one about the array does to them depends on
  nothing else;
* `analyze_arrays_apart` : so it holds of whole analyses.
-/

namespace ArrayFlow

open DefUse

/-! ## statements about an array -/

/-- The statement, if it is about the array, and else one that does nothing in its place. -/
def Statement.only (a : String) (stmt : Statement) : Statement :=
  if stmt.action.base? = some a then stmt else { stmt with action := .other }

namespace Statement

variable (a : String) (stmt : Statement)

theorem id_only : (stmt.only a).id = stmt.id := by
  unfold only
  split
  · rfl
  · rfl

theorem line_only : (stmt.only a).line = stmt.line := by
  unfold only
  split
  · rfl
  · rfl

end Statement

namespace Procedure

/-- The procedure in which statements about other arrays do nothing. -/
def only (a : String) (p : Procedure) : Procedure :=
  { p with blocks := p.blocks.map fun k =>
    { k with statements := k.statements.map (Statement.only a) } }

/-- Is a statement of this name about the array? -/
def touches (p : Procedure) (a : String) (σ : StmtId) : Bool :=
  p.blockIds.any fun b => (p.statementsOf b).any fun stmt => stmt.id == σ &&
    stmt.action.base? == some a

/-- Is the finding one about a dangling use of the array? -/
def reportsUse (p : Procedure) (a : String) (d : Diagnostic) : Bool :=
  d.kind == .danglingUse && d.stmt.any (p.touches a)

variable {p : Procedure} {a c : String} {σ : StmtId} {b : BlockId} {stmt : Statement}

theorem touches_iff : p.touches a σ = true ↔ ∃ b, ∃ stmt ∈ p.statementsOf b, stmt.id = σ ∧
    stmt.action.base? = some a := by
  simp only [touches, List.any_eq_true, Bool.and_eq_true, beq_iff_eq]
  constructor
  · rintro ⟨b, -, hstmt⟩
    exact ⟨b, hstmt⟩
  · rintro ⟨b, stmt, hmem, hstmt⟩
    obtain ⟨k, hk, -⟩ := mem_statementsOf.1 hmem
    exact ⟨b, mem_blockIds_of_block? hk, stmt, hmem, hstmt⟩

theorem touches_of_mem (hmem : stmt ∈ p.statementsOf b) (hbase : stmt.action.base? = some a) :
    p.touches a stmt.id = true :=
  touches_iff.2 ⟨b, stmt, hmem, rfl, hbase⟩

/-- A name belongs to one statement, which is about one array. -/
theorem WellFormed.touches_unique (hp : p.WellFormed) (ha : p.touches a σ = true)
    (hc : p.touches c σ = true) : a = c := by
  obtain ⟨b, stmt, hmem, rfl, hbase⟩ := touches_iff.1 ha
  obtain ⟨b', stmt', hmem', hid, hbase'⟩ := touches_iff.1 hc
  obtain ⟨-, rfl⟩ := hp.stmt_inj hmem' hmem hid
  exact Option.some.inj (hbase.symm.trans hbase')

theorem WellFormed.not_touches (hp : p.WellFormed) (hmem : stmt ∈ p.statementsOf b)
    (hbase : stmt.action.base? = some c) (hne : c ≠ a) : p.touches a stmt.id = false := by
  by_contra h
  exact hne (hp.touches_unique (touches_of_mem hmem hbase) (by simpa using h))

theorem aligned_only (a : String) (p : Procedure) :
    p.Aligned (fun stmts stmts' => stmts' = stmts.map (Statement.only a)) (p.only a) where
  entry := rfl
  loopExits := rfl
  blocks := List.forall₂_map_right_iff.2 (List.forall₂_same.2 fun _ _ => ⟨rfl, rfl, rfl, rfl⟩)

theorem statementsOf_only (a : String) (p : Procedure) (b : BlockId) :
    (p.only a).statementsOf b = (p.statementsOf b).map (Statement.only a) :=
    (aligned_only a p).statementsOf rfl b

theorem sameControl_only (a : String) (p : Procedure) : p.SameControl (p.only a) := by
  refine (aligned_only a p).sameControl ?_
  rintro stmts - rfl
  rw [List.head?_map, Option.map_map]
  exact congrArg (Option.map · stmts.head?) (funext (Statement.id_only a))

theorem headLine_only (a : String) (p : Procedure) (b : BlockId) :
    (p.only a).headLine b = p.headLine b := by
  refine (aligned_only a p).headLine rfl ?_ b
  rintro stmts - rfl
  rw [List.head?_map, Option.map_map]
  exact congrArg (Option.map · stmts.head?) (funext (Statement.line_only a))

end Procedure

/-! ## facts about an array -/

def DefUse.Key.isOf (a : String) (k : Key) : Bool := k.base == a

/-- What facts say of one array. -/
structure ArrayFacts where
  /-- What a processed block binds the array to. -/
  bindings : BlockId → Option (Option Version)
  chain : List Record
  graph : Graph
  falsePhis : List FalsePhi
  dangling : List Diagnostic

namespace Facts

/-- What the facts say of one array. -/
def about (p : Procedure) (a : String) (f : Facts) : ArrayFacts where
  bindings b := f.exposed[b]?.map (·[a]?)
  chain := f.history.chain a
  graph := f.graph.part (Key.isOf a)
  falsePhis := f.falsePhis.filter (·.base == a)
  dangling := f.diagnostics.filter (p.reportsUse a)

variable {p : Procedure} {a c : String} {f g : Facts} {n : Node} {r : Record} {d : Diagnostic}

theorem about_define_record (hr : f.graph.InRange) (hn : n.base = a) :
    ((f.record a r).define n).about p a =
      { f.about p a with chain := (f.about p a).chain ++ [r], graph :=
      (f.about p a).graph.push n } := by
  have hkey : Key.isOf a n.key = true := by simp [Key.isOf, Node.key, hn]
  have hchain : (f.history.record a r).chain a = f.history.chain a ++ [r] := by
    simp [History.record, History.chain]
  rw [about, define, Graph.addDef, record, hchain, Graph.part_push hr hkey]
  rfl

theorem about_define_congr (h : f.about p a = g.about p a) (hrf : f.graph.InRange)
    (hrg : g.graph.InRange) (hn : n.base = a) :
    ((f.record a r).define n).about p a = ((g.record a r).define n).about p a := by
  rw [about_define_record hrf hn, about_define_record hrg hn, h]

theorem about_define_record_of_ne (hr : f.graph.InRange) (hc : c ≠ a) (hn : n.base = c) :
    ((f.record c r).define n).about p a = f.about p a := by
  have hkey : Key.isOf a n.key = false := by simp [Key.isOf, Node.key, hn, hc]
  have hchain : (f.history.record c r).chain a = f.history.chain a := by
    simp [History.record, History.chain, Std.ExtTreeMap.getElem?_insert, hc]
  rw [about, define, Graph.addDef, record, hchain, Graph.part_push_of_not hr hkey]
  rfl

theorem about_falsePhi (φ : FalsePhi) : { f with falsePhis := f.falsePhis ++ [φ] }.about p a =
    { f.about p a with falsePhis := (f.about p a).falsePhis ++ [φ].filter (·.base == a) } := by
  rw [about, List.filter_append]
  rfl

theorem about_report : (f.report d).about p a =
    { f.about p a with dangling := (f.about p a).dangling ++ [d].filter (p.reportsUse a) } := by
  rw [about, report, List.filter_append]
  rfl

theorem about_report_of_not (hd : p.reportsUse a d = false) :
    (f.report d).about p a = f.about p a := by
  rw [about_report, List.filter_cons_of_neg (by simp [hd]), List.filter_nil, List.append_nil]

end Facts

/-! ## edges of one array -/

/-- Edges join nodes of one array, and end at statements that are about it. -/
structure DefUse.Graph.Apart (p : Procedure) (g : Graph) : Prop where
  inRange : g.InRange
  edges : ∀ e ∈ g.edges, ∃ d u σ, g.nodes[e.source]? = some d ∧ g.nodes[e.target]? = some u ∧
    d.base = u.base ∧
    e.key.target = .stmt σ ∧ p.touches u.base σ = true

namespace DefUse.Graph.Apart

variable {p : Procedure} {g : Graph} {n : Node} {σ : StmtId}

theorem empty (keepsRejected : Bool) : Apart p (.empty keepsRejected) where
  inRange := .empty keepsRejected
  edges := by simp [Graph.empty]

theorem push (h : g.Apart p) (n : Node) : (g.push n).Apart p where
  inRange := h.inRange.push n
  edges e he := by
    obtain ⟨d, u, σ, hd, hu, hrest⟩ := h.edges e he
    obtain ⟨hsource, htarget⟩ := h.inRange.edges e he
    refine ⟨d, u, σ, ?_, ?_, hrest⟩
    · rw [getElem?_push_nodes, if_neg (Nat.ne_of_lt hsource), hd]
    · rw [getElem?_push_nodes, if_neg (Nat.ne_of_lt htarget), hu]

theorem addUse (h : g.Apart p) (hn : n.role = .uses) (hstmt : n.stmt = some σ)
    (hσ : p.touches n.base σ = true) :
    (g.addUse n).2.Apart p := by
  have hrange := h.inRange.addUse hn
  have hused := addUse_used (g := g) hn
  generalize (g.addUse n).1 = result, (g.addUse n).2 = g' at hused hrange ⊢
  refine ⟨hrange, fun e he => ?_⟩
  cases hused with
  | dangling => exact (h.push n).edges e he
  | @joined d i r hd hk hr hnone =>
    rcases Array.mem_push.1 he with he | rfl
    · exact (h.push n).edges e he
    · have hlt := (Array.getElem?_eq_some_iff.1 hd).1
      refine ⟨d, n, σ, ?_, ?_, congrArg Key.base hk, ?_, hσ⟩
      · exact (getElem?_push_nodes g n i).trans ((if_neg (Nat.ne_of_lt hlt)).trans hd)
      · exact (getElem?_push_nodes g n _).trans (if_pos rfl)
      · show Site.of n = _
        rw [Site.of, hstmt]
  | swallowed => exact (h.push n).edges e he
  | rejected => exact (h.push n).edges e he
  | dropped => exact (h.push n).edges e he

theorem enlarged {g' : Graph} (h : g.Apart p) (hg : g.Enlarged g') : g'.Apart p := by
  induction hg with
  | refl => exact h
  | tail _ hc ih =>
    obtain ⟨n, -, rfl⟩ := hc
    exact ih.push n

/-- An edge that ends where a use stands is an edge of its array. -/
theorem isKeptEdge (hp : p.WellFormed) (h : g.Apart p) (hstmt : n.stmt = some σ)
    (hσ : p.touches n.base σ = true) {e : Edge} (he : e ∈ g.edges) (hkey : e.key.target = .of n) :
    g.isKeptEdge (Key.isOf n.base) e = true := by
  obtain ⟨d, u, τ, hd, hu, hbase, htarget, hτ⟩ := h.edges e he
  have hsame : τ = σ := by
    rw [htarget, Site.of, hstmt] at hkey
    exact Site.stmt.inj hkey
  subst hsame
  have hub : u.base = n.base := hp.touches_unique hτ hσ
  rw [Graph.isKeptEdge, Bool.and_eq_true, isKept_iff, isKept_iff]
  refine ⟨⟨d, hd, ?_⟩, u, hu, ?_⟩
  · simp [Key.isOf, Node.key, hbase, hub]
  · simp [Key.isOf, Node.key, hub]

end DefUse.Graph.Apart

/-! ## statements -/

namespace Transfer

variable {p : Procedure} {s : Settings} {a : String} {b : BlockId} {stmt : Statement} {x : Access}
  {t t' u u' : Bindings} {f f' g g' : Facts}

theorem statement_apart (hmem : stmt ∈ p.statementsOf b)
    (hr : ∀ source target, stmt.action ≠ .rename source target) (hg : f.graph.Apart p)
    (h : statement s b t f stmt = .ok (t', f')) : f'.graph.Apart p := by
  cases statement_effect h with
  | write | create => exact hg.push _
  | used hact | dangling hact =>
    refine hg.addUse rfl rfl (Procedure.touches_of_mem hmem ?_)
    rw [hact]
    rfl
  | missed | other => exact hg
  | unmoved hact | moved hact | redefined hact => exact absurd hact (hr _ _)

theorem read_elsewhere (hp : p.WellFormed) (hmem : stmt ∈ p.statementsOf b)
    (hact : stmt.action = .read x) (hne : x.base ≠ a) (hg : f.graph.Apart p)
    (h : read s b stmt x t f = .ok (t', f')) : f'.about p a = f.about p a := by
  have hsilent : p.touches a stmt.id = false := hp.not_touches hmem (by rw [hact]; rfl) hne
  have hreport : ∀ base version, p.reportsUse a
      (.ofFault (.danglingUse base version (some stmt.id) b)) = false := by
    intro base version
    simp [Procedure.reportsUse, Diagnostic.ofFault, hsilent]
  cases hv : t[x.base]? with
  | none =>
    obtain ⟨-, rfl⟩ := read_unbound hv h
    exact Facts.about_report_of_not (hreport _ _)
  | some v =>
    have hgraph : (f.graph.addUse (.ofStatement .uses stmt x.base v.markRead x.index b)).2.part
      (Key.isOf a) =
        f.graph.part (Key.isOf a) :=
      Graph.part_addUse_of_not hg.inRange rfl (by simp [Key.isOf, Node.key, Node.ofStatement, hne])
    have habout := congrArg (fun graph => { f.about p a with graph := graph }) hgraph
    obtain ⟨-, ⟨e, -, rfl⟩ | ⟨fault, hfault, rfl⟩⟩ := read_bound hv h
    · exact habout
    · obtain ⟨-, rfl⟩ := (Graph.addUse_eq_error rfl).1 hfault
      exact (Facts.about_report_of_not (hreport _ _)).trans habout

theorem create_about (base : String) :
    (create b stmt base t f).2.about p a =
      ((f.record base (.of (.created b stmt.id stmt.line) .create (some stmt.id))).define
        (.wholeArray stmt base (.created b stmt.id stmt.line) b)).about p a := rfl

/-- A statement about another array leaves the facts about an array alone. -/
theorem statement_elsewhere (hp : p.WellFormed) (hmem : stmt ∈ p.statementsOf b)
    (hr : ∀ source target, stmt.action ≠ .rename source target) (hbase : stmt.action.base? ≠ some a)
    (hg : f.graph.Apart p) (h : statement s b t f stmt = .ok (t', f')) :
    t'[a]? = t[a]? ∧ f'.about p a = f.about p a := by
  have hbindings : t'[a]? = t[a]? := by
    rw [(statement_eq_ok h).1]
    exact getElem?_rebind_of_ne hr hbase
  refine ⟨hbindings, ?_⟩
  have hne : ∀ {base}, stmt.action.base? = some base → base ≠ a := fun hb heq => hbase (heq ▸ hb)
  cases statement_acts s b stmt with
  | write hact heq =>
    rw [heq] at h
    obtain ⟨v, -, -, rfl⟩ := write_eq_ok h
    exact Facts.about_define_record_of_ne hg.inRange (hne (by rw [hact]; rfl)) rfl
  | read hact heq =>
    rw [heq] at h
    exact read_elsewhere hp hmem hact (hne (by rw [hact]; rfl)) hg h
  | create hact heq =>
    rw [heq] at h
    obtain rfl := congrArg Prod.snd (Except.ok.inj h)
    rw [create_about]
    exact Facts.about_define_record_of_ne hg.inRange (hne (by rw [hact]; rfl)) rfl
  | rename hact => exact absurd hact (hr _ _)
  | other hact heq =>
    rw [heq] at h
    cases h
    rfl

/-- What a statement about an array binds it to depends on what it was bound to. -/
theorem getElem?_rebind_congr (hr : ∀ source target, stmt.action ≠ .rename source target)
    (hbase : stmt.action.base? = some a) (ht : t[a]? = u[a]?) :
    (rebind b t stmt)[a]? = (rebind b u stmt)[a]? := by
  unfold rebind
  cases hact : stmt.action with
  | write x =>
    rw [hact] at hbase
    cases hbase
    dsimp only
    rw [ht]
    split
    · simp
    · simp
  | read x =>
    rw [hact] at hbase
    cases hbase
    dsimp only
    rw [ht]
    split
    · simp
    · rw [ht]
  | create base =>
    rw [hact] at hbase
    cases hbase
    simp
  | rename source target => exact absurd hact (hr source target)
  | other =>
    rw [hact] at hbase
    cases hbase

/-- The part of the graph behind a use of the array, and whether the use dangles, depend on the part
before it. -/
theorem read_there (hp : p.WellFormed) (hmem : stmt ∈ p.statementsOf b)
    (hact : stmt.action = .read x) (ht : t[x.base]? = u[x.base]?)
    (hf : f.about p x.base = g.about p x.base) (hgf : f.graph.Apart p) (hgg : g.graph.Apart p)
    (h : read s b stmt x t f = .ok (t', f')) (k : read s b stmt x u g = .ok (u', g')) :
    f'.about p x.base = g'.about p x.base := by
  have htouches : p.touches x.base stmt.id = true :=
    Procedure.touches_of_mem hmem (by rw [hact]; rfl)
  cases hv : t[x.base]? with
  | none =>
    obtain ⟨-, rfl⟩ := read_unbound hv h
    obtain ⟨-, rfl⟩ := read_unbound (ht.symm.trans hv) k
    rw [Facts.about_report, Facts.about_report, hf]
  | some v =>
    let n := Node.ofStatement .uses stmt x.base v.markRead x.index b
    have hkey : Key.isOf x.base n.key = true := by simp [n, Key.isOf, Node.key, Node.ofStatement]
    have hopp : Key.isOf x.base n.key.opposite = true := hkey
    have hparts : f.graph.part (Key.isOf x.base) = g.graph.part (Key.isOf x.base) :=
      congrArg ArrayFacts.graph hf
    have hgraph : (f.graph.addUse n).2.part (Key.isOf x.base) =
        (g.graph.addUse n).2.part (Key.isOf x.base) := by
      rw [Graph.part_addUse hgf.inRange hkey hopp fun _ he => hgf.isKeptEdge hp rfl htouches he,
        Graph.part_addUse hgg.inRange hkey hopp fun _ he => hgg.isKeptEdge hp rfl htouches he,
        hparts]
    have herror : ∀ fault, (f.graph.addUse n).1 = .error fault ↔
        (g.graph.addUse n).1 = .error fault := by
      intro fault
      rw [← Graph.addUse_part_eq_error rfl hopp,
        ← Graph.addUse_part_eq_error (g := g.graph) rfl hopp, hparts]
    have habout : { f with graph := (f.graph.addUse n).2 }.about p x.base =
        { g with graph := (g.graph.addUse n).2 }.about p x.base := by
      show { f.about p x.base with graph := (f.graph.addUse n).2.part (Key.isOf x.base) } =
        { g.about p x.base with graph := (g.graph.addUse n).2.part (Key.isOf x.base) }
      rw [hf, hgraph]
    obtain ⟨-, hf'⟩ := read_bound hv h
    obtain ⟨-, hg'⟩ := read_bound (ht.symm.trans hv) k
    rcases hf' with ⟨e, hok, rfl⟩ | ⟨fault, hfault, rfl⟩
    · rcases hg' with ⟨e', -, rfl⟩ | ⟨fault, hfault, rfl⟩
      · exact habout
      · cases hok.symm.trans ((herror fault).2 hfault)
    · rcases hg' with ⟨e', hok, rfl⟩ | ⟨fault', hfault', rfl⟩
      · cases hok.symm.trans ((herror fault).1 hfault)
      · cases hfault'.symm.trans ((herror fault).1 hfault)
        rw [Facts.about_report, Facts.about_report, habout]

/-- What a statement about an array does to the facts about it depends on nothing else. -/
theorem statement_there (hp : p.WellFormed) (hmem : stmt ∈ p.statementsOf b)
    (hr : ∀ source target, stmt.action ≠ .rename source target) (hbase : stmt.action.base? = some a)
    (ht : t[a]? = u[a]?) (hf : f.about p a = g.about p a) (hgf : f.graph.Apart p)
    (hgg : g.graph.Apart p) (h : statement s b t f stmt = .ok (t', f'))
    (k : statement s b u g stmt = .ok (u', g')) :
    t'[a]? = u'[a]? ∧ f'.about p a = g'.about p a := by
  have hbindings : t'[a]? = u'[a]? := by
    rw [(statement_eq_ok h).1, (statement_eq_ok k).1]
    exact getElem?_rebind_congr hr hbase ht
  refine ⟨hbindings, ?_⟩
  cases statement_acts s b stmt with
  | write hact heq =>
    rw [heq] at h k
    rw [hact] at hbase
    cases hbase
    obtain ⟨v, -, hv, rfl⟩ := write_eq_ok h
    obtain ⟨w, -, hw, rfl⟩ := write_eq_ok k
    rw [ht, ← hw] at hv
    subst hv
    exact Facts.about_define_congr hf hgf.inRange hgg.inRange rfl
  | read hact heq =>
    rw [heq] at h k
    rw [hact] at hbase
    cases hbase
    exact read_there hp hmem hact ht hf hgf hgg h k
  | create hact heq =>
    rw [heq] at h k
    rw [hact] at hbase
    cases hbase
    obtain rfl := congrArg Prod.snd (Except.ok.inj h)
    obtain rfl := congrArg Prod.snd (Except.ok.inj k)
    rw [create_about, create_about]
    exact Facts.about_define_congr hf hgf.inRange hgg.inRange rfl
  | rename hact => exact absurd hact (hr _ _)
  | other hact =>
    rw [hact] at hbase
    cases hbase

end Transfer

/-- The facts say the same of an array. -/
structure Facts.SameAbout (p : Procedure) (a : String) (f g : Facts) : Prop where
  about : f.about p a = g.about p a
  left : f.graph.Apart p
  right : g.graph.Apart p

namespace Facts.SameAbout

variable {p : Procedure} {a : String} {f g : Facts} {t u : Bindings}

theorem exposed (h : f.SameAbout p a g) (b : BlockId) :
    Option.Rel (fun t u : Bindings => t[a]? = u[a]?) f.exposed[b]? g.exposed[b]? :=
  rel_of_map_eq (congrFun (congrArg ArrayFacts.bindings h.about) b)

theorem expose (h : f.SameAbout p a g) (ht : t[a]? = u[a]?) (b : BlockId) :
    (f.expose b t).SameAbout p a (g.expose b u) := by
  have hbindings : (fun c : BlockId => (f.expose b t).exposed[c]?.map (·[a]?)) =
      fun c : BlockId => (g.expose b u).exposed[c]?.map (·[a]?) := by
    funext c
    rw [Facts.getElem?_expose, Facts.getElem?_expose]
    split
    · exact congrArg some ht
    · exact congrFun (congrArg ArrayFacts.bindings h.about) c
  refine ⟨?_, h.left, h.right⟩
  show { f.about p a with bindings := fun c => (f.expose b t).exposed[c]?.map (·[a]?) } =
    { g.about p a with bindings := fun c => (g.expose b u).exposed[c]?.map (·[a]?) }
  rw [h.about, hbindings]

end Facts.SameAbout

namespace Transfer

variable {p : Procedure} {s : Settings} {a : String} {b : BlockId} {stmt : Statement}
  {t u : Bindings} {f g : Facts}

theorem only_agree (hp : p.WellFormed) (hfree : p.RenameFree) (hs : s.strictUses = false)
    (hmem : stmt ∈ p.statementsOf b) (ht : t[a]? = u[a]?) (h : f.SameAbout p a g) :
    Agree (fun x y : Bindings × Facts => x.1[a]? = y.1[a]? ∧ x.2.SameAbout p a y.2)
      (statement s b t f stmt)
      (statement s b u g (stmt.only a)) := by
  have hr := hfree.statementsOf hmem
  obtain ⟨⟨t₁, f₁⟩, h₁⟩ := statement_lenient (b := b) (t := t) (f := f) hs stmt
  have hleft := statement_apart hmem hr h.left h₁
  rw [h₁]
  by_cases hbase : stmt.action.base? = some a
  · obtain ⟨⟨u₁, g₁⟩, k₁⟩ := statement_lenient (b := b) (t := u) (f := g) hs stmt
    obtain ⟨ht₁, hf₁⟩ := statement_there hp hmem hr hbase ht h.about h.left h.right h₁ k₁
    rw [Statement.only, if_pos hbase, k₁]
    exact .ok ⟨ht₁, hf₁, hleft, statement_apart hmem hr h.right k₁⟩
  · obtain ⟨ht₁, hf₁⟩ := statement_elsewhere hp hmem hr hbase h.left h₁
    rw [Statement.only, if_neg hbase]
    exact .ok ⟨ht₁.trans ht, hf₁.trans h.about, hleft, h.right⟩

/-- A block does the same to an array if the other arrays are left out. -/
theorem process_only (hp : p.WellFormed) (hfree : p.RenameFree) (hs : s.strictUses = false)
    (ht : t[a]? = u[a]?) (h : f.SameAbout p a g) :
    Agree (Facts.SameAbout p a) (process s b p t f) (process s b (p.only a) u g) := by
  have hstmts : List.Forall₂ (fun x y => x ∈ p.statementsOf b ∧ y = x.only a) (p.statementsOf b)
      ((p.only a).statementsOf b) := by
    rw [Procedure.statementsOf_only]
    exact List.forall₂_map_right_iff.2 (List.forall₂_same.2 fun x hx => ⟨hx, rfl⟩)
  have hstatements : Agree (fun x y : Bindings × Facts => x.1[a]? = y.1[a]? ∧ x.2.SameAbout p a y.2)
      (statements s b (p.statementsOf b) t f) (statements s b ((p.only a).statementsOf b) u g) := by
    refine Agree.foldlM_forall₂ hstmts ⟨ht, h⟩ ?_
    rintro ⟨t, f⟩ ⟨u, g⟩ stmt - ⟨ht, h⟩ ⟨hmem, rfl⟩
    exact only_agree hp hfree hs hmem ht h
  exact hstatements.bind fun x y hxy => .ok (hxy.2.expose hxy.1 b)

end Transfer

/-! ## merges -/

namespace Merge

variable {p : Procedure} {s : Settings} {a c : String} {b : BlockId} {line : Nat}
  {preds : List BlockId} {tables tables' : List Bindings} {t u : Bindings} {f g : Facts}

/-- A name that is merged leaves the other ones alone. -/
theorem name_elsewhere (line : Nat) (preds : List BlockId) (tables : List Bindings)
    (hr : f.graph.InRange) (hc : c ≠ a) :
    (name s b line preds tables t f c).1[a]? = t[a]? ∧
    (name s b line preds tables t f c).2.about p a = f.about p a := by
  have hinsert : ∀ v : Version, (t.insert c v)[a]? = t[a]? :=
    fun v => by simp [Std.ExtTreeMap.getElem?_insert, hc]
  unfold name
  dsimp only
  split
  · refine ⟨rfl, ?_⟩
    rw [Facts.about_falsePhi, List.filter_cons_of_neg (by simpa using hc), List.filter_nil,
      List.append_nil]
  · split
    · split
      · exact ⟨hinsert _, rfl⟩
      · exact ⟨rfl, rfl⟩
    · split
      · exact ⟨hinsert _, Facts.about_define_record_of_ne hr hc rfl⟩
      · exact ⟨rfl, rfl⟩

theorem names_elsewhere {bases : List String} (line : Nat) (preds : List BlockId)
    (tables : List Bindings) (hr : f.graph.InRange) (ha : a ∉ bases) :
    let x := bases.foldl (fun (t, f) base => name s b line preds tables t f base) (t, f)
    x.1[a]? = t[a]? ∧ x.2.about p a = f.about p a := by
  induction bases generalizing t f with
  | nil => exact ⟨rfl, rfl⟩
  | cons c bases ih =>
    obtain ⟨hc, hrest⟩ := List.ne_and_not_mem_of_not_mem_cons ha
    obtain ⟨ht, hf⟩ :=
      name_elsewhere (p := p) (s := s) (b := b) (t := t) line preds tables hr (Ne.symm hc)
    obtain ⟨ht', hf'⟩ := ih (t := (name s b line preds tables t f c).1)
      (hr.changes (name_enlarged preds tables c).changes) hrest
    exact ⟨ht'.trans ht, hf'.trans hf⟩

theorem name_there (line : Nat) (preds : List BlockId)
    (htables : List.Forall₂ (fun t u : Bindings => t[a]? = u[a]?) tables tables')
    (ht : t[a]? = u[a]?) (hf : f.about p a = g.about p a) (hrf : f.graph.InRange)
    (hrg : g.graph.InRange) :
    let x := name s b line preds tables t f a
    let y := name s b line preds tables' u g a
    x.1[a]? = y.1[a]? ∧ x.2.about p a = y.2.about p a := by
  have hinputs : (tables.filterMap fun t => t[a]?) = tables'.filterMap fun t => t[a]? := by
    induction htables with
    | nil => rfl
    | cons h _ ih => rw [List.filterMap_cons, List.filterMap_cons, h, ih]
  have hcontributors : contributors preds tables' a = contributors preds tables a := by
    refine contributors_congr (htables.imp fun t u h => ?_)
    rw [Std.ExtTreeMap.contains_eq_isSome_getElem?, Std.ExtTreeMap.contains_eq_isSome_getElem?, h]
  unfold name
  dsimp only
  rw [hinputs, htables.length_eq, hcontributors]
  generalize (tables'.filterMap fun t => t[a]?) = inputs
  split
  · refine ⟨ht, ?_⟩
    rw [Facts.about_falsePhi, Facts.about_falsePhi, hf]
  · split
    · split
      · exact ⟨by simp, hf⟩
      · exact ⟨ht, hf⟩
    · split
      · exact ⟨by simp, Facts.about_define_congr hf hrf hrg rfl⟩
      · exact ⟨ht, hf⟩

/-- Where several names are merged, an array gets what its own name gets. -/
theorem names_there {bases : List String} (line : Nat) (preds : List BlockId)
    (tables : List Bindings) (hr : f.graph.InRange) (hnodup : bases.Nodup) (ha : a ∈ bases) :
    ∃ t₁ f₁, t₁[a]? = t[a]? ∧ f₁.about p a = f.about p a ∧ f₁.graph.InRange ∧
      let x := bases.foldl (fun (t, f) base => name s b line preds tables t f base) (t, f)
      x.1[a]? = (name s b line preds tables t₁ f₁ a).1[a]? ∧
        x.2.about p a = (name s b line preds tables t₁ f₁ a).2.about p a := by
  obtain ⟨before, after, rfl⟩ := List.append_of_mem ha
  have hother := (List.nodup_cons.1 (List.nodup_middle.1 hnodup)).1
  rw [List.mem_append, not_or] at hother
  let x₁ := before.foldl (fun (t, f) base => name s b line preds tables t f base) (t, f)
  have hr₁ : x₁.2.graph.InRange := hr.changes (names_enlarged preds tables before).changes
  obtain ⟨ht₁, hf₁⟩ :=
    names_elsewhere (p := p) (s := s) (b := b) (t := t) line preds tables hr hother.1
  refine ⟨x₁.1, x₁.2, ht₁, hf₁, hr₁, ?_⟩
  rw [List.foldl_append, List.foldl_cons]
  exact names_elsewhere line preds tables
    (hr₁.changes (name_enlarged preds tables a).changes) hother.2

/-- Tables that bind an array to the same versions merge to the same of it. -/
theorem names_agree (htables : List.Forall₂ (fun t u : Bindings => t[a]? = u[a]?) tables tables')
    (h : f.SameAbout p a g) :
    let x := (names tables).foldl (fun (t, f) base => name s b line preds tables t f base) (∅, f)
    let y := (names tables').foldl (fun (t, f) base => name s b line preds tables' t f base) (∅, g)
    x.1[a]? = y.1[a]? ∧ x.2.SameAbout p a y.2 := by
  intro x y
  have hbound : a ∈ names tables ↔ a ∈ names tables' := by
    rw [mem_names, mem_names]
    induction htables with
    | nil => exact .rfl
    | cons hu _ ih =>
      simp only [List.mem_cons, exists_eq_or_imp, ih]
      rw [Std.ExtTreeMap.mem_iff_isSome_getElem?, Std.ExtTreeMap.mem_iff_isSome_getElem?, hu]
  have hboth : x.1[a]? = y.1[a]? ∧ x.2.about p a = y.2.about p a := by
    by_cases ha : a ∈ names tables
    · obtain ⟨t₁, f₁, ht₁, hf₁, hr₁, hx, hx'⟩ :=
        names_there (p := p) (s := s) (b := b) (t := ∅) line preds tables
        h.left.inRange (names_nodup tables) ha
      obtain ⟨u₁, g₁, hu₁, hg₁, hq₁, hy, hy'⟩ :=
        names_there (p := p) (s := s) (b := b) (t := ∅) line preds tables'
        h.right.inRange (names_nodup tables') (hbound.1 ha)
      obtain ⟨hxy, hxy'⟩ := name_there (s := s) (b := b) line preds htables (ht₁.trans hu₁.symm)
        ((hf₁.trans h.about).trans hg₁.symm) hr₁ hq₁
      exact ⟨(hx.trans hxy).trans hy.symm, (hx'.trans hxy').trans hy'.symm⟩
    · obtain ⟨hx, hx'⟩ :=
        names_elsewhere (p := p) (s := s) (b := b) (t := ∅) line preds tables h.left.inRange ha
      obtain ⟨hy, hy'⟩ :=
        names_elsewhere (p := p) (s := s) (b := b) (t := ∅) line preds tables' h.right.inRange
        (fun hmem => ha (hbound.2 hmem))
      exact ⟨hx.trans hy.symm, (hx'.trans h.about).trans hy'.symm⟩
  refine ⟨hboth.1, hboth.2, ?_, ?_⟩
  · exact h.left.enlarged (names_enlarged preds tables _)
  · exact h.right.enlarged (names_enlarged preds tables' _)

theorem predecessors_agree (h : f.SameAbout p a g) :
    Agree (fun x y : Bindings × Facts => x.1[a]? = y.1[a]? ∧ x.2.SameAbout p a y.2)
      (predecessors s f b line preds)
      (predecessors s g b line preds) := by
  refine (Agree.mapM fun c _ => Exposed.get_agree (h.exposed c)).bind fun tables tables' htables =>
    ?_
  cases htables with
  | nil => exact .ok ⟨rfl, h⟩
  | cons ht hrest =>
    cases hrest with
    | nil => exact .ok ⟨ht, h⟩
    | cons hu hrest => exact .ok (names_agree (.cons ht (.cons hu hrest)) h)

end Merge

/-! ## both analyses -/

/-- The analyses with and without the other arrays go in lockstep. -/
theorem lockstep_only {p : Procedure} {s : Settings} (a : String) (hp : p.WellFormed)
    (hfree : p.RenameFree) (hs : s.strictUses = false) :
    Lockstep p (p.only a) s s (Facts.SameAbout p a) fun t u => t[a]? = u[a]? where
  predecessors := (p.sameControl_only a).predecessors
  successors := (p.sameControl_only a).successors
  isLoopHeader := (p.sameControl_only a).isLoopHeader
  isLoopExit := (p.sameControl_only a).isLoopExit
  maxIterations := rfl
  empty := rfl
  exposed hf := hf.exposed
  flowTo hf := ⟨hf.about, hf.left, hf.right⟩
  expose hf ht := hf.expose ht _
  report hf := ⟨by rw [Facts.about_report, Facts.about_report, hf.about], hf.left, hf.right⟩
  process hf ht := Transfer.process_only hp hfree hs ht hf
  merge hf := by
    rw [Procedure.headLine_only]
    exact Merge.predecessors_agree hf

theorem DefUse.Graph.Respectful.rejected_part {g : Graph} (h : g.Respectful) (a : String) :
    (g.part (Key.isOf a)).rejected = g.rejected.filter (·.target.base == a) := by
  refine List.filter_congr fun x hx => ?_
  obtain ⟨-, -, hbase, -⟩ := h.rejected x hx
  rw [Graph.isKeptPair, Key.isOf, Key.isOf, hbase, Bool.and_self]

theorem DefUse.Graph.filterMap_nodesOf (g : Graph) (a : String) :
    (g.nodesOf a).filterMap (g.nodes[·]?) = (g.part (Key.isOf a)).nodes.toList :=
  g.filterMap_positions (Key.isOf a)

/-- Arrays are analysed apart. In a procedure without renames, the analysis in which all statements
about other arrays than `a` do nothing ends with the same fault, or it ends well too; then it says
of `a` what the analysis of the whole procedure says: the same bindings, chain and nodes, the same
edges among these nodes, and the same rejected pairs, false phis and dangling uses, all in the same
order. -/
theorem analyze_arrays_apart {d : Draft} {p : Procedure} {s : Settings} (hb : d.build = .ok p)
    (hfree : p.RenameFree) (hs : s.strictUses = false) (a : String) :
    (∃ fault, analyze p s = .error fault ∧ analyze (p.only a) s = .error fault) ∨
    ∃ r r', analyze p s = .ok r ∧ analyze (p.only a) s = .ok r' ∧
      (∀ b : BlockId, r'.facts.exposed[b]?.map (·[a]?) = r.facts.exposed[b]?.map (·[a]?)) ∧
      r'.facts.history.chain a = r.facts.history.chain a ∧
      (r'.facts.graph.nodesOf a).filterMap (r'.facts.graph.nodes[·]?) =
        (r.facts.graph.nodesOf a).filterMap (r.facts.graph.nodes[·]?) ∧
      (r'.facts.graph.part (Key.isOf a)).edges = (r.facts.graph.part (Key.isOf a)).edges ∧
      r'.facts.graph.rejected.filter (·.target.base == a) =
        r.facts.graph.rejected.filter (·.target.base == a) ∧
      r'.facts.falsePhis.filter (·.base == a) = r.facts.falsePhis.filter (·.base == a) ∧
      r'.facts.diagnostics.filter (p.reportsUse a) =
        r.facts.diagnostics.filter (p.reportsUse a) := by
  have hstart : (Facts.start s).SameAbout p a (.start s) := ⟨rfl, .empty _, .empty _⟩
  have hlockstep := lockstep_only (s := s) a (.of_build hb) hfree hs
  have hagree := hlockstep.reports rfl ((p.sameControl_only a).contains p.entry) hstart
  rcases hagree.cases_eq with hfault | ⟨r, r', hr, hr', hsame⟩
  · exact .inl hfault
  · have habout := hsame.about.symm
    have hparts : r'.facts.graph.part (Key.isOf a) = r.facts.graph.part (Key.isOf a) :=
      congrArg ArrayFacts.graph habout
    refine .inr ⟨r, r', hr, hr', congrFun (congrArg ArrayFacts.bindings habout),
      congrArg ArrayFacts.chain habout, ?_, ?_, ?_, congrArg ArrayFacts.falsePhis habout,
      congrArg ArrayFacts.dangling habout⟩
    · rw [Graph.filterMap_nodesOf, Graph.filterMap_nodesOf, hparts]
    · rw [hparts]
    · rw [← (Report.respectful hr').rejected_part, ← (Report.respectful hr).rejected_part, hparts]

/-- Two arrays in turns. Both are read before they exist, written on branches, read at the subscript
that was written and at another one, merged, and read where one way into the block does not bind
them. -/
def inTurns : Draft where
  name := "in turns"
  blocks := [
    (⟨0⟩, [⟨⟨0⟩, 1, "x = a[i]", .read ⟨"a", .expr "i"⟩⟩,
      ⟨⟨1⟩, 2, "y = b[i]", .read ⟨"b", .expr "i"⟩⟩]),
    (⟨1⟩, [⟨⟨2⟩, 3, "new b", .create "b"⟩, ⟨⟨3⟩, 4, "a[i] = 0", .write ⟨"a", .expr "i"⟩⟩]),
    (⟨2⟩, [⟨⟨4⟩, 5, "b[i] = 0", .write ⟨"b", .expr "i"⟩⟩,
      ⟨⟨5⟩, 6, "x = a[i]", .read ⟨"a", .expr "i"⟩⟩, ⟨⟨6⟩, 7, "x = a[j]", .read ⟨"a", .expr "j"⟩⟩]),
    (⟨3⟩, [⟨⟨7⟩, 8, "a[j] = 0", .write ⟨"a", .expr "j"⟩⟩,
      ⟨⟨8⟩, 9, "y = b[j]", .read ⟨"b", .expr "j"⟩⟩]),
    (⟨4⟩, [⟨⟨9⟩, 10, "y = b[k]", .read ⟨"b", .expr "k"⟩⟩,
      ⟨⟨10⟩, 11, "x = a[k]", .read ⟨"a", .expr "k"⟩⟩]),
    (⟨5⟩, [⟨⟨11⟩, 12, "x = a[i]", .read ⟨"a", .expr "i"⟩⟩])]
  edges := [(⟨0⟩, ⟨1⟩), (⟨1⟩, ⟨2⟩), (⟨1⟩, ⟨3⟩), (⟨2⟩, ⟨4⟩), (⟨3⟩, ⟨4⟩), (⟨4⟩, ⟨5⟩), (⟨0⟩, ⟨5⟩)]
  loops := []

theorem analyze_arrays_apart_inTurns :
    ∃ p r r', inTurns.build = .ok p ∧ p.RenameFree ∧ analyze p {} = .ok r ∧
      analyze (p.only "a") {} = .ok r' ∧
      r.facts.graph.nodes.size = 11 ∧ r.facts.graph.nodesOf "a" = [1, 3, 4, 5, 7, 10] ∧
      (r'.facts.graph.nodesOf "a").filterMap (r'.facts.graph.nodes[·]?) =
        (r.facts.graph.nodesOf "a").filterMap (r.facts.graph.nodes[·]?) ∧
      r.facts.graph.edges.map (fun e => (e.source, e.target)) = #[(1, 3), (8, 9), (7, 10)] ∧
      (r'.facts.graph.part (Key.isOf "a")).edges.map (fun e => (e.source, e.target)) =
        #[(0, 1), (4, 5)] ∧
      (r'.facts.graph.rejected.filter (·.target.base == "a")).map (·.targetStmt) = [some ⟨6⟩] ∧
      r'.facts.falsePhis.filter (·.base == "a") = [⟨⟨5⟩, "a", [⟨4⟩]⟩] ∧
      (r'.facts.diagnostics.filter (p.reportsUse "a")).map (·.stmt) = [some ⟨0⟩, some ⟨11⟩] := by
  obtain ⟨p, r, hb, h, hP⟩ := Draft.check_eq_true (d := inTurns) (s := {})
    (P := fun p r => p.RenameFree ∧ r.facts.graph.nodes.size = 11 ∧
      r.facts.graph.nodesOf "a" = [1, 3, 4, 5, 7, 10] ∧
      r.facts.graph.edges.map (fun e => (e.source, e.target)) = #[(1, 3), (8, 9), (7, 10)] ∧
      (r.facts.graph.part (Key.isOf "a")).edges.map (fun e => (e.source, e.target)) =
      #[(0, 1), (4, 5)] ∧
      (r.facts.graph.rejected.filter (·.target.base == "a")).map (·.targetStmt) = [some ⟨6⟩] ∧
      r.facts.falsePhis.filter (·.base == "a") = [⟨⟨5⟩, "a", [⟨4⟩]⟩] ∧
      (r.facts.diagnostics.filter (p.reportsUse "a")).map (·.stmt) = [some ⟨0⟩, some ⟨11⟩])
      (by decide +kernel)
  obtain ⟨hfree, hsize, hnodes, hedges, hpart, hrejected, hphis, hdangling⟩ := of_decide_eq_true hP
  rcases analyze_arrays_apart (s := {}) hb hfree rfl "a" with
    ⟨fault, herr, -⟩ | ⟨q, r', hq, hr', -, -, hnodes', hpart', hrejected', hphis', hdangling'⟩
  · rw [h] at herr
    cases herr
  · rw [h] at hq
    cases hq
    refine ⟨p, r, r', hb, hfree, h, hr', hsize, hnodes, hnodes', hedges, ?_, ?_, ?_, ?_⟩
    · rw [hpart', hpart]
    · rw [hrejected', hrejected]
    · rw [hphis', hphis]
    · rw [hdangling', hdangling]

end ArrayFlow
