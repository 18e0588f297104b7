import ArrayFlow.Proofs.Reads
import ArrayFlow.Proofs.Edges

/-!
# Every read once

A read leaves one thing behind: an edge into its use, a rejected pair, or a dangling use. Edges are
told apart by the sites they join, and merges and renamed definitions may share a site; but no two
reads do, so that no edge is ever taken for another one.

* `Facts.ledger`        : the reads that edges, rejected pairs and dangling uses are there for;
* `Transfer.statements_ledger` : statements enter their reads in the ledger;
* `Machine.Balanced`    : the ledger lists the reads of the processed blocks, each once;
* `Reaches.balanced`    : it does at every time, by induction on the run;
* `analyze_accounts_reads` : what follows for a report.
-/

namespace ArrayFlow

open DefUse

def Action.isRead : Action → Bool
  | read _ => true
  | _ => false

/-- The reads among statements, by their names. -/
def readsOf (stmts : List Statement) : List (Option StmtId) :=
  (stmts.filter (·.action.isRead)).map (some ·.id)

theorem Action.isRead_iff {x : Action} : x.isRead = true ↔ ∃ a, x = .read a := by
  cases x <;> simp [isRead]

theorem readsOf_append (first rest : List Statement) :
    readsOf (first ++ rest) = readsOf first ++ readsOf rest := by
  simp [readsOf]

theorem mem_readsOf {stmts : List Statement} {x : Option StmtId} :
    x ∈ readsOf stmts ↔ ∃ stmt ∈ stmts, stmt.action.isRead = true ∧ some stmt.id = x := by
  simp [readsOf, and_assoc]

theorem readsOf_nodup {stmts : List Statement}
    (h : (stmts.map (·.id)).Nodup) : (readsOf stmts).Nodup := by
  have hsub : ((stmts.filter (·.action.isRead)).map (·.id)).Sublist (stmts.map (·.id)) :=
    List.filter_sublist.map _
  have hmap : readsOf stmts =
    ((stmts.filter (·.action.isRead)).map (·.id)).map some := by simp [readsOf]
  rw [hmap]
  exact (h.sublist hsub).map (Option.some_injective _)

def DefUse.Site.stmt? : Site → Option StmtId
  | stmt σ => some σ
  | synthetic _ => none

theorem DefUse.Site.stmt?_of (n : Node) : (Site.of n).stmt? = n.stmt := by
  unfold Site.of
  split
  · rename_i h
    rw [h]
    rfl
  · rename_i h
    rw [h]
    rfl

namespace Facts

def danglings (f : Facts) : List Diagnostic := f.diagnostics.filter (·.kind == .danglingUse)

/-- The reads that something is there for: an edge, a rejected pair or a dangling use. -/
def ledger (f : Facts) : List (Option StmtId) :=
  f.graph.edges.toList.map (·.key.target.stmt?) ++
    (f.graph.rejected.map (·.targetStmt) ++ f.danglings.map (·.stmt))

variable {f f' : Facts}

theorem ledger_congr (hg : f'.graph.edges = f.graph.edges ∧ f'.graph.rejected = f.graph.rejected)
    (hd : f'.diagnostics = f.diagnostics) : f'.ledger = f.ledger := by
  simp only [ledger, danglings, hg.1, hg.2, hd]

theorem ledger_append (hg : f'.graph = f.graph) {ds : List Diagnostic}
    (hd : f'.diagnostics = f.diagnostics ++ ds) (hkind : ∀ x ∈ ds, x.kind ≠ .danglingUse) :
    f'.ledger = f.ledger := by
  have hnone : ds.filter (·.kind == .danglingUse) = [] :=
    List.filter_eq_nil_iff.2 (by simpa using hkind)
  simp only [ledger, danglings, hg, hd, List.filter_append, hnone, List.append_nil]

end Facts

/-! ## statements -/

namespace Transfer

variable {s : Settings} {b : BlockId} {t t' : Bindings} {f f' : Facts} {stmt : Statement}

/-- A use whose statement is not in the ledger is entered there, as an edge, a rejected pair or a
dangling use. An edge that it gets is one of its own. -/
theorem addUse_ledger {n : Node} (hn : n.role = .uses) (hkeep : f.graph.keepsRejected = true)
    (hfresh : n.stmt ∉ f.ledger) :
    (∀ e, (f.graph.addUse n).1 = .ok e →
      (Facts.ledger { f with graph := (f.graph.addUse n).2 }).Perm (n.stmt :: f.ledger)) ∧
    (∀ fault, (f.graph.addUse n).1 = .error fault →
      (Facts.ledger (Facts.report { f with graph := (f.graph.addUse n).2 } (.ofFault fault))).Perm
        (n.stmt :: f.ledger)) ∧
    ∀ e, (f.graph.addUse n).1 = .ok (some e) →
      e = f.graph.edges.size ∧ (f.graph.addUse n).2.edges.size = e + 1 := by
  have hused := Graph.addUse_used (g := f.graph) hn
  generalize (f.graph.addUse n).1 = result, (f.graph.addUse n).2 = g' at hused ⊢
  cases hused with
  | dangling =>
    refine ⟨by simp, fun fault hfault => ?_, by simp⟩
    cases hfault
    have hlast : Facts.ledger (Facts.report { f with graph := f.graph.push n }
        (.ofFault (.danglingUse n.base n.version.signature.text n.stmt n.block))) = f.ledger ++
            [n.stmt] := by
      simp [Facts.ledger, Facts.danglings, Facts.report, Diagnostic.ofFault, Graph.push]
    rw [hlast]
    exact List.perm_append_singleton ..
  | @joined d i r hd hk hr he =>
    refine ⟨fun e _ => ?_, by simp, fun e h => ?_⟩
    · have hsite : (EdgeKey.between d n).target.stmt? = n.stmt := Site.stmt?_of n
      simp only [Facts.ledger, Facts.danglings, Graph.push, Array.toList_push, List.map_append,
        List.map_singleton, hsite, List.append_assoc, List.singleton_append]
      exact List.perm_middle
    · cases h
      exact ⟨rfl, Array.size_push ..⟩
  | @swallowed d i e r hd hk hr he =>
    -- the edge that is there already leads to the same statement
    obtain ⟨hlt, hkey, -⟩ := Array.findIdx?_eq_some_iff_getElem.1 he
    refine absurd (List.mem_append_left _ (List.mem_map.2 ⟨f.graph.edges[e], ?_, ?_⟩)) hfresh
    · exact Array.getElem_mem_toList hlt
    · rw [eq_of_beq hkey]
      exact Site.stmt?_of n
  | rejected =>
    refine ⟨fun e _ => ?_, by simp, by simp⟩
    simp only [Facts.ledger, Facts.danglings, Graph.push, List.map_append, List.map_singleton,
      List.append_assoc, List.singleton_append]
    rw [← List.append_assoc, ← List.append_assoc]
    exact List.perm_middle
  | dropped _ _ _ hdrop =>
    rw [hkeep] at hdrop
    cases hdrop

theorem statement_ledger_eq (h : statement s b t f stmt = .ok (t', f'))
    (hread : stmt.action.isRead = false) :
    f'.ledger = f.ledger := by
  cases statement_effect h with
  | write | create | unmoved | moved | redefined | other => rfl
  | missed hact | used hact | dangling hact =>
    rw [hact] at hread
    cases hread

theorem statement_ledger (h : statement s b t f stmt = .ok (t', f'))
    (hkeep : f.graph.keepsRejected = true) (hfresh : some stmt.id ∉ f.ledger) :
    f'.ledger.Perm (readsOf [stmt] ++ f.ledger) := by
  by_cases hread : stmt.action.isRead = true
  · -- a read enters itself
    have hself : readsOf [stmt] ++ f.ledger = some stmt.id :: f.ledger := by simp [readsOf, hread]
    rw [hself]
    cases statement_effect h with
    | @missed a hact hv =>
      have hlast : (f.report (.ofFault (.danglingUse a.base "none" (some stmt.id) b))).ledger =
          f.ledger ++ [some stmt.id] := by
        simp [Facts.ledger, Facts.danglings, Facts.report, Diagnostic.ofFault]
      rw [hlast]
      exact List.perm_append_singleton ..
    | @used a v e hact hv huse =>
      exact (addUse_ledger (n := .ofStatement .uses stmt a.base v.markRead a.index b) rfl hkeep
        hfresh).1 e huse
    | @dangling a v fault hact hv huse =>
      exact (addUse_ledger (n := .ofStatement .uses stmt a.base v.markRead a.index b) rfl hkeep
        hfresh).2.1 fault huse
    | write hact | create hact | unmoved hact | moved hact | redefined hact | other hact =>
      rw [hact] at hread
      cases hread
  · rw [statement_ledger_eq h (by simpa using hread)]
    simp [readsOf, hread]

/-- Statements in a row enter the reads among them, by induction on the row. -/
theorem statements_ledger {stmts : List Statement} (h : statements s b stmts t f = .ok (t', f'))
    (hkeep : f.graph.keepsRejected = true) (hnodup : (stmts.map (·.id)).Nodup)
    (hfresh : ∀ stmt ∈ stmts, some stmt.id ∉ f.ledger) :
    f'.ledger.Perm (readsOf stmts ++ f.ledger) := by
  induction stmts generalizing t f with
  | nil =>
    cases h
    exact .refl _
  | cons stmt rest ih =>
    rw [statements_cons, bind_eq_ok] at h
    obtain ⟨⟨t₁, f₁⟩, h₁, h⟩ := h
    rw [List.map_cons, List.nodup_cons] at hnodup
    have hfirst := statement_ledger h₁ hkeep (hfresh stmt (by simp))
    -- a later statement is neither this one nor in the ledger before it
    have hfresh₁ : ∀ stmt' ∈ rest, some stmt'.id ∉ f₁.ledger := by
      intro stmt' hmem hin
      rcases List.mem_append.1 (hfirst.subset hin) with hin | hin
      · obtain ⟨x, hx, -, heq⟩ := mem_readsOf.1 hin
        obtain rfl := List.mem_singleton.1 hx
        exact hnodup.1 (List.mem_map.2 ⟨stmt', hmem, (Option.some.inj heq).symm⟩)
      · exact hfresh stmt' (by simp [hmem]) hin
    have hrest := ih h ((statement_changes h₁).keepsRejected.trans hkeep) hnodup.2 hfresh₁
    have hsplit : readsOf (stmt :: rest) = readsOf [stmt] ++ readsOf rest :=
      readsOf_append [stmt] rest
    rw [hsplit, List.append_assoc]
    calc List.Perm f'.ledger (readsOf rest ++ f₁.ledger) := hrest
      List.Perm _ (readsOf rest ++ (readsOf [stmt] ++ f.ledger)) := hfirst.append_left _
      List.Perm _ (readsOf [stmt] ++ (readsOf rest ++ f.ledger)) := List.perm_append_comm_assoc ..

end Transfer

/-! ## the run -/

namespace Machine

variable {p : Procedure} {s : Settings} {m m' : Machine} {b : BlockId} {i : Nat} {t : Bindings}
  {f f' f₁ : Facts}

/-- The ledger lists the reads of the processed blocks, each once. -/
structure Balanced (p : Procedure) (f : Facts) : Prop where
  nodup : f.ledger.Nodup
  mem : ∀ x, x ∈ f.ledger ↔ ∃ b, f.claimed b = true ∧ x ∈ readsOf (p.statementsOf b)

namespace Balanced

theorem congr (h : Balanced p f) (hl : f'.ledger = f.ledger) (hc : f'.claimed = f.claimed) :
    Balanced p f' :=
  ⟨hl ▸ h.nodup, by simpa only [hl, hc] using h.mem⟩

/-- The statements of a block that is not processed are not in the ledger. -/
theorem not_mem (h : Balanced p f) (hp : p.WellFormed) (hb : f.claimed b = false) :
    ∀ stmt ∈ p.statementsOf b, some stmt.id ∉ f.ledger := by
  intro stmt hstmt hin
  obtain ⟨c, hc, hx⟩ := (h.mem _).1 hin
  obtain ⟨stmt', hstmt', -, heq⟩ := mem_readsOf.1 hx
  obtain ⟨rfl, -⟩ := hp.stmt_inj hstmt' hstmt (Option.some.inj heq)
  rw [hb] at hc
  cases hc

theorem statements (h : Balanced p m.facts) (hp : p.WellFormed)
    (hkeep : m.facts.graph.keepsRejected = true) (he : Enters p s m b t f) {stmts : List Statement}
    (hsub : stmts.Sublist (p.statementsOf b)) {t' : Bindings}
    (hs : Transfer.statements s b stmts t f = .ok (t', f')) :
    f'.ledger.Perm (readsOf stmts ++ m.facts.ledger) ∧ f'.graph.keepsRejected = true := by
  have hledger : f.ledger = m.facts.ledger :=
    Facts.ledger_congr he.enlarged.edges_eq he.diagnostics_eq
  have hkeep' : f.graph.keepsRejected = true := he.enlarged.changes.keepsRejected.trans hkeep
  have hperm := Transfer.statements_ledger hs hkeep' ((hp.statements_nodup b).sublist (hsub.map _))
      fun stmt hmem => by
    rw [hledger]
    exact h.not_mem hp he.unclaimed stmt (hsub.subset hmem)
  exact ⟨hledger ▸ hperm, (Transfer.statements_changes hs).keepsRejected.trans hkeep'⟩

theorem processed (h : Balanced p m.facts) (hp : p.WellFormed)
    (hkeep : m.facts.graph.keepsRejected = true) (he : Enters p s m b t f)
    (hproc : Transfer.process s b p t f = .ok f₁) : Balanced p f₁ := by
  have hclaimed : ∀ c, f₁.claimed c = true ↔ c = b ∨ m.facts.claimed c = true := fun c => by
    rw [Transfer.claimed_process hproc, he.claimed_eq]
  obtain ⟨t', f', hs, rfl⟩ := Transfer.process_eq_ok.1 hproc
  obtain ⟨hperm, -⟩ := h.statements hp hkeep he (List.Sublist.refl _) hs
  have hnew : (f'.expose b t').ledger.Perm (readsOf (p.statementsOf b) ++ m.facts.ledger) := hperm
  constructor
  · refine hnew.nodup_iff.2 (List.Nodup.append (readsOf_nodup (hp.statements_nodup b)) h.nodup ?_)
    intro x hx hin
    obtain ⟨stmt, hstmt, -, rfl⟩ := mem_readsOf.1 hx
    exact h.not_mem hp he.unclaimed stmt hstmt hin
  · intro x
    rw [hnew.mem_iff, List.mem_append, h.mem]
    constructor
    · rintro (hx | ⟨c, hc, hx⟩)
      · exact ⟨b, (hclaimed b).2 (.inl rfl), hx⟩
      · exact ⟨c, (hclaimed c).2 (.inr hc), hx⟩
    · rintro ⟨c, hc, hx⟩
      rcases (hclaimed c).1 hc with rfl | hc
      · exact .inl hx
      · exact .inr ⟨c, hc, hx⟩

end Balanced

theorem Reaches.keepsRejected (h : Reaches p s m) :
    m.facts.graph.keepsRejected = s.recordRejected :=
  h.changes.keepsRejected

theorem Reaches.balanced (hp : p.WellFormed) (hs : s.recordRejected = true) (h : Reaches p s m) :
    Balanced p m.facts := by
  refine h.invariant (P := fun m => Balanced p m.facts) ⟨?_, ?_⟩ fun m m' hm ih hstep => ?_
  · simp [start, Facts.start, Facts.ledger, Facts.danglings, Graph.empty]
  · simp [start, Facts.start, Facts.ledger, Facts.danglings, Graph.empty, Facts.claimed,
      Exposed.isReady]
  · have of_core : ∀ {f : Facts}, m'.facts.core = f.core →
      m'.facts.ledger = f.ledger := fun hcore =>
      Facts.ledger_congr (by rw [Facts.graph_of_core hcore]; exact ⟨rfl, rfl⟩)
        (Facts.diagnostics_of_core hcore)
    cases hstep.change with
    | processed he hproc hcore =>
      exact (ih.processed hp (hm.keepsRejected.trans hs) he hproc).congr (of_core hcore)
        (Facts.claimed_of_core hcore)
    | ended hl he hc hcore =>
      -- what the end of a loop reports is no dangling use
      obtain ⟨ds, hds, hkind, -⟩ := he.diagnostics
      refine ih.congr ((of_core hcore).trans ?_) ?_
      · refine Facts.ledger_append ((graph_close hc).trans he.graph_eq)
          ((diagnostics_close hc).trans hds) ?_
        intro x hx
        rcases hkind x hx with hk | hk <;> rw [hk] <;> decide
      · rw [Facts.claimed_of_core hcore,
          hm.claimed_close (by rw [hl]; exact List.mem_cons_self ..) he hc]
    | none hn hcore => exact ih.congr (of_core hcore) (Facts.claimed_of_core hcore)

/-- When the analysis comes to a read, the read is not in the ledger. -/
theorem Before.not_mem_ledger (hp : p.WellFormed) (hs : s.recordRejected = true)
    (h : Before p s b i t f) {stmt : Statement} (hi : (p.statementsOf b)[i]? = some stmt) :
    some stmt.id ∉ f.ledger ∧ f.graph.keepsRejected = true := by
  obtain ⟨m, t₀, f₀, hm, he, hrun⟩ := h
  have hbalanced := hm.balanced hp hs
  obtain ⟨hperm, hkeep⟩ :=
    hbalanced.statements hp (hm.keepsRejected.trans hs) he (List.take_sublist ..) hrun
  refine ⟨fun hin => ?_, hkeep⟩
  rcases List.mem_append.1 (hperm.subset hin) with hin | hin
  · -- the statements before it have other names
    obtain ⟨stmt', hstmt', -, heq⟩ := mem_readsOf.1 hin
    obtain ⟨-, rfl⟩ := hp.stmt_inj (List.mem_of_mem_take hstmt') (List.mem_of_getElem? hi)
      (Option.some.inj heq)
    obtain ⟨j, hj, hget⟩ := List.mem_take_iff_getElem.1 hstmt'
    have hnodup : (p.statementsOf b).Nodup := (hp.statements_nodup b).of_map _
    have hji : j = i :=
      (List.getElem?_inj (by omega) hnodup).1
      ((List.getElem?_eq_some_iff.2 ⟨_, hget⟩).trans hi.symm)
    omega
  · exact hbalanced.not_mem hp he.unclaimed stmt (List.mem_of_getElem? hi) hin

end Machine

/-! ## the report -/

theorem Report.balanced {p : Procedure} {s : Settings} {r : Report} (hp : p.WellFormed)
    (hs : s.recordRejected = true) (h : analyze p s = .ok r) : Machine.Balanced p r.facts := by
  obtain ⟨-, m, -, hm, rfl⟩ := analyze_eq_ok h
  rw [Machine.conclude_eq]
  refine (hm.balanced hp hs).congr (Facts.ledger_append rfl rfl fun x hx => ?_) rfl
  obtain ⟨b, -, rfl⟩ := List.mem_map.1 hx
  exact DiagnosticKind.noConfusion

/-- The statements of the processed blocks. -/
def Procedure.processed (p : Procedure) (f : Facts) : List Statement :=
  (p.blocks.filter fun k => f.claimed k.id).flatMap (·.statements)

/-- In a balanced ledger, the reads of the processed blocks are all there is. -/
theorem Machine.Balanced.perm {p : Procedure} {f : Facts} (h : Balanced p f) (hp : p.WellFormed) :
    f.ledger.Perm (readsOf (p.processed f)) := by
  have hsub : (p.processed f).Sublist (p.blocks.flatMap (·.statements)) :=
    List.filter_sublist.flatMap _
  refine (List.perm_ext_iff_of_nodup h.nodup
    (readsOf_nodup (hp.stmts_nodup.sublist (hsub.map _)))).2 fun x => ?_
  simp only [h.mem, mem_readsOf, Procedure.processed, List.mem_flatMap, List.mem_filter,
    Procedure.mem_statementsOf]
  constructor
  · rintro ⟨b, hb, stmt, ⟨k, hk, hstmt⟩, hrest⟩
    refine ⟨stmt, ⟨k, ⟨Procedure.block?_mem hk, ?_⟩, hstmt⟩, hrest⟩
    rw [Procedure.block?_id hk]
    exact hb
  · rintro ⟨stmt, ⟨k, ⟨hk, hc⟩, hstmt⟩, hrest⟩
    exact ⟨k.id, hc, stmt, ⟨k, Procedure.block?_eq_some hp.ids_nodup hk, hstmt⟩, hrest⟩

namespace DefUse.Graph

variable {g : Graph}

/-- The statement of the use that an edge leads to. -/
def useOf (g : Graph) (e : Edge) : Option StmtId := g.nodes[e.target]?.bind (·.stmt)

theorem Respectful.useOf_eq (h : g.Respectful) {e : Edge} (he : e ∈ g.edges) :
    g.useOf e = e.key.target.stmt? := by
  obtain ⟨d, u, hj⟩ := h.edges e he
  rw [useOf, hj.target, hj.site, Site.stmt?_of]
  rfl

/-- Where no two edges lead to one statement, no two lead to one use. -/
theorem Respectful.length_incoming_le (h : g.Respectful)
    (hn : (g.edges.toList.map (·.key.target.stmt?)).Nodup) (i : Nat) :
    (g.incoming i).length ≤ 1 := by
  rw [incoming, List.length_map, List.filter_reverse, List.length_reverse]
  have hsub := (List.filter_sublist (p := (·.target == i)) (l := g.edges.toList)).map
    (·.key.target.stmt?)
  have hall : ∀ x ∈ (g.edges.toList.filter (·.target == i)).map (·.key.target.stmt?),
      x = g.nodes[i]?.bind (·.stmt) := by
    intro x hx
    obtain ⟨e, he, rfl⟩ := List.mem_map.1 hx
    obtain ⟨he, hi⟩ := List.mem_filter.1 he
    rw [← h.useOf_eq (Array.mem_toList_iff.1 he), useOf, eq_of_beq hi]
  have hrep := List.eq_replicate_of_mem hall
  rw [List.length_map] at hrep
  exact List.nodup_replicate.1 (hrep ▸ hn.sublist hsub)

end DefUse.Graph

/-- Every read of a processed block is the use of one edge, or of one rejected pair, or of one
dangling use, and of one only. So there are as many of these, taken together, as there are reads in
the processed blocks; every use has at most one edge into it; and when a use is joined to its
definition the edge is a new one. -/
theorem analyze_accounts_reads {d : Draft} {p : Procedure} {s : Settings} {r : Report}
    (hb : d.build = .ok p) (hs : s.recordRejected = true) (h : analyze p s = .ok r) :
    (∀ b stmt a, r.facts.claimed b = true → stmt ∈ p.statementsOf b → stmt.action = .read a →
      r.facts.graph.edges.toList.countP (fun e => r.facts.graph.useOf e = some stmt.id) +
        (r.facts.graph.rejected.countP (fun x => x.targetStmt = some stmt.id) +
          r.facts.danglings.countP (fun x => x.stmt = some stmt.id)) = 1) ∧
    (p.processed r.facts).countP (·.action.isRead) =
      r.stats.graph.edges + (r.stats.graph.rejected + r.facts.danglings.length) ∧
    (∀ (i : Nat) (n : Node), r.facts.graph.nodes[i]? = some n → n.role = .uses →
      (r.facts.graph.incoming i).length ≤ 1) ∧
    ∀ b i stmt a t f v e, (p.statementsOf b)[i]? = some stmt → stmt.action = .read a →
      Machine.Before p s b i t f →
      t[a.base]? = some v →
      let use := f.graph.addUse (.ofStatement .uses stmt a.base v.markRead a.index b)
      use.1 = .ok (some e) → e = f.graph.edges.size ∧ use.2.edges.size = e + 1 := by
  have hp : p.WellFormed := .of_build hb
  have hbalanced := Report.balanced hp hs h
  have hgraph := Report.respectful h
  refine ⟨fun b stmt a hc hstmt hact => ?_, ?_, fun i n _ _ => ?_,
    fun b i stmt a t f v e hi _ hbefore _ => ?_⟩
  · have hin : some stmt.id ∈ r.facts.ledger :=
      (hbalanced.mem _).2 ⟨b, hc, mem_readsOf.2 ⟨stmt, hstmt, by rw [hact]; rfl, rfl⟩⟩
    have huse : r.facts.graph.edges.toList.countP (fun e => r.facts.graph.useOf e = some stmt.id) =
        r.facts.graph.edges.toList.countP (fun e => e.key.target.stmt? = some stmt.id) := by
      refine List.countP_congr fun e he => ?_
      rw [hgraph.useOf_eq (Array.mem_toList_iff.1 he)]
    rw [huse, ← List.count_eq_one_of_mem hbalanced.nodup hin]
    simp only [Facts.ledger, List.count_eq_countP, List.countP_append, List.countP_map,
      Function.comp_def, beq_eq_decide]
  · have hlen := (hbalanced.perm hp).length_eq
    rw [readsOf, List.length_map, ← List.countP_eq_length_filter] at hlen
    rw [← hlen]
    simp [Facts.ledger, Report.stats, Graph.stats]
  · exact hgraph.length_incoming_le (List.Nodup.of_append_left hbalanced.nodup) i
  · obtain ⟨hfresh, hkeep⟩ := hbefore.not_mem_ledger hp hs hi
    exact (Transfer.addUse_ledger rfl hkeep hfresh).2.2 e

/-- Reads behind a rename, where branches merge, inside a loop, and of arrays that are not there. -/
def manyReads : Draft where
  name := "many reads"
  blocks := [
    (⟨0⟩, [⟨⟨0⟩, 1, "a[i] = x", .write ⟨"a", .expr "i"⟩⟩,
      ⟨⟨1⟩, 2, "y = a[i]", .read ⟨"a", .expr "i"⟩⟩, ⟨⟨2⟩, 3, "b = a", .rename "a" "b"⟩,
      ⟨⟨3⟩, 4, "y = b[i]", .read ⟨"b", .expr "i"⟩⟩, ⟨⟨4⟩, 5, "y = b[j]", .read ⟨"b", .expr "j"⟩⟩,
      ⟨⟨5⟩, 6, "y = a[i]", .read ⟨"a", .expr "i"⟩⟩]),
    (⟨1⟩, [⟨⟨6⟩, 7, "b[k] = x", .write ⟨"b", .expr "k"⟩⟩]),
    (⟨2⟩, [⟨⟨7⟩, 8, "skip", .other⟩]),
    (⟨3⟩, [⟨⟨8⟩, 9, "y = b[i]", .read ⟨"b", .expr "i"⟩⟩,
      ⟨⟨9⟩, 10, "y = b[j]", .read ⟨"b", .expr "j"⟩⟩]),
    (⟨4⟩, [⟨⟨10⟩, 11, "while", .other⟩]),
    (⟨5⟩, [⟨⟨11⟩, 12, "y = b[i]", .read ⟨"b", .expr "i"⟩⟩]),
    (⟨6⟩, [⟨⟨12⟩, 13, "y = c[i]", .read ⟨"c", .expr "i"⟩⟩])]
  edges := [(⟨0⟩, ⟨1⟩), (⟨0⟩, ⟨2⟩), (⟨1⟩, ⟨3⟩), (⟨2⟩, ⟨3⟩), (⟨3⟩, ⟨4⟩), (⟨4⟩, ⟨5⟩),
    (⟨5⟩, ⟨4⟩), (⟨4⟩, ⟨6⟩)]
  loops := [.blocks ⟨4⟩ ⟨6⟩]

theorem analyze_accounts_reads_manyReads :
    ∃ p r, manyReads.build = .ok p ∧ analyze p {} = .ok r ∧ r.facts.graph.edges.size = 5 ∧
      r.facts.graph.rejected.length = 1 ∧ r.facts.danglings.length = 2 ∧
      (p.processed r.facts).countP (·.action.isRead) = 8 ∧
      ∀ (i : Nat) (n : Node), r.facts.graph.nodes[i]? = some n → n.role = .uses →
        (r.facts.graph.incoming i).length ≤ 1 := by
  obtain ⟨p, r, hb, h, hP⟩ := Draft.check_eq_true (d := manyReads) (s := {})
    (P := fun _ r => r.facts.graph.edges.size = 5 ∧ r.facts.graph.rejected.length = 1 ∧
      r.facts.danglings.length = 2) (by decide +kernel)
  obtain ⟨hedges, hrejected, hdangling⟩ := of_decide_eq_true hP
  obtain ⟨-, htotal, hincoming, -⟩ := analyze_accounts_reads hb rfl h
  refine ⟨p, r, hb, h, hedges, hrejected, hdangling, htotal.trans ?_, hincoming⟩
  show r.facts.graph.edges.size + (r.facts.graph.rejected.length + r.facts.danglings.length) = 8
  rw [hedges, hrejected, hdangling]

end ArrayFlow
