import ArrayFlow.Proofs.Runs
import ArrayFlow.Proofs.Origin

/-!
# Uses and their definitions

Without renames, every version that is bound anywhere has one definition in the def-use graph, so a
read finds the definition of the version it reads although many definitions may share a key.

* `Graph.Defines`, `Graph.UsedBy` : the node at a position defines an array at a version, is a use
  in a statement;
* `Backed`         : every bound version has its definition;
* `Facts.Extends`  : facts that grew by what some statements found;
* `Linked`         : the invariant of the facts, with the statements and merges that were met so
  far;
* `Links`, `Dangles` : what a read leaves behind, when its array is bound and when it is not;
* `Linked.statements`, `Linked.predecessors` : blocks and merges keep the invariant.
-/

namespace ArrayFlow

def Action.isRename : Action → Bool
  | rename .. => true
  | _ => false

/-- No statement renames an array. -/
def Procedure.RenameFree (p : Procedure) : Prop :=
  ∀ k ∈ p.blocks, ∀ stmt ∈ k.statements, stmt.action.isRename = false

instance (p : Procedure) : Decidable p.RenameFree :=
  inferInstanceAs (Decidable (∀ k ∈ p.blocks, ∀ stmt ∈ k.statements, stmt.action.isRename = false))

theorem Procedure.RenameFree.statementsOf {p : Procedure} (h : p.RenameFree) {b : BlockId}
    {stmt : Statement} (hs : stmt ∈ p.statementsOf b) (source target : String) :
    stmt.action ≠ .rename source target := by
  obtain ⟨k, hk, hs⟩ := Procedure.mem_statementsOf.1 hs
  intro hact
  have := h k (Procedure.block?_mem hk) stmt hs
  rw [hact] at this
  cases this

namespace DefUse.Graph

/-! ## definitions and uses -/

/-- The node at a position defines an array at a version. -/
def Defines (g : Graph) (base : String) (v : Version) (i : Nat) : Prop :=
  ∃ n, g.nodes[i]? = some n ∧ n.role = .defines ∧ n.base = base ∧ n.version.sameOrigin v = true

variable {g : Graph} {n : Node} {base : String} {v w : Version} {i : Nat}

theorem Defines.congr (h : v.stem = w.stem) : g.Defines base v i ↔ g.Defines base w i := by
  simp only [Defines, Version.sameOrigin_iff, h]

theorem getElem?_push_nodes (g : Graph) (n : Node) (i : Nat) :
    (g.push n).nodes[i]? = if i = g.nodes.size then some n else g.nodes[i]? := by
  simp only [push, Array.getElem?_push]

theorem defines_push : (g.push n).Defines base v i ↔
    g.Defines base v i ∨ i = g.nodes.size ∧ n.role = .defines ∧ n.base = base ∧
      n.version.sameOrigin v = true := by
  simp only [Defines, getElem?_push_nodes]
  by_cases hi : i = g.nodes.size
  · subst hi
    simp
  · simp [hi]

theorem Defines.lt (h : g.Defines base v i) : i < g.nodes.size := by
  obtain ⟨n, hn, -⟩ := h
  exact (Array.getElem?_eq_some_iff.1 hn).1

theorem resolve_eq_some (ho : i ∈ g.order) (hd : g.Defines base v i)
    (hu : ∀ j, g.Defines base v j → j = i) :
    g.resolve ⟨base, v.signature, .defines⟩ v = some i := by
  have hslot : i ∈ g.slot ⟨base, v.signature, .defines⟩ := by
    obtain ⟨n, hn, hrole, hbase, hv⟩ := hd
    have hsig : n.version.signature = v.signature := by
      rw [← Version.signature_stem, (Version.sameOrigin_iff _ _).1 hv, Version.signature_stem]
    exact List.mem_filter.2 ⟨ho, by simp [hasKey, hn, Node.key, hrole, hbase, hsig]⟩
  have hcarries : g.carries v i = true := by
    obtain ⟨n, hn, -, -, hv⟩ := hd
    simp [carries, hn, hv]
  unfold resolve
  cases hf : (g.slot ⟨base, v.signature, .defines⟩).reverse.find? (g.carries v) with
  | none =>
    have := List.find?_eq_none.1 hf i (List.mem_reverse.2 hslot)
    exact absurd hcarries this
  | some j =>
    -- whatever is found is a definition of the version, and there is one only
    have hj := List.mem_filter.1 (List.mem_reverse.1 (List.mem_of_find?_eq_some hf))
    have hc := List.find?_some hf
    have hdef : g.Defines base v j := by
      simp only [hasKey, Option.any_eq_true, beq_iff_eq] at hj
      obtain ⟨n, hn, hkey⟩ := hj.2
      simp only [carries, Option.any_eq_true] at hc
      obtain ⟨n', hn', hv⟩ := hc
      rw [hn] at hn'
      cases hn'
      simp only [Node.key, Key.mk.injEq] at hkey
      exact ⟨n, hn, hkey.2.2, hkey.1, hv⟩
    rw [hu j hdef]

/-- `g'` is `g` with the use `n`, joined to the definition `d` at `i` or held against it. -/
structure Attached (g : Graph) (n : Node) (i : Nat) (d : Node) (g' : Graph) : Prop where
  nodes : g'.nodes = g.nodes.push n
  order : g'.order = g.order ++ [g.nodes.size]
  keeps : g'.keepsRejected = g.keepsRejected
  edges : ∃ es, g'.edges.toList = g.edges.toList ++ es ∧
    es.map (·.source) = (if d.isPhi = true ∨ d.index = n.index then [i] else []) ∧
    ∀ e ∈ es, e.target = g.nodes.size ∧ e.key.target = .of n
  rejected : ∃ rs, g'.rejected = g.rejected ++ rs ∧
    rs.length = (if (d.isPhi = true ∨ d.index = n.index) ∨ g.keepsRejected = false then 0 else 1) ∧
    ∀ r ∈ rs, r.targetStmt = n.stmt

theorem link_attached {d : Node} (hd : g.nodes[i]? = some d)
    (hfresh : ∀ e ∈ g.edges, e.key.target ≠ .of n) :
    Attached g n i d ((g.push n).link i g.nodes.size).2 := by
  have hi : i ≠ g.nodes.size := by
    have := (Array.getElem?_eq_some_iff.1 hd).1
    omega
  have hsource : (g.push n).nodes[i]? = some d := by rw [getElem?_push_nodes, if_neg hi, hd]
  have htarget : (g.push n).nodes[g.nodes.size]? = some n := by rw [getElem?_push_nodes, if_pos rfl]
  have hedge : (g.push n).edgeAt? (.between d n) = none := by
    refine Array.findIdx?_eq_none_iff.2 fun e he => ?_
    simp only [beq_eq_false_iff_ne]
    intro heq
    exact hfresh e he (heq ▸ rfl)
  unfold link reason?
  simp only [hsource, htarget]
  by_cases hphi : d.isPhi = true
  · simp only [hphi, if_true, hedge]
    exact ⟨rfl, rfl, rfl, ⟨_, Array.toList_push, by simp [hphi], by simp [EdgeKey.between]⟩,
      ⟨[], by simp [push, hphi]⟩⟩
  · by_cases hindex : d.index = n.index
    · simp only [hphi, hindex, if_true, if_false, Bool.false_eq_true, hedge]
      exact ⟨rfl, rfl, rfl, ⟨_, Array.toList_push, by simp [hindex], by simp [EdgeKey.between]⟩,
        ⟨[], by simp [push, hindex]⟩⟩
    · simp only [hphi, hindex, if_false, Bool.false_eq_true]
      by_cases hk : g.keepsRejected = true
      · rw [if_pos (show (g.push n).keepsRejected = true from hk)]
        exact ⟨rfl, rfl, rfl, ⟨[], by simp [push, hphi, hindex]⟩,
          ⟨_, rfl, by simp [hphi, hindex, hk], by simp⟩⟩
      · rw [if_neg (show ¬ (g.push n).keepsRejected = true from hk)]
        exact ⟨rfl, rfl, rfl, ⟨[], by simp [push, hphi, hindex]⟩, ⟨[], by simp [push, hk]⟩⟩

theorem resolve_push_use (ho : i ∈ g.order) (hrole : n.role = .uses)
    (hd : g.Defines n.base n.version i) (hu : ∀ j, g.Defines n.base n.version j → j = i) :
    (g.push n).resolve n.key.opposite n.version = some i := by
  have hdef : ∀ j, (g.push n).Defines n.base n.version j ↔ g.Defines n.base n.version j := by
    intro j
    rw [defines_push]
    simp [hrole]
  have hkey : n.key.opposite = ⟨n.base, n.version.signature, .defines⟩ := by
    simp [Node.key, Key.opposite, hrole, Role.opposite]
  rw [hkey]
  exact resolve_eq_some (List.mem_append_left _ ho) ((hdef i).2 hd) fun j hj => hu j ((hdef j).1 hj)

theorem addUse_attached (ho : i ∈ g.order) (hrole : n.role = .uses)
    (hd : g.Defines n.base n.version i) (hu : ∀ j, g.Defines n.base n.version j → j = i)
    (hfresh : ∀ e ∈ g.edges, e.key.target ≠ .of n) :
    (∃ e, (g.addUse n).1 = .ok e) ∧ ∃ d, g.nodes[i]? = some d ∧ d.role = .defines ∧
      d.base = n.base ∧
      d.version.sameOrigin n.version = true ∧ Attached g n i d (g.addUse n).2 := by
  have hres := resolve_push_use ho hrole hd hu
  obtain ⟨d, hn, hdr, hdb, hdv⟩ := hd
  unfold addUse
  simp only [hres]
  exact ⟨⟨_, rfl⟩, d, hn, hdr, hdb, hdv, link_attached hn hfresh⟩

end DefUse.Graph

/-! ## growing facts -/

open DefUse

/-- The facts grew by nodes, rejected pairs and dangling uses of statements of which `q` holds, and
by edges into new nodes. -/
structure Facts.Extends (q : Option StmtId → Prop) (f f' : Facts) : Prop where
  nodes : ∃ ns, f'.graph.nodes.toList = f.graph.nodes.toList ++ ns ∧ ∀ n ∈ ns, q n.stmt
  edges : ∃ es, f'.graph.edges.toList = f.graph.edges.toList ++ es ∧
    ∀ e ∈ es, f.graph.nodes.size ≤ e.target
  rejected : ∃ rs, f'.graph.rejected = f.graph.rejected ++ rs ∧ ∀ r ∈ rs, q r.targetStmt
  diagnostics : ∃ ds, f'.diagnostics = f.diagnostics ++ ds ∧ ∀ d ∈ ds, d.kind = .danglingUse →
    q d.stmt

namespace Facts.Extends

variable {q q' : Option StmtId → Prop} {f f' f'' : Facts}

theorem of_eq (hg : f'.graph = f.graph) (hd : f'.diagnostics = f.diagnostics) : f.Extends q f' where
  nodes := ⟨[], by simp [hg]⟩
  edges := ⟨[], by simp [hg]⟩
  rejected := ⟨[], by simp [hg]⟩
  diagnostics := ⟨[], by simp [hd]⟩

theorem size_le (h : f.Extends q f') : f.graph.nodes.size ≤ f'.graph.nodes.size := by
  obtain ⟨ns, hn, -⟩ := h.nodes
  have := congrArg List.length hn
  simp only [Array.length_toList, List.length_append] at this
  omega

theorem trans (h : f.Extends q f') (h' : f'.Extends q f'') : f.Extends q f'' := by
  obtain ⟨ns, hn, hnq⟩ := h.nodes
  obtain ⟨es, he, het⟩ := h.edges
  obtain ⟨rs, hr, hrq⟩ := h.rejected
  obtain ⟨ds, hd, hdq⟩ := h.diagnostics
  obtain ⟨ns', hn', hnq'⟩ := h'.nodes
  obtain ⟨es', he', het'⟩ := h'.edges
  obtain ⟨rs', hr', hrq'⟩ := h'.rejected
  obtain ⟨ds', hd', hdq'⟩ := h'.diagnostics
  refine ⟨⟨ns ++ ns', by rw [hn', hn, List.append_assoc], ?_⟩,
    ⟨es ++ es', by rw [he', he, List.append_assoc], ?_⟩,
    ⟨rs ++ rs', by rw [hr', hr, List.append_assoc], ?_⟩,
    ⟨ds ++ ds', by rw [hd', hd, List.append_assoc], ?_⟩⟩
  · exact fun n hn => (List.mem_append.1 hn).elim (hnq n) (hnq' n)
  · exact fun e he => (List.mem_append.1 he).elim (het e) fun hm =>
      Nat.le_trans h.size_le (het' e hm)
  · exact fun r hr => (List.mem_append.1 hr).elim (hrq r) (hrq' r)
  · exact fun d hd => (List.mem_append.1 hd).elim (hdq d) (hdq' d)

theorem mono (hq : ∀ σ, q σ → q' σ) (h : f.Extends q f') : f.Extends q' f' where
  nodes := h.nodes.imp fun _ hn => ⟨hn.1, fun n hm => hq _ (hn.2 n hm)⟩
  edges := h.edges
  rejected := h.rejected.imp fun _ hr => ⟨hr.1, fun r hm => hq _ (hr.2 r hm)⟩
  diagnostics := h.diagnostics.imp fun _ hd => ⟨hd.1, fun d hm hk => hq _ (hd.2 d hm hk)⟩

theorem define {n : Node} (hn : q n.stmt) : f.Extends q (f.define n) where
  nodes := ⟨[n], by simp [Facts.define, Graph.addDef, Graph.push, hn]⟩
  edges := ⟨[], by simp [Facts.define, Graph.addDef, Graph.push]⟩
  rejected := ⟨[], by simp [Facts.define, Graph.addDef, Graph.push]⟩
  diagnostics := ⟨[], by simp [Facts.define]⟩

theorem report {d : Diagnostic} (hd : d.kind = .danglingUse → q d.stmt) :
    f.Extends q (f.report d) where
  nodes := ⟨[], by simp [Facts.report]⟩
  edges := ⟨[], by simp [Facts.report]⟩
  rejected := ⟨[], by simp [Facts.report]⟩
  diagnostics := ⟨[d], by simpa [Facts.report] using hd⟩

theorem getElem? (h : f.Extends q f') {i : Nat} {n : Node} (hi : f.graph.nodes[i]? = some n) :
    f'.graph.nodes[i]? = some n := by
  obtain ⟨ns, hn, -⟩ := h.nodes
  have hlt := (Array.getElem?_eq_some_iff.1 hi).1
  rw [← Array.getElem?_toList, hn, List.getElem?_append_left (by simpa using hlt),
    Array.getElem?_toList, hi]

theorem getElem?_cases (h : f.Extends q f') {i : Nat} {n : Node}
    (hi : f'.graph.nodes[i]? = some n) :
    f.graph.nodes[i]? = some n ∨ f.graph.nodes.size ≤ i ∧ q n.stmt := by
  obtain ⟨ns, hn, hq⟩ := h.nodes
  rw [← Array.getElem?_toList, hn, List.getElem?_append] at hi
  split at hi
  · exact .inl (by rwa [Array.getElem?_toList] at hi)
  · rename_i hlt
    exact .inr ⟨by simpa using hlt, hq n (List.mem_of_getElem? hi)⟩

theorem defines (h : f.Extends q f') {base : String} {v : Version} {i : Nat}
    (hd : f.graph.Defines base v i) :
    f'.graph.Defines base v i := by
  obtain ⟨n, hn, hrest⟩ := hd
  exact ⟨n, h.getElem? hn, hrest⟩

/-- Old nodes get no new edges. -/
theorem incoming (h : f.Extends q f') {i : Nat} (hi : i < f.graph.nodes.size) :
    f'.graph.incoming i = f.graph.incoming i := by
  obtain ⟨es, he, ht⟩ := h.edges
  unfold Graph.incoming
  rw [he, List.reverse_append, List.filter_append, List.filter_eq_nil_iff.2, List.nil_append]
  intro e hm
  have := ht e (List.mem_reverse.1 hm)
  simp only [beq_iff_eq]
  omega

end Facts.Extends

/-! ## the invariant -/

/-- Every bound version has its definition in the graph. -/
def Backed (g : Graph) (t : Bindings) : Prop :=
  ∀ base v, t[base]? = some v → ∃ i, g.Defines base v i

namespace Backed

variable {g : Graph} {t : Bindings} {base : String} {v : Version}

theorem empty (g : Graph) : Backed g ∅ := by simp [Backed]

theorem insert (h : Backed g t) (hv : ∃ i, g.Defines base v i) : Backed g (t.insert base v) := by
  intro b w hw
  rw [Std.ExtTreeMap.getElem?_insert] at hw
  split at hw
  · rename_i heq
    obtain rfl := Std.LawfulEqOrd.eq_of_compare heq
    cases hw
    exact hv
  · exact h b w hw

theorem extend {q : Option StmtId → Prop} {f f' : Facts} (h : Backed f.graph t)
    (he : f.Extends q f') :
    Backed f'.graph t := by
  intro base v hv
  obtain ⟨i, hi⟩ := h base v hv
  exact ⟨i, he.defines hi⟩

end Backed

/-- The version was made by a statement in `done`, or where `joined` says that its array was
merged. -/
def Made (done : StmtId → Prop) (joined : BlockId → String → Prop) (base : String)
    (v : Version) : Prop :=
  match v.stmt? with
  | some σ => done σ
  | none => joined v.block base

theorem Made.congr {done : StmtId → Prop} {joined : BlockId → String → Prop} {base : String}
    {v w : Version} (h : v.stem = w.stem) : Made done joined base v ↔ Made done joined base w := by
  unfold Made
  rw [← v.stmt?_stem, ← w.stmt?_stem, ← v.block_stem, ← w.block_stem, h]

/-- The facts when the statements in `done` were met, and arrays were merged as `joined` says: every
version has one definition at most, and everything found belongs to a statement that was met. -/
structure Linked (s : Settings) (done : StmtId → Prop) (joined : BlockId → String → Prop)
    (f : Facts) : Prop where
  order : f.graph.order = List.range f.graph.nodes.size
  keeps : f.graph.keepsRejected = s.recordRejected
  distinct : ∀ base v i j, f.graph.Defines base v i → f.graph.Defines base v j → i = j
  made : ∀ base v i, f.graph.Defines base v i → Made done joined base v
  nodes : ∀ n ∈ f.graph.nodes, ∀ σ, n.stmt = some σ → done σ
  edges : ∀ e ∈ f.graph.edges, e.target < f.graph.nodes.size ∧ ∃ σ, e.key.target = .stmt σ ∧ done σ
  rejected : ∀ r ∈ f.graph.rejected, ∀ σ, r.targetStmt = some σ → done σ
  dangling : ∀ d ∈ f.diagnostics, d.kind = .danglingUse → ∀ σ, d.stmt = some σ → done σ

namespace Linked

variable {s : Settings} {done done' : StmtId → Prop} {joined joined' : BlockId → String → Prop}
  {f f' : Facts}

theorem start (s : Settings) (done : StmtId → Prop) (joined : BlockId → String → Prop) :
    Linked s done joined (.start s) where
  order := rfl
  keeps := rfl
  distinct := by simp [Facts.start, Graph.empty, Graph.Defines]
  made := by simp [Facts.start, Graph.empty, Graph.Defines]
  nodes := by simp [Facts.start, Graph.empty]
  edges := by simp [Facts.start, Graph.empty]
  rejected := by simp [Facts.start, Graph.empty]
  dangling := by simp [Facts.start]

theorem mono (hdone : ∀ σ, done σ → done' σ) (hjoined : ∀ b base, joined b base → joined' b base)
    (h : Linked s done joined f) : Linked s done' joined' f where
  order := h.order
  keeps := h.keeps
  distinct := h.distinct
  made := by
    intro base v i hd
    have := h.made base v i hd
    unfold Made at this ⊢
    split at this
    · exact hdone _ this
    · exact hjoined _ _ this
  nodes := fun n hn σ hσ => hdone σ (h.nodes n hn σ hσ)
  edges := fun e he => ⟨(h.edges e he).1, (h.edges e he).2.imp fun σ hσ => ⟨hσ.1, hdone σ hσ.2⟩⟩
  rejected := fun r hr σ hσ => hdone σ (h.rejected r hr σ hσ)
  dangling := fun d hd hk σ hσ => hdone σ (h.dangling d hd hk σ hσ)

theorem congr (h : Linked s done joined f) (hg : f'.graph = f.graph)
    (hd : ∀ d ∈ f'.diagnostics, d.kind = .danglingUse → d ∈ f.diagnostics) :
    Linked s done joined f' := by
  obtain ⟨h1, h2, h3, h4, h5, h6, h7, h8⟩ := h
  refine ⟨by rw [hg]; exact h1, by rw [hg]; exact h2, by rw [hg]; exact h3, by rw [hg]; exact h4,
    by rw [hg]; exact h5, by rw [hg]; exact h6, by rw [hg]; exact h7,
    fun d hm hk => h8 d (hd d hm hk) hk⟩

theorem define {n : Node} (h : Linked s done joined f) (hold : ¬ Made done joined n.base n.version)
    (hdone : ∀ σ, done σ → done' σ) (hjoined : ∀ b base, joined b base → joined' b base)
    (hnew : Made done' joined' n.base n.version) (hstmt : ∀ σ, n.stmt = some σ → done' σ) :
    Linked s done' joined' (f.define n) := by
  have hm := h.mono hdone hjoined
  have hcases : ∀ base v i, (f.define n).graph.Defines base v i → f.graph.Defines base v i ∨
      i = f.graph.nodes.size ∧ n.base = base ∧ n.version.sameOrigin v = true := by
    intro base v i hd
    rcases Graph.defines_push.1 hd with hd | ⟨hi, -, hb, hv⟩
    · exact .inl hd
    · exact .inr ⟨hi, hb, hv⟩
  -- no definition that was there before is of the new version
  have hapart : ∀ base v i, f.graph.Defines base v i → n.base = base →
      n.version.sameOrigin v = true → False := by
    intro base v i hd hb hv
    subst hb
    exact hold ((Made.congr ((Version.sameOrigin_iff _ _).1 hv)).2 (h.made _ _ _ hd))
  refine ⟨?_, hm.keeps, ?_, ?_, ?_, ?_, hm.rejected, hm.dangling⟩
  · simp [Facts.define, Graph.addDef, Graph.push, h.order, List.range_succ]
  · intro base v i j hi hj
    rcases hcases _ _ _ hi with hi | ⟨hi, hb, hv⟩ <;>
      rcases hcases _ _ _ hj with hj | ⟨hj, hb', hv'⟩
    · exact h.distinct _ _ _ _ hi hj
    · exact (hapart _ _ _ hi hb' hv').elim
    · exact (hapart _ _ _ hj hb hv).elim
    · rw [hi, hj]
  · intro base v i hi
    rcases hcases _ _ _ hi with hi | ⟨-, rfl, hv⟩
    · exact hm.made _ _ _ hi
    · exact (Made.congr ((Version.sameOrigin_iff _ _).1 hv)).1 hnew
  · intro m hmem σ hσ
    simp only [Facts.define, Graph.addDef, Graph.push, Array.mem_push] at hmem
    rcases hmem with hmem | rfl
    · exact hm.nodes m hmem σ hσ
    · exact hstmt σ hσ
  · intro e he
    obtain ⟨hlt, hrest⟩ := hm.edges e he
    refine ⟨?_, hrest⟩
    simp only [Facts.define, Graph.addDef, Graph.push, Array.size_push]
    omega

end Linked

/-! ## what a read leaves behind -/

/-- The read `a` of an array at the version `v` has one node, the use at `u`; the node `n` at `d` is
the definition of the version. The two are joined if the definition is a merge or has the subscript
of the read, else they are held against each other. -/
structure Links (s : Settings) (f : Facts) (block : BlockId) (stmt : Statement)
    (a : Access) (v : Version) (u d : Nat) (n : Node) : Prop where
  use : f.graph.nodes[u]? = some (.ofStatement .uses stmt a.base v.markRead a.index block)
  sole : ∀ j m, f.graph.nodes[j]? = some m → m.stmt = some stmt.id → j = u
  definition : f.graph.nodes[d]? = some n ∧ n.role = .defines ∧ n.base = a.base ∧
    n.version.sameOrigin v = true
  incoming : f.graph.incoming u = if n.isPhi = true ∨ n.index = a.index then [d] else []
  rejected : (f.graph.rejected.filter (·.targetStmt = some stmt.id)).length =
    if (n.isPhi = true ∨ n.index = a.index) ∨ s.recordRejected = false then 0 else 1
  quiet : ∀ x ∈ f.diagnostics, x.kind = .danglingUse → x.stmt ≠ some stmt.id

/-- The read of an array that is not bound has no node, and is noted once. -/
structure Dangles (f : Facts) (block : BlockId) (stmt : Statement) (a : Access) : Prop where
  unused : ∀ n ∈ f.graph.nodes, n.stmt ≠ some stmt.id
  noted : f.diagnostics.filter (fun x => x.kind = .danglingUse ∧ x.stmt = some stmt.id) =
    [.ofFault (.danglingUse a.base "none" (some stmt.id) block)]

/-- What a read leaves behind, met with the bindings `t`. -/
def Settled (s : Settings) (f : Facts) (block : BlockId) (stmt : Statement) (a : Access)
    (t : Bindings) : Prop :=
  match t[a.base]? with
  | some v => ∃ u d n, Links s f block stmt a v u d n
  | none => Dangles f block stmt a

section Stable

variable {s : Settings} {q : Option StmtId → Prop} {f f' : Facts} {block : BlockId}
  {stmt : Statement} {a : Access}

theorem Links.extend {v : Version} {u d : Nat} {n : Node} (h : Links s f block stmt a v u d n)
    (he : f.Extends q f') (hq : ¬ q (some stmt.id)) : Links s f' block stmt a v u d n where
  use := he.getElem? h.use
  sole := by
    intro j m hj hm
    rcases he.getElem?_cases hj with hj | ⟨-, hqm⟩
    · exact h.sole j m hj hm
    · rw [hm] at hqm
      exact absurd hqm hq
  definition := ⟨he.getElem? h.definition.1, h.definition.2⟩
  incoming := by rw [he.incoming (Array.getElem?_eq_some_iff.1 h.use).1, h.incoming]
  rejected := by
    obtain ⟨rs, hr, hrq⟩ := he.rejected
    have hrs : rs.filter (·.targetStmt = some stmt.id) = [] := by
      refine List.filter_eq_nil_iff.2 fun r hm => ?_
      simp only [decide_eq_true_eq]
      intro heq
      exact hq (heq ▸ hrq r hm)
    rw [hr, List.filter_append, hrs, List.append_nil, h.rejected]
  quiet := by
    intro x hx hk hs
    obtain ⟨ds, hd, hdq⟩ := he.diagnostics
    rw [hd, List.mem_append] at hx
    rcases hx with hx | hx
    · exact h.quiet x hx hk hs
    · exact hq (hs ▸ hdq x hx hk)

theorem Dangles.extend (h : Dangles f block stmt a) (he : f.Extends q f')
    (hq : ¬ q (some stmt.id)) :
    Dangles f' block stmt a where
  unused := by
    intro n hn hs
    obtain ⟨i, hi⟩ := Array.mem_iff_getElem?.1 hn
    rcases he.getElem?_cases hi with hi | ⟨-, hqn⟩
    · exact h.unused n (Array.mem_of_getElem? hi) hs
    · exact hq (hs ▸ hqn)
  noted := by
    obtain ⟨ds, hd, hdq⟩ := he.diagnostics
    have hds : ds.filter (fun x => x.kind = .danglingUse ∧ x.stmt = some stmt.id) = [] := by
      refine List.filter_eq_nil_iff.2 fun x hm => ?_
      simp only [decide_eq_true_eq]
      rintro ⟨hk, hs⟩
      exact hq (hs ▸ hdq x hm hk)
    rw [hd, List.filter_append, hds, List.append_nil, h.noted]

theorem Settled.extend {t : Bindings} (h : Settled s f block stmt a t) (he : f.Extends q f')
    (hq : ¬ q (some stmt.id)) : Settled s f' block stmt a t := by
  unfold Settled at h ⊢
  split at h
  · obtain ⟨u, d, n, h⟩ := h
    exact ⟨u, d, n, h.extend he hq⟩
  · exact h.extend he hq

/-- A read is noted as a dangling use when its array is not bound. -/
theorem Settled.dangling_iff {t : Bindings} (h : Settled s f block stmt a t) :
    (∃ x ∈ f.diagnostics, x.kind = .danglingUse ∧ x.stmt = some stmt.id) ↔ t[a.base]? = none := by
  unfold Settled at h
  cases hv : t[a.base]? with
  | none =>
    rw [hv] at h
    have hmem : Diagnostic.ofFault (.danglingUse a.base "none" (some stmt.id) block) ∈
        f.diagnostics.filter fun x => x.kind = .danglingUse ∧ x.stmt = some stmt.id := by
      rw [h.noted]
      exact List.mem_singleton_self _
    obtain ⟨hmem, hkind⟩ := List.mem_filter.1 hmem
    exact ⟨fun _ => rfl, fun _ => ⟨_, hmem, of_decide_eq_true hkind⟩⟩
  | some v =>
    rw [hv] at h
    obtain ⟨u, d, n, hlinks⟩ := h
    constructor
    · rintro ⟨x, hx, hkind, hstmt⟩
      exact absurd hstmt (hlinks.quiet x hx hkind)
    · rintro ⟨⟩

end Stable

namespace Linked

variable {s : Settings} {done done' : StmtId → Prop} {joined : BlockId → String → Prop}
  {f f' : Facts} {block : BlockId} {stmt : Statement} {a : Access} {t t' : Bindings} {v : Version}

/-! ### the use of a bound array -/

section Attach

variable {u : Node} {i : Nat} {d : Node} {g : Graph}

theorem attach (h : Linked s done joined f) (ha : f.graph.Attached u i d g) (hrole : u.role = .uses)
    (hstmt : u.stmt = some stmt.id) (hdone : ∀ σ, done σ ∨ σ = stmt.id → done' σ) :
    Linked s done' joined { f with graph := g } := by
  obtain ⟨es, hes, -, htgt⟩ := ha.edges
  obtain ⟨rs, hrs, -, hrej⟩ := ha.rejected
  have hm : Linked s done' joined f := h.mono (fun σ hσ => hdone σ (.inl hσ)) fun _ _ hj => hj
  have hdefines : ∀ base w j, g.Defines base w j → f.graph.Defines base w j := by
    rintro base w j ⟨n, hn, hr, hrest⟩
    rw [ha.nodes, Array.getElem?_push] at hn
    split at hn
    · cases hn
      rw [hrole] at hr
      cases hr
    · exact ⟨n, hn, hr, hrest⟩
  refine ⟨?_, ha.keeps.trans h.keeps, ?_, ?_, ?_, ?_, ?_, hm.dangling⟩
  · simp only [ha.order, ha.nodes, h.order, Array.size_push, List.range_succ]
  · exact fun base w j k hj hk => h.distinct _ _ _ _ (hdefines _ _ _ hj) (hdefines _ _ _ hk)
  · exact fun base w j hj => hm.made _ _ _ (hdefines _ _ _ hj)
  · intro n hn σ hσ
    simp only [ha.nodes, Array.mem_push] at hn
    rcases hn with hn | rfl
    · exact hm.nodes n hn σ hσ
    · rw [hstmt] at hσ
      cases hσ
      exact hdone _ (.inr rfl)
  · intro e he
    simp only [← Array.mem_toList_iff, hes, List.mem_append] at he
    simp only [ha.nodes, Array.size_push]
    rcases he with he | he
    · obtain ⟨hlt, hrest⟩ := hm.edges e (Array.mem_toList_iff.1 he)
      exact ⟨Nat.lt_succ_of_lt hlt, hrest⟩
    · obtain ⟨ht, hk⟩ := htgt e he
      exact ⟨by omega, stmt.id, by rw [hk, Site.of, hstmt], hdone _ (.inr rfl)⟩
  · intro r hr σ hσ
    simp only [hrs, List.mem_append] at hr
    rcases hr with hr | hr
    · exact hm.rejected r hr σ hσ
    · rw [hrej r hr, hstmt] at hσ
      cases hσ
      exact hdone _ (.inr rfl)

theorem attach_extends (ha : f.graph.Attached u i d g) (hstmt : u.stmt = some stmt.id) :
    f.Extends (· = some stmt.id) { f with graph := g } := by
  obtain ⟨es, hes, -, htgt⟩ := ha.edges
  obtain ⟨rs, hrs, -, hrej⟩ := ha.rejected
  refine ⟨⟨[u], by simp [ha.nodes], by simp [hstmt]⟩,
    ⟨es, hes, fun e he => Nat.le_of_eq (htgt e he).1.symm⟩,
    ⟨rs, hrs, fun r hr => (hrej r hr).trans hstmt⟩, ⟨[], by simp⟩⟩

theorem attach_links (h : Linked s done joined f) (hnew : ¬ done stmt.id)
    (ha : f.graph.Attached (.ofStatement .uses stmt a.base v.markRead a.index block) i d g)
    (hd : f.graph.nodes[i]? = some d) (hrole : d.role = .defines) (hbase : d.base = a.base)
    (hv : d.version.sameOrigin v = true) :
    Links s { f with graph := g } block stmt a v f.graph.nodes.size i d := by
  obtain ⟨es, hes, hsrc, htgt⟩ := ha.edges
  obtain ⟨rs, hrs, hlen, hrej⟩ := ha.rejected
  have hlt := (Array.getElem?_eq_some_iff.1 hd).1
  refine ⟨?_, ?_, ⟨?_, hrole, hbase, hv⟩, ?_, ?_, fun x hx hk hσ => hnew (h.dangling x hx hk _ hσ)⟩
  · simp only [ha.nodes, Array.getElem?_push, if_true]
  · intro j m hj hs
    simp only [ha.nodes, Array.getElem?_push] at hj
    split at hj
    · assumption
    · exact absurd (h.nodes m (Array.mem_of_getElem? hj) _ hs) hnew
  · simp only [ha.nodes, Array.getElem?_push, Nat.ne_of_lt hlt, if_false, hd]
  · -- the edges that were there lead to older nodes
    have hold : f.graph.edges.toList.reverse.filter (·.target == f.graph.nodes.size) = [] := by
      refine List.filter_eq_nil_iff.2 fun e he => ?_
      have := (h.edges e (Array.mem_toList_iff.1 (List.mem_reverse.1 he))).1
      simp only [beq_iff_eq]
      omega
    have hall : es.reverse.filter (·.target == f.graph.nodes.size) = es.reverse :=
      List.filter_eq_self.2 fun e he => beq_iff_eq.2 (htgt e (List.mem_reverse.1 he)).1
    simp only [Graph.incoming, hes, List.reverse_append, List.filter_append, hold, hall,
      List.append_nil, List.map_reverse, hsrc, Node.ofStatement]
    by_cases hr : d.isPhi = true ∨ d.index = a.index
    · simp only [hr, if_true, List.reverse_singleton]
    · simp only [hr, if_false, List.reverse_nil]
  · have hold : f.graph.rejected.filter (·.targetStmt = some stmt.id) = [] := by
      refine List.filter_eq_nil_iff.2 fun r hr => ?_
      simp only [decide_eq_true_eq]
      exact fun hσ => hnew (h.rejected r hr _ hσ)
    have hall : rs.filter (·.targetStmt = some stmt.id) = rs :=
      List.filter_eq_self.2 fun r hr => decide_eq_true (hrej r hr)
    simp only [hrs, List.filter_append, hold, hall, List.nil_append, hlen, h.keeps,
      Node.ofStatement]

end Attach

theorem addUse (block : BlockId) (h : Linked s done joined f) (hnew : ¬ done stmt.id)
    (hb : Backed f.graph t) (hv : t[a.base]? = some v) :
    let use := f.graph.addUse (.ofStatement .uses stmt a.base v.markRead a.index block)
    (∃ e, use.1 = .ok e) ∧ ∃ i d, f.graph.nodes[i]? = some d ∧ d.role = .defines ∧ d.base = a.base ∧
      d.version.sameOrigin v = true ∧
      f.graph.Attached (.ofStatement .uses stmt a.base v.markRead a.index block) i d use.2 := by
  obtain ⟨i, hi⟩ := hb _ _ hv
  have hsame : ∀ j, f.graph.Defines a.base v.markRead j ↔ f.graph.Defines a.base v j := fun j =>
    Graph.Defines.congr v.stem_markRead
  have hfresh : ∀ e ∈ f.graph.edges, e.key.target ≠ .stmt stmt.id := by
    intro e he heq
    obtain ⟨-, σ, hσ, hd⟩ := h.edges e he
    rw [hσ] at heq
    cases heq
    exact hnew hd
  have hmem : i ∈ f.graph.order := by
    rw [h.order]
    exact List.mem_range.2 hi.lt
  obtain ⟨hok, d, hd, hrole, hbase, horigin, ha⟩ := Graph.addUse_attached
    (n := .ofStatement .uses stmt a.base v.markRead a.index block) hmem rfl ((hsame i).2 hi)
    (fun j hj => h.distinct _ _ _ _ ((hsame j).1 hj) hi) hfresh
  rw [Version.sameOrigin_iff] at horigin
  exact ⟨hok, i, d, hd, hrole, hbase,
    (Version.sameOrigin_iff _ _).2 (horigin.trans v.stem_markRead), ha⟩

/-- A read of a bound array is joined to the definition of its version, or held against it. -/
theorem used (block : BlockId) (h : Linked s done joined f) (hnew : ¬ done stmt.id)
    (hdone : ∀ σ, done σ ∨ σ = stmt.id → done' σ) (hb : Backed f.graph t)
    (hv : t[a.base]? = some v) :
    let f' := { f with graph :=
  (f.graph.addUse (.ofStatement .uses stmt a.base v.markRead a.index block)).2 }
    Linked s done' joined f' ∧ f.Extends (· = some stmt.id) f' ∧
        ∃ u d n, Links s f' block stmt a v u d n := by
  obtain ⟨-, i, d, hd, hrole, hbase, horigin, ha⟩ := h.addUse block hnew hb hv
  exact ⟨h.attach ha rfl rfl hdone, attach_extends ha rfl, _, _, _,
    h.attach_links hnew ha hd hrole hbase horigin⟩

theorem missed (block : BlockId) (h : Linked s done joined f) (hnew : ¬ done stmt.id)
    (hdone : ∀ σ, done σ ∨ σ = stmt.id → done' σ) :
    let f' := f.report (.ofFault (.danglingUse a.base "none" (some stmt.id) block))
    Linked s done' joined f' ∧ f.Extends (· = some stmt.id) f' ∧ Dangles f' block stmt a := by
  have hm : Linked s done' joined f := h.mono (fun σ hσ => hdone σ (.inl hσ)) fun _ _ hj => hj
  refine ⟨⟨hm.order, hm.keeps, hm.distinct, hm.made, hm.nodes, hm.edges, hm.rejected, ?_⟩,
    .report fun _ => rfl, ?_, ?_⟩
  · intro d hd hk σ hσ
    simp only [Facts.report, List.mem_append, List.mem_singleton] at hd
    rcases hd with hd | rfl
    · exact hm.dangling d hd hk σ hσ
    · cases hσ
      exact hdone _ (.inr rfl)
  · exact fun n hn hs => hnew (h.nodes n hn _ hs)
  · have hold : f.diagnostics.filter (fun x => x.kind = .danglingUse ∧ x.stmt = some stmt.id) =
      [] := by
      refine List.filter_eq_nil_iff.2 fun x hx => ?_
      simp only [decide_eq_true_eq]
      exact fun hs => hnew (h.dangling x hx hs.1 _ hs.2)
    simp only [Facts.report, List.filter_append, hold, List.nil_append]
    simp [Diagnostic.ofFault]

theorem defined {g : Facts} {n : Node} (h : Linked s done joined f) (hnew : ¬ done stmt.id)
    (hdone : ∀ σ, done σ ∨ σ = stmt.id → done' σ) (hg : g.graph = f.graph)
    (hd : g.diagnostics = f.diagnostics) (hrole : n.role = .defines)
    (hv : n.version.stmt? = some stmt.id) (hstmt : n.stmt = some stmt.id) :
    Linked s done' joined (g.define n) ∧ f.Extends (· = some stmt.id) (g.define n) ∧
      ∃ i, (g.define n).graph.Defines n.base n.version i := by
  have hlinked : Linked s done joined g := h.congr hg fun d hm _ => hd ▸ hm
  refine ⟨hlinked.define ?_ (fun σ hσ => hdone σ (.inl hσ)) (fun _ _ hj => hj) ?_ ?_,
    (Facts.Extends.of_eq hg hd).trans (.define hstmt), g.graph.nodes.size,
    Graph.defines_push.2 (.inr ?_)⟩
  · simpa only [Made, hv] using hnew
  · simpa only [Made, hv] using hdone _ (.inr rfl)
  · intro σ hσ
    rw [hstmt] at hσ
    cases hσ
    exact hdone _ (.inr rfl)
  · exact ⟨rfl, hrole, rfl, Version.sameOrigin_refl _⟩

theorem statement (h : Linked s done joined f) (hb : Backed f.graph t) (hnew : ¬ done stmt.id)
    (hdone : ∀ σ, done σ ∨ σ = stmt.id → done' σ)
    (hfree : ∀ source target, stmt.action ≠ .rename source target)
    (hs : Transfer.statement s block t f stmt = .ok (t', f')) :
    Linked s done' joined f' ∧ Backed f'.graph t' ∧ f.Extends (· = some stmt.id) f' ∧
      (∀ a, stmt.action = .read a → Settled s f' block stmt a t) ∧
      ∀ x ∈ f'.diagnostics, x.kind = .danglingUse →
        x ∈ f.diagnostics ∨ x.stmt = some stmt.id ∧ ∃ a, stmt.action = .read a ∧
          t[a.base]? = none := by
  -- another action than a read settles none
  have hno : (∀ a, stmt.action ≠ .read a) → ∀ a, stmt.action = .read a →
    Settled s f' block stmt a t :=
    fun hne a ha => absurd ha (hne a)
  cases Transfer.statement_effect hs with
  | @write a v hact hv =>
    have hstmt : v.stmt? = some stmt.id := by rw [hv]; split <;> rfl
    obtain ⟨hl, he, hd⟩ :=
      h.defined (n := .ofStatement .defines stmt a.base v a.index block) hnew hdone
      (g := f.record a.base (.of v .write (some stmt.id))) rfl rfl rfl hstmt rfl
    exact ⟨hl, (hb.extend he).insert hd, he, hno (by simp [hact]), fun x hx _ => .inl hx⟩
  | @used a v e hact hv huse =>
    obtain ⟨hl, he, hlinks⟩ := h.used block hnew hdone hb hv
    refine ⟨hl, (hb.extend he).insert ?_, he, fun a' ha' => ?_, fun x hx _ => .inl hx⟩
    · obtain ⟨i, hi⟩ := hb.extend he _ _ hv
      exact ⟨i, (Graph.Defines.congr v.stem_markRead).2 hi⟩
    · rw [hact] at ha'
      cases ha'
      simpa only [Settled, hv] using hlinks
  | dangling hact hv huse =>
    obtain ⟨⟨e, hok⟩, -⟩ := h.addUse block hnew hb hv
    cases hok.symm.trans huse
  | @missed a hact hv =>
    obtain ⟨hl, he, hdangles⟩ := h.missed (a := a) block hnew hdone
    refine ⟨hl, hb.extend he, he, fun a' ha' => ?_, fun x hx _ => ?_⟩
    · rw [hact] at ha'
      cases ha'
      simpa only [Settled, hv] using hdangles
    · simp only [Facts.report, List.mem_append, List.mem_singleton] at hx
      exact hx.imp id fun heq => ⟨by rw [heq]; rfl, a, hact, hv⟩
  | @create base hact =>
    obtain ⟨hl, he, hd⟩ :=
      h.defined (n := .wholeArray stmt base (.created block stmt.id stmt.line) block) hnew hdone
      (g := { f.record base (.of (.created block stmt.id stmt.line) .create (some stmt.id)) with
        creations := f.creations.insert stmt.id }) rfl rfl rfl rfl rfl
    exact ⟨hl, (hb.extend he).insert hd, he, hno (by simp [hact]), fun x hx _ => .inl hx⟩
  | unmoved hact | moved hact | redefined hact => exact absurd hact (hfree _ _)
  | other hact =>
    exact ⟨h.mono (fun σ hσ => hdone σ (.inl hσ)) fun _ _ hj => hj, hb, .of_eq rfl rfl,
      hno (by simp [hact]), fun x hx _ => .inl hx⟩

/-- Among `stmts`, run from `t` and `f`, the statement number `i` is the read `a`, and is met with
the bindings `u`. -/
def Met (s : Settings) (block : BlockId) (stmts : List Statement) (t : Bindings)
    (f : Facts) (i : Nat) (stmt : Statement) (a : Access) (u : Bindings) : Prop :=
  stmts[i]? = some stmt ∧ stmt.action = .read a ∧
    ∃ g, Transfer.statements s block (stmts.take i) t f = .ok (u, g)

theorem met_succ {stmts : List Statement} {i : Nat} {stmt' : Statement} {a : Access} {u : Bindings}
    (h : Transfer.statement s block t f stmt = .ok (t', f')) :
    Met s block (stmt :: stmts) t f (i + 1) stmt' a u ↔ Met s block stmts t' f' i stmt' a u := by
  simp only [Met, List.getElem?_cons_succ, List.take_succ_cons, Transfer.statements_cons, h]
  rfl

/-- What statements in a row leave behind: from `statement`, by induction on the row. -/
theorem statements {stmts : List Statement} (h : Linked s done joined f) (hb : Backed f.graph t)
    (hnodup : (stmts.map (·.id)).Nodup) (hnew : ∀ stmt ∈ stmts, ¬ done stmt.id)
    (hfree : ∀ stmt ∈ stmts, ∀ source target, stmt.action ≠ .rename source target)
    (hs : Transfer.statements s block stmts t f = .ok (t', f')) :
    Linked s (fun σ => done σ ∨ σ ∈ stmts.map (·.id)) joined f' ∧ Backed f'.graph t' ∧
      f.Extends (fun σ => ∃ stmt ∈ stmts, σ = some stmt.id) f' ∧
      (∀ i stmt a u, Met s block stmts t f i stmt a u → Settled s f' block stmt a u) ∧
      ∀ x ∈ f'.diagnostics, x.kind = .danglingUse → x ∈ f.diagnostics ∨
        ∃ i stmt a u, Met s block stmts t f i stmt a u ∧ u[a.base]? = none ∧
          x.stmt = some stmt.id := by
  induction stmts generalizing t f done with
  | nil =>
    cases hs
    refine ⟨h.mono (fun σ hσ => .inl hσ) fun _ _ hj => hj, hb, .of_eq rfl rfl, ?_,
      fun x hx _ => .inl hx⟩
    rintro i stmt a u ⟨hi, -⟩
    simp at hi
  | cons stmt rest ih =>
    rw [Transfer.statements_cons, bind_eq_ok] at hs
    obtain ⟨⟨t₁, f₁⟩, h₁, hrest⟩ := hs
    simp only [List.map_cons, List.nodup_cons] at hnodup
    obtain ⟨hl, hb₁, he₁, hread, hdang⟩ := h.statement hb (hnew stmt (by simp)) (fun σ hσ => hσ)
      (hfree stmt (by simp)) h₁
    have hapart : ∀ stmt' ∈ rest, stmt'.id ≠ stmt.id := fun stmt' hm heq =>
      hnodup.1 (heq ▸ List.mem_map_of_mem hm)
    obtain ⟨hl', hb', he', hreads, hdangs⟩ := ih hl hb₁ hnodup.2
      (fun stmt' hm hd => hd.elim (hnew stmt' (by simp [hm])) (hapart stmt' hm))
      (fun stmt' hm => hfree stmt' (by simp [hm])) hrest
    refine ⟨?_, hb', ?_, ?_, ?_⟩
    · refine hl'.mono (fun σ hσ => ?_) fun _ _ hj => hj
      rcases hσ with (hσ | hσ) | hσ
      · exact .inl hσ
      · exact .inr (by simp [hσ])
      · exact .inr (List.mem_cons_of_mem _ hσ)
    · refine (he₁.mono ?_).trans (he'.mono ?_)
      · exact fun σ hσ => ⟨stmt, by simp, hσ⟩
      · rintro σ ⟨stmt', hm, hσ⟩
        exact ⟨stmt', List.mem_cons_of_mem _ hm, hσ⟩
    · rintro (_ | i) stmt' a u hmet
      · obtain ⟨hi, hact, g, hg⟩ := hmet
        cases hi
        cases hg
        refine (hread a hact).extend he' ?_
        rintro ⟨stmt', hm, heq⟩
        exact hapart stmt' hm (Option.some.inj heq).symm
      · exact hreads i stmt' a u ((met_succ h₁).1 hmet)
    · intro x hx hk
      rcases hdangs x hx hk with hx | ⟨i, stmt', a, u, hmet, hu, hxs⟩
      · rcases hdang x hx hk with hx | ⟨hxs, a, hact, hv⟩
        · exact .inl hx
        · exact .inr ⟨0, stmt, a, t, ⟨rfl, hact, f, rfl⟩, hv, hxs⟩
      · exact .inr ⟨i + 1, stmt', a, u, (met_succ h₁).2 hmet, hu, hxs⟩

/-! ### merges -/

theorem name {base : String} (h : Linked s done joined f) (hj : ¬ joined block base)
    (hb : Backed f.graph t) (line : Nat) (preds : List BlockId) {tables : List Bindings}
    (htables : ∀ u ∈ tables, Backed f.graph u) :
    let r := Merge.name s block line preds tables t f base
    Linked s done (fun b c => joined b c ∨ b = block ∧ c = base) r.2 ∧ Backed r.2.graph r.1 ∧
      f.Extends (· = none) r.2 := by
  intro r
  have hm : Linked s done (fun b c => joined b c ∨ b = block ∧ c = base) f :=
    h.mono (fun _ hσ => hσ) fun _ _ hj => .inl hj
  have hsame : Linked s done (fun b c => joined b c ∨ b = block ∧ c = base) f ∧ Backed f.graph t ∧
      f.Extends (· = none) f := ⟨hm, hb, .of_eq rfl rfl⟩
  unfold r Merge.name
  dsimp only
  split
  · exact ⟨hm.congr rfl fun _ hd _ => hd, hb, .of_eq rfl rfl⟩
  · split
    · split
      · rename_i v vs heq
        -- the version of the first table is defined, and so is the same version once it was read
        obtain ⟨u, hu, hv⟩ :=
          List.mem_filterMap.1 (show v ∈ tables.filterMap fun u => u[base]? by simp [heq])
        obtain ⟨i, hi⟩ := htables u hu base v hv
        refine ⟨hm, hb.insert ⟨i, ?_⟩, .of_eq rfl rfl⟩
        unfold Merge.shared
        split
        · exact (Graph.Defines.congr v.stem_markRead).2 hi
        · exact hi
      · exact hsame
    · split
      · rename_i v hv
        obtain ⟨hstmt, hblock⟩ : v.stmt? = none ∧ v.block = block := by
          unfold Version.phi? at hv
          split at hv <;> cases hv
          exact ⟨rfl, rfl⟩
        have hg : Linked s done joined (f.record base (.of v .phi none)) :=
          h.congr rfl fun _ hd _ => hd
        have hrecord : f.Extends (· = none) (f.record base (.of v .phi none)) := .of_eq rfl rfl
        have he := hrecord.trans (.define (n := .ofPhi base v block) rfl)
        refine ⟨hg.define ?_ (fun _ hσ => hσ) (fun _ _ hj => .inl hj) ?_ ?_,
          (hb.extend he).insert ?_, he⟩
        · simpa only [Made, Node.ofPhi, hstmt, hblock] using hj
        · simp [Made, Node.ofPhi, hstmt, hblock]
        · simp [Node.ofPhi]
        · exact ⟨_, Graph.defines_push.2 (.inr ⟨rfl, rfl, rfl, Version.sameOrigin_refl _⟩)⟩
      · exact hsame

theorem names {bases : List String} (h : Linked s done joined f) (hnodup : bases.Nodup)
    (hj : ∀ base ∈ bases, ¬ joined block base) (hb : Backed f.graph t) (line : Nat)
    (preds : List BlockId) {tables : List Bindings} (htables : ∀ u ∈ tables, Backed f.graph u) :
    let r := bases.foldl (fun (t, f) base => Merge.name s block line preds tables t f base) (t, f)
    Linked s done (fun b c => joined b c ∨ b = block) r.2 ∧ Backed r.2.graph r.1 ∧
        f.Extends (· = none) r.2 := by
  induction bases generalizing t f joined with
  | nil => exact ⟨h.mono (fun _ hσ => hσ) fun _ _ hj => .inl hj, hb, .of_eq rfl rfl⟩
  | cons base bases ih =>
    rw [List.nodup_cons] at hnodup
    obtain ⟨hl, hb₁, he⟩ := h.name (hj base (by simp)) hb line preds htables
    have hj' : ∀ base' ∈ bases, ¬ (joined block base' ∨ block = block ∧ base' = base) := by
      rintro base' hm (hj' | ⟨-, rfl⟩)
      · exact hj base' (by simp [hm]) hj'
      · exact hnodup.1 hm
    obtain ⟨hl', hb', he'⟩ := ih hl hnodup.2 hj' hb₁ fun u hu => (htables u hu).extend he
    refine ⟨hl'.mono (fun _ hσ => hσ) ?_, hb', he.trans he'⟩
    rintro b c ((hj | ⟨hb, -⟩) | hb)
    · exact .inl hj
    · exact .inr hb
    · exact .inr hb

theorem predecessors {line : Nat} {preds : List BlockId} (h : Linked s done joined f)
    (hj : ∀ base, ¬ joined block base)
    (hx : ∀ (b : BlockId) (t : Bindings), f.exposed[b]? = some t → Backed f.graph t)
    (hm : Merge.predecessors s f block line preds = .ok (t, f')) :
    Linked s done (fun b c => joined b c ∨ b = block) f' ∧ Backed f'.graph t ∧
      f.Extends (· = none) f' := by
  have hsame : Linked s done (fun b c => joined b c ∨ b = block) f :=
    h.mono (fun _ hσ => hσ) fun _ _ hj => .inl hj
  rcases Merge.predecessors_cases hm with ⟨-, rfl, rfl⟩ | ⟨a, -, ha, rfl⟩ | ⟨-, hready, hm⟩
  · exact ⟨hsame, .empty _, .of_eq rfl rfl⟩
  · exact ⟨hsame, hx a t ha, .of_eq rfl rfl⟩
  · have hall : ∀ u ∈ preds.map f.exposed.table, Backed f.graph u := by
      intro u hu
      obtain ⟨b, hb, rfl⟩ := List.mem_map.1 hu
      exact hx b _ (Exposed.isReady_iff.1 (hready b hb))
    have hnodup := Merge.names_nodup (preds.map f.exposed.table)
    have := h.names hnodup (fun base _ => hj base) (.empty _) line preds hall
    rwa [hm] at this

end Linked

end ArrayFlow
