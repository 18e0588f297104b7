import ArrayFlow.Proofs.Linking
import ArrayFlow.Proofs.Renames

/-!
# The edges of the def-use graph

A rename changes a definition that edges may lead out of, and does not look at them. They stay right
all the same: the definition that is handed over was found under the signature of the version that
it takes, and keeps its subscript.

* `Graph.Used`       : all that adding a use can do; `addUse_used` says that there is nothing else;
* `Graph.Change`     : what the analysis does to the graph at a time, and `Changes` one after the
  other;
* `Graph.Enlarged`   : what merges do to it, which is to add definitions;
* `Reaches.changes`  : the graph of every state comes about by such changes, so that what they keep
  holds of it;
* `Graph.Joins`, `Rejection.Apart` : what an edge joins, and what a rejected pair is kept apart by;
* `analyze_edges_respect_indices` : all edges and rejected pairs of a report are so.
-/

namespace ArrayFlow

open DefUse

namespace DefUse.Graph

variable {g g' : Graph} {n : Node} {k : Key} {v : Version} {i : Nat}

/-! ## adding a use -/

/-- Adding the use `n` gives the result and the graph. The use dangles, or there is a definition of
its array at a version of its signature; the two are joined, unless their sites are joined already,
or they are rejected. -/
inductive Used (g : Graph) (n : Node) : Except Fault (Option Nat) → Graph → Prop
  | dangling (h : g.slot ⟨n.base, n.version.signature, .defines⟩ = []) :
      Used g n (.error (.danglingUse n.base n.version.signature.text n.stmt n.block)) (g.push n)
  | joined {d : Node} {i : Nat} {r : Reason} (hd : g.nodes[i]? = some d)
      (hk : d.key = n.key.opposite) (hr : reason? d n = some r)
      (he : g.edgeAt? (.between d n) = none) :
      Used g n (.ok (some g.edges.size))
        { g.push n with edges := g.edges.push ⟨i, g.nodes.size, .between d n, r⟩ }
  | swallowed {d : Node} {i e : Nat} {r : Reason} (hd : g.nodes[i]? = some d)
      (hk : d.key = n.key.opposite)
      (hr : reason? d n = some r) (he : g.edgeAt? (.between d n) = some e) :
        Used g n (.ok (some e)) (g.push n)
  | rejected {d : Node} {i : Nat} (hd : g.nodes[i]? = some d) (hk : d.key = n.key.opposite)
      (hr : reason? d n = none)
      (hkeep : g.keepsRejected = true) :
      Used g n (.ok none)
        { g.push n with rejected := g.rejected ++ [⟨d.key, n.key, d.index, n.index, n.stmt⟩] }
  | dropped {d : Node} {i : Nat} (hd : g.nodes[i]? = some d) (hk : d.key = n.key.opposite)
      (hr : reason? d n = none)
      (hkeep : g.keepsRejected = false) : Used g n (.ok none) (g.push n)

theorem exists_of_resolve (h : g.resolve k v = some i) : ∃ n, g.nodes[i]? = some n ∧ n.key = k :=
  (mem_slot.1 (mem_slot_of_resolve h)).2

theorem addUse_used (hn : n.role = .uses) : Used g n (g.addUse n).1 (g.addUse n).2 := by
  cases hres : (g.push n).resolve n.key.opposite n.version with
  | none =>
    have hslot : g.slot ⟨n.base, n.version.signature, .defines⟩ = [] := by
      have herr : (g.addUse n).1 =
          .error (.danglingUse n.base n.version.signature.text n.stmt n.block) := by
        simp only [addUse, hres]
      exact ((addUse_eq_error hn).1 herr).1
    simp only [addUse, hres]
    exact .dangling hslot
  | some i =>
    obtain ⟨d, hd, hk⟩ := exists_of_resolve hres
    -- the use itself is not a definition, so what was found was there before
    have hold : g.nodes[i]? = some d := by
      rw [getElem?_push_nodes] at hd
      split at hd
      · cases hd
        have hrole := congrArg Key.role hk
        simp [Node.key, Key.opposite, hn, Role.opposite] at hrole
      · exact hd
    have hnew : (g.push n).nodes[g.nodes.size]? = some n := by rw [getElem?_push_nodes, if_pos rfl]
    simp only [addUse, hres, link, hd, hnew]
    cases hr : reason? d n with
    | some r =>
      cases he : (g.push n).edgeAt? (.between d n) with
      | some e => exact .swallowed hold hk hr he
      | none => exact .joined hold hk hr he
    | none =>
      by_cases hkeep : g.keepsRejected = true
      · rw [if_pos (show (g.push n).keepsRejected = true from hkeep)]
        exact .rejected hold hk hr hkeep
      · rw [if_neg (show ¬ (g.push n).keepsRejected = true from hkeep)]
        exact .dropped hold hk hr (by simpa using hkeep)

/-! ## changes -/

/-- What the analysis does to the graph at a time: it adds a definition, it adds a use, or it hands
a definition over. -/
inductive Change (g : Graph) : Graph → Prop
  | defined {n : Node} (hn : n.role = .defines) : Change g (g.push n)
  | used {n : Node} (hn : n.role = .uses) : Change g (g.addUse n).2
  | renamed {source target : String} {v : Version} {i : Nat} {stmt : Statement}
      (hi : g.resolve ⟨source, v.signature, .defines⟩ v = some i) :
      Change g (g.handOver i stmt target v)

def Changes : Graph → Graph → Prop := Relation.ReflTransGen Change

theorem Changes.refl (g : Graph) : Changes g g := Relation.ReflTransGen.refl

theorem Changes.trans {g'' : Graph} (h : Changes g g') (h' : Changes g' g'') : Changes g g'' :=
  Relation.ReflTransGen.trans h h'

theorem Change.changes (h : Change g g') : Changes g g' := Relation.ReflTransGen.single h

/-- What every change keeps, changes one after the other keep. -/
theorem Changes.invariant {P : Graph → Prop} (h : Changes g g') (hstart : P g)
    (hstep : ∀ g g', P g → Change g g' → P g') : P g' := by
  induction h with
  | refl => exact hstart
  | tail _ hc ih => exact hstep _ _ ih hc

theorem Changes.keepsRejected (h : Changes g g') : g'.keepsRejected = g.keepsRejected := by
  refine h.invariant (P := fun g' => g'.keepsRejected = g.keepsRejected) rfl fun g₁ g₂ ih hc => ?_
  cases hc with
  | defined => exact ih
  | @used n =>
    obtain ⟨es, rs, heq⟩ := addUse_eq g₁ n
    rw [heq]
    exact ih
  | renamed => exact ih

/-- The graph is made larger by definitions only. -/
def Enlarged : Graph → Graph → Prop :=
  Relation.ReflTransGen fun g g' => ∃ n : Node, n.role = .defines ∧ g' = g.push n

namespace Enlarged

theorem refl (g : Graph) : Enlarged g g := Relation.ReflTransGen.refl

theorem trans {g'' : Graph} (h : Enlarged g g') (h' : Enlarged g' g'') : Enlarged g g'' :=
  Relation.ReflTransGen.trans h h'

theorem push (g : Graph) {n : Node} (hn : n.role = .defines) : Enlarged g (g.push n) :=
  Relation.ReflTransGen.single ⟨n, hn, rfl⟩

theorem changes (h : Enlarged g g') : Changes g g' := by
  refine Relation.ReflTransGen.mono (fun g₁ g₂ hc => ?_) g g' h
  obtain ⟨n, hn, rfl⟩ := hc
  exact .defined hn

theorem edges_eq (h : Enlarged g g') : g'.edges = g.edges ∧ g'.rejected = g.rejected := by
  induction h with
  | refl => exact ⟨rfl, rfl⟩
  | tail _ hc ih =>
    obtain ⟨n, -, rfl⟩ := hc
    exact ih

end Enlarged

end DefUse.Graph

/-! ### statements and merges -/

namespace Transfer

variable {s : Settings} {b : BlockId} {t t' : Bindings} {f f' : Facts} {stmt : Statement}

theorem statement_changes
    (h : statement s b t f stmt = .ok (t', f')) : f.graph.Changes f'.graph := by
  cases statement_effect h with
  | @write a v =>
    exact Graph.Change.changes (.defined (n := .ofStatement .defines stmt a.base v a.index b) rfl)
  | @create base =>
    exact Graph.Change.changes
      (.defined (n := .wholeArray stmt base (.created b stmt.id stmt.line) b) rfl)
  | used | dangling => exact Graph.Change.changes (.used rfl)
  | moved hact hv hi => exact Graph.Change.changes (.renamed hi)
  | @redefined source target v =>
    exact Graph.Change.changes (.defined (n := .wholeArray stmt target v b) rfl)
  | missed | unmoved | other => exact .refl _

theorem statements_changes {stmts : List Statement} (h : statements s b stmts t f = .ok (t', f')) :
    f.graph.Changes f'.graph := by
  induction stmts generalizing t f with
  | nil =>
    cases h
    exact .refl _
  | cons stmt rest ih =>
    rw [statements_cons, bind_eq_ok] at h
    obtain ⟨⟨t₁, f₁⟩, h₁, h⟩ := h
    exact (statement_changes h₁).trans (ih h)

end Transfer

namespace Merge

variable {s : Settings} {b : BlockId} {line : Nat} {t : Bindings} {f f' : Facts}

theorem name_enlarged (preds : List BlockId) (tables : List Bindings) (base : String) :
    f.graph.Enlarged (name s b line preds tables t f base).2.graph := by
  unfold name
  dsimp only
  split
  · exact .refl _
  · split
    · split
      · exact .refl _
      · exact .refl _
    · split
      · rename_i v _
        exact .push _ (n := .ofPhi base v b) rfl
      · exact .refl _

theorem names_enlarged (preds : List BlockId) (tables : List Bindings) (bases : List String) :
    f.graph.Enlarged (bases.foldl (fun (t, f) base => name s b line preds tables t f base) (t,
      f)).2.graph := by
  induction bases generalizing t f with
  | nil => exact .refl _
  | cons base bases ih => exact (name_enlarged preds tables base).trans ih

theorem predecessors_enlarged {preds : List BlockId}
    (h : predecessors s f b line preds = .ok (t, f')) :
    f.graph.Enlarged f'.graph := by
  rcases predecessors_cases h with ⟨-, -, rfl⟩ | ⟨-, -, -, rfl⟩ | ⟨-, -, h⟩
  · exact .refl _
  · exact .refl _
  · rw [← show _ = f' from congrArg Prod.snd h]
    exact names_enlarged preds _ _

end Merge

/-! ### runs -/

namespace Machine

variable {p : Procedure} {s : Settings} {m m' : Machine} {b : BlockId} {t : Bindings} {f f₁ : Facts}

theorem Enters.enlarged (he : Enters p s m b t f) : m.facts.graph.Enlarged f.graph := by
  rcases he.source with ⟨-, rfl⟩ | ⟨preds, -, hm⟩
  · exact .refl _
  · exact Merge.predecessors_enlarged hm

theorem graph_close {r : LoopRun} (h : LoopRun.close f r = .ok f₁) : f₁.graph = f.graph := by
  rcases LoopRun.close_eq_ok h with ⟨-, rfl⟩ | ⟨l, u, -, -, rfl⟩
  · rfl
  · rfl

theorem Step.changes (h : Step p s m m') : m.facts.graph.Changes m'.facts.graph := by
  cases h.change with
  | processed he hp hcore =>
    obtain ⟨t', f', hs, rfl⟩ := Transfer.process_eq_ok.1 hp
    rw [Facts.graph_of_core hcore]
    exact he.enlarged.changes.trans (Transfer.statements_changes hs :)
  | ended hl he hc hcore =>
    rw [Facts.graph_of_core hcore, graph_close hc, he.graph_eq]
    exact .refl _
  | none hn hcore =>
    rw [Facts.graph_of_core hcore]
    exact .refl _

/-- The graph of every state that is reached comes about by changes, one after the other. -/
theorem Reaches.changes (h : Reaches p s m) :
    (Graph.empty s.recordRejected).Changes m.facts.graph :=
  h.invariant (P := fun m => (Graph.empty s.recordRejected).Changes m.facts.graph) (.refl _)
    fun _ _ _ ih hstep => ih.trans hstep.changes

end Machine

theorem Report.changes {p : Procedure} {s : Settings} {r : Report} (h : analyze p s = .ok r) :
    (Graph.empty s.recordRejected).Changes r.facts.graph := by
  obtain ⟨-, m, -, hm, rfl⟩ := analyze_eq_ok h
  rw [Machine.conclude_eq]
  exact hm.changes

/-! ## what edges join -/

theorem Version.isPhi_of_signature {v w : Version} (h : v.signature = w.signature) :
    v.isPhi = w.isPhi := by
  cases v with
  | single =>
    cases w with
    | single => rfl
    | phi => cases h
  | phi =>
    cases w with
    | single => cases h
    | phi => rfl

theorem Version.signature_of_not_phi {v : Version} (h : v.isPhi = false) :
    v.signature = .single v.number := by
  cases v with
  | single => rfl
  | phi => cases h

/-- The pair is a definition and a use of one array at one single version, which have different
subscripts. -/
def DefUse.Rejection.Apart (x : Rejection) : Prop :=
  x.source.role = .defines ∧ x.target.role = .uses ∧ x.source.base = x.target.base ∧
    (∃ n, x.source.signature = .single n ∧ x.target.signature = .single n) ∧
    x.sourceIndex ≠ x.targetIndex

namespace DefUse.Graph

variable {g g' : Graph} {n : Node} {v : Version} {i : Nat} {e : Edge} {source target : String}
  {stmt : Statement}

/-- The edge leads from the definition `d` to the use `u`, which have one signature; its reason is
that the definition is a merge, or else that both have one subscript. -/
structure Joins (g : Graph) (e : Edge) (d u : Node) : Prop where
  source : g.nodes[e.source]? = some d
  target : g.nodes[e.target]? = some u
  defines : d.role = .defines
  uses : u.role = .uses
  signature : d.version.signature = u.version.signature
  phi : e.reason = .phiReach ↔ d.version.isPhi = true
  index : e.reason = .indexMatch → d.index = u.index
  site : e.key.target = .of u

theorem Joins.push {d u : Node} (h : g.Joins e d u) (hg : g'.nodes = g.nodes.push n) :
    g'.Joins e d u := by
  have hkept : ∀ {j : Nat} {m : Node}, g.nodes[j]? = some m → g'.nodes[j]? = some m := by
    intro j m hm
    have hlt := (Array.getElem?_eq_some_iff.1 hm).1
    rw [hg, Array.getElem?_push, if_neg (Nat.ne_of_lt hlt), hm]
  exact { h with source := hkept h.source, target := hkept h.target }

/-- A definition that is handed over gets a version of the same signature, and its subscript
stays. -/
theorem Joins.handOver {d u : Node} (h : g.Joins e d u)
    (hi : g.resolve ⟨source, v.signature, .defines⟩ v = some i) :
    ∃ d', (g.handOver i stmt target v).Joins e d' u := by
  obtain ⟨n, hn, hk⟩ := exists_of_resolve hi
  have hv : n.version.signature = v.signature := congrArg Key.signature hk
  have htarget : i ≠ e.target := by
    rintro rfl
    rw [h.target] at hn
    cases hn
    have := congrArg Key.role hk
    simp [Node.key, h.uses] at this
  have hu : (g.handOver i stmt target v).nodes[e.target]? = some u := by
    rw [Graph.handOver, Array.getElem?_modify, if_neg htarget, h.target]
  by_cases hsource : i = e.source
  · subst hsource
    rw [h.source] at hn
    cases hn
    refine ⟨d.rebind stmt target v, { h with
      source := ?_, target := hu, signature := hv.symm.trans h.signature, phi := ?_,
      defines := h.defines }⟩
    · simp [Graph.handOver, Array.getElem?_modify, h.source]
    · rw [h.phi, Version.isPhi_of_signature hv]
      rfl
  · refine ⟨d, { h with source := ?_, target := hu }⟩
    rw [Graph.handOver, Array.getElem?_modify, if_neg hsource, h.source]

/-- Why two nodes are joined. -/
theorem reason?_eq_some {d u : Node} {r : Reason} (h : reason? d u = some r) :
    (r = .phiReach ↔ d.version.isPhi = true) ∧ (r = .indexMatch → d.index = u.index) := by
  unfold reason? at h
  by_cases hphi : d.isPhi = true
  · rw [if_pos hphi] at h
    cases h
    exact ⟨iff_of_true rfl hphi, nofun⟩
  · rw [if_neg hphi] at h
    split at h
    · rename_i hindex
      cases h
      exact ⟨iff_of_false nofun hphi, fun _ => hindex⟩
    · cases h

theorem reason?_eq_none {d u : Node} (h : reason? d u = none) :
    d.version.isPhi = false ∧ d.index ≠ u.index := by
  unfold reason? at h
  split at h
  · cases h
  · rename_i hphi
    split at h
    · cases h
    · rename_i hindex
      exact ⟨by simpa [Node.isPhi] using hphi, hindex⟩

/-- All edges join what they should, and all rejected pairs are apart. -/
structure Respectful (g : Graph) : Prop where
  edges : ∀ e ∈ g.edges, ∃ d u, g.Joins e d u
  rejected : ∀ x ∈ g.rejected, x.Apart

namespace Respectful

theorem empty (keepsRejected : Bool) : Respectful (.empty keepsRejected) where
  edges := by simp [Graph.empty]
  rejected := by simp [Graph.empty]

theorem joins (h : g.Respectful) (hg : g'.nodes = g.nodes.push n) :
    ∀ e ∈ g.edges, ∃ d u, g'.Joins e d u := by
  intro e he
  obtain ⟨d, u, hj⟩ := h.edges e he
  exact ⟨d, u, hj.push hg⟩

theorem push (h : g.Respectful) (n : Node) : (g.push n).Respectful := ⟨h.joins rfl, h.rejected⟩

theorem handOver (h : g.Respectful) (hi : g.resolve ⟨source, v.signature, .defines⟩ v = some i) :
    (g.handOver i stmt target v).Respectful where
  edges e he := by
    obtain ⟨d, u, hj⟩ := h.edges e he
    obtain ⟨d', hj'⟩ := hj.handOver hi
    exact ⟨d', u, hj'⟩
  rejected := h.rejected

theorem addUse (h : g.Respectful) (hn : n.role = .uses) : (g.addUse n).2.Respectful := by
  have hkeys : ∀ {d : Node}, d.key = n.key.opposite →
      d.role = .defines ∧ d.base = n.base ∧ d.version.signature = n.version.signature := by
    intro d hk
    simp only [Node.key, Key.opposite, hn, Role.opposite, Key.mk.injEq] at hk
    exact ⟨hk.2.2, hk.1, hk.2.1⟩
  have hused := addUse_used (g := g) hn
  generalize (g.addUse n).1 = result, (g.addUse n).2 = g' at hused ⊢
  cases hused with
  | dangling => exact h.push n
  | @joined d i r hd hk hr he =>
    obtain ⟨hrole, -, hsig⟩ := hkeys hk
    obtain ⟨hphi, hindex⟩ := reason?_eq_some hr
    refine ⟨fun e he => ?_, h.rejected⟩
    rcases Array.mem_push.1 he with he | rfl
    · exact h.joins rfl e he
    · refine ⟨d, n, ?_, ?_, hrole, hn, hsig, hphi, hindex, rfl⟩
      · exact (getElem?_push_nodes g n i).trans
          ((if_neg (Nat.ne_of_lt (Array.getElem?_eq_some_iff.1 hd).1)).trans hd)
      · exact (getElem?_push_nodes g n _).trans (if_pos rfl)
  | swallowed => exact h.push n
  | @rejected d i hd hk hr hkeep =>
    obtain ⟨hrole, hbase, hsig⟩ := hkeys hk
    obtain ⟨hphi, hindex⟩ := reason?_eq_none hr
    have hsingle := Version.signature_of_not_phi hphi
    refine ⟨h.joins rfl, fun x hx => ?_⟩
    rcases List.mem_append.1 hx with hx | hx
    · exact h.rejected x hx
    · rw [List.mem_singleton.1 hx]
      exact ⟨hrole, hn, hbase, ⟨_, hsingle, hsig.symm.trans hsingle⟩, hindex⟩
  | dropped => exact h.push n

theorem change (h : g.Respectful) (hc : g.Change g') : g'.Respectful := by
  cases hc with
  | defined => exact h.push _
  | used hn => exact h.addUse hn
  | renamed hi => exact h.handOver hi

end Respectful

end DefUse.Graph

theorem Report.respectful {p : Procedure} {s : Settings} {r : Report} (h : analyze p s = .ok r) :
    r.facts.graph.Respectful :=
  (Report.changes h).invariant (.empty _) fun _ _ ih hc => ih.change hc

/-- Every edge of a report leads from a definition to a use whose versions have one signature now,
whatever was renamed since. Its reason is that the definition is a merge exactly if it is one, and
otherwise both have one subscript. Every rejected pair is a definition and a use of one array at one
single version, at different subscripts. -/
theorem analyze_edges_respect_indices {p : Procedure} {s : Settings} {r : Report}
    (h : analyze p s = .ok r) :
    (∀ e ∈ r.facts.graph.edges, ∃ d u, r.facts.graph.nodes[e.source]? = some d ∧
      r.facts.graph.nodes[e.target]? = some u ∧ d.role = .defines ∧ u.role = .uses ∧
      d.version.signature = u.version.signature ∧ (e.reason = .phiReach ↔ d.version.isPhi = true) ∧
      (e.reason = .indexMatch → d.index = u.index)) ∧
    ∀ x ∈ r.facts.graph.rejected, x.source.role = .defines ∧ x.target.role = .uses ∧
      x.source.base = x.target.base ∧
      (∃ n, x.source.signature = .single n ∧ x.target.signature = .single n) ∧
      x.sourceIndex ≠ x.targetIndex := by
  have hg := Report.respectful h
  refine ⟨fun e he => ?_, hg.rejected⟩
  obtain ⟨d, u, hj⟩ := hg.edges e he
  exact ⟨d, u, hj.source, hj.target, hj.defines, hj.uses, hj.signature, hj.phi, hj.index⟩

/-- The array is renamed behind its first read, and again where two branches merge; then a loop
writes it. -/
def renamedTwice : Draft where
  name := "renamed twice"
  blocks := [
    (⟨0⟩, [⟨⟨0⟩, 1, "a[i] = x", .write ⟨"a", .expr "i"⟩⟩,
      ⟨⟨1⟩, 2, "y = a[i]", .read ⟨"a", .expr "i"⟩⟩, ⟨⟨2⟩, 3, "b = a", .rename "a" "b"⟩]),
    (⟨1⟩, [⟨⟨3⟩, 4, "b[j] = x", .write ⟨"b", .expr "j"⟩⟩]),
    (⟨2⟩, [⟨⟨4⟩, 5, "skip", .other⟩]),
    (⟨3⟩, [⟨⟨5⟩, 6, "y = b[i]", .read ⟨"b", .expr "i"⟩⟩, ⟨⟨6⟩, 7, "c = b", .rename "b" "c"⟩]),
    (⟨4⟩, [⟨⟨7⟩, 8, "while", .other⟩]),
    (⟨5⟩, [⟨⟨8⟩, 9, "c[k] = x", .write ⟨"c", .expr "k"⟩⟩,
      ⟨⟨9⟩, 10, "y = c[j]", .read ⟨"c", .expr "j"⟩⟩]),
    (⟨6⟩, [⟨⟨10⟩, 11, "y = c[k]", .read ⟨"c", .expr "k"⟩⟩])]
  edges := [(⟨0⟩, ⟨1⟩), (⟨0⟩, ⟨2⟩), (⟨1⟩, ⟨3⟩), (⟨2⟩, ⟨3⟩), (⟨3⟩, ⟨4⟩), (⟨4⟩, ⟨5⟩),
    (⟨5⟩, ⟨4⟩), (⟨4⟩, ⟨6⟩)]
  loops := [.blocks ⟨4⟩ ⟨6⟩]

theorem analyze_edges_respect_indices_renamedTwice :
    ∃ p r, renamedTwice.build = .ok p ∧ analyze p {} = .ok r ∧
      r.facts.graph.edges.toList.map (·.reason) = [.indexMatch, .phiReach, .indexMatch] ∧
      r.facts.graph.edges.toList.map (fun e => r.facts.graph.nodes[e.source]?.map fun d =>
        (d.base, d.stmt)) =
        [some ("b", some ⟨2⟩), some ("c", some ⟨6⟩), some ("c", some ⟨8⟩)] ∧
      r.facts.graph.rejected.length = 1 ∧
      (∀ e ∈ r.facts.graph.edges, e.reason = .indexMatch →
        ∃ d u, r.facts.graph.nodes[e.source]? = some d ∧
        r.facts.graph.nodes[e.target]? = some u ∧ d.index = u.index) ∧
      ∀ x ∈ r.facts.graph.rejected, x.sourceIndex ≠ x.targetIndex := by
  obtain ⟨p, r, hb, h, hP⟩ := Draft.check_eq_true (d := renamedTwice) (s := {})
    (P := fun _ r => r.facts.graph.edges.toList.map (·.reason) =
      [.indexMatch, .phiReach, .indexMatch] ∧
      r.facts.graph.edges.toList.map (fun e => r.facts.graph.nodes[e.source]?.map fun d =>
      (d.base, d.stmt)) =
        [some ("b", some ⟨2⟩), some ("c", some ⟨6⟩), some ("c", some ⟨8⟩)] ∧
      r.facts.graph.rejected.length = 1) (by decide +kernel)
  obtain ⟨hreasons, hsources, hrejected⟩ := of_decide_eq_true hP
  obtain ⟨hedges, hapart⟩ := analyze_edges_respect_indices h
  refine ⟨p, r, hb, h, hreasons, hsources, hrejected, fun e he hreason => ?_,
    fun x hx => (hapart x hx).2.2.2.2⟩
  obtain ⟨d, u, hd, hu, -, -, -, -, hindex⟩ := hedges e he
  exact ⟨d, u, hd, hu, hindex hreason⟩

end ArrayFlow
