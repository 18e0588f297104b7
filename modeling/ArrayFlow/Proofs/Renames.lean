import ArrayFlow.Proofs.Exploration
import ArrayFlow.Proofs.Provenance

/-!
# Renames and the reads of other branches

Every branch has bindings of its own, but there is one def-use graph for all of them. A rename hands
the definition of a version over to another name in the graph, also for the branches that still know
the array under the old name: there, a read of a bound name may find no definition.

* `Graph.Keeps`        : which definitions a graph still has when it grows;
* `Bindings.Defined`   : bound names have definitions, unless the name is lost;
* `Reaches.defined`    : a name is lost only when a processed block renames it, by induction on the
  run;
* `Before.renamed`     : a bound name without a definition is renamed by another block;
* `analyze_dangling_reads` : which reads are reported as dangling, and that those of bound names are
  there only for names that another block renames;
* `rename_hides_definition` : a read of a bound name that is reported since the other branch renames
  the array.
-/

namespace ArrayFlow

open DefUse

/-- Does an action take its name from an array? -/
def Action.renamesAway (base : String) : Action → Bool
  | rename source _ => source == base
  | _ => false

/-- Some statement of the block takes the name from an array. -/
def Procedure.RenamesAway (p : Procedure) (b : BlockId) (base : String) : Prop :=
  ∃ stmt ∈ p.statementsOf b, stmt.action.renamesAway base = true

/-! ## definitions that stay -/

namespace DefUse.Graph

variable {g g' g'' : Graph} {n : Node} {k : Key} {v : Version} {i : Nat} {source target : String}
  {moved moved' : String → Prop}

theorem slot_ne_nil : g.slot k ≠ [] ↔ ∃ i ∈ g.order, ∃ n, g.nodes[i]? = some n ∧ n.key = k := by
  constructor
  · intro h
    obtain ⟨i, hi⟩ := List.exists_mem_of_ne_nil _ h
    exact ⟨i, mem_slot.1 hi⟩
  · rintro ⟨i, hi⟩
    exact List.ne_nil_of_mem (mem_slot.2 hi)

theorem mem_slot_of_resolve (h : g.resolve k v = some i) : i ∈ g.slot k := by
  unfold resolve at h
  split at h
  · rename_i j hj
    cases h
    exact List.mem_reverse.1 (List.mem_of_find?_eq_some hj)
  · exact List.mem_of_getLast? h

/-- Names that were not moved keep their definitions. -/
def Keeps (moved : String → Prop) (g g' : Graph) : Prop :=
  ∀ base σ, ¬ moved base → g.slot ⟨base, σ, .defines⟩ ≠ [] → g'.slot ⟨base, σ, .defines⟩ ≠ []

namespace Keeps

theorem refl (g : Graph) : Keeps moved g g := fun _ _ _ h => h

theorem trans (h : Keeps moved g g') (h' : Keeps moved g' g'') : Keeps moved g g'' :=
  fun base σ hb hs =>
  h' base σ hb (h base σ hb hs)

theorem mono (h : Keeps moved g g') (hm : ∀ base, moved base → moved' base) : Keeps moved' g g' :=
  fun base σ hb =>
  h base σ fun hb' => hb (hm base hb')

theorem push (g : Graph) (n : Node) : Keeps moved g (g.push n) := by
  intro base σ _ hs
  obtain ⟨i, hi, m, hm, hk⟩ := slot_ne_nil.1 hs
  refine slot_ne_nil.2 ⟨i, List.mem_append_left _ hi, m, ?_, hk⟩
  have hlt := (Array.getElem?_eq_some_iff.1 hm).1
  rw [Graph.push, Array.getElem?_push, if_neg (by omega), hm]

end Keeps

theorem slot_push_ne_nil (g : Graph) (n : Node) : (g.push n).slot n.key ≠ [] :=
  slot_ne_nil.2 ⟨g.nodes.size, by simp [push], n, by simp [push], rfl⟩

theorem Keeps.addUse (g : Graph) (n : Node) : Keeps moved g (g.addUse n).2 := by
  obtain ⟨es, rs, heq⟩ := addUse_eq g n
  rw [heq]
  exact Keeps.push g n

/-- The graph in which the node at a position is taken over by a rename. -/
def handOver (g : Graph) (i : Nat) (stmt : Statement) (target : String) (v : Version) : Graph :=
  { g with nodes := g.nodes.modify i (·.rebind stmt target v), order := g.order.erase i ++ [i] }

variable {stmt : Statement}

theorem Keeps.handOver (h : g.resolve ⟨source, v.signature, .defines⟩ v = some i) :
    Keeps (· = source) g (g.handOver i stmt target v) := by
  intro base σ hb hs
  obtain ⟨j, hj, n, hn, hk⟩ := slot_ne_nil.1 hs
  obtain ⟨-, n', hn', hk'⟩ := mem_slot.1 (mem_slot_of_resolve h)
  have hne : j ≠ i := by
    rintro rfl
    rw [hn] at hn'
    cases hn'
    rw [hk] at hk'
    exact hb (congrArg Key.base hk')
  refine slot_ne_nil.2 ⟨j, List.mem_append_left _ ((List.mem_erase_of_ne hne).2 hj), n, ?_, hk⟩
  rw [Graph.handOver, Array.getElem?_modify, if_neg (Ne.symm hne), hn]

theorem slot_handOver_ne_nil (h : g.resolve ⟨source, v.signature, .defines⟩ v = some i) :
    (g.handOver i stmt target v).slot ⟨target, v.signature, .defines⟩ ≠ [] := by
  obtain ⟨-, n, hn, hk⟩ := mem_slot.1 (mem_slot_of_resolve h)
  refine slot_ne_nil.2 ⟨i, by simp [handOver], n.rebind stmt target v, ?_, ?_⟩
  · simp [handOver, Array.getElem?_modify, hn]
  · have hrole : n.role = .defines := congrArg Key.role hk
    simp [Node.key, Node.rebind, hrole]

end DefUse.Graph

/-! ## bindings that have definitions -/

/-- The names that are bound have a definition of a version of the signature, those that are lost
apart. -/
def Bindings.Defined (g : Graph) (lost : String → Prop) (t : Bindings) : Prop :=
  ∀ (base : String) (v : Version), t[base]? = some v → ¬ lost base →
    g.slot ⟨base, v.signature, .defines⟩ ≠ []

namespace Bindings.Defined

variable {g g' : Graph} {lost lost' : String → Prop} {t : Bindings} {base : String} {v : Version}

theorem empty : Bindings.Defined g lost ∅ := by simp [Bindings.Defined]

theorem keeps (h : Bindings.Defined g lost t) (hk : g.Keeps lost g') : Bindings.Defined g' lost t :=
  fun base v hv hb => hk base _ hb (h base v hv hb)

theorem insert (h : Bindings.Defined g lost t)
    (hv : ¬ lost base → g.slot ⟨base, v.signature, .defines⟩ ≠ []) :
    Bindings.Defined g lost (t.insert base v) := by
  intro b w hw hb
  rw [Std.ExtTreeMap.getElem?_insert] at hw
  split at hw
  · rename_i heq
    obtain rfl := Std.LawfulEqOrd.eq_of_compare heq
    cases hw
    exact hv hb
  · exact h b w hw hb

theorem rebind {w : Version} (h : Bindings.Defined g lost t) (hv : t[base]? = some v)
    (hs : w.signature = v.signature) :
    Bindings.Defined g lost (t.insert base w) :=
  h.insert fun hb => by rw [hs]; exact h base v hv hb

theorem mono (h : Bindings.Defined g lost t) (hlost : ∀ base, lost base → lost' base) :
    Bindings.Defined g lost' t :=
  fun base v hv hb => h base v hv fun hl => hb (hlost base hl)

theorem grow (h : Bindings.Defined g lost t) (hk : g.Keeps (fun _ => False) g') :
    Bindings.Defined g' lost t :=
  h.keeps (hk.mono fun _ hf => hf.elim)

end Bindings.Defined

/-! ## statements and merges -/

namespace Transfer

variable {s : Settings} {b : BlockId} {t t' : Bindings} {f f' : Facts} {stmt : Statement}
  {lost : String → Prop}

/-- A version that moves to another name takes its definition there, and the old name is not bound
any more. -/
theorem moved_defined {g g' : Graph} {source target : String} {v : Version}
    (hk : g.Keeps (· = source) g') (hslot : g'.slot ⟨target, v.signature, .defines⟩ ≠ [])
    (ht : Bindings.Defined g lost t) :
    Bindings.Defined g' lost ((t.erase source).insert target v) := by
  refine Bindings.Defined.insert ?_ fun _ => hslot
  intro base w hw hb
  rw [Std.ExtTreeMap.getElem?_erase] at hw
  split at hw
  · cases hw
  · rename_i hne
    refine hk base _ ?_ (ht base w hw hb)
    rintro rfl
    exact hne Std.ReflOrd.compare_self

theorem define_defined {g : Graph} {n : Node} (hrole : n.role = .defines)
    (ht : Bindings.Defined g lost t) :
    Bindings.Defined (g.push n) lost (t.insert n.base n.version) := by
  refine (ht.grow (.push g n)).insert fun _ => ?_
  have hslot := Graph.slot_push_ne_nil g n
  rwa [Node.key, hrole] at hslot

/-- Behind a statement, bound names have definitions if they had them before; the graph has lost at
most those of a name that the statement takes away. -/
theorem statement_defined (h : statement s b t f stmt = .ok (t', f')) :
    f.graph.Keeps (fun base => stmt.action.renamesAway base = true) f'.graph ∧
      (Bindings.Defined f.graph lost t → Bindings.Defined f'.graph lost t') := by
  have haway : ∀ {source target base}, stmt.action = .rename source target → base = source →
      stmt.action.renamesAway base = true := by
    rintro source target _ hact rfl
    simp [hact, Action.renamesAway]
  cases statement_effect h with
  | @write a v =>
    exact ⟨.push _ _, define_defined (n := .ofStatement .defines stmt a.base v a.index b) rfl⟩
  | @create base =>
    exact ⟨.push _ _, define_defined (n :=
      .wholeArray stmt base (.created b stmt.id stmt.line) b) rfl⟩
  | @used a v e hact hv | @dangling a v fault hact hv =>
    have hk : f.graph.Keeps (fun _ => False)
      (f.graph.addUse (.ofStatement .uses stmt a.base v.markRead a.index b)).2 :=
      .addUse _ _
    exact ⟨hk.mono fun _ hf => hf.elim,
      fun ht => (ht.rebind hv (Version.signature_markRead v)).grow hk⟩
  | @moved source target v i hact hv hi =>
    have hk : f.graph.Keeps (· = source) (f.graph.handOver i stmt target v) := .handOver hi
    exact ⟨hk.mono fun _ => haway hact, moved_defined hk (Graph.slot_handOver_ne_nil hi)⟩
  | @redefined source target v hact hv hi =>
    have hk : f.graph.Keeps (· = source) (f.graph.push (.wholeArray stmt target v b)) := .push _ _
    exact ⟨hk.mono fun _ => haway hact,
      moved_defined hk (Graph.slot_push_ne_nil _ (.wholeArray stmt target v b))⟩
  | missed | unmoved | other => exact ⟨.refl _, id⟩

theorem statements_defined {stmts : List Statement} (h : statements s b stmts t f = .ok (t', f')) :
    f.graph.Keeps (fun base => ∃ stmt ∈ stmts, stmt.action.renamesAway base = true) f'.graph ∧
      (Bindings.Defined f.graph lost t → Bindings.Defined f'.graph lost t') := by
  induction stmts generalizing t f with
  | nil =>
    cases h
    exact ⟨.refl _, id⟩
  | cons stmt rest ih =>
    rw [statements_cons, bind_eq_ok] at h
    obtain ⟨⟨t₁, f₁⟩, h₁, h⟩ := h
    obtain ⟨hk₁, ht₁⟩ := statement_defined h₁
    obtain ⟨hk, ht⟩ := ih h
    refine ⟨.trans (hk₁.mono fun base hb => ⟨stmt, List.mem_cons_self .., hb⟩) (hk.mono ?_),
      fun h => ht (ht₁ h)⟩
    rintro base ⟨stmt', hmem, hb⟩
    exact ⟨stmt', List.mem_cons_of_mem _ hmem, hb⟩

end Transfer

namespace Merge

variable {s : Settings} {b : BlockId} {line : Nat} {t : Bindings} {f f' : Facts}
  {lost : String → Prop}

theorem signature_shared (v : Version) (inputs : List Version) :
    (shared v inputs).signature = v.signature := by
  unfold shared
  split
  · exact Version.signature_markRead v
  · rfl

theorem name_defined (preds : List BlockId) {tables : List Bindings} (base : String)
    (htables : ∀ u ∈ tables, Bindings.Defined f.graph lost u)
    (ht : Bindings.Defined f.graph lost t) :
    let r := name s b line preds tables t f base
    f.graph.Keeps (fun _ => False) r.2.graph ∧ Bindings.Defined r.2.graph lost r.1 := by
  unfold name
  dsimp only
  split
  · exact ⟨.refl _, ht⟩
  · split
    · split
      · rename_i v vs heq
        -- the version of the first table, which has a definition there
        obtain ⟨u, hu, hv⟩ :=
          List.mem_filterMap.1 (heq ▸ List.mem_cons_self .. : v ∈ tables.filterMap fun u =>
          u[base]?)
        exact ⟨.refl _, ht.insert fun hb => by rw [signature_shared]; exact htables u hu base v hv hb⟩
      · exact ⟨.refl _, ht⟩
    · split
      · rename_i v hv
        exact ⟨.push _ _, Transfer.define_defined (n := .ofPhi base v b) rfl ht⟩
      · exact ⟨.refl _, ht⟩

theorem names_defined (preds : List BlockId) {tables : List Bindings} (bases : List String)
    (htables : ∀ u ∈ tables, Bindings.Defined f.graph lost u)
    (ht : Bindings.Defined f.graph lost t) :
    let r := bases.foldl (fun (t, f) base => name s b line preds tables t f base) (t, f)
    f.graph.Keeps (fun _ => False) r.2.graph ∧ Bindings.Defined r.2.graph lost r.1 := by
  induction bases generalizing t f with
  | nil => exact ⟨.refl _, ht⟩
  | cons base bases ih =>
    obtain ⟨hk₁, ht₁⟩ := name_defined (s := s) (b := b) preds base htables ht
    obtain ⟨hk, ht⟩ := ih (fun u hu => (htables u hu).grow hk₁) ht₁
    exact ⟨hk₁.trans hk, ht⟩

/-- Where blocks merge, bound names have definitions if they have them behind the blocks. -/
theorem predecessors_defined {preds : List BlockId}
    (h : predecessors s f b line preds = .ok (t, f'))
    (hx : ∀ (c : BlockId) (u : Bindings), f.exposed[c]? = some u →
      Bindings.Defined f.graph lost u) :
    f.graph.Keeps (fun _ => False) f'.graph ∧ Bindings.Defined f'.graph lost t := by
  rcases predecessors_cases h with ⟨-, rfl, rfl⟩ | ⟨a, -, ha, rfl⟩ | ⟨-, hready, h⟩
  · exact ⟨.refl _, .empty⟩
  · exact ⟨.refl _, hx a t ha⟩
  · have hall : ∀ u ∈ preds.map f.exposed.table, Bindings.Defined f.graph lost u := by
      intro u hu
      obtain ⟨c, hc, rfl⟩ := List.mem_map.1 hu
      exact hx c _ (Exposed.isReady_iff.1 (hready c hc))
    rw [← show _ = t from congrArg Prod.fst h, ← show _ = f' from congrArg Prod.snd h]
    exact names_defined preds (names (preds.map f.exposed.table)) hall .empty

end Merge

/-! ## the run -/

namespace Machine

variable {p : Procedure} {s : Settings} {m : Machine} {b : BlockId} {i : Nat} {t : Bindings}
  {f f₁ : Facts}

/-- A processed block takes the name from an array. -/
def Lost (p : Procedure) (f : Facts) (base : String) : Prop :=
  ∃ c, f.claimed c = true ∧ p.RenamesAway c base

/-- All bindings that the analysis may go on with have definitions, but for names that processed
blocks rename. -/
structure Defined (p : Procedure) (m : Machine) : Prop where
  exposed : ∀ (b : BlockId) (t : Bindings), m.facts.exposed[b]? = some t →
    t.Defined m.facts.graph (Lost p m.facts)
  visits : ∀ x ∈ m.visits, x.2.Defined m.facts.graph (Lost p m.facts)

theorem Enters.defined (he : Enters p s m b t f) (h : Defined p m) :
    m.facts.graph.Keeps (fun _ => False) f.graph ∧ t.Defined f.graph (Lost p m.facts) := by
  rcases he.source with ⟨hmem, rfl⟩ | ⟨preds, -, hmerge⟩
  · exact ⟨.refl _, h.visits _ hmem⟩
  · exact Merge.predecessors_defined hmerge h.exposed

/-- A step keeps this if the graph keeps all definitions but those of lost names, and what it
exposes anew is so. -/
theorem Defined.of_keeps {m' : Machine} (h : Defined p m) (hstep : Step p s m m')
    (hk : m.facts.graph.Keeps (Lost p m'.facts) m'.facts.graph)
    (hnew : ∀ (c : BlockId) (u : Bindings), m'.facts.exposed[c]? = some u →
      (∃ a : BlockId, m.facts.exposed[a]? = some u) ∨ u.Defined m'.facts.graph (Lost p m'.facts)) :
      Defined p m' := by
  have hlost : ∀ base, Lost p m.facts base → Lost p m'.facts base := by
    rintro base ⟨c, hc, hb⟩
    exact ⟨c, hstep.claimed_mono hc, hb⟩
  have hold : ∀ u : Bindings, u.Defined m.facts.graph (Lost p m.facts) →
    u.Defined m'.facts.graph (Lost p m'.facts) :=
    fun u hu => (hu.mono hlost).keeps hk
  have hexposed : ∀ (c : BlockId) (u : Bindings), m'.facts.exposed[c]? = some u →
      u.Defined m'.facts.graph (Lost p m'.facts) := by
    intro c u hu
    rcases hnew c u hu with ⟨a, ha⟩ | hu
    · exact hold u (h.exposed a u ha)
    · exact hu
  refine ⟨hexposed, fun x hx => ?_⟩
  rcases hstep.visits_cases hx with hx | ⟨a, -, ha⟩
  · exact hold x.2 (h.visits x hx)
  · exact hexposed a x.2 ha

theorem Ended.graph_eq {r : LoopRun} (he : Ended s m r f) : f.graph = m.facts.graph := by
  cases he <;> rfl

theorem Defined.step {m' : Machine} (h : Defined p m) (hm : Reaches p s m) (hstep : Step p s m m') :
    Defined p m' := by
  cases hstep.change with
  | @processed b t f f₁ he hp hcore =>
    obtain ⟨hk, ht⟩ := he.defined h
    obtain ⟨t', f', hs, rfl⟩ := Transfer.process_eq_ok.1 hp
    obtain ⟨hk', ht'⟩ : f.graph.Keeps (p.RenamesAway b) f'.graph ∧
        (t.Defined f.graph (Lost p m.facts) → t'.Defined f'.graph (Lost p m.facts)) :=
        Transfer.statements_defined hs
    have hgraph : m'.facts.graph = f'.graph := (Facts.graph_of_core hcore :)
    have hb : ∀ base, p.RenamesAway b base → Lost p m'.facts base := fun base hbase =>
      ⟨b, hm.claimed_of_enters hstep he, hbase⟩
    refine h.of_keeps hstep ?_ fun c u hu => ?_
    · rw [hgraph]
      exact .trans (hk.mono fun _ hf => hf.elim) (hk'.mono hb)
    · rw [Facts.exposed_of_core hcore, Facts.getElem?_expose] at hu
      split at hu
      · cases hu
        rw [hgraph]
        refine .inr ((ht' ht).mono ?_)
        rintro base ⟨c, hc, hbase⟩
        exact ⟨c, hstep.claimed_mono hc, hbase⟩
      · rw [(Transfer.statements_eq_ok hs).2.1, he.exposed_eq] at hu
        exact .inl ⟨c, hu⟩
  | @ended r outer f f₁ hl he hc hcore =>
    have hgraph : f₁.graph = m.facts.graph := by
      rw [← he.graph_eq]
      rcases LoopRun.close_eq_ok hc with ⟨-, rfl⟩ | ⟨l, t, -, -, rfl⟩ <;> rfl
    refine h.of_keeps hstep ?_ fun c u hu => .inl ?_
    · rw [Facts.graph_of_core hcore, hgraph]
      exact .refl _
    · -- the header leaves what its latch left before
      rw [Facts.exposed_of_core hcore] at hu
      rw [← he.exposed_eq]
      rcases LoopRun.close_eq_ok hc with ⟨-, rfl⟩ | ⟨l, t, -, hlatch, rfl⟩
      · exact ⟨c, hu⟩
      · rw [Facts.getElem?_expose] at hu
        split at hu
        · cases hu
          exact ⟨l, hlatch⟩
        · exact ⟨c, hu⟩
  | none hn hcore =>
    refine h.of_keeps hstep ?_ fun c u hu => .inl ⟨c, ?_⟩
    · rw [Facts.graph_of_core hcore]
      exact .refl _
    · rwa [Facts.exposed_of_core hcore] at hu

theorem Reaches.defined (hm : Reaches p s m) : Defined p m := by
  refine hm.invariant (P := Defined p) ⟨?_, ?_⟩ fun m m' hm h hstep => h.step hm hstep
  · simp [start, Facts.start]
  · intro x hx
    rw [List.mem_singleton.1 hx]
    exact .empty

/-- A bound name that the analysis finds no definition of is renamed by a block that was processed
before. -/
theorem Before.renamed {base : String} {v : Version} (h : Before p s b i t f)
    (hv : t[base]? = some v) (hslot : f.graph.slot ⟨base, v.signature, .defines⟩ = []) :
    ∃ c ≠ b, f.claimed c = true ∧ p.RenamesAway c base := by
  obtain ⟨m, t₀, f₀, hm, he, hs⟩ := h
  have ht : t.Defined f.graph (Lost p m.facts) :=
    (Transfer.statements_defined hs).2 (he.defined hm.defined).2
  obtain ⟨c, hc, hbase⟩ : Lost p m.facts base := by
    by_contra hno
    exact ht base v hv hno hslot
  refine ⟨c, ?_, ?_, hbase⟩
  · rintro rfl
    rw [he.unclaimed] at hc
    cases hc
  · rw [Facts.claimed, (Transfer.statements_eq_ok hs).2.1, he.exposed_eq]
    exact hc

theorem Before.claimed {m : Machine} {c : BlockId} (h : Before p s b i t f) (hm : Reaches p s m)
    (hf : m.finished p = true) (hc : f.claimed c = true) : m.facts.claimed c = true := by
  obtain ⟨m₀, t₀, f₀, hm₀, he, hs⟩ := h
  refine hm₀.claimed_of_finished hm hf ?_
  rwa [Facts.claimed, (Transfer.statements_eq_ok hs).2.1, he.exposed_eq] at hc

end Machine

/-! ## reads that are reported -/

/-- Some finding says that the use in the statement dangles. -/
def Facts.ReportsDangling (f : Facts) (σ : StmtId) : Prop :=
  ∃ x ∈ f.diagnostics, x.kind = .danglingUse ∧ x.stmt = some σ

instance (f : Facts) (σ : StmtId) : Decidable (f.ReportsDangling σ) :=
  inferInstanceAs (Decidable (∃ x ∈ f.diagnostics, x.kind = .danglingUse ∧ x.stmt = some σ))

theorem Report.reportsDangling_iff {p : Procedure} {s : Settings} {r : Report} {b : BlockId}
    {i : Nat} {stmt : Statement} {t : Bindings} {f : Facts} (hw : p.WellFormed)
    (h : analyze p s = .ok r) (hc : r.facts.claimed b = true)
    (hi : (p.statementsOf b)[i]? = some stmt) (hbefore : Machine.Before p s b i t f) :
    r.facts.ReportsDangling stmt.id ↔ (Transfer.finding? b t f stmt).isSome = true := by
  constructor
  · rintro ⟨x, hx, hkind, hstmt⟩
    obtain ⟨c, j, -, stmt', t', f', hj, hbefore', hfound⟩ := (Report.dangling_iff h x).1 ⟨hx, hkind⟩
    -- statements have names of their own, so that the finding is of this one
    have hid : stmt'.id = stmt.id := by
      have heq := (Transfer.finding?_kind hfound).2.symm.trans hstmt
      exact Option.some.inj heq
    obtain ⟨rfl, rfl⟩ := hw.stmt_inj (List.mem_of_getElem? hj) (List.mem_of_getElem? hi) hid
    obtain rfl : j = i := by
      have hnodup : (p.statementsOf c).Nodup := (hw.statements_nodup c).of_map _
      obtain ⟨hj', -⟩ := List.getElem?_eq_some_iff.1 hj
      exact (List.getElem?_inj hj' hnodup).1 (hj.trans hi.symm)
    obtain ⟨rfl, rfl⟩ := hbefore'.unique hbefore
    rw [hfound]
    rfl
  · intro hsome
    obtain ⟨x, hx⟩ := Option.isSome_iff_exists.1 hsome
    obtain ⟨hmem, hkind⟩ := (Report.dangling_iff h x).2 ⟨b, i, hc, stmt, t, f, hi, hbefore, hx⟩
    exact ⟨x, hmem, hkind, (Transfer.finding?_kind hx).2⟩

theorem Transfer.read_of_finding? {b : BlockId} {t : Bindings} {f : Facts} {stmt : Statement}
    {x : Diagnostic} (h : finding? b t f stmt = some x) : ∃ a, stmt.action = .read a := by
  unfold finding? at h
  split at h
  · rename_i a hact
    exact ⟨a, hact⟩
  · cases h

/-- Dangling uses are reported of reads in processed blocks. Such a read is reported when its array
is not bound, or when it is and no definition of it is found; and the latter happens only if another
block, processed before, renames the array. So where no other processed block renames the array of a
read, the read is reported exactly if the array is not bound. -/
theorem analyze_dangling_reads {d : Draft} {p : Procedure} {s : Settings} {r : Report}
    (hb : d.build = .ok p) (h : analyze p s = .ok r) :
    (∀ x ∈ r.facts.diagnostics, x.kind = .danglingUse → ∃ b stmt a, r.facts.claimed b = true ∧
      stmt ∈ p.statementsOf b ∧ stmt.action = .read a ∧ x.stmt = some stmt.id) ∧
    ∀ b i stmt a, r.facts.claimed b = true → (p.statementsOf b)[i]? = some stmt →
      stmt.action = .read a →
      ∃ t f, Machine.Before p s b i t f ∧
        (r.facts.ReportsDangling stmt.id ↔
          t[a.base]? = none ∨ ∃ v, t[a.base]? = some v ∧
            f.graph.slot ⟨a.base, v.signature, .defines⟩ = []) ∧
        (∀ v, t[a.base]? = some v → f.graph.slot ⟨a.base, v.signature, .defines⟩ = [] →
          ∃ c ≠ b, f.claimed c = true ∧ p.RenamesAway c a.base) ∧
        ((∀ c, c ≠ b → r.facts.claimed c = true → ¬ p.RenamesAway c a.base) →
          (r.facts.ReportsDangling stmt.id ↔ t[a.base]? = none)) := by
  have hw : p.WellFormed := .of_build hb
  obtain ⟨-, m, hrun, hm, rfl⟩ := analyze_eq_ok h
  have hfinal : ∀ c, m.conclude.claimed c = m.facts.claimed c :=
    fun c => by rw [Machine.conclude_eq]; rfl
  refine ⟨fun x hx hkind => ?_, fun b i stmt a hc hi hact => ?_⟩
  · obtain ⟨b, i, hc, stmt, t, f, hi, -, hfound⟩ := (Report.dangling_iff h x).1 ⟨hx, hkind⟩
    obtain ⟨a, hact⟩ := Transfer.read_of_finding? hfound
    exact ⟨b, stmt, a, hc, List.mem_of_getElem? hi, hact, (Transfer.finding?_kind hfound).2⟩
  · obtain ⟨t, f, hbefore⟩ := hm.before ((hfinal b).symm.trans hc) i
    have hiff := (Report.reportsDangling_iff hw h hc hi hbefore).trans
      (Transfer.isSome_finding? hact)
    refine ⟨t, f, hbefore, hiff, fun v => hbefore.renamed,
      fun hothers => hiff.trans (or_iff_left ?_)⟩
    rintro ⟨v, hv, hslot⟩
    obtain ⟨c, hne, hclaimed, haway⟩ := hbefore.renamed hv hslot
    refine hothers c hne ?_ haway
    rw [hfinal]
    exact hbefore.claimed hm (Machine.run_finished hrun) hclaimed

/-- One branch gives the array another name and reads it under that name, which the other branch
does not know. -/
def renamedInBranch : Draft where
  name := "renamed in a branch"
  blocks := [(⟨0⟩, [⟨⟨0⟩, 1, "a[i] = x", .write ⟨"a", .expr "i"⟩⟩]),
    (⟨1⟩, [⟨⟨1⟩, 2, "b = a", .rename "a" "b"⟩, ⟨⟨2⟩, 3, "y = b[i]", .read ⟨"b", .expr "i"⟩⟩]),
    (⟨2⟩, [⟨⟨3⟩, 4, "y = b[i]", .read ⟨"b", .expr "i"⟩⟩])]
  edges := [(⟨0⟩, ⟨1⟩), (⟨0⟩, ⟨2⟩)]

theorem analyze_dangling_reads_renamedInBranch :
    ∃ p r, renamedInBranch.build = .ok p ∧ analyze p {} = .ok r ∧ (∀ c, ¬ p.RenamesAway c "b") ∧
      ¬ r.facts.ReportsDangling ⟨2⟩ ∧ (∃ t f, Machine.Before p {} ⟨1⟩ 1 t f ∧ t["b"]? ≠ none) ∧
      r.facts.ReportsDangling ⟨3⟩ ∧ ∃ t f, Machine.Before p {} ⟨2⟩ 0 t f ∧ t["b"]? = none := by
  obtain ⟨p, r, hb, h, hP⟩ := Draft.check_eq_true (d := renamedInBranch) (s := {})
    (P := fun p r => (∀ k ∈ p.blocks, ∀ stmt ∈ k.statements, stmt.action.renamesAway "b" = false) ∧
      r.facts.claimed ⟨1⟩ = true ∧ r.facts.claimed ⟨2⟩ = true ∧
      (p.statementsOf ⟨1⟩)[1]? = some ⟨⟨2⟩, 3, "y = b[i]", .read ⟨"b", .expr "i"⟩⟩ ∧
      (p.statementsOf ⟨2⟩)[0]? = some ⟨⟨3⟩, 4, "y = b[i]", .read ⟨"b", .expr "i"⟩⟩ ∧
      ¬ r.facts.ReportsDangling ⟨2⟩ ∧ r.facts.ReportsDangling ⟨3⟩) (by decide +kernel)
  obtain ⟨hall, hone, htwo, hread, hread', hno, hyes⟩ := of_decide_eq_true hP
  have haway : ∀ c, ¬ p.RenamesAway c "b" := by
    rintro c ⟨stmt, hmem, hact⟩
    obtain ⟨k, hk, hmem⟩ := Procedure.mem_statementsOf.1 hmem
    rw [hall k (Procedure.block?_mem hk) stmt hmem] at hact
    cases hact
  have hreads := (analyze_dangling_reads hb h).2
  obtain ⟨t, f, hbefore, -, -, hiff⟩ := hreads ⟨1⟩ 1 _ _ hone hread rfl
  obtain ⟨t', f', hbefore', -, -, hiff'⟩ := hreads ⟨2⟩ 0 _ _ htwo hread' rfl
  refine ⟨p, r, hb, h, haway, hno, ⟨t, f, hbefore, fun hnone => ?_⟩, hyes, t', f', hbefore', ?_⟩
  · exact hno ((hiff fun c _ _ => haway c).2 hnone)
  · exact (hiff' fun c _ _ => haway c).1 hyes

/-- Behind a write, one branch renames the array and the other one reads it. -/
def renamedBeside : Draft where
  name := "rename beside a read"
  blocks := [(⟨0⟩, [⟨⟨0⟩, 1, "a[i] = x", .write ⟨"a", .expr "i"⟩⟩]),
    (⟨1⟩, [⟨⟨1⟩, 2, "b = a", .rename "a" "b"⟩]),
    (⟨2⟩, [⟨⟨2⟩, 3, "y = a[i]", .read ⟨"a", .expr "i"⟩⟩])]
  edges := [(⟨0⟩, ⟨1⟩), (⟨0⟩, ⟨2⟩)]

theorem rename_hides_definition :
    ∃ p r t f, renamedBeside.build = .ok p ∧ analyze p {} = .ok r ∧ r.facts.ReportsDangling ⟨2⟩ ∧
      (p.statementsOf ⟨2⟩)[0]? = some ⟨⟨2⟩, 3, "y = a[i]", .read ⟨"a", .expr "i"⟩⟩ ∧
      Machine.Before p {} ⟨2⟩ 0 t f ∧
      t["a"]?.map Version.leaves = some [(⟨0⟩, ⟨0⟩)] := by
  obtain ⟨p, r, hb, h, hP⟩ := Draft.check_eq_true (d := renamedBeside) (s := {})
    (P := fun p r =>
      match Machine.run p {} 2 (.start p {}) with
      | .ok m => r.facts.ReportsDangling ⟨2⟩ ∧
          (p.statementsOf ⟨2⟩)[0]? = some ⟨⟨2⟩, 3, "y = a[i]", .read ⟨"a", .expr "i"⟩⟩ ∧
          (p.predecessors ⟨2⟩).length < 2 ∧ m.loops = [] ∧ m.facts.claimed ⟨2⟩ = false ∧
          m.visits.map (fun x => (x.1, x.2["a"]?.map Version.leaves)) = [(⟨2⟩, some [(⟨0⟩, ⟨0⟩)])]
      | .error _ => false) (by decide +kernel)
  split at hP
  · rename_i m hrun
    obtain ⟨hreported, hread, hpreds, hl, hno, hv⟩ := of_decide_eq_true hP
    obtain ⟨⟨c, t⟩, rest, hvisits, heq, -⟩ := List.map_eq_cons_iff.1 hv
    obtain ⟨rfl, hleaves⟩ := Prod.mk.inj heq
    exact ⟨p, r, t, m.facts, hb, h, hreported, hread,
      ⟨m, t, m.facts, Machine.reaches_of_run .refl hrun, .brought hl hvisits hno (.inl hpreds),
        rfl⟩, hleaves⟩
  · cases hP

end ArrayFlow
