import ArrayFlow.Proofs.Exploration
import ArrayFlow.Proofs.Merges

/-!
# How large version numbers get

A write numbers its version one past the version before it, and a merge one past the largest of
those that it joins. So a number only grows where a write is applied or a merged version is made,
and by one each time.

* `Version.Below`       : a version and all versions inside of it are numbered up to a bound;
* `Transfer.statements_below`, `Merge.names_below` : statements raise the bound by the number of
  writes, and merges by the number of merged versions;
* `Machine.Tallied`     : the states that an analysis goes through, with the writes and merges so
  far;
* `Machine.Passes`      : the moments inside of a step as well, between two statements and between
  two names of a merge;
* `Passes.bounded`      : the bound at each of them;
* `Passes.events_le`    : an analysis that ends has at most as many writes and merges as it finds
  nodes;
* `numbers_bounded`     : so no number gets past the number of writes and merges, and no addition
  overflows before they do.
-/

namespace ArrayFlow

open DefUse

/-! ## bounds -/

namespace Version

/-- No version inside of this one has a number past `n`. -/
def Below (n : Nat) (v : Version) : Prop := ∀ u, Inside u v → u.number ≤ n

variable {n n' : Nat} {v : Version}

theorem below_single {k : Nat} {b : BlockId} {σ : StmtId} {l : Nat} {wr rd : Bool} :
    Below n (single k b σ l wr rd) ↔ k ≤ n := forall_inside_single

theorem below_phi {k : Nat} {vs : List Version} {b : BlockId} {l : Nat} :
    Below n (phi k vs b l) ↔ k ≤ n ∧ ∀ v ∈ vs, Below n v := forall_inside_phi

theorem Below.mono (h : Below n v) (hle : n ≤ n') : Below n' v :=
  fun u hu => Nat.le_trans (h u hu) hle

theorem Below.markRead (h : Below n v) : Below n v.markRead := by
  cases v with
  | single => exact below_single.2 (below_single.1 h)
  | phi => exact h

theorem below_merged {inputs : List Version} {b : BlockId} {line : Nat}
    (hv : phi? inputs b line = some v) (hin : ∀ w ∈ inputs, Below n w) : Below (n + 1) v := by
  obtain ⟨-, rfl⟩ := phi?_eq_some.1 hv
  refine below_phi.2 ⟨?_, fun w hw => (hin w hw).mono (Nat.le_succ n)⟩
  rcases (foldl_max_spec inputs 0).2.2 with heq | ⟨w, hw, heq⟩
  · rw [maxNumber, heq]
    omega
  · rw [maxNumber, ← heq]
    exact Nat.succ_le_succ (hin w hw w .self)

end Version

open Version (Below)

/-! ## statements and merges -/

def Action.isWrite : Action → Bool
  | write _ => true
  | _ => false

namespace Transfer

variable {s : Settings} {b : BlockId} {t t' : Bindings} {f f' : Facts} {n : Nat}

def writes (stmts : List Statement) : Nat := stmts.countP (·.action.isWrite)

theorem writes_cons (stmt : Statement) (rest : List Statement) :
    writes (stmt :: rest) = writes [stmt] + writes rest := by
  simp only [writes, List.countP_cons, List.countP_nil]
  omega

theorem below_made {stmt : Statement} {v : Version} (ht : t.All (Below n))
    (hv : made? b t stmt = some v) :
    Below (n + writes [stmt]) v := by
  unfold made? at hv
  split at hv
  · rename_i a hact
    have hone : writes [stmt] = 1 := by simp [writes, hact, Action.isWrite]
    rw [hone]
    split at hv
    · rename_i w hw
      cases hv
      exact Version.below_single.2 (Nat.succ_le_succ (ht a.base w hw w .self))
    · cases hv
      exact Version.below_single.2 (Nat.zero_le _)
  · cases hv
    exact Version.below_single.2 (Nat.zero_le _)
  · cases hv

theorem statement_write_isOk {stmt : Statement} {a : Access} (hact : stmt.action = .write a) :
    ∃ x, statement s b t f stmt = .ok x := by
  unfold statement
  rw [hact]
  dsimp only
  unfold write Bindings.increment
  rw [Std.ExtTreeMap.contains_eq_isSome_getElem?]
  cases t[a.base]? <;> exact ⟨_, rfl⟩

/-- Statements raise the bound by the number of their writes. -/
theorem statements_below {stmts : List Statement} (h : f.All (Below n)) (ht : t.All (Below n))
    (hs : statements s b stmts t f = .ok (t', f')) :
    t'.All (Below (n + writes stmts)) ∧ f'.All (Below (n + writes stmts)) := by
  induction stmts generalizing t f n with
  | nil =>
    cases hs
    exact ⟨ht, h⟩
  | cons stmt rest ih =>
    rw [statements_cons, bind_eq_ok] at hs
    obtain ⟨⟨t₁, f₁⟩, h₁, hs⟩ := hs
    have hraise : ∀ v, Below n v → Below (n + writes [stmt]) v := fun v hv =>
      hv.mono (Nat.le_add_right ..)
    obtain ⟨ht₁, hf₁⟩ := (h.mono hraise).statement (P := Below (n + writes [stmt]))
      (fun _ => Below.markRead)
      (ht.mono hraise) (fun _ => below_made ht) h₁
    rw [writes_cons, ← Nat.add_assoc]
    exact ih hf₁ ht₁ hs

/-- A write adds a node, and no statement takes one away. -/
theorem statement_size {stmt : Statement} (h : statement s b t f stmt = .ok (t', f')) :
    f.graph.nodes.size + writes [stmt] ≤ f'.graph.nodes.size := by
  have hcount : writes [stmt] = if stmt.action.isWrite then 1
    else 0 := by simp [writes, List.countP_cons]
  rw [hcount]
  cases statement_effect h with
  | write hact | create hact | redefined hact =>
    rw [hact]
    simp [Action.isWrite, Facts.define, Facts.record, Graph.addDef, Graph.push]
  | used hact | dangling hact =>
    rw [hact]
    simp [Action.isWrite, Facts.report, Graph.addUse_nodes]
  | missed hact | unmoved hact | moved hact | other hact =>
    rw [hact]
    simp [Action.isWrite, Facts.report]

theorem statements_size {stmts : List Statement} (h : statements s b stmts t f = .ok (t', f')) :
    f.graph.nodes.size + writes stmts ≤ f'.graph.nodes.size := by
  induction stmts generalizing t f with
  | nil =>
    cases h
    exact Nat.le_refl _
  | cons stmt rest ih =>
    rw [statements_cons, bind_eq_ok] at h
    obtain ⟨⟨t₁, f₁⟩, h₁, h⟩ := h
    have hfirst := statement_size h₁
    have hrest : f₁.graph.nodes.size + writes rest ≤ f'.graph.nodes.size := ih h
    rw [writes_cons]
    omega

end Transfer

namespace Merge

variable {s : Settings} {b : BlockId} {line : Nat} {preds : List BlockId} {tables : List Bindings}
  {t : Bindings} {f f' : Facts} {n : Nat}

theorem below_phiNode? {bases : List String} {k : Node} (htables : ∀ u ∈ tables, u.All (Below n))
    (hk : k ∈ bases.flatMap (phiNode? s b line tables)) :
    Below (n + (bases.flatMap (phiNode? s b line tables)).length) k.version := by
  have hpos : 0 < (bases.flatMap (phiNode? s b line tables)).length := List.length_pos_of_mem hk
  obtain ⟨base, -, hk⟩ := List.mem_flatMap.1 hk
  refine (Version.below_merged (version_of_phiNode? hk) fun w hw => ?_).mono
    (Nat.add_le_add_left hpos n)
  obtain ⟨u, hu, hw⟩ := List.mem_filterMap.1 hw
  exact htables u hu base w hw

theorem eq_absorb_of_names {bases : List String}
    (hr : bases.foldl (fun (t, f) base => name s b line preds tables t f base) (∅, f) = (t, f')) :
    f' = f.absorb (bases.flatMap (phiNode? s b line tables))
      (bases.flatMap (falsePhi? b preds tables)) :=
  (congrArg Prod.snd hr).symm.trans (names_absorb ..)

/-- Each merged version that is made for a name adds one node. -/
theorem size_names {bases : List String}
    (hr : bases.foldl (fun (t, f) base => name s b line preds tables t f base) (∅, f) = (t, f')) :
    f'.graph.nodes.size = f.graph.nodes.size +
      (bases.flatMap (phiNode? s b line tables)).length := by
  rw [eq_absorb_of_names hr]
  simp [Facts.absorb]

/-- Merging some names raises the bound by the number of nodes that are added. -/
theorem names_below {bases : List String} (htables : ∀ u ∈ tables, u.All (Below n))
    (h : f.All (Below n))
    (hr : bases.foldl (fun (t, f) base => name s b line preds tables t f base) (∅, f) = (t, f')) :
    t.All (Below (n + (f'.graph.nodes.size - f.graph.nodes.size))) ∧
      f'.All (Below (n + (f'.graph.nodes.size - f.graph.nodes.size))) := by
  rw [size_names hr, Nat.add_sub_cancel_left]
  have hraise : ∀ v, Below n v → Below (n + (bases.flatMap (phiNode? s b line tables)).length) v :=
    fun v hv => hv.mono (Nat.le_add_right ..)
  have hmade : ∀ k ∈ bases.flatMap (phiNode? s b line tables),
      Below (n + (bases.flatMap (phiNode? s b line tables)).length) k.version := fun k hk =>
      below_phiNode? htables hk
  have hall := Facts.All.names (P := Below (n + (bases.flatMap (phiNode? s b line tables)).length))
    (fun _ => Below.markRead) preds bases (fun u hu => (htables u hu).mono hraise)
      (h.mono hraise) .empty hmade
  rwa [hr] at hall

theorem predecessors_below (h : f.All (Below n))
    (hm : predecessors s f b line preds = .ok (t, f')) :
    t.All (Below (n + (f'.graph.nodes.size - f.graph.nodes.size))) ∧
      f'.All (Below (n + (f'.graph.nodes.size - f.graph.nodes.size))) := by
  have hraise : ∀ v, Below n v → Below (n + (f'.graph.nodes.size - f.graph.nodes.size)) v :=
    fun v hv => hv.mono (Nat.le_add_right ..)
  rcases predecessors_cases hm with ⟨-, rfl, rfl⟩ | ⟨a, -, ha, rfl⟩ | ⟨-, hready, hr⟩
  · exact ⟨.empty, h.mono hraise⟩
  · exact ⟨(h.exposed a t ha).mono hraise, h.mono hraise⟩
  · refine names_below (fun u hu => ?_) h hr
    obtain ⟨c, hc, rfl⟩ := List.mem_map.1 hu
    exact h.exposed c _ (Exposed.isReady_iff.1 (hready c hc))

theorem predecessors_made (hm : predecessors s f b line preds = .ok (t, f')) :
    ∃ made : List Node, f'.graph.nodes = f.graph.nodes ++ made.toArray ∧
      ∀ n ∈ made, n.isPhi = true := by
  rcases predecessors_cases hm with ⟨-, -, rfl⟩ | ⟨-, -, -, rfl⟩ | ⟨-, -, hr⟩
  · exact ⟨[], by simp, by simp⟩
  · exact ⟨[], by simp, by simp⟩
  · rw [eq_absorb_of_names hr]
    refine ⟨_, rfl, fun n hn => ?_⟩
    obtain ⟨base, -, hn⟩ := List.mem_flatMap.1 hn
    rw [Node.isPhi, (Version.phi?_eq_some.1 (version_of_phiNode? hn)).2, Version.isPhi]

theorem mem_nodes_of_phiNode? {base : String} {k : Node}
    (hm : predecessors s f b line preds = .ok (t, f')) (hlen : 2 ≤ preds.length)
    (hk : k ∈ phiNode? s b line (preds.map f.exposed.table) base) : k ∈ f'.graph.nodes := by
  rcases predecessors_cases hm with ⟨rfl, -⟩ | ⟨a, rfl, -⟩ | ⟨-, -, hr⟩
  · simp at hlen
  · simp at hlen
  · rw [eq_absorb_of_names hr]
    refine Array.mem_append_right _ (List.mem_toArray.2 (List.mem_flatMap.2 ⟨base, ?_, hk⟩))
    have htwo := (Version.phi?_eq_some.1 (version_of_phiNode? hk)).1
    obtain ⟨w, hw⟩ := List.exists_mem_of_length_pos (Nat.lt_of_lt_of_le Nat.zero_lt_two htwo)
    obtain ⟨u, hu, hw⟩ := List.mem_filterMap.1 hw
    exact mem_names.2 ⟨u, hu,
      Std.ExtTreeMap.mem_iff_isSome_getElem?.2 (Option.isSome_of_eq_some hw)⟩

end Merge

/-! ## the run -/

namespace Machine

variable {p : Procedure} {s : Settings} {m m' : Machine} {b : BlockId} {t : Bindings} {f : Facts}
  {n writes phis : Nat}

theorem Enters.below (he : Enters p s m b t f) (h : m.facts.All (Below n))
    (hv : ∀ x ∈ m.visits, x.2.All (Below n)) :
    t.All (Below (n + (f.graph.nodes.size - m.facts.graph.nodes.size))) ∧
      f.All (Below (n + (f.graph.nodes.size - m.facts.graph.nodes.size))) := by
  rcases he.source with ⟨hmem, rfl⟩ | ⟨preds, -, hm⟩
  · simpa using ⟨hv _ hmem, h⟩
  · exact Merge.predecessors_below h hm

theorem Enters.made (he : Enters p s m b t f) :
    ∃ made : List Node, f.graph.nodes = m.facts.graph.nodes ++ made.toArray ∧
      ∀ n ∈ made, n.isPhi = true := by
  rcases he.source with ⟨-, rfl⟩ | ⟨preds, -, hm⟩
  · exact ⟨[], by simp, by simp⟩
  · exact Merge.predecessors_made hm

/-- The states that the analysis goes through, with the number of writes that were applied and of
merged versions that were made on the way. A merged version is made before its block is entered, and
adds one node. -/
inductive Tallied (p : Procedure) (s : Settings) : Machine → Nat → Nat → Prop
  | start : Tallied p s (start p s) 0 0
  | processed {m m' : Machine} {b : BlockId} {t : Bindings} {f : Facts} {writes phis : Nat}
      (h : Tallied p s m writes phis) (he : Enters p s m b t f) (hstep : step p s m = .ok m') :
      Tallied p s m' (writes + Transfer.writes (p.statementsOf b))
        (phis + (f.graph.nodes.size - m.facts.graph.nodes.size))
  | idle {m m' : Machine} {writes phis : Nat} (h : Tallied p s m writes phis)
      (hno : ∀ b t f, ¬ Enters p s m b t f) (hstep : step p s m = .ok m') :
      Tallied p s m' writes phis

theorem Reaches.tallied (hm : Reaches p s m) : ∃ writes phis, Tallied p s m writes phis := by
  induction hm with
  | refl => exact ⟨0, 0, .start⟩
  | tail hm hstep ih =>
    obtain ⟨writes, phis, h⟩ := ih
    rcases Reaches.claimed_step hm (step_cases hstep) with ⟨b, t, f, he, -⟩ | ⟨hno, -⟩
    · exact ⟨_, _, h.processed he hstep⟩
    · exact ⟨_, _, h.idle hno hstep⟩

/-- All versions that are kept between two steps, by induction on the run. -/
theorem Tallied.bounded (h : Tallied p s m writes phis) :
    m.facts.All (Below (writes + phis)) ∧ ∀ x ∈ m.visits, x.2.All (Below (writes + phis)) := by
  induction h with
  | start =>
    refine ⟨.start s, fun x hx => ?_⟩
    rw [List.mem_singleton.1 hx]
    exact .empty
  | @processed m m' b t f writes phis h he hstep ih =>
    refine (step_cases hstep).all ih.1 ih.2
      (fun v hv => hv.mono (by omega)) fun b' t' f' f₁ he' hp => ?_
    obtain ⟨rfl, rfl, rfl⟩ := he.deterministic he'
    obtain ⟨ht, hf⟩ := he.below ih.1 ih.2
    obtain ⟨u, g, hs, rfl⟩ := Transfer.process_eq_ok.1 hp
    obtain ⟨hu, hg⟩ := Transfer.statements_below hf ht hs
    exact (hg.expose hu).mono fun v hv => hv.mono (by omega)
  | idle h hno hstep ih =>
    exact (step_cases hstep).all ih.1 ih.2 (fun _ => id) fun _ _ _ _ he _ => absurd he (hno _ _ _)

/-- What there is at a moment of an analysis: the bindings at work, the facts, the bindings that the
walk brings along, and the number of writes and of merged versions so far. -/
structure Moment where
  bindings : Bindings
  facts : Facts
  visits : List (BlockId × Bindings)
  writes : Nat
  phis : Nat

/-- The version is kept somewhere at the moment. -/
inductive Moment.Keeps (x : Moment) (v : Version) : Prop
  | bound {base : String} (hv : x.bindings[base]? = some v)
  | held (hv : x.facts.Holds v)
  | brought {c : BlockId} {u : Bindings} {base : String} (hu : (c, u) ∈ x.visits)
      (hv : u[base]? = some v)

/-- The analysis passes through the moment, whether or not the step that it is in succeeds. -/
inductive Passes (p : Procedure) (s : Settings) : Moment → Prop
  /-- Between two steps there are no bindings at work. -/
  | between {m : Machine} {writes phis : Nat} (h : Tallied p s m writes phis) :
      Passes p s ⟨∅, m.facts, m.visits, writes, phis⟩
  /-- The names `done` were merged, and the names `rest` are to come. -/
  | merging {m : Machine} {writes phis : Nat} {b : BlockId} {t t' : Bindings} {f f' : Facts}
      {preds : List BlockId} {done rest : List String} (h : Tallied p s m writes phis)
      (he : Enters p s m b t' f') (hsub : preds.Sublist (p.predecessors b))
      (hm : Merge.predecessors s m.facts b (p.headLine b) preds = .ok (t', f'))
      (hlen : 2 ≤ preds.length)
      (hnames : Merge.names (preds.map m.facts.exposed.table) = done ++ rest)
      (hdone : done.foldl (fun (t, f) base =>
        Merge.name s b (p.headLine b) preds (preds.map m.facts.exposed.table) t f base) (∅,
          m.facts) = (t, f)) :
      Passes p s ⟨t, f, m.visits, writes, phis + (f.graph.nodes.size - m.facts.graph.nodes.size)⟩
  /-- The statements `done` of a block were applied, and the statements `rest` are to come. -/
  | applying {m : Machine} {writes phis : Nat} {b : BlockId} {t t' : Bindings} {f f' : Facts}
      {done rest : List Statement} (h : Tallied p s m writes phis) (he : Enters p s m b t' f')
      (hstmts : p.statementsOf b = done ++ rest)
      (hdone : Transfer.statements s b done t' f' = .ok (t, f)) :
      Passes p s ⟨t, f, m.visits, writes + Transfer.writes done,
        phis + (f'.graph.nodes.size - m.facts.graph.nodes.size)⟩

/-- All versions that are kept at a moment. -/
theorem Passes.bounded {x : Moment} (h : Passes p s x) :
    x.bindings.All (Below (x.writes + x.phis)) ∧ x.facts.All (Below (x.writes + x.phis)) ∧
      ∀ y ∈ x.visits, y.2.All (Below (x.writes + x.phis)) := by
  cases h with
  | between h => exact ⟨.empty, h.bounded⟩
  | @merging m writes phis _ _ _ _ _ preds _ _ h he hsub hm hlen hnames hdone =>
    obtain ⟨hf, hv⟩ := h.bounded
    have htables : ∀ u ∈ preds.map m.facts.exposed.table, u.All (Below (writes + phis)) := by
      intro u hu
      obtain ⟨c, hc, rfl⟩ := List.mem_map.1 hu
      exact hf.exposed c _ (Exposed.isReady_iff.1 ((Merge.predecessors_eq_ok hm).1 c hc))
    obtain ⟨ht, hf'⟩ := Merge.names_below htables hf hdone
    simp only [← Nat.add_assoc]
    exact ⟨ht, hf', fun y hy => (hv y hy).mono fun v hv => hv.mono (Nat.le_add_right ..)⟩
  | applying h he hstmts hdone =>
    obtain ⟨hf, hv⟩ := h.bounded
    obtain ⟨ht₀, hf₀⟩ := he.below hf hv
    obtain ⟨ht, hf'⟩ := Transfer.statements_below hf₀ ht₀ hdone
    refine ⟨ht.mono fun v hv => hv.mono ?_, hf'.mono fun v hv => hv.mono ?_,
      fun y hy => (hv y hy).mono fun v hv => hv.mono ?_⟩
    · dsimp only
      omega
    · dsimp only
      omega
    · dsimp only
      omega

theorem Passes.number_le {x : Moment} (h : Passes p s x) {v u : Version} (hv : x.Keeps v)
    (hu : u.Inside v) :
    u.number ≤ x.writes + x.phis := by
  obtain ⟨ht, hf, hvisits⟩ := h.bounded
  cases hv with
  | bound hv => exact ht _ v hv u hu
  | held hv => exact hf.holds hv u hu
  | brought hx hv => exact hvisits _ hx _ v hv u hu

/-! ## as many events as nodes -/

theorem Enters.size_le (he : Enters p s m b t f) :
    m.facts.graph.nodes.size ≤ f.graph.nodes.size := by
  obtain ⟨made, hmade, -⟩ := he.made
  rw [hmade, Array.size_append]
  exact Nat.le_add_right ..

/-- Behind a step that enters a block, the nodes are those that its statements leave. -/
theorem Step.exists_statements (hstep : Step p s m m') (he : Enters p s m b t f) :
    ∃ t' f', Transfer.statements s b (p.statementsOf b) t f = .ok (t', f') ∧
      m'.facts.graph = f'.graph := by
  cases hstep.change with
  | processed he' hp hcore =>
    obtain ⟨rfl, rfl, rfl⟩ := he.deterministic he'
    obtain ⟨t', f', hs, rfl⟩ := Transfer.process_eq_ok.1 hp
    exact ⟨t', f', hs, (Facts.graph_of_core hcore :)⟩
  | ended hl he' => exact absurd he (he'.loops_ne hl)
  | none hn => exact absurd he (hn _ _ _)

theorem Step.graph_of_not_enters (hstep : Step p s m m') (hno : ∀ b t f, ¬ Enters p s m b t f) :
    m'.facts.graph = m.facts.graph := by
  cases hstep.change with
  | processed he => exact absurd he (hno _ _ _)
  | @ended r outer f f₁ hl he hc hcore =>
    have hended : f.graph = m.facts.graph := by cases he <;> rfl
    have hclosed : f₁.graph = f.graph := by
      rcases LoopRun.close_eq_ok hc with ⟨-, rfl⟩ | ⟨l, u, -, -, rfl⟩ <;> rfl
    rw [Facts.graph_of_core hcore, hclosed, hended]
  | none _ hcore => exact Facts.graph_of_core hcore

theorem Tallied.events_le (h : Tallied p s m writes phis) :
    Reaches p s m ∧ writes + phis ≤ m.facts.graph.nodes.size := by
  induction h with
  | start => exact ⟨.refl, Nat.zero_le _⟩
  | processed h he hstep ih =>
    obtain ⟨t', f', hs, hgraph⟩ := (step_cases hstep).exists_statements he
    have hadded := Transfer.statements_size hs
    have hmade := he.size_le
    refine ⟨ih.1.tail hstep, ?_⟩
    rw [hgraph]
    omega
  | idle h hno hstep ih =>
    rw [(step_cases hstep).graph_of_not_enters hno]
    exact ⟨ih.1.tail hstep, ih.2⟩

theorem Leads.size_le (h : Leads p s m m') :
    m.facts.graph.nodes.size ≤ m'.facts.graph.nodes.size := by
  induction h with
  | refl => exact Nat.le_refl _
  | @tail m₁ m₂ _ hstep ih =>
    refine Nat.le_trans ih ?_
    by_cases hno : ∀ b t f, ¬ Enters p s m₁ b t f
    · rw [(step_cases hstep).graph_of_not_enters hno]
    · push Not at hno
      obtain ⟨b, t, f, he⟩ := hno
      obtain ⟨t', f', hs, hgraph⟩ := (step_cases hstep).exists_statements he
      rw [hgraph]
      exact Nat.le_trans he.size_le
        (Nat.le_trans (Nat.le_add_right ..) (Transfer.statements_size hs))

/-- All states lead to one in which the analysis is finished. -/
theorem Reaches.leads_of_finished (hm : Reaches p s m) (hm' : Reaches p s m')
    (hf : m'.finished p = true) :
    Leads p s m m' := by
  refine (hm.total hm').elim id fun hback => ?_
  -- nothing changes behind the end
  have hsame : m = m' := by
    induction hback with
    | refl => rfl
    | tail hback hstep ih =>
      obtain rfl := ih (hm'.trans hback)
      rw [step_of_finished hf] at hstep
      exact (Except.ok.inj hstep).symm
  rw [hsame]
  exact .refl

theorem Enters.leads_of_finished {m₁ : Machine} (hm : Reaches p s m) (he : Enters p s m b t f)
    (hm₁ : Reaches p s m₁) (hf : m₁.finished p = true) :
    ∃ t' f', Transfer.statements s b (p.statementsOf b) t f = .ok (t', f') ∧
      f'.graph.nodes.size ≤ m₁.facts.graph.nodes.size := by
  rcases Relation.ReflTransGen.cases_head (hm.leads_of_finished hm₁ hf) with rfl | ⟨m', hstep,
    hrest⟩
  · exact absurd he (not_enters_of_finished hf)
  · obtain ⟨t', f', hs, hgraph⟩ := (step_cases hstep).exists_statements he
    exact ⟨t', f', hs, hgraph ▸ Leads.size_le hrest⟩

/-- In an analysis that ends, there are never more events than nodes at the end. -/
theorem Passes.events_le {x : Moment} {m₁ : Machine} (hx : Passes p s x) (hm₁ : Reaches p s m₁)
    (hf : m₁.finished p = true) : x.writes + x.phis ≤ m₁.facts.graph.nodes.size := by
  cases hx with
  | between h =>
    obtain ⟨hm, hle⟩ := h.events_le
    exact Nat.le_trans hle (hm.leads_of_finished hm₁ hf).size_le
  | @merging m writes phis b t t' f f' preds done rest h he hsub hmerge hlen hnames hdone =>
    obtain ⟨hm, hle⟩ := h.events_le
    obtain ⟨u, g, hs, hend⟩ := he.leads_of_finished hm hm₁ hf
    have hadded := Transfer.statements_size hs
    -- the names to come add the rest of the nodes
    have hnow := Merge.size_names hdone
    have hall : f'.graph.nodes.size = m.facts.graph.nodes.size +
        ((done ++ rest).flatMap
            (Merge.phiNode? s b (p.headLine b) (preds.map m.facts.exposed.table))).length := by
      rcases Merge.predecessors_cases hmerge with ⟨rfl, -⟩ | ⟨a, rfl, -⟩ | ⟨-, -, hr⟩
      · simp at hlen
      · simp at hlen
      · rw [hnames] at hr
        exact Merge.size_names hr
    rw [List.flatMap_append, List.length_append] at hall
    dsimp only
    omega
  | @applying m writes phis b t t' f f' done rest h he hstmts hdone =>
    obtain ⟨hm, hle⟩ := h.events_le
    obtain ⟨u, g, hs, hend⟩ := he.leads_of_finished hm hm₁ hf
    rw [hstmts, Transfer.statements_append, hdone] at hs
    have hmade := he.size_le
    have hnow := Transfer.statements_size hdone
    have hlater : f.graph.nodes.size + Transfer.writes rest ≤ g.graph.nodes.size :=
      Transfer.statements_size hs
    dsimp only
    omega

/-! ## the additions -/

/-- A write of a bound array is itself among the writes so far, once it is applied. -/
theorem Passes.write_fits {bound i : Nat} {stmt : Statement} {a : Access} {v : Version}
    (hfew : ∀ x, Passes p s x → x.writes + x.phis < bound) (hlive : LiveAt p s b i t)
    (hstmt : (p.statementsOf b)[i]? = some stmt) (hact : stmt.action = .write a)
    (hv : t[a.base]? = some v) :
    v.number + 1 < bound := by
  obtain ⟨f, m, t₀, f₀, hm, he, hs⟩ := hlive
  obtain ⟨writes, phis, htally⟩ := hm.tallied
  obtain ⟨hi, rfl⟩ := List.getElem?_eq_some_iff.1 hstmt
  obtain ⟨⟨t', f'⟩, hx⟩ := Transfer.statement_write_isOk (s := s) (b := b) (t := t) (f := f) hact
  have hdone : Transfer.statements s b ((p.statementsOf b).take (i + 1)) t₀ f₀ = .ok (t', f') := by
    rw [List.take_succ_eq_append_getElem hi, Transfer.statements_append, hs]
    show Transfer.statements s b [(p.statementsOf b)[i]] t f = _
    rw [Transfer.statements_cons, hx]
    rfl
  have hpass := Passes.applying htally he (List.take_append_drop (i + 1) _).symm hdone
  have hbound : t'[a.base]? =
      some (v.next b (p.statementsOf b)[i].id (p.statementsOf b)[i].line) := by
    rw [(Transfer.statement_eq_ok hx).1]
    simp [Transfer.rebind, hact, hv]
  exact Nat.lt_of_le_of_lt (hpass.number_le (.bound hbound) .self) (hfew _ hpass)

/-- A merged version is itself among those made so far, once its block is entered. -/
theorem Passes.merge_fits {bound : Nat} {preds : List BlockId} {base : String}
    (hfew : ∀ x, Passes p s x → x.writes + x.phis < bound) (hm : Reaches p s m)
    (he : Enters p s m b t f)
    (hmerge : Merge.predecessors s m.facts b (p.headLine b) preds = .ok (t, f))
    (hlen : 2 ≤ preds.length)
    (hmade : Merge.phiNode? s b (p.headLine b) (preds.map m.facts.exposed.table) base ≠ []) :
    Version.maxNumber ((preds.map m.facts.exposed.table).filterMap (·[base]?)) + 1 < bound := by
  obtain ⟨writes, phis, htally⟩ := hm.tallied
  obtain ⟨k, hk⟩ := List.exists_mem_of_ne_nil _ hmade
  have hnode : k ∈ f.graph.nodes := Merge.mem_nodes_of_phiNode? hmerge hlen hk
  have hpass : Passes p s ⟨t, f, m.visits, writes + Transfer.writes [], _⟩ :=
    .applying htally he (List.nil_append _).symm rfl
  have hnumber := congrArg Version.number (Version.phi?_eq_some.1 (Merge.version_of_phiNode? hk)).2
  rw [Version.number] at hnumber
  rw [← hnumber]
  exact Nat.lt_of_le_of_lt (hpass.number_le (.held (.node hnode rfl)) .self) (hfew _ hpass)

/-- Every version that is kept at some moment of an analysis, in bindings at work or brought along,
in what blocks expose, in nodes or in chains, is numbered up to the writes applied and the merged
versions made so far, and so are all versions that it merges. The moments take in every state
between two steps and every point inside of a block, and the nodes that are counted where a block is
entered are those of merged versions. In an analysis with fewer than `UInt32.size` such events, one
more than the number of a version fits into 32 bits wherever a write or a merge adds one, and is
what comes out in 32 bits. -/
theorem numbers_bounded (p : Procedure) (s : Settings) :
    ((∀ m, Reaches p s m → ∃ writes phis, Passes p s ⟨∅, m.facts, m.visits, writes, phis⟩) ∧
      (∀ b i t, LiveAt p s b i t → ∃ x, Passes p s x ∧ x.bindings = t) ∧
      ∀ m b t f, Enters p s m b t f →
        ∃ made : List Node, f.graph.nodes = m.facts.graph.nodes ++ made.toArray ∧
          ∀ n ∈ made, n.isPhi = true) ∧
    (∀ x, Passes p s x → ∀ v u : Version, x.Keeps v → u.Inside v → u.number ≤ x.writes + x.phis) ∧
    ((∀ x, Passes p s x → x.writes + x.phis < UInt32.size) →
      (∀ b i t stmt a v, LiveAt p s b i t → (p.statementsOf b)[i]? = some stmt →
        stmt.action = .write a →
        t[a.base]? = some v →
        v.number + 1 < UInt32.size ∧ (UInt32.ofNat v.number + 1).toNat = v.number + 1) ∧
      ∀ m b t f preds base, Reaches p s m → Enters p s m b t f →
        Merge.predecessors s m.facts b (p.headLine b) preds = .ok (t, f) → 2 ≤ preds.length →
        Merge.phiNode? s b (p.headLine b) (preds.map m.facts.exposed.table) base ≠ [] →
        let inputs := (preds.map m.facts.exposed.table).filterMap (·[base]?)
        Version.maxNumber inputs + 1 < UInt32.size ∧
          (Version.nextNumber32 inputs).toNat = Version.maxNumber inputs + 1) := by
  refine ⟨⟨fun m hm => ?_, fun b i t hlive => ?_, fun m b t f he => he.made⟩,
    fun x hx v u hv hu => hx.number_le hv hu, fun hfew => ⟨?_, ?_⟩⟩
  · obtain ⟨writes, phis, h⟩ := hm.tallied
    exact ⟨writes, phis, .between h⟩
  · obtain ⟨f, m, t₀, f₀, hm, he, hs⟩ := hlive
    obtain ⟨writes, phis, h⟩ := hm.tallied
    exact ⟨_, .applying h he (List.take_append_drop i _).symm hs, rfl⟩
  · intro b i t stmt a v hlive hstmt hact hv
    have hfits := Passes.write_fits hfew hlive hstmt hact hv
    exact ⟨hfits, Version.toNat_ofNat_add_one hfits⟩
  · intro m b t f preds base hm he hmerge hlen hmade
    have hfits := Passes.merge_fits hfew hm he hmerge hlen hmade
    exact ⟨hfits, Version.toNat_nextNumber32 hfits⟩

/-- An array is written in one of two branches, and read at the join. -/
def writtenBranch : Procedure where
  name := "written branch"
  entry := ⟨0⟩
  blocks := [
    { id := ⟨0⟩
      statements := [⟨⟨0⟩, 1, "a = new", .create "a"⟩]
      successors := [⟨1⟩, ⟨2⟩]
      predecessors := [] },
    { id := ⟨1⟩
      statements := [⟨⟨1⟩, 2, "a[i] = x", .write ⟨"a", .expr "i"⟩⟩,
        ⟨⟨2⟩, 3, "a[j] = x", .write ⟨"a", .expr "j"⟩⟩]
      successors := [⟨3⟩]
      predecessors := [⟨0⟩] },
    { id := ⟨2⟩
      statements := [⟨⟨3⟩, 4, "skip", .other⟩]
      successors := [⟨3⟩]
      predecessors := [⟨0⟩] },
    { id := ⟨3⟩
      statements := [⟨⟨4⟩, 5, "y = a[i]", .read ⟨"a", .expr "i"⟩⟩]
      successors := []
      predecessors := [⟨1⟩, ⟨2⟩] }]
  loopExits := []

/-- The writes are come to with the array as it was created. -/
theorem exists_liveAt_writtenBranch :
    ∃ (t : Bindings) (v : Version), LiveAt writtenBranch {} ⟨1⟩ 0 t ∧ t["a"]? = some v ∧
      v.number = 0 := by
  obtain ⟨m, hrun, hm⟩ := checkOk_eq_true (x := run writtenBranch {} 1 (start writtenBranch {}))
    (P := fun m => m.loops.isEmpty ∧ m.facts.claimed ⟨1⟩ = false ∧
      m.visits.head?.map (·.1) = some ⟨1⟩ ∧
      (m.visits.head?.bind (·.2["a"]?)).map Version.number = some 0) (by decide +kernel)
  obtain ⟨hl, hc, hvisit, hzero⟩ := of_decide_eq_true hm
  obtain ⟨⟨b, t⟩, hhead, rfl⟩ := Option.map_eq_some_iff.1 hvisit
  rw [hhead, Option.bind_some] at hzero
  obtain ⟨v, hv, hzero⟩ := Option.map_eq_some_iff.1 hzero
  obtain ⟨rest, hrest⟩ := List.head?_eq_some_iff.1 hhead
  have he : Enters writtenBranch {} m ⟨1⟩ t m.facts :=
    .brought (List.isEmpty_iff.1 hl) hrest hc (.inl (by decide))
  exact ⟨t, v, ⟨_, m, _, _, reaches_of_run .refl hrun, he, rfl⟩, hv, hzero⟩

/-- The join is entered with a new version of the array, after the two writes. -/
theorem exists_enters_writtenBranch :
    ∃ m t f, Reaches writtenBranch {} m ∧ Enters writtenBranch {} m ⟨3⟩ t f ∧
      Merge.predecessors {} m.facts ⟨3⟩ 5 [⟨1⟩, ⟨2⟩] = .ok (t, f) ∧
      Merge.phiNode? {} ⟨3⟩ 5 ([⟨1⟩, ⟨2⟩].map m.facts.exposed.table) "a" ≠ [] ∧
      Version.maxNumber (([⟨1⟩, ⟨2⟩].map m.facts.exposed.table).filterMap (·["a"]?)) = 2 := by
  obtain ⟨m, hrun, hm⟩ := checkOk_eq_true (x := run writtenBranch {} 4 (start writtenBranch {}))
    (P := fun m => m.loops.isEmpty ∧ m.facts.claimed ⟨3⟩ = false ∧
      m.visits.head?.map (·.1) = some ⟨3⟩ ∧ m.facts.exposed.allReady [⟨1⟩, ⟨2⟩] = true ∧
      (Merge.phiNode? {} ⟨3⟩ 5 ([⟨1⟩, ⟨2⟩].map m.facts.exposed.table) "a").isEmpty = false ∧
      Version.maxNumber (([⟨1⟩, ⟨2⟩].map m.facts.exposed.table).filterMap (·["a"]?)) = 2)
    (by decide +kernel)
  obtain ⟨hl, hc, hvisit, hready, hmade, hmax⟩ := of_decide_eq_true hm
  obtain ⟨⟨b, t₀⟩, hhead, rfl⟩ := Option.map_eq_some_iff.1 hvisit
  obtain ⟨rest, hrest⟩ := List.head?_eq_some_iff.1 hhead
  obtain ⟨t, f, hmerge⟩ : ∃ t f, Merge.predecessors {} m.facts ⟨3⟩ 5 [⟨1⟩, ⟨2⟩] = .ok (t, f) :=
    Merge.predecessors_isOk (Exposed.allReady_iff.1 hready)
  have he : Enters writtenBranch {} m ⟨3⟩ t f :=
    .merge (List.isEmpty_iff.1 hl) hrest hc (by decide) (by decide) hready hmerge
  refine ⟨m, t, f, reaches_of_run .refl hrun, he, hmerge, fun hnil => ?_, hmax⟩
  rw [hnil] at hmade
  cases hmade

/-- A creation, two writes, a merge and a read make five nodes, so nothing overflows: neither where
the first write counts on, nor where the merge does, which is numbered one past the second write. -/
theorem numbers_bounded_writtenBranch :
    (∀ x, Passes writtenBranch {} x → x.writes + x.phis ≤ 5) ∧
    (∃ x v, Passes writtenBranch {} x ∧ x.Keeps v ∧ v.number = 3 ∧ v.number ≤ x.writes + x.phis) ∧
    (∃ t stmt a v, LiveAt writtenBranch {} ⟨1⟩ 0 t ∧
      (writtenBranch.statementsOf ⟨1⟩)[0]? = some stmt ∧
      stmt.action = .write a ∧ t[a.base]? = some v ∧ v.number = 0 ∧
      (UInt32.ofNat v.number + 1).toNat = v.number + 1) ∧
    ∃ m t f, Reaches writtenBranch {} m ∧ Enters writtenBranch {} m ⟨3⟩ t f ∧
      Merge.predecessors {} m.facts ⟨3⟩ 5 [⟨1⟩, ⟨2⟩] = .ok (t, f) ∧
      Merge.phiNode? {} ⟨3⟩ 5 ([⟨1⟩, ⟨2⟩].map m.facts.exposed.table) "a" ≠ [] ∧
      let inputs := ([⟨1⟩, ⟨2⟩].map m.facts.exposed.table).filterMap (·["a"]?)
      Version.maxNumber inputs = 2 ∧ Version.maxNumber inputs + 1 < UInt32.size ∧
        (Version.nextNumber32 inputs).toNat = Version.maxNumber inputs + 1 := by
  obtain ⟨-, hbound, hfits⟩ := numbers_bounded writtenBranch {}
  obtain ⟨m₁, hrun, hend⟩ := checkOk_eq_true
    (x := run writtenBranch {} writtenBranch.stepBound (start writtenBranch {}))
    (P := fun m => m.facts.graph.nodes.size = 5) (by decide +kernel)
  have hm₁ : Reaches writtenBranch {} m₁ := reaches_of_run .refl hrun
  have hmoments : ∀ x, Passes writtenBranch {} x → x.writes + x.phis ≤ 5 := fun x hx =>
    of_decide_eq_true hend ▸ hx.events_le hm₁ (run_finished hrun)
  obtain ⟨hwrites, hmerges⟩ := hfits fun x hx => Nat.lt_of_le_of_lt (hmoments x hx) (by decide)
  obtain ⟨t₂, v, hlive, hv, hzero⟩ := exists_liveAt_writtenBranch
  obtain ⟨m₃, t, f, hm₃, he, hmerge, hne, hmax⟩ := exists_enters_writtenBranch
  have hnext := hmerges m₃ ⟨3⟩ t f [⟨1⟩, ⟨2⟩] "a" hm₃ he hmerge (by decide) hne
  -- the merged version is kept from there on
  obtain ⟨k, hk⟩ := List.exists_mem_of_ne_nil _ hne
  have hthree : k.version.number = 3 := by
    rw [(Version.phi?_eq_some.1 (Merge.version_of_phiNode? hk)).2, Version.number, hmax]
  obtain ⟨writes, phis, htally⟩ := hm₃.tallied
  have hpass := Passes.applying htally he (List.nil_append _).symm rfl
  have hkept : ∀ x : Moment, x.facts = f → x.Keeps k.version := fun x hx =>
    .held (.node (hx ▸ Merge.mem_nodes_of_phiNode? hmerge (by decide) hk) rfl)
  exact ⟨hmoments, ⟨_, k.version, hpass, hkept _ rfl, hthree,
    hbound _ hpass _ _ (hkept _ rfl) .self⟩,
    ⟨t₂, _, _, v, hlive, rfl, rfl, hv, hzero, (hwrites _ _ _ _ _ _ hlive rfl rfl hv).2⟩, m₃, t, f,
    hm₃, he, hmerge, hne, hmax, hnext⟩

end Machine

end ArrayFlow
