import ArrayFlow.Proofs.Runs

/-!
# Where versions are kept

Versions stand in bindings, in the nodes of the def-use graph and in chains. Statements and merges
make new ones, mark those that are read, and move them around. So a property of versions that does
not depend on marks holds of all versions that are kept, as long as it holds of the new ones.

* `Bindings.All`, `Facts.All` : all versions that are kept have a property;
* `Facts.Holds`               : the version stands somewhere in the facts;
* `Transfer.made?`            : the version that a statement makes; `Merge.phiNode?` has those that
  merges make;
* `Facts.All.statement`, `Facts.All.names`, `Facts.All.predecessors` : what statements and merges
  leave behind;
* `Step.all`                  : what a step leaves behind.
-/

namespace ArrayFlow

open DefUse

variable {P Q : Version → Prop}

/-- All bound versions have the property. -/
def Bindings.All (P : Version → Prop) (t : Bindings) : Prop :=
  ∀ (base : String) (v : Version), t[base]? = some v → P v

namespace Bindings.All

variable {t : Bindings} {base : String} {v : Version}

theorem empty : Bindings.All P ∅ := by simp [Bindings.All]

theorem mono (h : Bindings.All P t) (hPQ : ∀ v, P v → Q v) : Bindings.All Q t :=
  fun base v hv => hPQ v (h base v hv)

theorem insert (h : Bindings.All P t) (hv : P v) : Bindings.All P (t.insert base v) := by
  intro b w hw
  rw [Std.ExtTreeMap.getElem?_insert] at hw
  split at hw
  · cases hw
    exact hv
  · exact h b w hw

theorem erase (h : Bindings.All P t) : Bindings.All P (t.erase base) := by
  intro b w hw
  rw [Std.ExtTreeMap.getElem?_erase] at hw
  split at hw
  · cases hw
  · exact h b w hw

end Bindings.All

/-- All versions in the facts have the property: those that blocks leave, that nodes carry and that
chains record. -/
structure Facts.All (P : Version → Prop) (f : Facts) : Prop where
  exposed : ∀ (b : BlockId) (t : Bindings), f.exposed[b]? = some t → t.All P
  nodes : ∀ n ∈ f.graph.nodes, P n.version
  history : ∀ base, ∀ r ∈ f.history.chain base, P r.version

/-- The version stands in the facts: some block leaves it, a node carries it, or a chain records
it. -/
inductive Facts.Holds (f : Facts) (v : Version) : Prop
  | exposed {b : BlockId} {t : Bindings} {base : String} (ht : f.exposed[b]? = some t)
      (hv : t[base]? = some v)
  | node {n : Node} (hn : n ∈ f.graph.nodes) (hv : n.version = v)
  | record {base : String} {r : Record} (hr : r ∈ f.history.chain base) (hv : r.version = v)

namespace Facts.All

variable {f f' : Facts}

theorem holds {v : Version} (h : f.All P) (hv : f.Holds v) : P v := by
  cases hv with
  | exposed ht hv => exact h.exposed _ _ ht _ _ hv
  | node hn hv => exact hv ▸ h.nodes _ hn
  | record hr hv => exact hv ▸ h.history _ _ hr

theorem start (s : Settings) : (Facts.start s).All P where
  exposed := by simp [Facts.start]
  nodes := by simp [Facts.start, Graph.empty]
  history := by simp [Facts.start, History.chain]

theorem mono (h : f.All P) (hPQ : ∀ v, P v → Q v) : f.All Q where
  exposed b t ht := (h.exposed b t ht).mono hPQ
  nodes n hn := hPQ _ (h.nodes n hn)
  history base r hr := hPQ _ (h.history base r hr)

theorem congr (h : f.All P) (hx : f'.exposed = f.exposed) (hg : f'.graph.nodes = f.graph.nodes)
    (hh : f'.history = f.history) : f'.All P :=
  ⟨by rw [hx]; exact h.exposed, by rw [hg]; exact h.nodes, by rw [hh]; exact h.history⟩

theorem of_core (h : f.All P) (hcore : f'.core = f.core) : f'.All P :=
  h.congr (Facts.exposed_of_core hcore) (by rw [Facts.graph_of_core hcore])
    (Facts.history_of_core hcore)

theorem expose {b : BlockId} {t : Bindings} (h : f.All P) (ht : t.All P) :
    (f.expose b t).All P where
  exposed c u hu := by
    rw [Facts.getElem?_expose] at hu
    split at hu
    · cases hu
      exact ht
    · exact h.exposed c u hu
  nodes := h.nodes
  history := h.history

theorem push {n : Node} (h : f.All P) (hx : f'.exposed = f.exposed) (hh : f'.history = f.history)
    (hg : f'.graph.nodes = f.graph.nodes.push n) (hn : P n.version) : f'.All P := by
  refine ⟨by rw [hx]; exact h.exposed, fun m hm => ?_, by rw [hh]; exact h.history⟩
  rw [hg, Array.mem_push] at hm
  rcases hm with hm | rfl
  · exact h.nodes m hm
  · exact hn

theorem define {n : Node} (h : f.All P) (hn : P n.version) : (f.define n).All P :=
  h.push rfl rfl rfl hn

/-- A chain made longer, or made of another one. -/
theorem chain {source target : String} {r : Record} (h : f.All P) (hx : f'.exposed = f.exposed)
    (hg : f'.graph.nodes = f.graph.nodes)
    (hh : f'.history = f.history.insert target (f.history.chain source ++ [r]))
    (hr : P r.version) : f'.All P := by
  refine ⟨by rw [hx]; exact h.exposed, by rw [hg]; exact h.nodes, fun base q hq => ?_⟩
  rw [hh, History.chain, Std.ExtTreeMap.getElem?_insert] at hq
  split at hq
  · rcases List.mem_append.1 hq with hq | hq
    · exact h.history source q hq
    · rw [List.mem_singleton.1 hq]
      exact hr
  · exact h.history base q hq

theorem record {base : String} {r : Record} (h : f.All P) (hr : P r.version) :
    (f.record base r).All P :=
  h.chain rfl rfl rfl hr

/-- A definition that a rename hands over carries the version that is renamed. -/
theorem modify {i : Nat} {g : Node → Node} (h : f.All P) (hx : f'.exposed = f.exposed)
    (hh : f'.history = f.history) (hg : f'.graph.nodes = f.graph.nodes.modify i g)
    (hn : ∀ n, P (g n).version) : f'.All P := by
  refine ⟨by rw [hx]; exact h.exposed, fun m hm => ?_, by rw [hh]; exact h.history⟩
  rw [hg] at hm
  obtain ⟨j, hj⟩ := Array.mem_iff_getElem?.1 hm
  rw [Array.getElem?_modify] at hj
  split at hj
  · obtain ⟨n, -, rfl⟩ := Option.map_eq_some_iff.1 hj
    exact hn n
  · exact h.nodes m (Array.mem_of_getElem? hj)

end Facts.All

namespace DefUse.Graph

/-- A link adds an edge or a rejected pair, and leaves the nodes alone. -/
theorem link_eq (g : Graph) (i j : Nat) :
    ∃ es rs, (g.link i j).2 = { g with edges := es, rejected := rs } := by
  unfold link
  split
  · split
    · split
      · exact ⟨_, _, rfl⟩
      · exact ⟨_, _, rfl⟩
    · split
      · exact ⟨_, _, rfl⟩
      · exact ⟨_, _, rfl⟩
  · exact ⟨_, _, rfl⟩

/-- A use is a node of its own, whether or not it finds a definition. -/
theorem addUse_eq (g : Graph) (n : Node) :
    ∃ es rs, (g.addUse n).2 = { g.push n with edges := es, rejected := rs } := by
  unfold addUse
  dsimp only
  split
  · exact link_eq _ _ _
  · exact ⟨_, _, rfl⟩

theorem addUse_nodes (g : Graph) (n : Node) : (g.addUse n).2.nodes = g.nodes.push n := by
  obtain ⟨es, rs, heq⟩ := addUse_eq g n
  rw [heq]
  rfl

end DefUse.Graph

/-! ## statements -/

namespace Transfer

/-- The version that a statement makes, if it makes one. -/
def made? (block : BlockId) (t : Bindings) (stmt : Statement) : Option Version :=
  match stmt.action with
  | .write a =>
    match t[a.base]? with
    | some v => some (v.next block stmt.id stmt.line)
    | none => some (.firstWrite block stmt.id stmt.line)
  | .create _ => some (.created block stmt.id stmt.line)
  | _ => none

end Transfer

namespace Facts.All

variable {p : Procedure} {s : Settings} {f f' f₁ : Facts} {b : BlockId} {t t' : Bindings}
  {stmt : Statement}

section

variable (hread : ∀ v, P v → P v.markRead)
include hread

theorem statement (h : f.All P) (ht : t.All P) (hmade : ∀ v, Transfer.made? b t stmt = some v → P v)
    (hs : Transfer.statement s b t f stmt = .ok (t', f')) : t'.All P ∧ f'.All P := by
  unfold Transfer.made? at hmade
  cases Transfer.statement_effect hs with
  | @write a v hact hv =>
    simp only [hact] at hmade
    have hnew : P v := by
      subst hv
      cases hw : t[a.base]? with
      | none => exact hmade _ (by simp only [hw])
      | some w => exact hmade _ (by simp only [hw])
    exact ⟨ht.insert hnew, (h.record hnew).define hnew⟩
  | missed => exact ⟨ht, h.congr rfl rfl rfl⟩
  | used hact hv | dangling hact hv =>
    have hmarked := hread _ (ht _ _ hv)
    exact ⟨ht.insert hmarked, h.push rfl rfl (Graph.addUse_nodes _ _) hmarked⟩
  | @create base hact =>
    simp only [hact] at hmade
    have hnew := hmade _ rfl
    have hrecord : Facts.All P
      (f.record base (.of (.created b stmt.id stmt.line) .create (some stmt.id))) :=
      h.record hnew
    exact ⟨ht.insert hnew, define (hrecord.congr rfl rfl rfl) hnew⟩
  | @moved source target v i hact hv =>
    have hkept := ht source v hv
    refine ⟨ht.erase.insert hkept, ?_⟩
    have hhanded : Facts.All P { f with graph := { f.graph with
        nodes := f.graph.nodes.modify i (·.rebind stmt target v),
        order := f.graph.order.erase i ++ [i] } } :=
      h.modify (g := (·.rebind stmt target v)) rfl rfl rfl fun _ => hkept
    exact hhanded.chain rfl rfl rfl hkept
  | @redefined source target v hact hv =>
    have hkept := ht source v hv
    exact ⟨ht.erase.insert hkept,
      (h.define (n := .wholeArray stmt target v b) hkept).chain rfl rfl rfl hkept⟩
  | unmoved | other => exact ⟨ht, h⟩

/-! ## merges -/

theorem name {line : Nat} (preds : List BlockId) {tables : List Bindings} (base : String)
    (htables : ∀ u ∈ tables, Bindings.All P u) (h : f.All P) (ht : t.All P)
    (hmade : ∀ n ∈ Merge.phiNode? s b line tables base, P n.version) :
    let r := Merge.name s b line preds tables t f base
    r.1.All P ∧ r.2.All P := by
  have hin : ∀ v ∈ tables.filterMap fun u => u[base]?, P v := by
    intro v hv
    obtain ⟨u, hu, hv⟩ := List.mem_filterMap.1 hv
    exact htables u hu base v hv
  unfold Merge.phiNode? at hmade
  unfold Merge.name
  dsimp only at hmade ⊢
  split
  · exact ⟨ht, h.congr rfl rfl rfl⟩
  · rename_i hlen
    split
    · split
      · rename_i v vs heq
        have hv : P v := hin v (by rw [heq]; exact List.mem_cons_self ..)
        refine ⟨ht.insert ?_, h⟩
        unfold Merge.shared
        split
        · exact hread v hv
        · exact hv
      · exact ⟨ht, h⟩
    · rename_i hprune
      split
      · rename_i v hv
        have hv : P v := hmade (.ofPhi base v b) (by simp [hlen, hprune, hv])
        exact ⟨ht.insert hv, (h.record hv).define hv⟩
      · exact ⟨ht, h⟩

theorem names {line : Nat} (preds : List BlockId) {tables : List Bindings} (bases : List String)
    (htables : ∀ u ∈ tables, Bindings.All P u) (h : f.All P) (ht : t.All P)
    (hmade : ∀ n ∈ bases.flatMap (Merge.phiNode? s b line tables), P n.version) :
    let r := bases.foldl (fun (t, f) base => Merge.name s b line preds tables t f base) (t, f)
    r.1.All P ∧ r.2.All P := by
  induction bases generalizing t f with
  | nil => exact ⟨ht, h⟩
  | cons base bases ih =>
    rw [List.flatMap_cons] at hmade
    obtain ⟨ht₁, hf₁⟩ := name hread preds base htables h ht fun n hn =>
      hmade n (List.mem_append_left _ hn)
    exact ih hf₁ ht₁ fun n hn => hmade n (List.mem_append_right _ hn)

/-- What a merge leaves behind: it makes versions only where at least two tables meet. -/
theorem predecessors {line : Nat} {preds : List BlockId} (h : f.All P)
    (hmade : 2 ≤ preds.length → ∀ n ∈ (Merge.names (preds.map f.exposed.table)).flatMap
      (Merge.phiNode? s b line (preds.map f.exposed.table)), P n.version)
    (hm : Merge.predecessors s f b line preds = .ok (t, f')) : t.All P ∧ f'.All P := by
  rcases Merge.predecessors_cases hm with ⟨-, rfl, rfl⟩ | ⟨a, -, ha, rfl⟩ | ⟨hlen, hready, hm⟩
  · exact ⟨.empty, h⟩
  · exact ⟨h.exposed a t ha, h⟩
  · have hall : ∀ u ∈ preds.map f.exposed.table, u.All P := by
      intro u hu
      obtain ⟨c, hc, rfl⟩ := List.mem_map.1 hu
      exact h.exposed c _ (Exposed.isReady_iff.1 (hready c hc))
    have hnames := names hread preds (Merge.names (preds.map f.exposed.table)) hall h .empty
      (hmade hlen)
    rwa [hm] at hnames

end

end Facts.All

/-- A merge takes two versions or more, and is numbered one past the largest. -/
theorem Version.phi?_eq_some {inputs : List Version} {v : Version} {b : BlockId} {line : Nat} :
    phi? inputs b line = some v ↔ 2 ≤ inputs.length ∧
      v = phi (maxNumber inputs + 1) inputs b line := by
  unfold phi?
  split
  · simp only [reduceCtorEq, false_iff]
    omega
  · rw [Option.some.injEq]
    exact ⟨fun h => ⟨by omega, h.symm⟩, fun h => h.2.symm⟩

/-- A node that a merge makes carries the merge of the versions that the tables bind. -/
theorem Merge.version_of_phiNode? {s : Settings} {b : BlockId} {line : Nat} {tables : List Bindings}
    {base : String} {n : Node} (hn : n ∈ Merge.phiNode? s b line tables base) :
    Version.phi? (tables.filterMap fun u => u[base]?) b line = some n.version := by
  unfold Merge.phiNode? at hn
  dsimp only at hn
  split at hn
  · cases hn
  · obtain ⟨v, hv, rfl⟩ := Option.map_eq_some_iff.1 (Option.mem_toList.1 hn)
    exact hv

/-! ## steps -/

namespace Machine

variable {p : Procedure} {s : Settings} {m m' : Machine} {f f₁ : Facts}

/-- Behind a loop, the header leaves versions that the latch left before. -/
theorem Ended.all {r : LoopRun} (he : Ended s m r f) (h : m.facts.All P)
    (hc : LoopRun.close f r = .ok f₁) :
    f₁.All P := by
  have hf : f.All P := by
    cases he with
    | drained => exact h
    | limit => exact h.congr rfl rfl rfl
    | reentry => exact h.congr rfl rfl rfl
  rcases LoopRun.close_eq_ok hc with ⟨-, rfl⟩ | ⟨l, u, -, hl, rfl⟩
  · exact hf
  · exact hf.expose (hf.exposed l u hl)

/-- What a step leaves behind has the property if the block that it processes does. -/
theorem Step.all (hstep : Step p s m m') (hf : m.facts.All P) (hv : ∀ x ∈ m.visits, x.2.All P)
    (hPQ : ∀ v, P v → Q v)
    (hprocess : ∀ b t f f₁, Enters p s m b t f → Transfer.process s b p t f = .ok f₁ → f₁.All Q) :
    m'.facts.All Q ∧ ∀ x ∈ m'.visits, x.2.All Q := by
  have hf' : m'.facts.All Q := by
    cases hstep.change with
    | processed he hp hcore => exact (hprocess _ _ _ _ he hp).of_core hcore
    | ended hl he hc hcore => exact ((he.all hf hc).of_core hcore).mono hPQ
    | none hn hcore => exact (hf.of_core hcore).mono hPQ
  refine ⟨hf', fun x hx => ?_⟩
  rcases hstep.visits_cases hx with hx | ⟨a, -, ha⟩
  · exact (hv x hx).mono hPQ
  · exact hf'.exposed a _ ha

end Machine

end ArrayFlow
