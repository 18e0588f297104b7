import ArrayFlow.DefUse.Query
import ArrayFlow.Proofs.Edges
import ArrayFlow.Proofs.Merges
import ArrayFlow.Proofs.Reads
import Mathlib.Algebra.BigOperators.Fin

/-!
# Definitions behind merges

A search for the definitions of a use follows merges back to the definitions of the versions that
they join. It looks these up by their keys, which other definitions may share. Without renames,
every version that a merge joins has a definition of its own, so that the search finds this one.

* `Graph.Explores`        : a search, as the steps that it takes until nothing is left to look at;
* `search_explores`       : there are steps enough for every search;
* `Graph.Rooted`          : what a definition joins is defined, and edges stay within one array;
* `Reaches.rooted`        : so it is at every time without renames, by induction on the run;
* `Traceable.unfolds_iff` : what is found from a definition, one merge further back;
* `transitive_exact`      : a search finds the definitions of the versions inside those that reach
  the use, and no others.
-/

namespace ArrayFlow

open DefUse

/-! ## searching -/

namespace DefUse.Graph

variable {g : Graph} {k : Key} {i j fuel : Nat} {queue found result : List Nat}

/-- The definition at `j` is found for a version that the one at `i` joins. -/
def Unfolds (g : Graph) (i j : Nat) : Prop := j ∈ g.joinedDefs i

/-- A search goes on until nothing is left to look at, and has found the result then. -/
inductive Explores (g : Graph) : (queue found result : List Nat) → Prop
  | done {found : List Nat} : Explores g [] found found
  | skip {i : Nat} {queue found result : List Nat} (hi : i ∈ found)
      (h : Explores g queue found result) :
      Explores g (i :: queue) found result
  | visit {i : Nat} {queue found result : List Nat} (hi : i ∉ found)
      (h : Explores g (queue ++ g.joinedDefs i) (found ++ [i]) result) :
      Explores g (i :: queue) found result

def width (g : Graph) (i : Nat) : Nat := (g.nodes[i]?.map (·.version.inputs.length)).getD 0

/-- What nodes that were not met join. -/
def unmet (g : Graph) (found : List Nat) : Nat :=
  ∑ i ∈ (Finset.range g.nodes.size).filter (· ∉ found), g.width i

theorem length_joinedDefs_le (g : Graph) (i : Nat) : (g.joinedDefs i).length ≤ g.width i := by
  unfold joinedDefs width
  cases g.nodes[i]? with
  | none => exact Nat.le_refl _
  | some n => exact List.length_filterMap_le _ _

theorem unmet_nil (g : Graph) : g.unmet [] = g.joinCount := by
  have hwidth : ∀ i : Fin g.nodes.toList.length, g.width i =
      g.nodes.toList[i.1].version.inputs.length := by
    intro i
    rw [width, ← Array.getElem?_toList, List.getElem?_eq_getElem i.2]
    rfl
  calc g.unmet []
      = ∑ i ∈ Finset.range g.nodes.toList.length, g.width i := by simp [unmet]
    _ = ∑ i : Fin g.nodes.toList.length, g.nodes.toList[i.1].version.inputs.length := by
        rw [Finset.sum_range]
        exact Finset.sum_congr rfl fun i _ => hwidth i
    _ = (g.nodes.toList.map (·.version.inputs.length)).sum :=
        Fin.sum_univ_fun_getElem g.nodes.toList (·.version.inputs.length)
    _ = g.joinCount := by
        rw [joinCount, List.sum_eq_foldr, List.foldr_map]

theorem unmet_visit (hi : i ∉ found) :
    (g.joinedDefs i).length + g.unmet (found ++ [i]) ≤ g.unmet found := by
  have hwidth := g.length_joinedDefs_le i
  by_cases hlt : i < g.nodes.size
  · have hmem : i ∈ (Finset.range g.nodes.size).filter (· ∉ found) :=
      Finset.mem_filter.2 ⟨Finset.mem_range.2 hlt, hi⟩
    have herase : (Finset.range g.nodes.size).filter (· ∉ found ++ [i]) =
        ((Finset.range g.nodes.size).filter (· ∉ found)).erase i := by
      ext j
      simp only [Finset.mem_filter, Finset.mem_erase, List.mem_append, List.mem_singleton, not_or]
      tauto
    have hsum := Finset.add_sum_erase _ g.width hmem
    rw [unmet, unmet, herase]
    omega
  · have hnone : g.joinedDefs i = [] := by
      rw [joinedDefs, Array.getElem?_eq_none (Nat.le_of_not_lt hlt)]
    rw [hnone, List.length_nil, Nat.zero_add]
    refine Finset.sum_le_sum_of_subset fun j hj => ?_
    simp only [Finset.mem_filter, List.mem_append, not_or] at hj ⊢
    exact ⟨hj.1, hj.2.1⟩

/-- There are steps enough for everything in the queue, and for what is still to be met. -/
theorem search_explores (h : queue.length + g.unmet found ≤ fuel) :
    g.Explores queue found (g.search fuel queue found) := by
  induction fuel generalizing queue found with
  | zero =>
    obtain rfl : queue = [] := List.length_eq_zero_iff.1 (by omega)
    exact .done
  | succ fuel ih =>
    cases queue with
    | nil => exact .done
    | cons i queue =>
      rw [List.length_cons] at h
      by_cases hi : i ∈ found
      · rw [search, if_pos hi]
        exact .skip hi (ih (by omega))
      · rw [search, if_neg hi]
        have hvisit := unmet_visit (g := g) hi
        refine .visit hi (ih ?_)
        rw [List.length_append]
        omega

namespace Explores

theorem nodup (h : g.Explores queue found result) (hfound : found.Nodup) : result.Nodup := by
  induction h with
  | done => exact hfound
  | skip _ _ ih => exact ih hfound
  | visit hi _ ih =>
    refine ih (List.nodup_append.2 ⟨hfound, List.nodup_singleton _, ?_⟩)
    rintro a ha b hb rfl
    exact hi (List.mem_singleton.1 hb ▸ ha)

theorem sound (h : g.Explores queue found result) (hj : j ∈ result) :
    j ∈ found ∨ ∃ a ∈ queue, Relation.ReflTransGen g.Unfolds a j := by
  induction h with
  | done => exact .inl hj
  | skip _ _ ih =>
    rcases ih hj with hj | ⟨a, ha, hpath⟩
    · exact .inl hj
    · exact .inr ⟨a, List.mem_cons_of_mem _ ha, hpath⟩
  | @visit i queue found result hi _ ih =>
    rcases ih hj with hj | ⟨a, ha, hpath⟩
    · rcases List.mem_append.1 hj with hj | hj
      · exact .inl hj
      · rw [List.mem_singleton.1 hj]
        exact .inr ⟨i, List.mem_cons_self .., .refl⟩
    · rcases List.mem_append.1 ha with ha | ha
      · exact .inr ⟨a, List.mem_cons_of_mem _ ha, hpath⟩
      · exact .inr ⟨i, List.mem_cons_self .., .head ha hpath⟩

/-- If everything behind what was found is found or in the queue, everything behind the result is in
the result. -/
theorem complete (h : g.Explores queue found result)
    (hclosed : ∀ i ∈ found, ∀ j, g.Unfolds i j → j ∈ found ∨ j ∈ queue) :
    (∀ i ∈ found, i ∈ result) ∧ (∀ i ∈ queue, i ∈ result) ∧ ∀ i ∈ result, ∀ j, g.Unfolds i j →
      j ∈ result := by
  induction h with
  | done =>
    refine ⟨fun i hi => hi, nofun, fun i hi j hj => ?_⟩
    exact (hclosed i hi j hj).resolve_right List.not_mem_nil
  | @skip i queue found result hi _ ih =>
    have hclosed' : ∀ a ∈ found, ∀ j, g.Unfolds a j → j ∈ found ∨ j ∈ queue := by
      intro a ha j hj
      rcases hclosed a ha j hj with hj | hj
      · exact .inl hj
      · rcases List.mem_cons.1 hj with rfl | hj
        · exact .inl hi
        · exact .inr hj
    obtain ⟨hf, hq, hr⟩ := ih hclosed'
    refine ⟨hf, fun a ha => ?_, hr⟩
    rcases List.mem_cons.1 ha with rfl | ha
    · exact hf a hi
    · exact hq a ha
  | @visit i queue found result hi _ ih =>
    have hclosed' : ∀ a ∈ found ++ [i], ∀ j, g.Unfolds a j → j ∈ found ++ [i] ∨
        j ∈ queue ++ g.joinedDefs i := by
      intro a ha j hj
      rcases List.mem_append.1 ha with ha | ha
      · rcases hclosed a ha j hj with hj | hj
        · exact .inl (List.mem_append_left _ hj)
        · rcases List.mem_cons.1 hj with rfl | hj
          · exact .inl (List.mem_append_right _ (List.mem_singleton_self _))
          · exact .inr (List.mem_append_left _ hj)
      · rw [List.mem_singleton.1 ha] at hj
        exact .inr (List.mem_append_right _ hj)
    obtain ⟨hf, hq, hr⟩ := ih hclosed'
    refine ⟨fun a ha => hf a (List.mem_append_left _ ha), fun a ha => ?_, hr⟩
    rcases List.mem_cons.1 ha with rfl | ha
    · exact hf a (List.mem_append_right _ (List.mem_singleton_self _))
    · exact hq a (List.mem_append_left _ ha)

end Explores

theorem transitiveDefs_explores (g : Graph) (k : Key) :
    g.Explores ((g.slot k).flatMap g.incoming) [] (g.transitiveDefs k) := by
  refine search_explores ?_
  rw [unmet_nil]
  omega

theorem mem_transitiveDefs : i ∈ g.transitiveDefs k ↔
    ∃ u ∈ g.slot k, ∃ e ∈ g.edges, e.target = u ∧ Relation.ReflTransGen g.Unfolds e.source i := by
  have hexplores := g.transitiveDefs_explores k
  have hstart : ∀ a, a ∈ (g.slot k).flatMap g.incoming ↔ ∃ u ∈ g.slot k, ∃ e ∈ g.edges, e.target =
      u ∧ e.source = a := by
    simp [incoming, and_assoc]
  constructor
  · intro hi
    obtain ⟨a, ha, hpath⟩ := (hexplores.sound hi).resolve_left List.not_mem_nil
    obtain ⟨u, hu, e, he, htarget, rfl⟩ := (hstart a).1 ha
    exact ⟨u, hu, e, he, htarget, hpath⟩
  · rintro ⟨u, hu, e, he, htarget, hpath⟩
    obtain ⟨-, hqueue, hclosed⟩ := hexplores.complete nofun
    induction hpath with
    | refl => exact hqueue _ ((hstart _).2 ⟨u, hu, e, he, htarget, rfl⟩)
    | tail _ hstep ih => exact hclosed _ ih _ hstep

/-! ## what merges join -/

/-- The versions that a definition joins are defined, and an edge leads from a definition to a node
of the same array. -/
structure Rooted (g : Graph) : Prop where
  inputs : ∀ (i : Nat) n, g.nodes[i]? = some n → n.role = .defines →
    ∀ w ∈ n.version.inputs, ∃ j, g.Defines n.base w j
  edges : ∀ e ∈ g.edges, ∃ d u, g.nodes[e.source]? = some d ∧ g.nodes[e.target]? = some u ∧
    d.role = .defines ∧ d.base = u.base

namespace Rooted

variable {g' : Graph} {n : Node}

theorem empty (keepsRejected : Bool) : Rooted (.empty keepsRejected) where
  inputs := by simp [Graph.empty]
  edges := by simp [Graph.empty]

theorem append (h : g.Rooted) (ns : List Node) (hnodes : g'.nodes = g.nodes ++ ns.toArray)
    (hedges : g'.edges = g.edges)
    (hnew : ∀ n ∈ ns, n.role = .defines → ∀ w ∈ n.version.inputs, ∃ j, g.Defines n.base w j) :
    g'.Rooted := by
  have hkept : ∀ {i : Nat} {m : Node}, g.nodes[i]? = some m → g'.nodes[i]? = some m := by
    intro i m hi
    rw [hnodes, Array.getElem?_append_left (Array.getElem?_eq_some_iff.1 hi).1, hi]
  have hdefines : ∀ {base w}, (∃ j, g.Defines base w j) → ∃ j, g'.Defines base w j := by
    rintro base w ⟨j, m, hj, hrest⟩
    exact ⟨j, m, hkept hj, hrest⟩
  refine ⟨fun i m hi hrole w hw => hdefines ?_, fun e he => ?_⟩
  · rw [hnodes, Array.getElem?_append] at hi
    split at hi
    · exact h.inputs i m hi hrole w hw
    · exact hnew m (List.mem_toArray.1 (Array.mem_of_getElem? hi)) hrole w hw
  · rw [hedges] at he
    obtain ⟨d, u, hd, hu, hrest⟩ := h.edges e he
    exact ⟨d, u, hkept hd, hkept hu, hrest⟩

theorem push (h : g.Rooted)
    (hn : n.role = .defines → n.version.inputs = []) : (g.push n).Rooted := by
  refine h.append [n] (by simp [Graph.push]) rfl fun m hm hrole w hw => ?_
  obtain rfl := List.mem_singleton.1 hm
  rw [hn hrole] at hw
  cases hw

theorem addUse (h : g.Rooted) (hn : n.role = .uses) : (g.addUse n).2.Rooted := by
  have hpush : (g.push n).Rooted := h.push fun hdef => by
    rw [hn] at hdef
    cases hdef
  have hused := addUse_used (g := g) hn
  generalize (g.addUse n).1 = result, (g.addUse n).2 = g' at hused ⊢
  cases hused with
  | dangling => exact hpush
  | @joined d i r hd hk _ _ =>
    refine ⟨hpush.inputs, fun e he => ?_⟩
    rcases Array.mem_push.1 he with he | rfl
    · exact hpush.edges e he
    · simp only [Node.key, Key.opposite, hn, Role.opposite, Key.mk.injEq] at hk
      refine ⟨d, n, ?_, (getElem?_push_nodes g n _).trans (if_pos rfl), hk.2.2, hk.1⟩
      exact (getElem?_push_nodes g n i).trans
        ((if_neg (Nat.ne_of_lt (Array.getElem?_eq_some_iff.1 hd).1)).trans hd)
  | swallowed => exact hpush
  | rejected => exact ⟨hpush.inputs, hpush.edges⟩
  | dropped => exact hpush

end Rooted

end DefUse.Graph

/-! ### the run -/

namespace Transfer

variable {s : Settings} {b : BlockId} {stmt : Statement} {t t' : Bindings} {f f' : Facts}

theorem statement_rooted (h : f.graph.Rooted)
    (hfree : ∀ source target, stmt.action ≠ .rename source target)
    (hs : statement s b t f stmt = .ok (t', f')) : f'.graph.Rooted := by
  cases statement_effect hs with
  | @write a v hact hv =>
    refine Graph.Rooted.push h fun _ => ?_
    rw [show (Node.ofStatement .defines stmt a.base v a.index b).version = v from rfl, hv]
    split <;> rfl
  | create => exact Graph.Rooted.push h fun _ => rfl
  | used | dangling => exact h.addUse rfl
  | missed | other => exact h
  | unmoved hact | moved hact | redefined hact => exact absurd hact (hfree _ _)

theorem statements_rooted {stmts : List Statement} (h : f.graph.Rooted)
    (hfree : ∀ stmt ∈ stmts, ∀ source target, stmt.action ≠ .rename source target)
    (hs : statements s b stmts t f = .ok (t', f')) : f'.graph.Rooted := by
  induction stmts generalizing t f with
  | nil =>
    cases hs
    exact h
  | cons stmt rest ih =>
    rw [statements_cons, bind_eq_ok] at hs
    obtain ⟨⟨t₁, f₁⟩, h₁, hrest⟩ := hs
    obtain ⟨hone, hothers⟩ := List.forall_mem_cons.1 hfree
    exact ih (statement_rooted h hone h₁) hothers hrest

end Transfer

/-- What a merge joins is bound in tables of its predecessors, and so is defined. -/
theorem Merge.predecessors_rooted {s : Settings} {b : BlockId} {line : Nat} {preds : List BlockId}
    {t : Bindings} {f f' : Facts} (h : f.graph.Rooted)
    (hx : ∀ (c : BlockId) (u : Bindings), f.exposed[c]? = some u → Backed f.graph u)
    (hm : predecessors s f b line preds = .ok (t, f')) : f'.graph.Rooted := by
  rcases predecessors_cases hm with ⟨-, -, rfl⟩ | ⟨-, -, -, rfl⟩ | ⟨h2, hready, -⟩
  · exact h
  · exact h
  · obtain ⟨made, lost, rfl, hmerged, -⟩ := predecessors_merged h2 hm
    refine h.append made rfl rfl fun n hn _ w hw => ?_
    obtain ⟨base, v, inputs, hv, hcarries, hfresh, rfl⟩ := (hmerged.mem_made n).1 hn
    obtain ⟨inputs', hcarries', hbecomes⟩ := hmerged.becomes base v hv
    obtain rfl : inputs' = inputs :=
      List.map_injective_iff.2 (Option.some_injective _) (hcarries'.trans hcarries.symm)
    cases hbecomes with
    | reused hone => exact absurd hfresh hone
    | fresh =>
      have hmem : some w ∈ preds.map fun a => (f.exposed.table a)[base]? := by
        rw [← hcarries]
        exact List.mem_map_of_mem hw
      obtain ⟨a, ha, hbound⟩ := List.mem_map.1 hmem
      exact hx a _ (Exposed.isReady_iff.1 (hready a ha)) base w hbound

namespace Machine

variable {p : Procedure} {s : Settings} {m : Machine}

theorem Reaches.rooted (hp : p.WellFormed) (hfree : p.RenameFree)
    (hm : Reaches p s m) : m.facts.graph.Rooted := by
  refine hm.invariant (P := fun m => m.facts.graph.Rooted) (.empty _) fun m m' hm ih hstep => ?_
  cases hstep.change with
  | @processed b t f f₁ he hproc hcore =>
    have henter : f.graph.Rooted := by
      rcases he.source with ⟨-, rfl⟩ | ⟨preds, -, hmerge⟩
      · exact ih
      · exact Merge.predecessors_rooted ih (hm.accounted hp hfree).1.exposed hmerge
    obtain ⟨t', f', hs, rfl⟩ := Transfer.process_eq_ok.1 hproc
    have hbehind : f'.graph.Rooted :=
      Transfer.statements_rooted henter (fun _ hmem => hfree.statementsOf hmem) hs
    rw [Facts.graph_of_core hcore]
    exact hbehind
  | ended _ he hclose hcore =>
    rw [Facts.graph_of_core hcore, graph_close hclose, he.graph_eq]
    exact ih
  | none _ hcore =>
    rw [Facts.graph_of_core hcore]
    exact ih

end Machine

/-! ## versions inside others -/

namespace Version

variable {u v w : Version}

/-- Versions of one origin join versions of one origin. -/
theorem exists_input_of_stem (h : v.stem = w.stem) (hu : u ∈ v.inputs) :
    ∃ u' ∈ w.inputs, u'.stem = u.stem := by
  have hmap : ∀ x : Version, x.stem.inputs = x.inputs.map stem := by
    intro x
    cases x with
    | single => rfl
    | phi n vs b l => exact stems_eq_map vs
  have hmem : u.stem ∈ w.inputs.map stem := by
    rw [← hmap, ← h, hmap]
    exact List.mem_map_of_mem hu
  exact List.mem_map.1 hmem

theorem Inside.of_input (h : Inside v u) (hw : w ∈ v.inputs) : Inside w u := by
  induction h with
  | self =>
    cases v with
    | single => cases hw
    | phi => exact .input hw .self
  | input hv _ ih => exact .input hv ih

end Version

namespace DefUse.Graph

variable {g : Graph} {k : Key} {i j a : Nat} {n d : Node} {u v : Version}

/-- Each version has one definition at most, and the versions that definitions join have one. -/
structure Traceable (g : Graph) : Prop where
  order : g.order = List.range g.nodes.size
  distinct : ∀ base v i j, g.Defines base v i → g.Defines base v j → i = j
  rooted : g.Rooted

namespace Traceable

/-- From a definition, those of the versions that it joins are found. -/
theorem unfolds_iff (h : g.Traceable) (hn : g.nodes[i]? = some n) (hrole : n.role = .defines) :
    g.Unfolds i j ↔ ∃ w ∈ n.version.inputs, g.Defines n.base w j := by
  have hresolve : ∀ w ∈ n.version.inputs, g.resolve ⟨n.base, w.signature, .defines⟩ w = some j ↔
      g.Defines n.base w j := by
    intro w hw
    obtain ⟨j', hj'⟩ := h.rooted.inputs i n hn hrole w hw
    have hsole : ∀ c, g.Defines n.base w c → c = j' := fun c hc => h.distinct _ _ _ _ hc hj'
    have hmem : j' ∈ g.order := by
      rw [h.order]
      exact List.mem_range.2 hj'.lt
    rw [resolve_eq_some hmem hj' hsole, Option.some.injEq]
    exact ⟨fun heq => heq ▸ hj', fun hj => (hsole j hj).symm⟩
  rw [Unfolds, joinedDefs, hn, List.mem_filterMap]
  exact exists_congr fun w => and_congr_right fun hw => hresolve w hw

theorem sound (h : g.Traceable) (hd : g.nodes[a]? = some d) (hrole : d.role = .defines)
    (hpath : Relation.ReflTransGen g.Unfolds a i) :
    ∃ v, v.Inside d.version ∧ g.Defines d.base v i := by
  induction hpath with
  | refl => exact ⟨d.version, .self, d, hd, hrole, rfl, Version.sameOrigin_refl _⟩
  | tail _ hstep ih =>
    obtain ⟨v, hv, n, hn, hnrole, hbase, hsame⟩ := ih
    obtain ⟨w, hw, hdefines⟩ := (h.unfolds_iff hn hnrole).1 hstep
    obtain ⟨w', hw', hstem⟩ :=
      Version.exists_input_of_stem ((Version.sameOrigin_iff _ _).1 hsame) hw
    exact ⟨w', hv.of_input hw', (Defines.congr hstem).2 (hbase ▸ hdefines)⟩

/-- The definitions of all versions inside the one of a definition are found from it: along the way
from the one version to the other, each is defined. -/
theorem complete (h : g.Traceable) (hinside : v.Inside u) (hd : g.nodes[a]? = some d)
    (hrole : d.role = .defines) (hstem : d.version.stem = u.stem) :
    ∃ j, g.Defines d.base v j ∧ Relation.ReflTransGen g.Unfolds a j := by
  induction hinside generalizing a d with
  | self => exact ⟨a, ⟨d, hd, hrole, rfl, (Version.sameOrigin_iff _ _).2 hstem⟩, .refl⟩
  | @input _ vs _ _ w hw _ ih =>
    obtain ⟨w', hw', hsame⟩ :=
      Version.exists_input_of_stem hstem.symm (show w ∈ (Version.phi _ vs _ _).inputs from hw)
    obtain ⟨c, hc⟩ := h.rooted.inputs a d hd hrole w' hw'
    have hstep : g.Unfolds a c := (h.unfolds_iff hd hrole).2 ⟨w', hw', hc⟩
    obtain ⟨n, hn, hnrole, hbase, hnstem⟩ := hc
    obtain ⟨j, hj, hpath⟩ := ih hn hnrole (((Version.sameOrigin_iff _ _).1 hnstem).trans hsame)
    exact ⟨j, hbase ▸ hj, .head hstep hpath⟩

theorem mem_transitiveDefs (h : g.Traceable) : i ∈ g.transitiveDefs k ↔
    ∃ e ∈ g.edges, ∃ d u v, g.nodes[e.source]? = some d ∧ g.nodes[e.target]? = some u ∧
      d.role = .defines ∧ u.key = k ∧
      Version.Inside v d.version ∧ g.Defines k.base v i := by
  have hslot : ∀ c, c ∈ g.slot k ↔ ∃ u, g.nodes[c]? = some u ∧ u.key = k := by
    intro c
    rw [mem_slot, h.order, List.mem_range]
    refine and_iff_right_of_imp ?_
    rintro ⟨u, hu, -⟩
    exact (Array.getElem?_eq_some_iff.1 hu).1
  rw [Graph.mem_transitiveDefs]
  constructor
  · rintro ⟨c, hc, e, he, rfl, hpath⟩
    obtain ⟨u, hu, hk⟩ := (hslot _).1 hc
    obtain ⟨d, u', hd, hu', hrole, hbase⟩ := h.rooted.edges e he
    obtain rfl := Option.some.inj (hu.symm.trans hu')
    obtain ⟨v, hv, hdefines⟩ := h.sound hd hrole hpath
    refine ⟨e, he, d, u, v, hd, hu, hrole, hk, hv, ?_⟩
    rwa [← hk, show u.key.base = u.base from rfl, ← hbase]
  · rintro ⟨e, he, d, u, v, hd, hu, hrole, hk, hv, hi⟩
    obtain ⟨d', u', hd', hu', -, hbase⟩ := h.rooted.edges e he
    obtain rfl := Option.some.inj (hd.symm.trans hd')
    obtain rfl := Option.some.inj (hu.symm.trans hu')
    obtain ⟨j, hj, hpath⟩ := h.complete hv hd hrole rfl
    rw [← hk, show u.key.base = u.base from rfl, ← hbase] at hi
    obtain rfl := h.distinct _ _ _ _ hi hj
    exact ⟨e.target, (hslot _).2 ⟨u, hu, hk⟩, e, he, rfl, hpath⟩

end Traceable

end DefUse.Graph

theorem Report.traceable {p : Procedure} {s : Settings} {r : Report} (hp : p.WellFormed)
    (hfree : p.RenameFree) (h : analyze p s = .ok r) : r.facts.graph.Traceable := by
  have hlinked := (Report.accounted hp hfree h).linked
  obtain ⟨-, m, -, hm, rfl⟩ := analyze_eq_ok h
  refine ⟨hlinked.order, hlinked.distinct, ?_⟩
  have hrooted := hm.rooted hp hfree
  rw [Machine.conclude_eq]
  exact hrooted

/-- Without renames, a search for the definitions behind the uses under a key comes to an end. What
it finds, it finds once: the definitions of the array whose version is that of a definition with an
edge into such a use, or stands inside of it at any depth. It finds no others, however many
definitions share their keys. -/
theorem transitive_exact {d : Draft} {p : Procedure} {s : Settings} {r : Report}
    (hb : d.build = .ok p) (hfree : p.RenameFree) (h : analyze p s = .ok r) (k : Key) :
    r.facts.graph.Explores ((r.facts.graph.slot k).flatMap r.facts.graph.incoming) []
      (r.facts.graph.transitiveDefs k) ∧
    (r.facts.graph.transitiveDefs k).Nodup ∧
    ∀ i, i ∈ r.facts.graph.transitiveDefs k ↔
      ∃ n, r.facts.graph.nodes[i]? = some n ∧ n.role = .defines ∧ n.base = k.base ∧
        ∃ e ∈ r.facts.graph.edges, ∃ d u v, r.facts.graph.nodes[e.source]? = some d ∧
          r.facts.graph.nodes[e.target]? = some u ∧ d.role = .defines ∧ u.key = k ∧
          Version.Inside v d.version ∧ n.version.sameOrigin v = true := by
  have htrace := Report.traceable (.of_build hb) hfree h
  have hexplores := r.facts.graph.transitiveDefs_explores k
  refine ⟨hexplores, hexplores.nodup .nil, fun i => ?_⟩
  rw [htrace.mem_transitiveDefs]
  constructor
  · rintro ⟨e, he, d, u, v, hd, hu, hrole, hk, hv, n, hn, hnrole, hbase, hsame⟩
    exact ⟨n, hn, hnrole, hbase, e, he, d, u, v, hd, hu, hrole, hk, hv, hsame⟩
  · rintro ⟨n, hn, hnrole, hbase, e, he, d, u, v, hd, hu, hrole, hk, hv, hsame⟩
    exact ⟨e, he, d, u, v, hd, hu, hrole, hk, hv, n, hn, hnrole, hbase, hsame⟩

/-- Three branches write `a`, so that three definitions share a key; only two of them are merged
before a read. -/
def threeBranches : Draft where
  name := "three branches"
  blocks := [
    (⟨0⟩, [⟨⟨0⟩, 1, "a = new", .create "a"⟩]),
    (⟨1⟩, [⟨⟨1⟩, 2, "a[i] = x", .write ⟨"a", .expr "i"⟩⟩]),
    (⟨2⟩, [⟨⟨2⟩, 3, "a[j] = x", .write ⟨"a", .expr "j"⟩⟩]),
    (⟨3⟩, [⟨⟨3⟩, 4, "a[k] = x", .write ⟨"a", .expr "k"⟩⟩]),
    (⟨4⟩, [⟨⟨4⟩, 5, "y = a[k]", .read ⟨"a", .expr "k"⟩⟩])]
  edges := [(⟨0⟩, ⟨1⟩), (⟨0⟩, ⟨2⟩), (⟨0⟩, ⟨3⟩), (⟨1⟩, ⟨4⟩), (⟨2⟩, ⟨4⟩)]

theorem transitive_exact_threeBranches :
    ∃ p r, threeBranches.build = .ok p ∧ analyze p {} = .ok r ∧
      (r.facts.graph.slot ⟨"a", .single 1, .defines⟩).length = 3 ∧
      (r.facts.graph.transitiveDefs ⟨"a", .phi [1, 1], .uses⟩).map
      (fun i => r.facts.graph.nodes[i]?.map (·.line)) =
        [some 5, some 2, some 3] ∧
      ∀ i, i ∈ r.facts.graph.transitiveDefs ⟨"a", .phi [1, 1], .uses⟩ ↔
        ∃ n, r.facts.graph.nodes[i]? = some n ∧ n.role = .defines ∧ n.base = "a" ∧
          ∃ e ∈ r.facts.graph.edges, ∃ d u v, r.facts.graph.nodes[e.source]? = some d ∧
            r.facts.graph.nodes[e.target]? = some u ∧ d.role = .defines ∧
            u.key = ⟨"a", .phi [1, 1], .uses⟩ ∧
            Version.Inside v d.version ∧ n.version.sameOrigin v = true := by
  obtain ⟨p, r, hb, h, hP⟩ := Draft.check_eq_true (d := threeBranches) (s := {})
    (P := fun p r => p.RenameFree ∧ (r.facts.graph.slot ⟨"a", .single 1, .defines⟩).length = 3 ∧
      (r.facts.graph.transitiveDefs ⟨"a", .phi [1, 1], .uses⟩).map
      (fun i => r.facts.graph.nodes[i]?.map (·.line)) =
        [some 5, some 2, some 3]) (by decide +kernel)
  obtain ⟨hfree, hshared, hfound⟩ := of_decide_eq_true hP
  exact ⟨p, r, hb, h, hshared, hfound, (transitive_exact hb hfree h ⟨"a", .phi [1, 1], .uses⟩).2.2⟩

end ArrayFlow
