import ArrayFlow.DefUse.Query
import ArrayFlow.Proofs.Edges

/-!
# The def-use graph with its lookups stored

A graph finds nodes by their keys, and edges by the sites that they join. Both can be stored in maps
that every operation brings up to date: a new node is entered under its key, a renamed one is taken
out of its slot and entered under its new key, and a new edge is entered under its own key. These
maps never differ from what the graph says.

* `Graph.Sorted`     : each node is listed once, edges lead from definitions to uses, and their keys
  differ;
* `Store`            : nodes and edges with stored lookups, and the operations on them;
* `Store.Represents` : the store has the nodes and edges of the graph, and finds what the graph
  finds;
* `Operation`        : the ways in which a graph grows, with `Sorted.operation` and
  `Represents.operation` for each;
* `Graph.Retains`    : no node and no edge is lost;
* `Sorted.hasEdge_iff_uses`, `Sorted.hasEdge_iff_defs` : the questions about edges agree;
* `stored_index_exact` : all of this holds however a graph was grown.
-/

namespace ArrayFlow.DefUse

/-! ## graphs in good order -/

namespace Graph

variable {g g' : Graph} {n : Node} {k : Key} {v : Version} {i j : Nat} {stmt : Statement}
  {target : String}

/-- Each node is listed once, edges lead from definitions to uses, and no two edges have one key. -/
structure Sorted (g : Graph) : Prop where
  order : g.order.Perm (List.range g.nodes.size)
  edges : ∀ e ∈ g.edges, ∃ d u, g.nodes[e.source]? = some d ∧ g.nodes[e.target]? = some u ∧
    d.role = .defines ∧ u.role = .uses
  keys : (g.edges.toList.map (·.key)).Nodup

def pushEdge (g : Graph) (e : Edge) : Graph := { g with edges := g.edges.push e }

/-- What joining two nodes does: there is a new edge, whose key is new, or at most another rejected
pair. -/
theorem link_cases (g : Graph) (i j : Nat) :
    (∃ d u r, g.nodes[i]? = some d ∧ g.nodes[j]? = some u ∧ g.edgeAt? (.between d u) = none ∧
      (g.link i j).2 = g.pushEdge ⟨i, j, .between d u, r⟩) ∨ ∃ rs, (g.link i j).2 =
      { g with rejected := rs } := by
  unfold link
  split
  · rename_i d u hd hu
    split
    · rename_i r hr
      split
      · exact .inr ⟨g.rejected, rfl⟩
      · rename_i he
        exact .inl ⟨d, u, r, hd, hu, he, rfl⟩
    · split
      · exact .inr ⟨_, rfl⟩
      · exact .inr ⟨g.rejected, rfl⟩
  · exact .inr ⟨g.rejected, rfl⟩

namespace Sorted

theorem empty (keepsRejected : Bool) : Sorted (.empty keepsRejected) where
  order := .refl _
  edges := by simp [Graph.empty]
  keys := .nil

theorem mem_order (h : g.Sorted) :
    i ∈ g.order ↔ i < g.nodes.size := by rw [h.order.mem_iff, List.mem_range]

theorem mem_slot (h : g.Sorted) : i ∈ g.slot k ↔ ∃ n, g.nodes[i]? = some n ∧ n.key = k := by
  rw [Graph.mem_slot, h.mem_order]
  refine and_iff_right_of_imp ?_
  rintro ⟨n, hn, -⟩
  exact (Array.getElem?_eq_some_iff.1 hn).1

theorem count_slot (h : g.Sorted) (hn : g.nodes[i]? = some n) : (g.slot n.key).count i = 1 := by
  refine List.count_eq_one_of_mem ?_ (h.mem_slot.2 ⟨n, hn, rfl⟩)
  exact (h.order.nodup_iff.2 List.nodup_range).filter _

theorem push (h : g.Sorted) (n : Node) : (g.push n).Sorted where
  order := by
    rw [Graph.push, Array.size_push, List.range_succ]
    exact h.order.append_right _
  edges e he := by
    obtain ⟨d, u, hd, hu, hroles⟩ := h.edges e he
    refine ⟨d, u, ?_, ?_, hroles⟩
    · exact (getElem?_push_nodes g n _).trans
        ((if_neg (Nat.ne_of_lt (Array.getElem?_eq_some_iff.1 hd).1)).trans hd)
    · exact (getElem?_push_nodes g n _).trans
        ((if_neg (Nat.ne_of_lt (Array.getElem?_eq_some_iff.1 hu).1)).trans hu)
  keys := h.keys

theorem link {d u : Node} (h : g.Sorted) (hd : g.nodes[i]? = some d) (hu : g.nodes[j]? = some u)
    (hdef : d.role = .defines) (huse : u.role = .uses) : (g.link i j).2.Sorted := by
  rcases link_cases g i j with ⟨d', u', r, hd', hu', he, heq⟩ | ⟨rs, heq⟩
  · rw [heq]
    refine ⟨h.order, fun e hmem => ?_, ?_⟩
    · rcases Array.mem_push.1 hmem with hmem | rfl
      · exact h.edges e hmem
      · exact ⟨d, u, hd, hu, hdef, huse⟩
    · rw [pushEdge, Array.toList_push, List.map_append, List.map_singleton]
      refine List.nodup_append.2 ⟨h.keys, List.nodup_singleton _, ?_⟩
      intro x hx y hy
      obtain ⟨e, hmem, rfl⟩ := List.mem_map.1 hx
      rw [List.mem_singleton.1 hy]
      simp only [edgeAt?, Array.findIdx?_eq_none_iff, beq_eq_false_iff_ne] at he
      exact he e (Array.mem_toList_iff.1 hmem)
  · rw [heq]
    exact ⟨h.order, h.edges, h.keys⟩

theorem handOver {d : Node} (h : g.Sorted) (hd : g.nodes[i]? = some d) (hdef : d.role = .defines) :
    (g.handOver i stmt target v).Sorted where
  order := by
    have hmem : i ∈ g.order := h.mem_order.2 (Array.getElem?_eq_some_iff.1 hd).1
    have hback : (g.order.erase i ++ [i]).Perm g.order :=
      List.perm_append_comm.trans (List.perm_cons_erase hmem).symm
    rw [Graph.handOver, Array.size_modify]
    exact hback.trans h.order
  edges e he := by
    obtain ⟨d', u, hd', hu, hdef', huse⟩ := h.edges e he
    have htarget : i ≠ e.target := by
      rintro rfl
      rw [hd] at hu
      cases hu
      rw [hdef] at huse
      cases huse
    have hu' : (g.handOver i stmt target v).nodes[e.target]? = some u := by
      rw [Graph.handOver, Array.getElem?_modify, if_neg htarget, hu]
    by_cases hsource : i = e.source
    · refine ⟨d'.rebind stmt target v, u, ?_, hu', hdef', huse⟩
      rw [Graph.handOver, Array.getElem?_modify, if_pos hsource, hd']
      rfl
    · refine ⟨d', u, ?_, hu', hdef', huse⟩
      rw [Graph.handOver, Array.getElem?_modify, if_neg hsource, hd']
  keys := h.keys

end Sorted

/-! ### slots -/

theorem Sorted.slot_push (h : g.Sorted) (n : Node) (k : Key) :
    (g.push n).slot k = if n.key = k then g.slot k ++ [g.nodes.size] else g.slot k := by
  split
  · rename_i hk
    have hold : g.order.filter ((g.push n).hasKey k) = g.slot k := by
      refine List.filter_congr fun i hi => ?_
      rw [hasKey, hasKey, getElem?_push_nodes, if_neg (Nat.ne_of_lt (h.mem_order.1 hi))]
    have hnew : (g.push n).hasKey k g.nodes.size = true := by simp [hasKey, getElem?_push_nodes, hk]
    rw [slot, show (g.push n).order = g.order ++ [g.nodes.size] from rfl, List.filter_append, hold,
      List.filter_singleton, hnew]
    rfl
  · rename_i hk
    exact slot_push_of_ne hk

/-- A renamed node is taken out of its slot, and is then the newest one under its new key. -/
theorem Sorted.slot_handOver {d : Node} (h : g.Sorted) (hd : g.nodes[i]? = some d) (k : Key) :
    (g.handOver i stmt target v).slot k =
      if (d.rebind stmt target v).key = k then (g.slot k).filter (· ≠ i) ++ [i]
        else (g.slot k).filter (· ≠ i) := by
  have hnodup : g.order.Nodup := h.order.nodup_iff.2 List.nodup_range
  have hold : (g.order.erase i).filter ((g.handOver i stmt target v).hasKey k) =
      (g.slot k).filter (· ≠ i) := by
    rw [hnodup.erase_eq_filter, slot, List.filter_filter, List.filter_filter]
    refine List.filter_congr fun j _ => ?_
    by_cases hj : j = i
    · simp [hj]
    · simp [hj, hasKey, Graph.handOver, Array.getElem?_modify, Ne.symm hj]
  have hnew : (g.handOver i stmt target v).hasKey k i = ((d.rebind stmt target v).key == k) := by
    simp [hasKey, Graph.handOver, Array.getElem?_modify, hd]
  rw [slot, show (g.handOver i stmt target v).order = g.order.erase i ++ [i] from rfl,
    List.filter_append, hold, List.filter_singleton, hnew]
  by_cases hk : (d.rebind stmt target v).key = k
  · rw [if_pos hk, beq_iff_eq.2 hk]
    rfl
  · rw [if_neg hk, beq_eq_false_iff_ne.2 hk]
    exact List.append_nil _

theorem edgeAt?_pushEdge {e : Edge} (he : g.edgeAt? e.key = none) (k : EdgeKey) :
    (g.pushEdge e).edgeAt? k = if e.key = k then some g.edges.size else g.edgeAt? k := by
  rw [edgeAt?, pushEdge, Array.findIdx?_push]
  by_cases hk : e.key = k
  · subst hk
    rw [show g.edges.findIdx? (·.key == e.key) = none from he, beq_self_eq_true,
      if_pos rfl, if_pos rfl]
    rfl
  · rw [if_neg hk, beq_eq_false_iff_ne.2 hk, if_neg Bool.false_ne_true, Option.or_none]
    rfl

/-- The keys of edges and their positions determine each other. -/
theorem Sorted.edgeAt?_eq_some (h : g.Sorted) {k : EdgeKey} :
    g.edgeAt? k = some i ↔ ∃ e, g.edges[i]? = some e ∧ e.key = k := by
  have hfound : ∀ {j}, g.edgeAt? k = some j → ∃ e, g.edges[j]? = some e ∧ e.key = k := by
    intro j hj
    obtain ⟨hlt, hk, -⟩ := Array.findIdx?_eq_some_iff_getElem.1 hj
    exact ⟨g.edges[j], Array.getElem?_eq_getElem hlt, beq_iff_eq.1 hk⟩
  refine ⟨hfound, ?_⟩
  rintro ⟨e, he, rfl⟩
  cases hj : g.edgeAt? e.key with
  | none =>
    have hne := Array.findIdx?_eq_none_iff.1 hj e (Array.mem_of_getElem? he)
    rw [beq_self_eq_true] at hne
    cases hne
  | some j =>
    obtain ⟨e', he', hk⟩ := hfound hj
    have hlt : i < (g.edges.toList.map (·.key)).length := by
      rw [List.length_map]
      exact (Array.getElem?_eq_some_iff.1 he).1
    have hij : (g.edges.toList.map (·.key))[i]? = (g.edges.toList.map (·.key))[j]? := by
      rw [List.getElem?_map, List.getElem?_map, Array.getElem?_toList, Array.getElem?_toList, he,
        he', Option.map_some, Option.map_some, hk]
    rw [(List.getElem?_inj hlt h.keys).1 hij]

/-! ### questions about edges -/

theorem joined_iff {d u : Nat} : g.joined d u = true ↔ ∃ e ∈ g.edges, e.source = d ∧
    e.target = u := by
  rw [joined, ← Array.any_toList, List.any_eq_true]
  simp only [Bool.and_eq_true, beq_iff_eq, Array.mem_toList_iff]

theorem mem_usesOf {u : Nat} : u ∈ g.usesOf k ↔ ∃ d ∈ g.slot k, ∃ e ∈ g.edges, e.source = d ∧
    e.target = u := by
  simp [usesOf, outgoing, and_assoc]

theorem mem_defsReaching {d : Nat} :
    d ∈ g.defsReaching k ↔ ∃ u ∈ g.slot k, ∃ e ∈ g.edges, e.target = u ∧ e.source = d := by
  simp [defsReaching, incoming, and_assoc]

theorem hasEdge_iff {k k' : Key} :
    g.hasEdge k k' = true ↔ ∃ d ∈ g.slot k, ∃ u ∈ g.slot k', ∃ e ∈ g.edges, e.source = d ∧
      e.target = u := by
  simp only [hasEdge, List.any_eq_true, joined_iff]

/-- There is an edge between two keys exactly if one of the uses of the first one is under the
second. -/
theorem Sorted.hasEdge_iff_uses (h : g.Sorted) {k k' : Key} :
    g.hasEdge k k' = true ↔ ∃ u ∈ g.usesOf k, ∃ n, g.nodes[u]? = some n ∧ n.key = k' := by
  simp only [hasEdge_iff, mem_usesOf, ← h.mem_slot]
  constructor
  · rintro ⟨d, hd, u, hu, e, he, hjoin⟩
    exact ⟨u, ⟨d, hd, e, he, hjoin⟩, hu⟩
  · rintro ⟨u, ⟨d, hd, e, he, hjoin⟩, hu⟩
    exact ⟨d, hd, u, hu, e, he, hjoin⟩

theorem Sorted.hasEdge_iff_defs (h : g.Sorted) {k k' : Key} :
    g.hasEdge k k' = true ↔ ∃ d ∈ g.defsReaching k', ∃ n, g.nodes[d]? = some n ∧ n.key = k := by
  simp only [hasEdge_iff, mem_defsReaching, ← h.mem_slot]
  constructor
  · rintro ⟨d, hd, u, hu, e, he, hsource, htarget⟩
    exact ⟨d, ⟨u, hu, e, he, htarget, hsource⟩, hd⟩
  · rintro ⟨d, ⟨u, hu, e, he, htarget, hsource⟩, hd⟩
    exact ⟨d, hd, u, hu, e, he, hsource, htarget⟩

/-! ### what stays -/

/-- All edges and nodes are still there. Edges lead where they led. A node has its role, subscript
and block, and a use is the same node as before. -/
structure Retains (g g' : Graph) : Prop where
  edges : g.edges.toList <+: g'.edges.toList
  nodes : ∀ (i : Nat) n, g.nodes[i]? = some n → ∃ n', g'.nodes[i]? = some n' ∧ n'.role = n.role ∧
    n'.index = n.index ∧
    n'.block = n.block ∧ (n.role = .uses → n' = n)

namespace Retains

theorem of_nodes (he : g.edges.toList <+: g'.edges.toList)
    (hn : ∀ (i : Nat) n, g.nodes[i]? = some n → g'.nodes[i]? = some n) :
    Retains g g' :=
  ⟨he, fun i n hi => ⟨n, hn i n hi, rfl, rfl, rfl, fun _ => rfl⟩⟩

theorem refl (g : Graph) : Retains g g := of_nodes List.prefix_rfl fun _ _ h => h

theorem trans {g'' : Graph} (h : Retains g g') (h' : Retains g' g'') : Retains g g'' := by
  refine ⟨h.edges.trans h'.edges, fun i n hi => ?_⟩
  obtain ⟨m, hm, hrole, hindex, hblock, huse⟩ := h.nodes i n hi
  obtain ⟨m', hm', hrole', hindex', hblock', huse'⟩ := h'.nodes i m hm
  refine ⟨m', hm', hrole'.trans hrole, hindex'.trans hindex, hblock'.trans hblock, fun hn => ?_⟩
  rw [huse' (hrole.trans hn), huse hn]

theorem push (g : Graph) (n : Node) : Retains g (g.push n) := by
  refine of_nodes List.prefix_rfl fun i m hi => ?_
  rw [getElem?_push_nodes, if_neg (Nat.ne_of_lt (Array.getElem?_eq_some_iff.1 hi).1), hi]

theorem link (g : Graph) (i j : Nat) : Retains g (g.link i j).2 := by
  rcases link_cases g i j with ⟨d, u, r, -, -, -, heq⟩ | ⟨rs, heq⟩
  · rw [heq]
    refine of_nodes ?_ fun _ _ h => h
    rw [pushEdge, Array.toList_push]
    exact List.prefix_append _ _
  · rw [heq]
    exact of_nodes List.prefix_rfl fun _ _ h => h

theorem handOver {d : Node} (hd : g.nodes[i]? = some d) (hdef : d.role = .defines) :
    Retains g (g.handOver i stmt target v) := by
  refine ⟨List.prefix_rfl, fun j n hj => ?_⟩
  rw [Graph.handOver, Array.getElem?_modify]
  split
  · rename_i hij
    subst hij
    rw [hd] at hj
    cases hj
    refine ⟨d.rebind stmt target v, by rw [hd]; rfl, rfl, rfl, rfl, fun huse => ?_⟩
    rw [hdef] at huse
    cases huse
  · exact ⟨n, hj, rfl, rfl, rfl, fun _ => rfl⟩

end Retains

end Graph

/-! ## stored lookups -/

/-- Nodes and edges with stored lookups. -/
structure Store where
  nodes : Array Node
  /-- The positions of the nodes under each key, oldest first. -/
  slots : Std.ExtTreeMap Key (List Nat)
  edges : Array Edge
  /-- The position of the edge with each key. -/
  index : Std.ExtTreeMap EdgeKey Nat
  rejected : List Rejection
  keepsRejected : Bool

namespace Store

/-- The store without nodes. -/
def empty (keepsRejected : Bool) : Store := ⟨#[], ∅, #[], ∅, [], keepsRejected⟩

/-- Enters a position under a key, as the newest one. -/
def enter (slots : Std.ExtTreeMap Key (List Nat)) (k : Key) (i : Nat) :
    Std.ExtTreeMap Key (List Nat) :=
  slots.insert k (slots.getD k [] ++ [i])

/-- Takes a position out of the slot of a key. A slot that would be empty is removed. -/
def remove (slots : Std.ExtTreeMap Key (List Nat)) (k : Key) (i : Nat) :
    Std.ExtTreeMap Key (List Nat) :=
  match (slots.getD k []).filter (· ≠ i) with
  | [] => slots.erase k
  | slot => slots.insert k slot

def push (st : Store) (n : Node) : Store :=
  { st with nodes := st.nodes.push n, slots := enter st.slots n.key st.nodes.size }

def resolve (st : Store) (k : Key) (v : Version) : Option Nat :=
  match st.slots[k]? with
  | none => none
  | some slot =>
    match slot.reverse.find? fun i => st.nodes[i]?.any (·.version.sameOrigin v) with
    | some i => some i
    | none => slot.getLast?

def link (st : Store) (source target : Nat) : Option Nat × Store :=
  match st.nodes[source]?, st.nodes[target]? with
  | some d, some u =>
    match Graph.reason? d u with
    | some r =>
      match st.index[EdgeKey.between d u]? with
      | some e => (some e, st)
      | none =>
        (some st.edges.size, { st with
          edges := st.edges.push ⟨source, target, .between d u, r⟩
          index := st.index.insert (.between d u) st.edges.size })
    | none =>
      if st.keepsRejected then
        (none, { st with rejected := st.rejected ++ [⟨d.key, u.key, d.index, u.index, u.stmt⟩] })
      else (none, st)
  | _, _ => (none, st)

def addDef (st : Store) (n : Node) : Nat × Store := (st.nodes.size, st.push n)

def addUse (st : Store) (n : Node) : Except Fault (Option Nat) × Store :=
  let st' := st.push n
  match st'.resolve n.key.opposite n.version with
  | some d =>
    let (e, st'') := st'.link d st.nodes.size
    (.ok e, st'')
  | none => (.error (.danglingUse n.base n.version.signature.text n.stmt n.block), st')

def isAt (st : Store) (role : Role) (i : Nat) : Bool := st.nodes[i]?.any (·.role == role)

def addEdge (st : Store) (source target : Key) : Option Nat × Store :=
  match (st.slots.getD target []).getLast? with
  | none => (none, st)
  | some u =>
    match st.nodes[u]? with
    | none => (none, st)
    | some n =>
      match st.resolve source n.version with
      | none => (none, st)
      | some d => if st.isAt .defines d ∧ st.isAt .uses u then st.link d u else (none, st)

/-- Hands the definition of a version over to another name. It is entered under its new key. -/
def renameDef (st : Store) (oldBase : String) (oldVersion : Version) (newBase : String)
    (newVersion : Version) (s : Statement) : Bool × Store :=
  let k : Key := ⟨oldBase, oldVersion.signature, .defines⟩
  match st.resolve k oldVersion with
  | some i =>
    let nodes := st.nodes.modify i (·.rebind s newBase newVersion)
    let slots := remove st.slots k i
    match nodes[i]? with
    | some n => (true, { st with nodes := nodes, slots := enter slots n.key i })
    | none => (true, { st with nodes := nodes, slots := slots })
  | none => (false, st)

theorem renameDef_of_false {st : Store} {oldBase newBase : String} {oldVersion newVersion : Version}
    {s : Statement} (h : (st.renameDef oldBase oldVersion newBase newVersion s).1 = false) :
    (st.renameDef oldBase oldVersion newBase newVersion s).2 = st := by
  unfold renameDef at h ⊢
  dsimp only at h ⊢
  split at h
  · split at h <;> cases h
  · rfl

/-! ### slots -/

/-- The slots are stored, unless they are empty. -/
def Keeps (slots : Std.ExtTreeMap Key (List Nat)) (f : Key → List Nat) : Prop :=
  ∀ k slot, slots[k]? = some slot ↔ slot ≠ [] ∧ f k = slot

section Keeps

variable {slots : Std.ExtTreeMap Key (List Nat)} {f : Key → List Nat}

theorem Keeps.getD (h : Keeps slots f) (k : Key) : slots.getD k [] = f k := by
  rw [Std.ExtTreeMap.getD_eq_getD_getElem?]
  cases hk : slots[k]? with
  | none =>
    by_contra hne
    have hsome := (h k (f k)).2 ⟨fun hnil => hne (by rw [hnil]; rfl), rfl⟩
    rw [hk] at hsome
    cases hsome
  | some slot => exact ((h k slot).1 hk).2.symm

theorem Keeps.enter (h : Keeps slots f) (k : Key) (i : Nat) :
    Keeps (enter slots k i) fun k' => if k = k' then f k' ++ [i] else f k' := by
  intro k' slot
  beta_reduce
  rw [Store.enter, h.getD, Std.ExtTreeMap.getElem?_insert]
  by_cases hk : k = k'
  · subst hk
    simp only [Std.ReflCmp.compare_self, if_true, Option.some.injEq]
    constructor
    · rintro rfl
      exact ⟨by simp, rfl⟩
    · exact fun hslot => hslot.2
  · rw [if_neg hk, if_neg fun heq => hk (Std.LawfulEqOrd.eq_of_compare heq)]
    exact h k' slot

theorem Keeps.remove (h : Keeps slots f) (k : Key) (i : Nat) :
    Keeps (remove slots k i) fun k' => if k = k' then (f k').filter (· ≠ i) else f k' := by
  intro k' slot
  beta_reduce
  rw [Store.remove, h.getD]
  by_cases hk : k = k'
  · subst hk
    rw [if_pos rfl]
    split
    · rename_i hnil
      rw [Std.ExtTreeMap.getElem?_erase_self, hnil]
      constructor
      · exact nofun
      · rintro ⟨hne, rfl⟩
        exact absurd rfl hne
    · rename_i hne
      rw [Std.ExtTreeMap.getElem?_insert_self, Option.some.injEq]
      constructor
      · rintro rfl
        exact ⟨hne, rfl⟩
      · exact fun hslot => hslot.2
  · have hcompare : ¬ compare k k' = .eq := fun heq => hk (Std.LawfulEqOrd.eq_of_compare heq)
    rw [if_neg hk]
    split
    · rw [Std.ExtTreeMap.getElem?_erase, if_neg hcompare]
      exact h k' slot
    · rw [Std.ExtTreeMap.getElem?_insert, if_neg hcompare]
      exact h k' slot

end Keeps

/-! ### a store for a graph -/

/-- The store has the nodes and edges of the graph, with its slots, and finds the same edges. -/
structure Represents (st : Store) (g : Graph) : Prop where
  nodes : st.nodes = g.nodes
  edges : st.edges = g.edges
  rejected : st.rejected = g.rejected
  keepsRejected : st.keepsRejected = g.keepsRejected
  slots : Keeps st.slots g.slot
  index : ∀ k, st.index[k]? = g.edgeAt? k

variable {st : Store} {g : Graph} {n : Node} {k : Key} {v : Version}

namespace Represents

theorem empty (keepsRejected : Bool) :
    (Store.empty keepsRejected).Represents (.empty keepsRejected) where
  nodes := rfl
  edges := rfl
  rejected := rfl
  keepsRejected := rfl
  slots k slot := by
    simp only [Store.empty, Std.ExtTreeMap.getElem?_empty, Graph.slot, Graph.empty, List.filter_nil]
    constructor
    · intro hnone
      cases hnone
    · rintro ⟨hne, rfl⟩
      exact absurd rfl hne
  index k := by simp [Store.empty, Graph.edgeAt?, Graph.empty]

theorem resolve_eq (h : st.Represents g) (k : Key) (v : Version) :
    st.resolve k v = g.resolve k v := by
  unfold resolve Graph.resolve Graph.carries
  rw [← h.slots.getD, Std.ExtTreeMap.getD_eq_getD_getElem?, h.nodes]
  cases st.slots[k]? <;> rfl

theorem push (h : st.Represents g) (hg : g.Sorted) (n : Node) :
    (st.push n).Represents (g.push n) where
  nodes := by rw [Store.push, Graph.push, h.nodes]
  edges := h.edges
  rejected := h.rejected
  keepsRejected := h.keepsRejected
  slots := by
    rw [show (g.push n).slot = _ from funext (hg.slot_push n), ← h.nodes]
    exact h.slots.enter n.key st.nodes.size
  index := h.index

theorem link (h : st.Represents g) (i j : Nat) :
    (st.link i j).1 = (g.link i j).1 ∧ (st.link i j).2.Represents (g.link i j).2 := by
  unfold Store.link Graph.link
  rw [h.nodes]
  cases g.nodes[i]? with
  | none => exact ⟨rfl, h⟩
  | some d =>
    cases g.nodes[j]? with
    | none => exact ⟨rfl, h⟩
    | some u =>
      cases hr : Graph.reason? d u with
      | none =>
        simp only [hr, h.keepsRejected]
        split
        · exact ⟨rfl, rfl, h.edges, by rw [h.rejected], rfl, h.slots, h.index⟩
        · exact ⟨rfl, h⟩
      | some r =>
        simp only [hr, h.index]
        cases he : g.edgeAt? (.between d u) with
        | some e => exact ⟨rfl, h⟩
        | none =>
          refine ⟨by rw [h.edges], rfl, by rw [h.edges], h.rejected, h.keepsRejected,
            h.slots, fun k => ?_⟩
          have hnew := Graph.edgeAt?_pushEdge (e := ⟨i, j, .between d u, r⟩) he k
          refine Eq.trans ?_ hnew.symm
          rw [Std.ExtTreeMap.getElem?_insert, h.index, h.edges]
          by_cases hk : EdgeKey.between d u = k
          · subst hk
            simp only [Std.ReflCmp.compare_self, if_true]
          · rw [if_neg hk, if_neg fun heq => hk (Std.LawfulEqOrd.eq_of_compare heq)]

theorem addUse (h : st.Represents g) (hg : g.Sorted) (n : Node) :
    (st.addUse n).1 = (g.addUse n).1 ∧ (st.addUse n).2.Represents (g.addUse n).2 := by
  have hpush := h.push hg n
  unfold Store.addUse Graph.addUse
  simp only
  rw [hpush.resolve_eq]
  cases (g.push n).resolve n.key.opposite n.version with
  | none => exact ⟨rfl, hpush⟩
  | some d =>
    obtain ⟨hresult, hstore⟩ := hpush.link d g.nodes.size
    rw [h.nodes]
    exact ⟨congrArg Except.ok hresult, hstore⟩

theorem addEdge (h : st.Represents g) (source target : Key) :
    (st.addEdge source target).1 = (g.addEdge source target).1 ∧
      (st.addEdge source target).2.Represents (g.addEdge source target).2 := by
  unfold Store.addEdge Graph.addEdge
  rw [h.slots.getD, h.nodes]
  cases (g.slot target).getLast? with
  | none => exact ⟨rfl, h⟩
  | some u =>
    cases hu : g.nodes[u]? with
    | none =>
      simp only [hu]
      exact ⟨trivial, h⟩
    | some n =>
      simp only [hu, h.resolve_eq]
      cases g.resolve source n.version with
      | none => exact ⟨rfl, h⟩
      | some d =>
        have hat : ∀ role i, st.isAt role i = g.isAt role i :=
          fun role i => by rw [Store.isAt, h.nodes, Graph.isAt]
        simp only [hat]
        by_cases hroles : g.isAt .defines d ∧ g.isAt .uses u
        · simp only [if_pos hroles]
          exact h.link d u
        · simp only [if_neg hroles]
          exact ⟨trivial, h⟩

theorem renameDef (h : st.Represents g) (hg : g.Sorted) (oldBase : String) (oldVersion : Version)
    (newBase : String) (newVersion : Version) (s : Statement) :
    (st.renameDef oldBase oldVersion newBase newVersion s).1 =
    (g.renameDef oldBase oldVersion newBase newVersion s).1 ∧
      (st.renameDef oldBase oldVersion newBase newVersion s).2.Represents
        (g.renameDef oldBase oldVersion newBase newVersion s).2 := by
  unfold Store.renameDef Graph.renameDef
  simp only
  rw [h.resolve_eq]
  cases hi : g.resolve ⟨oldBase, oldVersion.signature, .defines⟩ oldVersion with
  | none => exact ⟨rfl, h⟩
  | some i =>
    obtain ⟨d, hd, hk⟩ := Graph.exists_of_resolve hi
    have hnew : (st.nodes.modify i (·.rebind s newBase newVersion))[i]? =
        some (d.rebind s newBase newVersion) := by
      rw [h.nodes, Array.getElem?_modify, if_pos rfl, hd]
      rfl
    simp only [hnew]
    refine ⟨trivial, by rw [h.nodes], h.edges, h.rejected, h.keepsRejected, ?_, h.index⟩
    -- other slots do not have the node, so they lose nothing
    have hslot : (g.handOver i s newBase newVersion).slot = fun k =>
        if (d.rebind s newBase newVersion).key = k then
          (if (⟨oldBase, oldVersion.signature, .defines⟩ : Key) = k then (g.slot k).filter (· ≠ i)
            else g.slot k) ++ [i]
        else if (⟨oldBase, oldVersion.signature, .defines⟩ : Key) = k then (g.slot k).filter (· ≠ i)
            else g.slot k := by
      funext k
      have hothers : (g.slot k).filter (· ≠ i) =
          if (⟨oldBase, oldVersion.signature, .defines⟩ : Key) = k then (g.slot k).filter (· ≠ i)
              else g.slot k := by
        split
        · rfl
        · rename_i hne
          refine List.filter_eq_self.2 fun j hj => decide_eq_true ?_
          rintro rfl
          obtain ⟨n, hn, hkn⟩ := hg.mem_slot.1 hj
          rw [hd] at hn
          cases hn
          exact hne (hk.symm.trans hkn)
      rw [hg.slot_handOver hd, ← hothers]
    change Keeps _ (g.handOver i s newBase newVersion).slot
    rw [hslot]
    exact (h.slots.remove ⟨oldBase, oldVersion.signature, .defines⟩ i).enter
      (d.rebind s newBase newVersion).key i

end Represents

end Store

/-! ## growing graphs -/

/-- The ways in which a graph grows. -/
inductive Operation where
  | addDef (n : Node)
  | addUse (n : Node)
  | addEdge (source target : Key)
  | renameDef (oldBase : String) (oldVersion : Version) (newBase : String) (newVersion : Version)
      (s : Statement)

namespace Operation

/-- What is added as a definition is one, and so for uses. -/
def Proper : Operation → Prop
  | addDef n => n.role = .defines
  | addUse n => n.role = .uses
  | _ => True

def onGraph (g : Graph) : Operation → Graph
  | addDef n => (g.addDef n).2
  | addUse n => (g.addUse n).2
  | addEdge source target => (g.addEdge source target).2
  | renameDef oldBase oldVersion newBase newVersion s =>
    (g.renameDef oldBase oldVersion newBase newVersion s).2

def onStore (st : Store) : Operation → Store
  | addDef n => (st.addDef n).2
  | addUse n => (st.addUse n).2
  | addEdge source target => (st.addEdge source target).2
  | renameDef oldBase oldVersion newBase newVersion s =>
    (st.renameDef oldBase oldVersion newBase newVersion s).2

end Operation

def Graph.grown (keepsRejected : Bool) (ops : List Operation) : Graph :=
  ops.foldl Operation.onGraph (.empty keepsRejected)

def Store.grown (keepsRejected : Bool) (ops : List Operation) : Store :=
  ops.foldl Operation.onStore (.empty keepsRejected)

namespace Graph

variable {g : Graph} {n : Node}

theorem addUse_cases (g : Graph) (n : Node) :
    (g.addUse n).2 = g.push n ∨ ∃ i, (g.push n).resolve n.key.opposite n.version = some i ∧
      (g.addUse n).2 = ((g.push n).link i g.nodes.size).2 := by
  unfold addUse
  dsimp only
  cases hi : (g.push n).resolve n.key.opposite n.version with
  | none => exact .inl rfl
  | some i => exact .inr ⟨i, rfl, rfl⟩

theorem isAt_iff {role : Role} {i : Nat} : g.isAt role i = true ↔ ∃ n, g.nodes[i]? = some n ∧
    n.role = role := by
  simp [isAt, Option.any_eq_true]

theorem addEdge_cases (g : Graph) (source target : Key) :
    (g.addEdge source target).2 = g ∨
      ∃ i j, g.isAt .defines i = true ∧ g.isAt .uses j = true ∧
        (g.addEdge source target).2 = (g.link i j).2 := by
  unfold addEdge
  split
  · exact .inl rfl
  · rename_i j hj
    split
    · exact .inl rfl
    · rename_i u hu
      split
      · exact .inl rfl
      · rename_i i hi
        split
        · rename_i hroles
          exact .inr ⟨i, j, hroles.1, hroles.2, rfl⟩
        · exact .inl rfl

theorem renameDef_cases (g : Graph) (oldBase : String) (oldVersion : Version) (newBase : String)
    (newVersion : Version) (s : Statement) :
    g.renameDef oldBase oldVersion newBase newVersion s = (false, g) ∨
      ∃ i d, g.nodes[i]? = some d ∧ d.role = .defines ∧
        g.renameDef oldBase oldVersion newBase newVersion s =
          (true, g.handOver i s newBase newVersion) := by
  unfold renameDef
  split
  · rename_i i hi
    obtain ⟨d, hd, hk⟩ := exists_of_resolve hi
    exact .inr ⟨i, d, hd, congrArg Key.role hk, rfl⟩
  · exact .inl rfl

theorem Sorted.operation (h : g.Sorted) {op : Operation}
    (hp : op.Proper) : (op.onGraph g).Sorted := by
  cases op with
  | addDef n => exact h.push n
  | addUse n =>
    have hpush := h.push n
    rcases addUse_cases g n with heq | ⟨i, hi, heq⟩
    · rw [Operation.onGraph, heq]
      exact hpush
    · obtain ⟨d, hd, hk⟩ := exists_of_resolve hi
      have huse : n.role = .uses := hp
      have hdef : d.role = .defines := by
        have hrole := congrArg Key.role hk
        rwa [Key.opposite, show n.key.role = .uses from huse] at hrole
      have hnew : (g.push n).nodes[g.nodes.size]? =
        some n := by rw [getElem?_push_nodes, if_pos rfl]
      rw [Operation.onGraph, heq]
      exact hpush.link hd hnew hdef huse
  | addEdge source target =>
    rcases addEdge_cases g source target with heq | ⟨i, j, hi, hj, heq⟩
    · rw [Operation.onGraph, heq]
      exact h
    · obtain ⟨d, hd, hdef⟩ := isAt_iff.1 hi
      obtain ⟨u, hu, huse⟩ := isAt_iff.1 hj
      rw [Operation.onGraph, heq]
      exact h.link hd hu hdef huse
  | renameDef oldBase oldVersion newBase newVersion s =>
    rcases renameDef_cases g oldBase oldVersion newBase newVersion s with heq | ⟨i, d,
      hd, hdef, heq⟩
    · rw [Operation.onGraph, heq]
      exact h
    · rw [Operation.onGraph, heq]
      exact h.handOver hd hdef

theorem Retains.operation (g : Graph) (op : Operation) : Retains g (op.onGraph g) := by
  cases op with
  | addDef n => exact .push g n
  | addUse n =>
    rcases addUse_cases g n with heq | ⟨i, -, heq⟩
    · rw [Operation.onGraph, heq]
      exact .push g n
    · rw [Operation.onGraph, heq]
      exact (Retains.push g n).trans (.link _ i g.nodes.size)
  | addEdge source target =>
    rcases addEdge_cases g source target with heq | ⟨i, j, -, -, heq⟩
    · rw [Operation.onGraph, heq]
      exact .refl g
    · rw [Operation.onGraph, heq]
      exact .link g i j
  | renameDef oldBase oldVersion newBase newVersion s =>
    rcases renameDef_cases g oldBase oldVersion newBase newVersion s with heq | ⟨i, d,
      hd, hdef, heq⟩
    · rw [Operation.onGraph, heq]
      exact .refl g
    · rw [Operation.onGraph, heq]
      exact .handOver hd hdef

end Graph

theorem Store.Represents.operation {st : Store} {g : Graph} (h : st.Represents g) (hg : g.Sorted)
    (op : Operation) :
    (op.onStore st).Represents (op.onGraph g) := by
  cases op with
  | addDef n => exact h.push hg n
  | addUse n => exact (h.addUse hg n).2
  | addEdge source target => exact (h.addEdge source target).2
  | renameDef oldBase oldVersion newBase newVersion s =>
    exact (h.renameDef hg oldBase oldVersion newBase newVersion s).2

/-- However a graph was grown, it is in good order, and the store that was grown in the same way
represents it. -/
theorem Graph.grown_spec (keepsRejected : Bool) {ops : List Operation}
    (hp : ∀ op ∈ ops, op.Proper) :
    (Graph.grown keepsRejected ops).Sorted ∧
    (Store.grown keepsRejected ops).Represents (Graph.grown keepsRejected ops) := by
  have hrun : ∀ (ops : List Operation) (g : Graph) (st : Store), (∀ op ∈ ops, op.Proper) →
      g.Sorted → st.Represents g →
      (ops.foldl Operation.onGraph g).Sorted ∧
          (ops.foldl Operation.onStore st).Represents (ops.foldl Operation.onGraph g) := by
    intro ops
    induction ops with
    | nil => exact fun g st _ hg hst => ⟨hg, hst⟩
    | cons op ops ih =>
      intro g st hp hg hst
      obtain ⟨hop, hops⟩ := List.forall_mem_cons.1 hp
      exact ih _ _ hops (hg.operation hop) (hst.operation hg op)
  exact hrun ops _ _ hp (.empty keepsRejected) (.empty keepsRejected)

/-- However a graph was grown, the stored lookups are those of the graph. Each node stands in one
slot, the one of its key, and there once; slots have nothing else, and are not empty. Edges lead
from definitions to uses, and are stored under their own keys, one each. Whatever is done next, no
node and no edge is lost, and a rename that finds no definition changes nothing. And the questions
about the edges between two keys have one answer. -/
theorem stored_index_exact (keepsRejected : Bool) (ops : List Operation)
    (hp : ∀ op ∈ ops, op.Proper) :
    let g := Graph.grown keepsRejected ops
    let st := Store.grown keepsRejected ops
    st.Represents g ∧
    (∀ (i : Nat) (n : Node), g.nodes[i]? = some n → ∃ slot, st.slots[n.key]? = some slot ∧
      slot.count i = 1) ∧
    (∀ (k : Key) slot, st.slots[k]? = some slot → slot ≠ [] ∧
      ∀ i ∈ slot, ∃ n, g.nodes[i]? = some n ∧ n.key = k) ∧
    (∀ e ∈ g.edges, ∃ d u, g.nodes[e.source]? = some d ∧ g.nodes[e.target]? = some u ∧
      d.role = .defines ∧ u.role = .uses) ∧
    (∀ (k : EdgeKey) (i : Nat), st.index[k]? = some i ↔ ∃ e, g.edges[i]? = some e ∧ e.key = k) ∧
    (∀ op : Operation, g.Retains (op.onGraph g)) ∧
    (∀ oldBase oldVersion newBase newVersion s,
      (g.renameDef oldBase oldVersion newBase newVersion s).1 = false →
      (g.renameDef oldBase oldVersion newBase newVersion s).2 = g ∧
      (st.renameDef oldBase oldVersion newBase newVersion s).2 = st) ∧
    ∀ k k', (g.hasEdge k k' = true ↔ ∃ u ∈ g.usesOf k, ∃ n, g.nodes[u]? = some n ∧ n.key = k') ∧
      (g.hasEdge k k' = true ↔ ∃ d ∈ g.defsReaching k', ∃ n, g.nodes[d]? = some n ∧ n.key = k) := by
  obtain ⟨hg, hst⟩ := Graph.grown_spec keepsRejected hp
  refine ⟨hst, fun i n hi => ?_, fun k slot hslot => ?_, hg.edges, fun k i => ?_,
    Graph.Retains.operation _, ?_, fun k k' => ⟨hg.hasEdge_iff_uses, hg.hasEdge_iff_defs⟩⟩
  · have hmem := hg.mem_slot.2 ⟨n, hi, rfl⟩
    exact ⟨_, (hst.slots n.key _).2 ⟨List.ne_nil_of_mem hmem, rfl⟩, hg.count_slot hi⟩
  · obtain ⟨hne, rfl⟩ := (hst.slots k slot).1 hslot
    exact ⟨hne, fun i hi => hg.mem_slot.1 hi⟩
  · rw [hst.index]
    exact hg.edgeAt?_eq_some
  · intro oldBase oldVersion newBase newVersion s hfalse
    rcases Graph.renameDef_cases _ oldBase oldVersion newBase newVersion s with heq | ⟨i, d, -, -,
      heq⟩
    · refine ⟨congrArg Prod.snd heq, ?_⟩
      exact Store.renameDef_of_false
        ((hst.renameDef hg oldBase oldVersion newBase newVersion s).1.trans hfalse)
    · rw [heq] at hfalse
      cases hfalse

/-- Two writes of one version share a key. One of them is read, the other is renamed, and is then
joined to the read as well. -/
def sharedKey : List Operation :=
  let first : Version := (Version.created ⟨0⟩ ⟨0⟩ 1).next ⟨1⟩ ⟨1⟩ 2
  let second : Version := (Version.created ⟨0⟩ ⟨0⟩ 1).next ⟨2⟩ ⟨2⟩ 3
  [.addDef (.ofStatement .defines ⟨⟨1⟩, 2, "a[i] = x",
    .write ⟨"a", .expr "i"⟩⟩ "a" first (.expr "i") ⟨1⟩),
    .addDef (.ofStatement .defines ⟨⟨2⟩, 3, "a[i] = y",
    .write ⟨"a", .expr "i"⟩⟩ "a" second (.expr "i") ⟨2⟩),
    .addUse (.ofStatement .uses ⟨⟨3⟩, 4, "z = a[i]",
    .read ⟨"a", .expr "i"⟩⟩ "a" first (.expr "i") ⟨1⟩),
    .renameDef "a" second "b" second ⟨⟨4⟩, 5, "b = a", .rename "a" "b"⟩,
    .addEdge ⟨"b", .single 1, .defines⟩ ⟨"a", .single 1, .uses⟩]

theorem stored_index_exact_sharedKey :
    let g := Graph.grown true sharedKey
    let st := Store.grown true sharedKey
    (∀ op ∈ sharedKey, op.Proper) ∧ st.Represents g ∧ g.edges.map (fun e => (e.source, e.target)) =
      #[(0, 2), (1, 2)] ∧
      st.slots[(⟨"a", .single 1, .defines⟩ : Key)]? = some [0] ∧
      st.slots[(⟨"b", .single 1, .defines⟩ : Key)]? = some [1] ∧
      ∃ d ∈ g.defsReaching ⟨"a", .single 1, .uses⟩, ∃ n, g.nodes[d]? = some n ∧
          n.key = ⟨"b", .single 1, .defines⟩ := by
  have hp : ∀ op ∈ sharedKey, op.Proper := by
    simp [sharedKey, Operation.Proper, Node.ofStatement]
  obtain ⟨hst, -, -, -, -, -, -, hedge⟩ := stored_index_exact true sharedKey hp
  refine ⟨hp, hst, by decide +kernel, by decide +kernel, by decide +kernel, ?_⟩
  exact (hedge ⟨"b", .single 1, .defines⟩ ⟨"a", .single 1, .uses⟩).2.1 (by decide +kernel)

end ArrayFlow.DefUse
