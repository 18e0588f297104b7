import ArrayFlow.Proofs.Edges

/-!
# Parts of the def-use graph

Nodes that are told by their keys make up a graph of their own, in which they are numbered anew.
What the analysis does to the graph it does to the part, if it concerns a node of the part, and
otherwise leaves the part as it is.

* `Graph.InRange`  : positions are those of nodes;
* `Graph.part`     : the nodes with keys of some kind, and the edges and rejected pairs among them;
* `Graph.resolve_part` : what is found in the part is what is found in the graph;
* `Graph.part_push`, `part_addUse`, `part_handOver` : the part behind each change.
-/

namespace ArrayFlow.DefUse

attribute [ext] Graph

namespace Graph

variable {g g' : Graph} {n : Node} {k : Key} {v : Version} {i j : Nat} {e : Edge} {stmt : Statement}
  {target : String}

/-! ## positions of nodes -/

/-- The lookup order and the edges speak of nodes that are there. -/
structure InRange (g : Graph) : Prop where
  order : ∀ i ∈ g.order, i < g.nodes.size
  edges : ∀ e ∈ g.edges, e.source < g.nodes.size ∧ e.target < g.nodes.size

namespace InRange

theorem empty (keepsRejected : Bool) : InRange (.empty keepsRejected) where
  order := by simp [Graph.empty]
  edges := by simp [Graph.empty]

theorem push (h : g.InRange) (n : Node) : (g.push n).InRange where
  order i hi := by
    rw [Graph.push, Array.size_push]
    rcases List.mem_append.1 hi with hi | hi
    · exact Nat.lt_succ_of_lt (h.order i hi)
    · rw [List.mem_singleton.1 hi]
      exact Nat.lt_succ_self _
  edges e he := by
    rw [Graph.push, Array.size_push]
    exact ⟨Nat.lt_succ_of_lt (h.edges e he).1, Nat.lt_succ_of_lt (h.edges e he).2⟩

theorem addUse (h : g.InRange) (hn : n.role = .uses) : (g.addUse n).2.InRange := by
  have hused := addUse_used (g := g) hn
  generalize (g.addUse n).1 = result, (g.addUse n).2 = g' at hused ⊢
  cases hused with
  | dangling => exact h.push n
  | @joined d i r hd hk hr he =>
    refine ⟨(h.push n).order, fun e he => ?_⟩
    rcases Array.mem_push.1 he with he | rfl
    · exact (h.push n).edges e he
    · have hi := (Array.getElem?_eq_some_iff.1 hd).1
      simp only [Graph.push, Array.size_push]
      omega
  | swallowed => exact h.push n
  | rejected => exact ⟨(h.push n).order, (h.push n).edges⟩
  | dropped => exact h.push n

theorem handOver (h : g.InRange) (hi : i < g.nodes.size) :
    (g.handOver i stmt target v).InRange where
  order j hj := by
    rw [Graph.handOver, Array.size_modify]
    rcases List.mem_append.1 hj with hj | hj
    · exact h.order j (List.mem_of_mem_erase hj)
    · rwa [List.mem_singleton.1 hj]
  edges e he := by
    rw [Graph.handOver, Array.size_modify]
    exact h.edges e he

theorem change (h : g.InRange) (hc : g.Change g') : g'.InRange := by
  cases hc with
  | defined => exact h.push _
  | used hn => exact h.addUse hn
  | renamed hi =>
    obtain ⟨n, hn, -⟩ := exists_of_resolve hi
    exact h.handOver (Array.getElem?_eq_some_iff.1 hn).1

theorem changes (h : g.InRange) (hc : g.Changes g') : g'.InRange := hc.invariant h fun _ _ => change

end InRange

/-! ## parts -/

/-- Is there a node at the position whose key is kept? -/
def isKept (g : Graph) (keep : Key → Bool) (i : Nat) : Bool := g.nodes[i]?.any (keep ·.key)

def positions (g : Graph) (keep : Key → Bool) : List Nat :=
  (List.range g.nodes.size).filter (g.isKept keep)

/-- The place of a node among those whose keys are kept. -/
def place (g : Graph) (keep : Key → Bool) (i : Nat) : Nat := (g.positions keep).idxOf i

/-- Does the edge join two nodes whose keys are kept? -/
def isKeptEdge (g : Graph) (keep : Key → Bool) (e : Edge) : Bool :=
  g.isKept keep e.source && g.isKept keep e.target

def relocate (g : Graph) (keep : Key → Bool) (e : Edge) : Edge :=
  { e with source := g.place keep e.source, target := g.place keep e.target }

def isKeptPair (keep : Key → Bool) (x : Rejection) : Bool := keep x.source && keep x.target

/-- The part of the graph that is made of the nodes whose keys are kept. -/
def part (g : Graph) (keep : Key → Bool) : Graph where
  nodes := g.nodes.filter (keep ·.key)
  order := (g.order.filter (g.isKept keep)).map (g.place keep)
  edges := ((g.edges.toList.filter (g.isKeptEdge keep)).map (g.relocate keep)).toArray
  rejected := g.rejected.filter (isKeptPair keep)
  keepsRejected := g.keepsRejected

variable {keep : Key → Bool}

theorem isKept_iff : g.isKept keep i = true ↔ ∃ n, g.nodes[i]? = some n ∧ keep n.key = true := by
  simp [isKept, Option.any_eq_true]

theorem mem_positions : i ∈ g.positions keep ↔ g.isKept keep i = true := by
  rw [positions, List.mem_filter, List.mem_range]
  refine ⟨And.right, fun h => ⟨?_, h⟩⟩
  obtain ⟨n, hn, -⟩ := isKept_iff.1 h
  exact (Array.getElem?_eq_some_iff.1 hn).1

theorem place_inj (hi : g.isKept keep i = true) : g.place keep i = g.place keep j ↔ i = j :=
  List.idxOf_inj (mem_positions.2 hi)

theorem filterMap_range_getElem? {α : Type} (l : List α) :
    (List.range l.length).filterMap (l[·]?) = l := by
  induction l using List.reverseRecOn with
  | nil => rfl
  | append_singleton l a ih =>
    have hold : ∀ i ∈ List.range l.length, (l ++ [a])[i]? = l[i]? := fun i hi =>
      List.getElem?_append_left (List.mem_range.1 hi)
    rw [List.length_append, List.length_singleton, List.range_succ, List.filterMap_append,
      List.filterMap_congr hold, ih]
    simp

theorem getElem?_filterMap_of_isSome {α β : Type} {f : α → Option β} {l : List α}
    (h : ∀ x ∈ l, (f x).isSome = true) (k : Nat) : (l.filterMap f)[k]? = l[k]?.bind f := by
  induction l generalizing k with
  | nil => rfl
  | cons x l ih =>
    obtain ⟨y, hy⟩ := Option.isSome_iff_exists.1 (h x (List.mem_cons_self ..))
    rw [List.filterMap_cons_some hy]
    cases k with
    | zero => simp [hy]
    | succ k => exact ih (fun z hz => h z (List.mem_cons_of_mem _ hz)) k

theorem filterMap_positions (g : Graph) (keep : Key → Bool) :
    (g.positions keep).filterMap (g.nodes[·]?) = (g.part keep).nodes.toList := by
  have hall := filterMap_range_getElem? g.nodes.toList
  rw [part, Array.toList_filter, ← hall, List.filter_filterMap, positions, List.filterMap_filter]
  refine List.filterMap_congr fun i _ => ?_
  rw [isKept, Array.getElem?_toList]
  cases g.nodes[i]? with
  | none => rfl
  | some n => simp [Option.filter]

theorem isSome_of_mem_positions : ∀ i ∈ g.positions keep, g.nodes[i]?.isSome = true := by
  intro i hi
  obtain ⟨n, hn, -⟩ := isKept_iff.1 (mem_positions.1 hi)
  rw [hn]
  rfl

theorem getElem?_nodes_part (g : Graph) (keep : Key → Bool) (k : Nat) :
    (g.part keep).nodes[k]? = (g.positions keep)[k]?.bind (g.nodes[·]?) := by
  rw [← Array.getElem?_toList, ← filterMap_positions]
  exact getElem?_filterMap_of_isSome isSome_of_mem_positions k

theorem getElem?_place (hi : g.isKept keep i = true) :
    (g.part keep).nodes[g.place keep i]? = g.nodes[i]? := by
  rw [getElem?_nodes_part, place, List.getElem?_idxOf (mem_positions.2 hi)]
  rfl

theorem size_part (g : Graph) (keep : Key → Bool) :
    (g.part keep).nodes.size = (g.positions keep).length := by
  rw [← Array.length_toList, ← filterMap_positions]
  exact List.filterMap_length_eq_length.2 isSome_of_mem_positions

/-! ## looking up nodes -/

theorem slot_part (hk : keep k = true) : (g.part keep).slot k = (g.slot k).map (g.place keep) := by
  have hlookup : ∀ i, (((g.part keep).hasKey k ∘ g.place keep) i && g.isKept keep i) =
      g.hasKey k i := by
    intro i
    rw [Bool.eq_iff_iff, Bool.and_eq_true, Function.comp_apply]
    constructor
    · rintro ⟨hi, hkept⟩
      rwa [hasKey, getElem?_place hkept] at hi
    · intro hi
      have hkept : g.isKept keep i = true := by
        simp only [hasKey, Option.any_eq_true, beq_iff_eq] at hi
        obtain ⟨n, hn, rfl⟩ := hi
        exact isKept_iff.2 ⟨n, hn, hk⟩
      refine ⟨?_, hkept⟩
      rwa [hasKey, getElem?_place hkept]
  rw [slot, slot, part, List.filter_map, List.filter_filter]
  congr 1
  exact List.filter_congr fun i _ => hlookup i

theorem isKept_of_mem_slot (hk : keep k = true) (hi : i ∈ g.slot k) : g.isKept keep i = true := by
  obtain ⟨-, n, hn, rfl⟩ := mem_slot.1 hi
  exact isKept_iff.2 ⟨n, hn, hk⟩

/-- What is found in the part is what is found in the graph. -/
theorem resolve_part (hk : keep k = true) :
    (g.part keep).resolve k v = (g.resolve k v).map (g.place keep) := by
  have hfind : ((g.part keep).slot k).reverse.find? ((g.part keep).carries v) =
      ((g.slot k).reverse.find? (g.carries v)).map (g.place keep) := by
    have hcarries : ∀ i ∈ (g.slot k).reverse, ((g.part keep).carries v ∘ g.place keep) i =
        g.carries v i := by
      intro i hi
      rw [Function.comp_apply, carries, carries,
        getElem?_place (isKept_of_mem_slot hk (List.mem_reverse.1 hi))]
    rw [slot_part hk, ← List.map_reverse, List.find?_map, ← List.head?_filter,
      List.filter_congr hcarries, List.head?_filter]
  unfold resolve
  rw [hfind, slot_part hk, List.getLast?_map]
  cases (g.slot k).reverse.find? (g.carries v) with
  | some i => rfl
  | none => rfl

/-! ## changes -/

theorem isKept_push (g : Graph) (n : Node) (i : Nat) :
    (g.push n).isKept keep i = if i = g.nodes.size then keep n.key else g.isKept keep i := by
  rw [isKept, getElem?_push_nodes]
  split
  · rfl
  · rfl

theorem isKept_push_of_lt (hi : i < g.nodes.size) : (g.push n).isKept keep i = g.isKept keep i := by
  rw [isKept_push, if_neg (Nat.ne_of_lt hi)]

theorem size_push (g : Graph) (n : Node) : (g.push n).nodes.size = g.nodes.size + 1 :=
  Array.size_push ..

theorem positions_push (g : Graph) (keep : Key → Bool) (n : Node) :
    (g.push n).positions keep = g.positions keep ++ if keep n.key then [g.nodes.size] else [] := by
  have hold : (List.range g.nodes.size).filter ((g.push n).isKept keep) = g.positions keep :=
    List.filter_congr fun i hi => isKept_push_of_lt (List.mem_range.1 hi)
  have hnew : (g.push n).isKept keep g.nodes.size = keep n.key := by rw [isKept_push, if_pos rfl]
  rw [positions, size_push, List.range_succ, List.filter_append, hold, List.filter_cons, hnew,
    List.filter_nil]

theorem place_push (hi : g.isKept keep i = true) : (g.push n).place keep i = g.place keep i := by
  rw [place, positions_push, List.idxOf_append_of_mem (mem_positions.2 hi), place]

theorem place_push_self (hn : keep n.key = true) :
    (g.push n).place keep g.nodes.size = (g.part keep).nodes.size := by
  have hnew : g.nodes.size ∉ g.positions keep :=
    fun h => Nat.lt_irrefl _ (List.mem_range.1 (List.mem_filter.1 h).1)
  rw [place, positions_push, if_pos hn, List.idxOf_append, if_neg hnew, size_part]
  simp

/-- Old nodes stay in the part, and at their places, when one is added. -/
theorem order_part_push (hr : g.InRange) (n : Node) :
    ((g.push n).part keep).order =
      (g.part keep).order ++ if keep n.key then [(g.part keep).nodes.size] else [] := by
  have hfilter : g.order.filter ((g.push n).isKept keep) = g.order.filter (g.isKept keep) :=
    List.filter_congr fun i hi => isKept_push_of_lt (hr.order i hi)
  have hplace : (g.order.filter (g.isKept keep)).map ((g.push n).place keep) =
    (g.part keep).order :=
    List.map_congr_left fun i hi => place_push (List.mem_filter.1 hi).2
  have hnew : (g.push n).isKept keep g.nodes.size = keep n.key := by rw [isKept_push, if_pos rfl]
  show ((g.order ++ [g.nodes.size]).filter ((g.push n).isKept keep)).map ((g.push n).place keep) = _
  rw [List.filter_append, List.map_append, hfilter, hplace, List.filter_cons, hnew, List.filter_nil]
  by_cases hn : keep n.key = true
  · rw [if_pos hn, if_pos hn, List.map_singleton, place_push_self hn]
  · rw [if_neg hn, if_neg hn, List.map_nil]

theorem edges_part_push (hr : g.InRange) (n : Node) :
    ((g.push n).part keep).edges = (g.part keep).edges := by
  have hfilter : g.edges.toList.filter ((g.push n).isKeptEdge keep) =
      g.edges.toList.filter (g.isKeptEdge keep) := by
    refine List.filter_congr fun e he => ?_
    obtain ⟨hsource, htarget⟩ := hr.edges e (Array.mem_toList_iff.1 he)
    rw [isKeptEdge, isKeptEdge, isKept_push_of_lt hsource, isKept_push_of_lt htarget]
  have hrelocate : ∀ e ∈ g.edges.toList.filter (g.isKeptEdge keep), (g.push n).relocate keep e =
      g.relocate keep e := by
    intro e he
    have hkept := (List.mem_filter.1 he).2
    rw [isKeptEdge, Bool.and_eq_true] at hkept
    rw [relocate, relocate, place_push hkept.1, place_push hkept.2]
  show ((g.edges.toList.filter ((g.push n).isKeptEdge keep)).map
    ((g.push n).relocate keep)).toArray = _
  rw [hfilter, List.map_congr_left hrelocate]
  rfl

theorem part_push (hr : g.InRange) (hn : keep n.key = true) :
    (g.push n).part keep = (g.part keep).push n := by
  apply Graph.ext
  · exact Array.filter_push.trans (if_pos hn)
  · rw [order_part_push hr, if_pos hn]
    rfl
  · exact edges_part_push hr n
  · rfl
  · rfl

theorem part_push_of_not (hr : g.InRange) (hn : keep n.key = false) :
    (g.push n).part keep = g.part keep := by
  apply Graph.ext
  · exact Array.filter_push.trans (if_neg (by simp [hn]))
  · rw [order_part_push hr, hn]
    exact List.append_nil _
  · exact edges_part_push hr n
  · rfl
  · rfl

theorem part_pushEdge (he : g.isKeptEdge keep e = true) :
    { g with edges := g.edges.push e }.part keep =
      { g.part keep with edges := (g.part keep).edges.push (g.relocate keep e) } := by
  refine Graph.ext rfl rfl ?_ rfl rfl
  show (((g.edges.push e).toList.filter (g.isKeptEdge keep)).map (g.relocate keep)).toArray = _
  rw [Array.toList_push, List.filter_append, List.map_append, List.filter_cons_of_pos he,
    List.filter_nil, List.map_singleton]
  exact (List.push_toArray _ _).symm

theorem part_pushEdge_of_not (he : g.isKeptEdge keep e = false) :
    { g with edges := g.edges.push e }.part keep = g.part keep := by
  refine Graph.ext rfl rfl ?_ rfl rfl
  show (((g.edges.push e).toList.filter (g.isKeptEdge keep)).map (g.relocate keep)).toArray = _
  rw [Array.toList_push, List.filter_append, List.filter_cons_of_neg (by simp [he]),
    List.filter_nil, List.append_nil]
  rfl

theorem part_reject {x : Rejection} (hx : isKeptPair keep x = true) :
    { g with rejected := g.rejected ++ [x] }.part keep =
    { g.part keep with rejected := (g.part keep).rejected ++ [x] } := by
  refine Graph.ext rfl rfl rfl ?_ rfl
  show (g.rejected ++ [x]).filter (isKeptPair keep) = _
  rw [List.filter_append, List.filter_cons_of_pos hx]
  rfl

theorem part_reject_of_not {x : Rejection} (hx : isKeptPair keep x = false) :
    { g with rejected := g.rejected ++ [x] }.part keep = g.part keep := by
  refine Graph.ext rfl rfl rfl ?_ rfl
  show (g.rejected ++ [x]).filter (isKeptPair keep) = _
  rw [List.filter_append, List.filter_cons_of_neg (by simp [hx]), List.filter_nil, List.append_nil]
  rfl

theorem edgeAt?_eq_none {key : EdgeKey} : g.edgeAt? key = none ↔ ∀ e ∈ g.edges, e.key ≠ key := by
  simp [edgeAt?]

/-- Where the edges with a key are edges of the part, the part has one if the graph has. -/
theorem edgeAt?_part {key : EdgeKey} (h : ∀ e ∈ g.edges, e.key = key → g.isKeptEdge keep e = true) :
    (g.part keep).edgeAt? key = none ↔ g.edgeAt? key = none := by
  rw [edgeAt?_eq_none, edgeAt?_eq_none]
  constructor
  · intro hnone e he hkey
    have hmem : e ∈ g.edges.toList.filter (g.isKeptEdge keep) :=
      List.mem_filter.2 ⟨Array.mem_toList_iff.2 he, h e he hkey⟩
    exact hnone (g.relocate keep e) (List.mem_toArray.2 (List.mem_map_of_mem hmem)) hkey
  · intro hnone e he hkey
    obtain ⟨e₀, he₀, rfl⟩ := List.mem_map.1 (List.mem_toArray.1 he)
    exact hnone e₀ (Array.mem_toList_iff.1 (List.mem_filter.1 he₀).1) hkey

/-- Two nodes of the part are joined in the part as they are in the graph. -/
theorem part_link (hi : g.isKept keep i = true) (hj : g.isKept keep j = true)
    (h : ∀ u, g.nodes[j]? = some u → ∀ e ∈ g.edges, e.key.target = .of u →
      g.isKeptEdge keep e = true) :
    (g.link i j).2.part keep = ((g.part keep).link (g.place keep i) (g.place keep j)).2 := by
  obtain ⟨d, hd, hdk⟩ := isKept_iff.1 hi
  obtain ⟨u, hu, huk⟩ := isKept_iff.1 hj
  have hedge : (g.part keep).edgeAt? (.between d u) = none ↔ g.edgeAt? (.between d u) = none :=
    edgeAt?_part fun e he hkey => h u hu e he (congrArg EdgeKey.target hkey)
  simp only [link, getElem?_place hi, getElem?_place hj, hd, hu]
  cases reason? d u with
  | some r =>
    cases hg : g.edgeAt? (.between d u) with
    | none =>
      simp only [hedge.2 hg]
      exact part_pushEdge (by rw [isKeptEdge, hi, hj]; rfl)
    | some e =>
      cases hp : (g.part keep).edgeAt? (.between d u) with
      | none =>
        rw [hedge.1 hp] at hg
        cases hg
      | some e' => rfl
  | none =>
    have hpair : isKeptPair keep ⟨d.key, u.key, d.index, u.index, u.stmt⟩ =
      true := by simp [isKeptPair, hdk, huk]
    have hkeeps : (g.part keep).keepsRejected = g.keepsRejected := rfl
    simp only [hkeeps]
    split
    · exact part_reject hpair
    · rfl

/-- A use of the part is joined in the part as it is in the graph. Edges that end where it stands
are to be edges of the part, as they keep it from being joined. -/
theorem part_addUse (hr : g.InRange) (hn : keep n.key = true) (hopp : keep n.key.opposite = true)
    (h : ∀ e ∈ g.edges, e.key.target = .of n → g.isKeptEdge keep e = true) :
    (g.addUse n).2.part keep = ((g.part keep).addUse n).2 := by
  have hpush := part_push hr hn
  have hnew : (g.push n).nodes[g.nodes.size]? = some n := by rw [getElem?_push_nodes, if_pos rfl]
  have hres := resolve_part (g := g.push n) (v := n.version) hopp
  rw [hpush] at hres
  unfold addUse
  dsimp only
  rw [hres, ← hpush]
  cases hd : (g.push n).resolve n.key.opposite n.version with
  | none => rfl
  | some d =>
    have hkd := isKept_of_mem_slot hopp (mem_slot_of_resolve hd)
    have hku : (g.push n).isKept keep g.nodes.size = true := isKept_iff.2 ⟨n, hnew, hn⟩
    show ((g.push n).link d g.nodes.size).2.part keep = (((g.push n).part keep).link _ _).2
    rw [← place_push_self hn]
    refine part_link hkd hku fun u hu e he hkey => ?_
    rw [hnew] at hu
    cases hu
    have hkept := h e he hkey
    rw [isKeptEdge] at hkept ⊢
    rwa [isKept_push_of_lt (hr.edges e he).1, isKept_push_of_lt (hr.edges e he).2]

theorem part_addUse_of_not (hr : g.InRange) (hrole : n.role = .uses) (hn : keep n.key = false) :
    (g.addUse n).2.part keep = g.part keep := by
  have hpush := part_push_of_not hr hn
  have hnew : (g.push n).isKept keep g.nodes.size = false := by rw [isKept_push, if_pos rfl, hn]
  have hused := addUse_used (g := g) hrole
  generalize (g.addUse n).1 = result, (g.addUse n).2 = g' at hused ⊢
  cases hused with
  | dangling => exact hpush
  | joined =>
    refine Eq.trans (part_pushEdge_of_not (g := g.push n) ?_) hpush
    rw [isKeptEdge, hnew, Bool.and_false]
  | swallowed => exact hpush
  | rejected =>
    refine Eq.trans (part_reject_of_not (g := g.push n) ?_) hpush
    rw [isKeptPair, hn, Bool.and_false]
  | dropped => exact hpush

theorem addUse_part_eq_error (hrole : n.role = .uses) (hopp : keep n.key.opposite = true)
    {fault : Fault} :
    ((g.part keep).addUse n).1 = .error fault ↔ (g.addUse n).1 = .error fault := by
  have hkey : n.key.opposite = ⟨n.base, n.version.signature, .defines⟩ := by
    simp [Node.key, Key.opposite, hrole, Role.opposite]
  rw [hkey] at hopp
  rw [addUse_eq_error hrole, addUse_eq_error hrole, slot_part hopp, List.map_eq_nil_iff]

/-! ### renames -/

theorem map_erase_of_inj {α β : Type} [DecidableEq α] [DecidableEq β] {f : α → β}
    {l : List α} {a : α} (h : ∀ b ∈ l, f a = f b → a = b) :
    (l.erase a).map f = (l.map f).erase (f a) := by
  induction l with
  | nil => rfl
  | cons b l ih =>
    by_cases hb : b = a
    · subst hb
      rw [List.erase_cons_head, List.map_cons, List.erase_cons_head]
    · have hf : f b ≠ f a := fun heq => hb (h b (List.mem_cons_self ..) heq.symm).symm
      rw [List.erase_cons_tail (by simpa using hb), List.map_cons, List.map_cons,
        List.erase_cons_tail (by simpa using hf), ih fun c hc => h c (List.mem_cons_of_mem _ hc)]

section HandOver

variable (hkeep : ∀ n : Node, keep (n.rebind stmt target v).key = keep n.key)

include hkeep

theorem isKept_handOver : (g.handOver i stmt target v).isKept keep = g.isKept keep := by
  funext j
  rw [isKept, isKept, handOver, Array.getElem?_modify]
  split
  · cases g.nodes[j]? with
    | none => rfl
    | some n => exact hkeep n
  · rfl

theorem positions_handOver : (g.handOver i stmt target v).positions keep = g.positions keep := by
  rw [positions, isKept_handOver hkeep, handOver, Array.size_modify, positions]

theorem place_handOver : (g.handOver i stmt target v).place keep = g.place keep := by
  funext j
  rw [place, positions_handOver hkeep, place]

/-- Where a rename does not change which nodes are kept, a definition of the part is handed over in
the part as it is in the graph. -/
theorem part_handOver (hi : g.isKept keep i = true) :
    (g.handOver i stmt target v).part keep =
    (g.part keep).handOver (g.place keep i) stmt target v := by
  refine Graph.ext ?_ ?_ ?_ rfl rfl
  · apply Array.ext_getElem?
    intro k
    rw [getElem?_nodes_part, positions_handOver hkeep, handOver, handOver, Array.getElem?_modify,
      getElem?_nodes_part]
    cases hk : (g.positions keep)[k]? with
    | none => split <;> rfl
    | some j =>
      -- the node at the place `k` stands at the position `j`
      obtain ⟨hlt, rfl⟩ := List.getElem?_eq_some_iff.1 hk
      have hplace : g.place keep (g.positions keep)[k] = k :=
        (List.nodup_range.filter _).idxOf_getElem k hlt
      show (g.nodes.modify i _)[(g.positions keep)[k]]? = _
      rw [Array.getElem?_modify]
      by_cases hik : i = (g.positions keep)[k]
      · rw [if_pos hik, if_pos (by rw [hik, hplace])]
        rfl
      · rw [if_neg hik, if_neg fun heq => hik ((place_inj hi).1 (heq.trans hplace.symm))]
        rfl
  · show ((g.order.erase i ++ [i]).filter _).map _ = ((g.order.filter _).map _).erase _ ++ _
    rw [isKept_handOver hkeep, place_handOver hkeep, List.filter_append, List.map_append,
      ← List.erase_filter, map_erase_of_inj fun j _ => (place_inj hi).1, List.filter_cons_of_pos hi]
    rfl
  · show ((g.edges.toList.filter _).map _).toArray = _
    have hedge : (g.handOver i stmt target v).isKeptEdge keep = g.isKeptEdge keep := by
      funext e
      rw [isKeptEdge, isKeptEdge, isKept_handOver hkeep]
    have hrelocate : (g.handOver i stmt target v).relocate keep = g.relocate keep := by
      funext e
      rw [relocate, relocate, place_handOver hkeep]
    rw [hedge, hrelocate]
    rfl

end HandOver

end Graph

end ArrayFlow.DefUse
