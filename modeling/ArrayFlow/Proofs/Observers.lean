import ArrayFlow.Proofs.Control
import ArrayFlow.Proofs.Ledger
import ArrayFlow.Proofs.Subgraph

/-!
# Reads only observe

A read marks the version that it reads, and the mark goes where the version goes: into exposed
bindings, into the inputs of merges, into lookups in the graph. But nothing ever asks for it, so
that an analysis finds the same definitions whether a read is there or not.

* `Version.unread`   : a version without marks, at all depths;
* `Bindings.unread`, `Graph.definitions`, `Facts.unread` : the same for all that holds versions, and
  uses left out;
* `Statement.Silenced` : the statements are one, or the first is a read and the second does nothing;
* `Transfer.statement_unread`, `Merge.predecessors_unread` : statements and merges come out the same
  up to marks;
* `analyze_reads_observe` : so do whole analyses.
-/

namespace ArrayFlow

open DefUse

/-! ## versions without marks -/

namespace Version

mutual

/-- The version as if nothing had been read. -/
def unread : Version → Version
  | single n b s l w _ => single n b s l w false
  | phi n vs b l => phi n (unreadAll vs) b l

def unreadAll : List Version → List Version
  | [] => []
  | v :: vs => unread v :: unreadAll vs

end

theorem unreadAll_eq_map (vs : List Version) : unreadAll vs = vs.map unread := by
  induction vs with
  | nil => rfl
  | cons v vs ih => rw [unreadAll, ih, List.map_cons]

theorem unread_phi (n : Nat) (vs : List Version) (b : BlockId) (l : Nat) :
    (phi n vs b l).unread = phi n (vs.map unread) b l := by rw [unread, unreadAll_eq_map]

mutual

theorem stem_unread : ∀ v : Version, v.unread.stem = v.stem
  | single .. => rfl
  | phi n vs b l => by rw [unread, stem, stem, stems_unreadAll vs]

theorem stems_unreadAll : ∀ vs : List Version, stems (unreadAll vs) = stems vs
  | [] => rfl
  | v :: vs => by rw [unreadAll, stems, stems, stem_unread v, stems_unreadAll vs]

end

@[simp] theorem number_unread (v : Version) : v.unread.number = v.number := by
  rw [← number_stem, stem_unread, number_stem]

@[simp] theorem block_unread (v : Version) :
    v.unread.block = v.block := by rw [← block_stem, stem_unread, block_stem]

@[simp] theorem line_unread (v : Version) : v.unread.line = v.line := by
  cases v with
  | single => rfl
  | phi => rw [unread_phi, line, line]

@[simp] theorem signature_unread (v : Version) : v.unread.signature = v.signature := by
  rw [← signature_stem, stem_unread, signature_stem]

@[simp] theorem isRead_unread (v : Version) : v.unread.isRead = false := by
  cases v with
  | single => rfl
  | phi => rw [unread_phi, isRead]

@[simp] theorem unread_markRead (v : Version) : v.markRead.unread = v.unread := by
  cases v with
  | single => rfl
  | phi => rw [markRead]

theorem sameOrigin_unread (v w : Version) : v.unread.sameOrigin w.unread = v.sameOrigin w := by
  rw [Bool.eq_iff_iff, sameOrigin_iff, sameOrigin_iff, stem_unread, stem_unread]

theorem unread_next (v : Version) (b : BlockId) (σ : StmtId) (l : Nat) :
    (v.next b σ l).unread = v.unread.next b σ l := by
  rw [next, next, number_unread, unread]

@[simp] theorem name_unread (v : Version) (base : String) : v.unread.name base = v.name base := by
  rw [name, name, number_unread]

theorem phiText?_unread (v : Version) (base : String) :
    v.unread.phiText? base = v.phiText? base := by
  cases v with
  | single => rfl
  | phi n vs b l => simp [unread_phi, phiText?, Function.comp_def]

/-! ### merges -/

theorem maxNumber_unread (vs : List Version) : maxNumber (vs.map unread) = maxNumber vs := by
  simp [maxNumber, List.foldl_map]

theorem trivialMerge_unread (vs : List Version) :
    trivialMerge (vs.map unread) = trivialMerge vs := by
  cases vs with
  | nil => rfl
  | cons v vs => simp [trivialMerge, Function.comp_def, sameOrigin_unread]

theorem phi?_unread (vs : List Version) (b : BlockId) (l : Nat) :
    phi? (vs.map unread) b l = (phi? vs b l).map unread := by
  rw [phi?, phi?, List.length_map, maxNumber_unread]
  split
  · rfl
  · rw [Option.map_some, unread_phi]

theorem shared_unread (v : Version) (vs : List Version) :
    Merge.shared v.unread (vs.map unread) = (Merge.shared v vs).unread := by
  have hnone : (vs.map unread).any isRead = false := by simp
  rw [Merge.shared, hnone, Merge.shared]
  split
  · rename_i h
    cases h
  · split
    · rw [unread_markRead]
    · rfl

end Version

/-! ## bindings, chains and nodes -/

theorem map_insert {α β γ : Type} {cmp : α → α → Ordering} [Std.TransCmp cmp] [Std.LawfulEqCmp cmp]
    (φ : α → β → γ) (t : Std.ExtTreeMap α β cmp) (a : α) (x : β) :
    (t.insert a x).map φ = (t.map φ).insert a (φ a x) := by
  apply Std.ExtTreeMap.ext_getElem?
  intro c
  rw [Std.ExtTreeMap.getElem?_map, Std.ExtTreeMap.getElem?_insert, Std.ExtTreeMap.getElem?_insert,
    Std.ExtTreeMap.getElem?_map]
  split
  · rename_i h
    rw [Std.LawfulEqCmp.eq_of_compare h]
    rfl
  · rfl

namespace Bindings

def unread (t : Bindings) : Bindings := t.map fun _ v => v.unread

variable (t : Bindings)

@[simp] theorem getElem?_unread (base : String) : t.unread[base]? = t[base]?.map Version.unread :=
  Std.ExtTreeMap.getElem?_map

theorem unread_insert (base : String) (v : Version) :
    unread (t.insert base v) = t.unread.insert base v.unread :=
  map_insert _ t base v

theorem unread_erase (base : String) : unread (t.erase base) = t.unread.erase base := by
  apply Std.ExtTreeMap.ext_getElem?
  intro c
  rw [getElem?_unread, Std.ExtTreeMap.getElem?_erase, Std.ExtTreeMap.getElem?_erase,
    getElem?_unread]
  split
  · rfl
  · rfl

theorem names_unread : t.unread.names = t.names := Std.ExtTreeMap.keys_map

theorem contains_unread (base : String) : t.unread.contains base = t.contains base := by
  rw [Std.ExtTreeMap.contains_eq_isSome_getElem?, Std.ExtTreeMap.contains_eq_isSome_getElem?,
    getElem?_unread, Option.isSome_map]

end Bindings

def Record.unread (r : Record) : Record := { r with version := r.version.unread }

theorem Record.unread_of (v : Version) (origin : Origin) (stmt : Option StmtId) :
    (Record.of v origin stmt).unread = .of v.unread origin stmt := by
  simp [Record.of, Record.unread]

namespace History

def unread (h : History) : History := h.map fun _ chain => chain.map Record.unread

variable (h : History)

theorem getElem?_unread (base : String) : h.unread[base]? = h[base]?.map (List.map Record.unread) :=
  Std.ExtTreeMap.getElem?_map

theorem chain_unread (base : String) : h.unread.chain base = (h.chain base).map Record.unread := by
  rw [chain, chain, getElem?_unread]
  cases h[base]? with
  | none => rfl
  | some chain => rfl

theorem unread_inherit (source target : String) (r : Record) :
    (h.inherit source target r).unread = h.unread.inherit source target r.unread := by
  rw [inherit, inherit, chain_unread]
  refine (map_insert _ h target _).trans ?_
  rw [List.map_append]
  rfl

theorem unread_record (base : String) (r : Record) :
    (h.record base r).unread = h.unread.record base r.unread :=
  h.unread_inherit base base r

end History

namespace DefUse

namespace Node

def unread (n : Node) : Node := { n with version := n.version.unread }

@[simp] theorem key_unread (n : Node) : n.unread.key = n.key := by
  rw [key, key, unread, Version.signature_unread]

variable (stmt : Statement) (base : String) (v : Version) (b : BlockId)

theorem augment_unread : augment stmt base v.unread = augment stmt base v := by
  rw [augment, augment, Version.name_unread]

theorem unread_ofStatement (role : Role) (index : Subscript) :
    (ofStatement role stmt base v index b).unread =
      ofStatement role stmt base v.unread index b := by
  rw [ofStatement, ofStatement, augment_unread, unread]

theorem unread_wholeArray :
    (wholeArray stmt base v b).unread = wholeArray stmt base v.unread b := by
  rw [wholeArray, wholeArray, ← unread_ofStatement]
  rfl

theorem unread_ofPhi : (ofPhi base v b).unread = ofPhi base v.unread b := by
  rw [ofPhi, ofPhi, Version.phiText?_unread, Version.line_unread, unread]

theorem unread_rebind (n : Node) :
    (n.rebind stmt base v).unread = n.unread.rebind stmt base v.unread := by
  rw [rebind, rebind, augment_unread, unread, unread]

end Node

/-! ## definitions -/

namespace Graph

variable {g : Graph} {n : Node} {k : Key} {v : Version} {i : Nat} {stmt : Statement}
  {target : String}

def isDefining (k : Key) : Bool := k.role == .defines

/-- The definitions of the graph as if nothing had been read. -/
def definitions (g : Graph) : Graph where
  nodes := (g.part isDefining).nodes.map Node.unread
  order := (g.part isDefining).order
  edges := #[]
  rejected := []
  keepsRejected := false

theorem definitions_eq (g : Graph) :
    g.definitions.nodes.toList = (g.nodes.toList.filter Node.isDefinition).map Node.unread := by
  rw [definitions, part, Array.toList_map, Array.toList_filter]
  rfl

/-- A definition is found among the definitions if it is found in the graph, whatever was read. -/
theorem resolve_definitions (hk : isDefining k = true) :
    g.definitions.resolve k v.unread = (g.resolve k v).map (g.place isDefining) := by
  have hkeys : g.definitions.hasKey k = (g.part isDefining).hasKey k := by
    funext i
    rw [hasKey, hasKey, definitions, Array.getElem?_map, Option.any_map]
    simp only [Node.key_unread]
  have hcarries : g.definitions.carries v.unread = (g.part isDefining).carries v := by
    funext i
    rw [carries, carries, definitions, Array.getElem?_map, Option.any_map]
    simp only [Node.unread, Version.sameOrigin_unread]
  rw [← resolve_part hk, resolve, resolve, slot, slot, hkeys, hcarries]
  rfl

theorem definitions_push (hr : g.InRange) (hn : n.role = .defines) :
    (g.push n).definitions = g.definitions.push n.unread := by
  have hkey : isDefining n.key = true := by simp [isDefining, Node.key, hn]
  rw [definitions, part_push hr hkey, definitions, push, push, Array.map_push, Array.size_map]

theorem definitions_addUse (hr : g.InRange) (hn : n.role = .uses) :
    (g.addUse n).2.definitions = g.definitions := by
  rw [definitions, part_addUse_of_not hr hn (by simp [isDefining, Node.key, hn]), definitions]

theorem definitions_handOver (hi : g.resolve k v = some i) (hk : isDefining k = true) :
    (g.handOver i stmt target v).definitions =
      g.definitions.handOver (g.place isDefining i) stmt target v.unread := by
  have hkept := isKept_of_mem_slot hk (mem_slot_of_resolve hi)
  rw [definitions, part_handOver (fun _ => rfl) hkept, definitions, handOver, handOver]
  refine Graph.ext ?_ rfl rfl rfl rfl
  apply Array.ext_getElem?
  intro j
  simp only [Array.getElem?_map, Array.getElem?_modify]
  split
  · simp only [Option.map_map, Function.comp_def, Node.unread_rebind]
  · rfl

end Graph

end DefUse

/-! ## facts -/

namespace Facts

/-- The facts as if nothing had been read: definitions without marks, and no findings. -/
def unread (f : Facts) : Facts where
  graph := f.graph.definitions
  exposed := f.exposed.map fun _ t => t.unread
  history := f.history.unread
  creations := f.creations
  flow := f.flow
  falsePhis := f.falsePhis
  diagnostics := []

variable {f g : Facts}

theorem definitions_of_unread (h : f.unread = g.unread) :
    f.graph.definitions = g.graph.definitions :=
  (congrArg Facts.graph h :)

theorem exposed_of_unread (h : f.unread = g.unread) (b : BlockId) :
    f.exposed[b]?.map Bindings.unread = g.exposed[b]?.map Bindings.unread := by
  have hb : f.unread.exposed[b]? = g.unread.exposed[b]? := by rw [h]
  rwa [unread, unread, Std.ExtTreeMap.getElem?_map, Std.ExtTreeMap.getElem?_map] at hb

theorem history_of_unread (h : f.unread = g.unread) : f.history.unread = g.history.unread :=
  (congrArg Facts.history h :)

theorem creations_of_unread (h : f.unread = g.unread) : f.creations = g.creations :=
  (congrArg Facts.creations h :)

theorem unread_update {graph graph' : Graph} {history history' : History} (h : f.unread = g.unread)
    (hgraph : graph.definitions = graph'.definitions)
    (hhistory : history.unread = history'.unread) :
    { f with graph := graph, history := history }.unread =
    { g with graph := graph', history := history' }.unread := by
  show { f.unread with graph := graph.definitions, history := history.unread } =
    { g.unread with graph := graph'.definitions, history := history'.unread }
  rw [h, hgraph, hhistory]

theorem unread_define_record {n : Node} (hr : f.graph.InRange) (hn : n.role = .defines)
    (base : String) (r : Record) :
    ((f.record base r).define n).unread = (f.unread.record base r.unread).define n.unread := by
  rw [unread, define, Graph.addDef, record, Graph.definitions_push hr hn, History.unread_record]
  rfl

theorem unread_expose (b : BlockId) (t : Bindings) :
    (f.expose b t).unread = f.unread.expose b t.unread := by
  rw [unread, expose, Exposed.snapshot, map_insert]
  rfl

end Facts

/-! ## statements -/

/-- The statements are one, or the first is a read and the second does nothing in its place. -/
def Statement.Silenced (x y : Statement) : Prop :=
  y = x ∨ x.action.isRead = true ∧ y = { x with action := .other }

instance (x y : Statement) : Decidable (x.Silenced y) :=
  inferInstanceAs (Decidable (y = x ∨ x.action.isRead = true ∧ y = { x with action := .other }))

theorem Bindings.unread_insert_self {t : Bindings} {base : String} {v : Version}
    (h : t.unread[base]? = some v) :
    t.unread.insert base v = t.unread := by
  apply Std.ExtTreeMap.ext_getElem?
  intro c
  rw [Std.ExtTreeMap.getElem?_insert]
  split
  · rename_i hc
    rw [← Std.LawfulEqCmp.eq_of_compare hc, h]
  · rfl

theorem Bindings.rel_of_unread_eq {t u : Bindings} (h : t.unread = u.unread) (base : String) :
    Option.Rel (fun v w : Version => v.unread = w.unread) t[base]? u[base]? := by
  apply rel_of_map_eq
  rw [← getElem?_unread, ← getElem?_unread, h]

namespace Transfer

variable {s : Settings} {b : BlockId} {stmt : Statement} {t t' u u' : Bindings} {f f' g g' : Facts}

/-- A read changes marks, uses and findings, and nothing else. -/
theorem read_unread {a : Access} (hr : f.graph.InRange) (h : read s b stmt a t f = .ok (t', f')) :
    t'.unread = t.unread ∧ f'.unread = f.unread := by
  cases hv : t[a.base]? with
  | none =>
    obtain ⟨rfl, rfl⟩ := read_unbound hv h
    exact ⟨rfl, rfl⟩
  | some v =>
    have hmarked : Bindings.unread (t.insert a.base v.markRead) = t.unread := by
      rw [Bindings.unread_insert, Version.unread_markRead, Bindings.unread_insert_self]
      rw [Bindings.getElem?_unread, hv, Option.map_some]
    have hgraph := Graph.definitions_addUse
      (n := .ofStatement .uses stmt a.base v.markRead a.index b) hr rfl
    have hfacts : { f with graph := _ }.unread = f.unread :=
      congrArg (fun x => { f.unread with graph := x }) hgraph
    obtain ⟨rfl, ⟨e, -, rfl⟩ | ⟨fault, -, rfl⟩⟩ := read_bound hv h
    · exact ⟨hmarked, hfacts⟩
    · exact ⟨hmarked, hfacts⟩

theorem write_unread {a : Access} (ht : t.unread = u.unread) (hf : f.unread = g.unread)
    (hrf : f.graph.InRange) (hrg : g.graph.InRange) (h : write b stmt a t f = .ok (t', f'))
    (k : write b stmt a u g = .ok (u', g')) :
    t'.unread = u'.unread ∧ f'.unread = g'.unread := by
  obtain ⟨v, rfl, hv, rfl⟩ := write_eq_ok h
  obtain ⟨w, rfl, hw, rfl⟩ := write_eq_ok k
  have hvw : v.unread = w.unread := by
    have hold := Bindings.rel_of_unread_eq ht a.base
    rw [hv, hw]
    generalize t[a.base]? = x, u[a.base]? = y at hold ⊢
    cases hold with
    | none => rfl
    | some h =>
      dsimp only
      rw [Version.unread_next, Version.unread_next, h]
  constructor
  · rw [Bindings.unread_insert, Bindings.unread_insert, ht, hvw]
  · rw [Facts.unread_define_record hrf rfl, Facts.unread_define_record hrg rfl, Record.unread_of,
      Record.unread_of, Node.unread_ofStatement, Node.unread_ofStatement, hf, hvw]

theorem create_unread {base : String} (ht : t.unread = u.unread) (hf : f.unread = g.unread)
    (hrf : f.graph.InRange) (hrg : g.graph.InRange) :
    (create b stmt base t f).1.unread = (create b stmt base u g).1.unread ∧
      (create b stmt base t f).2.unread = (create b stmt base u g).2.unread := by
  let v := Version.created b stmt.id stmt.line
  let r := Record.of v .create (some stmt.id)
  constructor
  · show Bindings.unread (t.insert base v) = Bindings.unread (u.insert base v)
    rw [Bindings.unread_insert, Bindings.unread_insert, ht]
  · show { ((f.record base r).define (.wholeArray stmt base v b)).unread with
      creations := f.creations.insert stmt.id } =
      { ((g.record base r).define (.wholeArray stmt base v b)).unread with
        creations := g.creations.insert stmt.id }
    rw [Facts.unread_define_record hrf rfl, Facts.unread_define_record hrg rfl, hf,
      Facts.creations_of_unread hf]

theorem rename_unread {source target : String} (ht : t.unread = u.unread) (hf : f.unread = g.unread)
    (hrf : f.graph.InRange) (hrg : g.graph.InRange)
    (h : rename b stmt source target t f = .ok (t', f'))
    (k : rename b stmt source target u g = .ok (u', g')) :
    t'.unread = u'.unread ∧ f'.unread = g'.unread := by
  have hold := Bindings.rel_of_unread_eq ht source
  generalize hv : t[source]? = x, hw : u[source]? = y at hold
  cases hold with
  | none =>
    obtain ⟨rfl, rfl⟩ := rename_unbound hv h
    obtain ⟨rfl, rfl⟩ := rename_unbound hw k
    exact ⟨ht, hf⟩
  | @some v w hvw =>
    have hsig : w.signature = v.signature := by rw [← Version.signature_unread, ← hvw,
      Version.signature_unread]
    have hres : (f.graph.resolve ⟨source, v.signature, .defines⟩ v).map
        (f.graph.place Graph.isDefining) =
        (g.graph.resolve ⟨source, w.signature, .defines⟩ w).map
            (g.graph.place Graph.isDefining) := by
      rw [← Graph.resolve_definitions rfl, ← Graph.resolve_definitions rfl, hsig, ← hvw]
      exact congrArg (fun x => x.graph.resolve ⟨source, v.signature, .defines⟩ v.unread) hf
    have htables : Bindings.unread ((t.erase source).insert target v) =
        Bindings.unread ((u.erase source).insert target w) := by
      rw [Bindings.unread_insert, Bindings.unread_insert, Bindings.unread_erase,
        Bindings.unread_erase, ht, hvw]
    obtain ⟨rfl, hf'⟩ := rename_bound hv h
    obtain ⟨rfl, hg'⟩ := rename_bound hw k
    have hhistory : (f.history.inherit source target (.of v .rename (some stmt.id))).unread =
        (g.history.inherit source target (.of w .rename (some stmt.id))).unread := by
      rw [History.unread_inherit, History.unread_inherit, Record.unread_of, Record.unread_of, hvw,
        Facts.history_of_unread hf]
    refine ⟨htables, ?_⟩
    rcases hf' with ⟨i, hi, rfl⟩ | ⟨hi, rfl⟩
    · rcases hg' with ⟨j, hj, rfl⟩ | ⟨hj, rfl⟩
      · rw [hi, hj] at hres
        have hgraph : (f.graph.handOver i stmt target v).definitions =
            (g.graph.handOver j stmt target w).definitions := by
          rw [Graph.definitions_handOver hi rfl, Graph.definitions_handOver hj rfl,
            Facts.definitions_of_unread hf, hvw, Option.some.inj hres]
        exact Facts.unread_update hf hgraph hhistory
      · rw [hi, hj] at hres
        cases hres
    · rcases hg' with ⟨j, hj, rfl⟩ | ⟨hj, rfl⟩
      · rw [hi, hj] at hres
        cases hres
      · have hgraph : (f.graph.push (.wholeArray stmt target v b)).definitions =
            (g.graph.push (.wholeArray stmt target w b)).definitions := by
          rw [Graph.definitions_push hrf rfl, Graph.definitions_push hrg rfl,
            Node.unread_wholeArray, Node.unread_wholeArray, Facts.definitions_of_unread hf, hvw]
        exact Facts.unread_update (f := f) (g := g) hf hgraph hhistory

theorem statement_unread (ht : t.unread = u.unread) (hf : f.unread = g.unread)
    (hrf : f.graph.InRange) (hrg : g.graph.InRange) (h : statement s b t f stmt = .ok (t', f'))
    (k : statement s b u g stmt = .ok (u', g')) :
    t'.unread = u'.unread ∧ f'.unread = g'.unread := by
  cases statement_acts s b stmt with
  | write hact heq =>
    rw [heq] at h k
    exact write_unread ht hf hrf hrg h k
  | read hact heq =>
    rw [heq] at h k
    obtain ⟨ht', hf'⟩ := read_unread hrf h
    obtain ⟨hu', hg'⟩ := read_unread hrg k
    exact ⟨(ht'.trans ht).trans hu'.symm, (hf'.trans hf).trans hg'.symm⟩
  | create hact heq =>
    rw [heq] at h k
    cases h
    cases k
    exact create_unread ht hf hrf hrg
  | rename hact heq =>
    rw [heq] at h k
    exact rename_unread ht hf hrf hrg h k
  | other hact heq =>
    rw [heq] at h k
    cases h
    cases k
    exact ⟨ht, hf⟩

end Transfer

/-- The facts are the same up to marks, uses and findings. -/
structure Facts.SameUnread (f g : Facts) : Prop where
  unread : f.unread = g.unread
  left : f.graph.InRange
  right : g.graph.InRange

theorem Facts.SameUnread.exposed {f g : Facts} (h : f.SameUnread g) (b : BlockId) :
    Option.Rel (fun t u : Bindings => t.unread = u.unread) f.exposed[b]? g.exposed[b]? :=
  rel_of_map_eq (Facts.exposed_of_unread h.unread b)

namespace Transfer

variable {s : Settings} {b : BlockId} {x y : Statement} {t u : Bindings} {f g : Facts}

theorem silenced_agree (hs : s.strictUses = false) (hxy : x.Silenced y) (ht : t.unread = u.unread)
    (h : f.SameUnread g) :
    Agree (fun r r' : Bindings × Facts => r.1.unread = r'.1.unread ∧ r.2.SameUnread r'.2)
      (statement s b t f x)
      (statement s b u g y) := by
  obtain ⟨⟨t₁, f₁⟩, h₁⟩ := statement_lenient (b := b) (t := t) (f := f) hs x
  obtain ⟨⟨u₁, g₁⟩, k₁⟩ := statement_lenient (b := b) (t := u) (f := g) hs y
  have hrf := h.left.changes (statement_changes h₁)
  have hrg := h.right.changes (statement_changes k₁)
  rw [h₁, k₁]
  rcases hxy with rfl | ⟨hread, rfl⟩
  · obtain ⟨ht₁, hf₁⟩ := statement_unread ht h.unread h.left h.right h₁ k₁
    exact .ok ⟨ht₁, hf₁, hrf, hrg⟩
  · obtain ⟨a, hact⟩ := Action.isRead_iff.1 hread
    simp only [statement, hact] at h₁
    obtain ⟨ht₁, hf₁⟩ := read_unread h.left h₁
    cases k₁
    exact .ok ⟨ht₁.trans ht, hf₁.trans h.unread, hrf, hrg⟩

/-- A block comes out the same up to marks, with reads silenced in it or not. -/
theorem process_silenced {p p' : Procedure} (hs : s.strictUses = false)
    (hp : List.Forall₂ Statement.Silenced (p.statementsOf b) (p'.statementsOf b))
    (ht : t.unread = u.unread) (h : f.SameUnread g) :
    Agree Facts.SameUnread (process s b p t f) (process s b p' u g) := by
  have hstatements : Agree (fun r r' : Bindings × Facts => r.1.unread = r'.1.unread ∧
    r.2.SameUnread r'.2)
      (statements s b (p.statementsOf b) t f) (statements s b (p'.statementsOf b) u g) :=
    Agree.foldlM_forall₂ hp ⟨ht, h⟩ fun _ _ _ _ hr hxy => silenced_agree hs hxy hr.1 hr.2
  refine hstatements.bind fun r r' hr => .ok ⟨?_, hr.2.left, hr.2.right⟩
  rw [Facts.unread_expose, Facts.unread_expose, hr.1, hr.2.unread]

end Transfer

/-! ## merges -/

namespace Merge

variable {s : Settings} {b : BlockId} {line : Nat} {preds : List BlockId} {tables : List Bindings}
  {t : Bindings} {f g : Facts}

theorem names_unread (tables : List Bindings) :
    names (tables.map Bindings.unread) = names tables := by
  simp only [names, List.flatMap_map, Bindings.names_unread]

theorem contributors_unread (preds : List BlockId) (tables : List Bindings) (base : String) :
    contributors preds (tables.map Bindings.unread) base = contributors preds tables base := by
  unfold contributors
  rw [List.zip_map_right, List.filter_map, List.map_map]
  simp only [Function.comp_def, Prod.map, Bindings.contains_unread, id]

theorem inputs_unread (tables : List Bindings) (base : String) :
    (tables.map Bindings.unread).filterMap (fun u => u[base]?) =
    (tables.filterMap fun u => u[base]?).map Version.unread := by
  simp only [List.filterMap_map, List.map_filterMap, Function.comp_def, Bindings.getElem?_unread]

theorem name_unread (hr : f.graph.InRange) (base : String) :
    name s b line preds (tables.map Bindings.unread) t.unread f.unread base =
      ((name s b line preds tables t f base).1.unread,
      (name s b line preds tables t f base).2.unread) := by
  unfold name
  dsimp only
  rw [inputs_unread, List.length_map, List.length_map, contributors_unread,
    Version.trivialMerge_unread, Version.phi?_unread]
  generalize (tables.filterMap fun u => u[base]?) = inputs
  split
  · rfl
  · split
    · cases inputs with
      | nil => rfl
      | cons v vs =>
        dsimp only [List.map_cons]
        rw [Bindings.unread_insert, ← Version.shared_unread]
        rfl
    · cases hv : Version.phi? inputs b line with
      | none => rfl
      | some v =>
        dsimp only [Option.map_some]
        rw [Bindings.unread_insert, Facts.unread_define_record hr rfl, Record.unread_of,
          Node.unread_ofPhi]

theorem foldl_name_unread (hr : f.graph.InRange) (bases : List String) :
    bases.foldl (fun (t, f) base => name s b line preds (tables.map Bindings.unread) t f base)
      (t.unread, f.unread) =
      let r := bases.foldl (fun (t, f) base => name s b line preds tables t f base) (t, f)
      (r.1.unread, r.2.unread) := by
  induction bases generalizing t f with
  | nil => rfl
  | cons base bases ih =>
    rw [List.foldl_cons, List.foldl_cons]
    show List.foldl _ (name s b line preds (tables.map Bindings.unread) t.unread f.unread base)
      bases = _
    rw [name_unread hr]
    exact ih (hr.changes (name_enlarged preds tables base).changes)

theorem names_sameUnread {tables' : List Bindings} (h : f.SameUnread g)
    (htables : tables.map Bindings.unread = tables'.map Bindings.unread) :
    let x := (names tables).foldl (fun (t, f) base => name s b line preds tables t f base) (∅, f)
    let y := (names tables').foldl (fun (t, f) base => name s b line preds tables' t f base) (∅, g)
    x.1.unread = y.1.unread ∧ x.2.SameUnread y.2 := by
  intro x y
  have hnames : names tables = names tables' := by rw [← names_unread, htables, names_unread]
  have hfold : (x.1.unread, x.2.unread) = (y.1.unread, y.2.unread) := by
    rw [← foldl_name_unread h.left, ← foldl_name_unread h.right, htables, hnames, h.unread]
  obtain ⟨hbindings, hfacts⟩ := Prod.mk.inj hfold
  refine ⟨hbindings, hfacts, ?_, ?_⟩
  · exact h.left.changes (names_enlarged preds tables _).changes
  · exact h.right.changes (names_enlarged preds tables' _).changes

theorem predecessors_unread (h : f.SameUnread g) :
    Agree (fun x y : Bindings × Facts => x.1.unread = y.1.unread ∧ x.2.SameUnread y.2)
      (predecessors s f b line preds)
      (predecessors s g b line preds) := by
  refine (Agree.mapM fun c _ => Exposed.get_agree (h.exposed c)).bind fun tables tables' htables =>
    ?_
  have hmap : tables.map Bindings.unread = tables'.map Bindings.unread := by
    induction htables with
    | nil => rfl
    | cons ht _ ih => rw [List.map_cons, List.map_cons, ht, ih]
  cases htables with
  | nil => exact .ok ⟨rfl, h⟩
  | cons ht hrest =>
    cases hrest with
    | nil => exact .ok ⟨ht, h⟩
    | cons _ _ => exact .ok (names_sameUnread h hmap)

end Merge

/-! ## both analyses -/

section Silenced

variable {p p' : Procedure} {s : Settings}

theorem sameControl_of_silenced
    (h : p.Aligned (List.Forall₂ Statement.Silenced) p') : p.SameControl p' := by
  refine h.sameControl fun _ _ => Procedure.head?_map_of_forall₂ ?_
  rintro x y (rfl | ⟨-, rfl⟩)
  · rfl
  · rfl

theorem headLine_of_silenced (h : p.Aligned (List.Forall₂ Statement.Silenced) p') (b : BlockId) :
    p'.headLine b = p.headLine b := by
  refine h.headLine .nil (fun _ _ => Procedure.head?_map_of_forall₂ ?_) b
  rintro x y (rfl | ⟨-, rfl⟩)
  · rfl
  · rfl

/-- Analyses with and without some of the reads go in lockstep, if dangling uses stop neither. -/
theorem lockstep_silenced (h : p.Aligned (List.Forall₂ Statement.Silenced) p')
    (hs : s.strictUses = false) :
    Lockstep p p' s s Facts.SameUnread fun t u => t.unread = u.unread where
  predecessors := (sameControl_of_silenced h).predecessors
  successors := (sameControl_of_silenced h).successors
  isLoopHeader := (sameControl_of_silenced h).isLoopHeader
  isLoopExit := (sameControl_of_silenced h).isLoopExit
  maxIterations := rfl
  empty := rfl
  exposed hf := hf.exposed
  flowTo hf := ⟨congrArg (Facts.flowTo · _ _ _) hf.unread, hf.left, hf.right⟩
  expose hf ht := ⟨by rw [Facts.unread_expose, Facts.unread_expose, hf.unread, ht],
    hf.left, hf.right⟩
  report hf := ⟨hf.unread, hf.left, hf.right⟩
  process hf ht := Transfer.process_silenced hs (h.statementsOf .nil _) ht hf
  merge hf := by
    rw [headLine_of_silenced h]
    exact Merge.predecessors_unread hf

/-- Reads only observe. With some reads replaced by statements that do nothing, an analysis ends
with the same fault, or it ends well too; then, up to marks of what was read, bindings and chains
are the same and the definitions are the same in the same order, and false phis, creations and the
flow graph are equal. -/
theorem analyze_reads_observe (h : p.Aligned (List.Forall₂ Statement.Silenced) p')
    (hs : s.strictUses = false) :
    (∃ fault, analyze p s = .error fault ∧ analyze p' s = .error fault) ∨
    ∃ r r', analyze p s = .ok r ∧ analyze p' s = .ok r' ∧
      (∀ b : BlockId, r'.facts.exposed[b]?.map Bindings.unread =
        r.facts.exposed[b]?.map Bindings.unread) ∧
      r'.facts.history.unread = r.facts.history.unread ∧
      (r'.facts.graph.nodes.toList.filter Node.isDefinition).map Node.unread =
        (r.facts.graph.nodes.toList.filter Node.isDefinition).map Node.unread ∧
      r'.facts.falsePhis = r.facts.falsePhis ∧ r'.facts.creations = r.facts.creations ∧
      r'.facts.flow = r.facts.flow := by
  have hstart : (Facts.start s).SameUnread (.start s) := ⟨rfl, .empty _, .empty _⟩
  have hcontains := (sameControl_of_silenced h).contains p.entry
  have hagree := (lockstep_silenced h hs).reports h.entry hcontains hstart
  rcases hagree.cases_eq with hfault | ⟨r, r', hr, hr', hsame⟩
  · exact .inl hfault
  · have hunread := hsame.unread.symm
    refine .inr ⟨r, r', hr, hr', Facts.exposed_of_unread hunread,
      Facts.history_of_unread hunread, ?_, (congrArg Facts.falsePhis hunread :),
      Facts.creations_of_unread hunread, (congrArg Facts.flow hunread :)⟩
    rw [← Graph.definitions_eq, ← Graph.definitions_eq, Facts.definitions_of_unread hunread]

end Silenced

/-- An array is created, written on one of two branches, merged and renamed; `look` is what is done
at some of the reads on the way. -/
def lookedAt (look : Access → Action) : Draft where
  name := "looked at"
  blocks := [
    (⟨0⟩, [⟨⟨0⟩, 1, "new a", .create "a"⟩, ⟨⟨1⟩, 2, "x = a[i]", look ⟨"a", .expr "i"⟩⟩]),
    (⟨1⟩, [⟨⟨2⟩, 3, "x = a[i]", look ⟨"a", .expr "i"⟩⟩]),
    (⟨2⟩, [⟨⟨3⟩, 4, "a[j] = 0", .write ⟨"a", .expr "j"⟩⟩,
      ⟨⟨4⟩, 5, "y = a[j]", .read ⟨"a", .expr "j"⟩⟩]),
    (⟨3⟩, [⟨⟨5⟩, 6, "b = a", .rename "a" "b"⟩, ⟨⟨6⟩, 7, "z = b[i]", look ⟨"b", .expr "i"⟩⟩])]
  edges := [(⟨0⟩, ⟨1⟩), (⟨0⟩, ⟨2⟩), (⟨1⟩, ⟨3⟩), (⟨2⟩, ⟨3⟩)]
  loops := []

theorem analyze_reads_observe_lookedAt :
    ∃ p p' r r', (lookedAt .read).build = .ok p ∧ (lookedAt fun _ => .other).build = .ok p' ∧
      analyze p {} = .ok r ∧ analyze p' {} = .ok r' ∧
      r.facts.graph.nodes.size = 7 ∧ r'.facts.graph.nodes.size = 4 ∧
      (r.facts.exposed[(⟨1⟩ : BlockId)]?.bind (·["a"]?)).map Version.isRead = some true ∧
      (r'.facts.exposed[(⟨1⟩ : BlockId)]?.bind (·["a"]?)).map Version.isRead = some false ∧
      (∀ b : BlockId, r'.facts.exposed[b]?.map Bindings.unread =
        r.facts.exposed[b]?.map Bindings.unread) ∧
      r'.facts.history.unread = r.facts.history.unread ∧
      (r'.facts.graph.nodes.toList.filter Node.isDefinition).map Node.unread =
        (r.facts.graph.nodes.toList.filter Node.isDefinition).map Node.unread := by
  obtain ⟨p, r, hb, h, hP⟩ := Draft.check_eq_true (d := lookedAt .read) (s := {})
    (P := fun p r => r.facts.graph.nodes.size = 7 ∧
      (r.facts.exposed[(⟨1⟩ : BlockId)]?.bind (·["a"]?)).map Version.isRead = some true ∧
      (lookedAt fun _ => .other).check {} fun p' r' => r'.facts.graph.nodes.size = 4 ∧
        (r'.facts.exposed[(⟨1⟩ : BlockId)]?.bind (·["a"]?)).map Version.isRead = some false ∧
        p.Aligned (List.Forall₂ Statement.Silenced) p') (by decide +kernel)
  obtain ⟨hsize, hmark, hcheck⟩ := of_decide_eq_true hP
  obtain ⟨p', r', hb', h', hP'⟩ := Draft.check_eq_true hcheck
  obtain ⟨hsize', hmark', haligned⟩ := of_decide_eq_true hP'
  rcases analyze_reads_observe (s := {}) haligned rfl with
    ⟨fault, herr, -⟩ | ⟨q, q', hq, hq', hexposed, hhistory, hnodes, -⟩
  · rw [h] at herr
    cases herr
  · rw [h] at hq
    rw [h'] at hq'
    cases hq
    cases hq'
    exact ⟨p, p', r, r', hb, hb', h, h', hsize, hsize', hmark, hmark', hexposed, hhistory, hnodes⟩

end ArrayFlow
