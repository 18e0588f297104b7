import ArrayFlow.Proofs.Edges
import ArrayFlow.Proofs.Pruning

/-!
# Arrays behind names in straight-line code

A rename moves a version from name to name, and its definition in the graph along with it, to where
definitions of other arrays may be under the same key. In one row of statements nothing gets lost by
that: the analysis knows every array under the name that it goes by, and finds its last definition.

* `Arrays`           : the arrays of a row of statements, apart from their names, and the statement
  that defined each of them last;
* `Graph.Signed`     : definitions are told apart by the statements that made their versions;
* `Follows`          : every name is bound to the version that the last definition of its array
  made;
* `Transfer.statement_follows`, `Transfer.statements_follow` : a statement keeps this, and so does a
  row of them;
* `Transfer.Puts`    : what is put into the graph by the statement at a place of the row;
* `Graph.Grows`      : later statements leave uses and the edges into them alone;
* `renames_followed` : what is bound, what a read finds and what a rename moves, at every point of a
  row.
-/

namespace ArrayFlow

open DefUse

/-! ## arrays and their names -/

/-- The subscript at which an action defines an array, if it creates or writes one. -/
def Action.definedAt? : Action → Option Subscript
  | create _ => some .whole
  | write a => some a.index
  | _ => none

/-- The arrays that a row of statements is about, numbered in the order in which they come up. -/
structure Arrays where
  /-- How many statements there were. -/
  met : Nat
  /-- How many arrays there are. -/
  count : Nat
  /-- The array that goes by a name. -/
  carried : String → Option Nat
  /-- The place in the row of the statement that created or wrote an array last. -/
  defined : Nat → Nat

namespace Arrays

/-- No array came up yet. -/
def start : Arrays := ⟨0, 0, fun _ => none, fun _ => 0⟩

/-- The next statement creates or writes the array `o`, which goes by the name from there on. -/
def define (x : Arrays) (base : String) (o : Nat) : Arrays :=
  { x with
    count := max x.count (o + 1)
    carried := Function.update x.carried base (some o)
    defined := Function.update x.defined o x.met }

/-- The array that goes by one name goes by another; nothing happens if there is none. -/
def rename (x : Arrays) (source target : String) : Arrays :=
  match x.carried source with
  | some o => { x with carried := Function.update (Function.update x.carried source none) target (some o) }
  | none => x

/-- A creation makes a new array. A write is to the array that goes by the name, and to a new one if
there is none. -/
def act (x : Arrays) : Action → Arrays
  | .create base => x.define base x.count
  | .write a => x.define a.base ((x.carried a.base).getD x.count)
  | .rename source target => x.rename source target
  | .read _ => x
  | .other => x

def step (x : Arrays) (stmt : Statement) : Arrays := { x.act stmt.action with met := x.met + 1 }

def after (stmts : List Statement) : Arrays := stmts.foldl step start

theorem met_foldl (stmts : List Statement) (x : Arrays) :
    (stmts.foldl step x).met = x.met + stmts.length := by
  induction stmts generalizing x with
  | nil => rfl
  | cons stmt rest ih =>
    have hstep : (x.step stmt).met = x.met + 1 := rfl
    rw [List.foldl_cons, ih, List.length_cons, hstep]
    omega

theorem met_after (stmts : List Statement) : (after stmts).met = stmts.length := by
  rw [after, met_foldl, start, Nat.zero_add]

theorem after_append_singleton (stmts : List Statement) (stmt : Statement) :
    after (stmts ++ [stmt]) = (after stmts).step stmt := by
  rw [after, List.foldl_append]
  rfl

/-- Arrays that go by a name came up, and no array goes by two names. -/
structure Proper (x : Arrays) : Prop where
  below : ∀ base o, x.carried base = some o → o < x.count
  sole : ∀ base base' o, x.carried base = some o → x.carried base' = some o → base = base'

variable {x : Arrays} {base source target : String} {o : Nat}

theorem proper_start : start.Proper := ⟨nofun, nofun⟩

/-- An array that came up just now goes by no other name, and neither does the one that goes by the
name. -/
theorem Proper.sole_getD (h : x.Proper) {base' : String}
    (hc : x.carried base' = some ((x.carried base).getD x.count)) :
    base' = base := by
  cases ho : x.carried base with
  | none =>
    rw [ho] at hc
    exact absurd (h.below base' _ hc) (Nat.lt_irrefl _)
  | some o =>
    rw [ho] at hc
    exact h.sole base' base o hc ho

theorem Proper.define (h : x.Proper) (hsole : ∀ base', x.carried base' = some o → base' = base) :
    (x.define base o).Proper where
  below base' o' hc := by
    simp only [Arrays.define, Function.update_apply] at hc ⊢
    split at hc
    · cases hc
      omega
    · have := h.below base' o' hc
      omega
  sole a c o' ha hc := by
    simp only [Arrays.define, Function.update_apply] at ha hc
    split at ha
    · rename_i hab
      cases ha
      split at hc
      · rename_i hcb
        rw [hab, hcb]
      · rw [hab, hsole c hc]
    · split at hc
      · rename_i hcb
        cases hc
        rw [hcb, hsole a ha]
      · exact h.sole a c o' ha hc

theorem carried_rename (ho : x.carried source = some o) (base target : String) :
    (x.rename source target).carried base =
      if base = target then some o else if base = source then none else x.carried base := by
  simp only [rename, ho, Function.update_apply]

theorem Proper.rename (h : x.Proper) (ho : x.carried source = some o) :
    (x.rename source target).Proper := by
  have hcount : (x.rename source target).count = x.count := by simp only [Arrays.rename, ho]
  -- whatever goes by a name afterwards went by a name before
  have hold : ∀ {base o'}, (x.rename source target).carried base = some o' →
      (base = target ∧ o' = o) ∨ (base ≠ target ∧ base ≠ source ∧ x.carried base = some o') := by
    intro base o' hc
    rw [carried_rename ho] at hc
    split at hc
    · rename_i heq
      cases hc
      exact .inl ⟨heq, rfl⟩
    · split at hc
      · cases hc
      · exact .inr ⟨‹_›, ‹_›, hc⟩
  refine ⟨fun base o' hc => ?_, fun a c o' ha hc => ?_⟩
  · rw [hcount]
    rcases hold hc with ⟨-, rfl⟩ | ⟨-, -, hc⟩
    · exact h.below source o' ho
    · exact h.below base o' hc
  · rcases hold ha with ⟨hat, hao⟩ | ⟨-, hane, ha'⟩
    · rcases hold hc with ⟨hct, -⟩ | ⟨-, hcne, hc'⟩
      · rw [hat, hct]
      · exact absurd (h.sole c source o (hao ▸ hc') ho) hcne
    · rcases hold hc with ⟨-, hco⟩ | ⟨-, -, hc'⟩
      · exact absurd (h.sole a source o (hco ▸ ha') ho) hane
      · exact h.sole a c o' ha' hc'

end Arrays

/-! ## definitions told apart -/

namespace DefUse.Graph

variable {g g' : Graph} {n d : Node} {i : Nat} {v : Version} {σ : StmtId} {ids : List StmtId}
  {stmt : Statement} {target : String}

/-- Every node is listed. Definitions carry versions that different statements made, and edges lead
to uses, all of them of statements among those listed. -/
structure Signed (ids : List StmtId) (g : Graph) : Prop where
  listed : ∀ i, i < g.nodes.size → i ∈ g.order
  signed : ∀ (i : Nat) n, g.nodes[i]? = some n → n.role = .defines →
    ∃ σ ∈ ids, n.version.stmt? = some σ
  distinct : ∀ (i j : Nat) n m, g.nodes[i]? = some n → g.nodes[j]? = some m → n.role = .defines →
    m.role = .defines →
    n.version.stmt? = m.version.stmt? → i = j
  edges : ∀ e ∈ g.edges, e.target < g.nodes.size ∧ ∃ σ ∈ ids, e.key.target = .stmt σ

namespace Signed

theorem empty (keepsRejected : Bool) : Signed ids (.empty keepsRejected) where
  listed := by simp [Graph.empty]
  signed := by simp [Graph.empty]
  distinct := by simp [Graph.empty]
  edges := by simp [Graph.empty]

theorem mono {ids' : List StmtId} (h : g.Signed ids) (hids : ids ⊆ ids') : g.Signed ids' where
  listed := h.listed
  signed i n hn hrole := by
    obtain ⟨σ, hσ, hv⟩ := h.signed i n hn hrole
    exact ⟨σ, hids hσ, hv⟩
  distinct := h.distinct
  edges e he := by
    obtain ⟨ht, σ, hσ, hk⟩ := h.edges e he
    exact ⟨ht, σ, hids hσ, hk⟩

theorem listed_push (h : g.Signed ids) (hi : i < (g.nodes.push n).size) :
    i ∈ g.order ++ [g.nodes.size] := by
  rw [Array.size_push] at hi
  by_cases hlt : i < g.nodes.size
  · exact List.mem_append_left _ (h.listed i hlt)
  · obtain rfl : i = g.nodes.size := by omega
    exact List.mem_append_right _ (List.mem_singleton_self _)

theorem define (h : g.Signed ids) (hv : n.version.stmt? = some σ) (hnew : σ ∉ ids) :
    (g.push n).Signed (ids ++ [σ]) where
  listed i hi := h.listed_push hi
  signed i m hm hrole := by
    rw [getElem?_push_nodes] at hm
    split at hm
    · cases hm
      exact ⟨σ, by simp, hv⟩
    · obtain ⟨τ, hτ, hmv⟩ := h.signed i m hm hrole
      exact ⟨τ, List.mem_append_left _ hτ, hmv⟩
  distinct i j m k hm hk hmr hkr heq := by
    -- an old definition was made by an old statement
    have hold : ∀ {i : Nat} {m : Node}, g.nodes[i]? = some m → m.role = .defines →
        m.version.stmt? ≠ some σ := by
      intro i m hm hmr hmv
      obtain ⟨τ, hτ, hmv'⟩ := h.signed i m hm hmr
      rw [hmv] at hmv'
      cases hmv'
      exact hnew hτ
    rw [getElem?_push_nodes] at hm hk
    split at hm
    · rename_i hi
      cases hm
      split at hk
      · rename_i hj
        rw [hi, hj]
      · exact absurd (heq.symm.trans hv) (hold hk hkr)
    · split at hk
      · cases hk
        exact absurd (heq.trans hv) (hold hm hmr)
      · exact h.distinct i j m k hm hk hmr hkr heq
  edges e he := by
    obtain ⟨ht, τ, hτ, hk⟩ := h.edges e he
    refine ⟨?_, τ, List.mem_append_left _ hτ, hk⟩
    rw [push, Array.size_push]
    omega

theorem attach (h : g.Signed ids) (hn : n.role = .uses) (hstmt : n.stmt = some σ)
    (ha : g.Attached n i d g') :
    g'.Signed (ids ++ [σ]) := by
  have hnodes : ∀ {j : Nat} {m : Node}, g'.nodes[j]? = some m → m.role = .defines →
      g.nodes[j]? = some m := by
    intro j m hm hrole
    rw [ha.nodes, Array.getElem?_push] at hm
    split at hm
    · cases hm
      rw [hn] at hrole
      cases hrole
    · exact hm
  refine ⟨fun j hj => ?_, fun j m hm hrole => ?_, fun j k m m' hm hm' hrole hrole' heq => ?_,
    fun e he => ?_⟩
  · rw [ha.order]
    exact h.listed_push (ha.nodes ▸ hj)
  · obtain ⟨τ, hτ, hv⟩ := h.signed j m (hnodes hm hrole) hrole
    exact ⟨τ, List.mem_append_left _ hτ, hv⟩
  · exact h.distinct j k m m' (hnodes hm hrole) (hnodes hm' hrole') hrole hrole' heq
  · obtain ⟨es, hes, -, hnew⟩ := ha.edges
    have hmem : e ∈ g.edges.toList ++ es := hes ▸ Array.mem_toList_iff.2 he
    rw [ha.nodes, Array.size_push]
    rcases List.mem_append.1 hmem with he | he
    · obtain ⟨ht, τ, hτ, hk⟩ := h.edges e (Array.mem_toList_iff.1 he)
      exact ⟨by omega, τ, List.mem_append_left _ hτ, hk⟩
    · obtain ⟨ht, hk⟩ := hnew e he
      refine ⟨by omega, σ, by simp, ?_⟩
      rw [hk, Site.of, hstmt]

theorem handOver (h : g.Signed ids) (hd : g.nodes[i]? = some d) (hv : d.version.stmt? = v.stmt?) :
    (g.handOver i stmt target v).Signed ids := by
  have hnodes : ∀ {j : Nat} {m : Node}, (g.handOver i stmt target v).nodes[j]? = some m →
      ∃ m', g.nodes[j]? = some m' ∧ m'.role = m.role ∧ m'.version.stmt? = m.version.stmt? := by
    intro j m hm
    rw [Graph.handOver, Array.getElem?_modify] at hm
    split at hm
    · rename_i hij
      subst hij
      rw [hd] at hm
      cases hm
      exact ⟨d, hd, rfl, hv⟩
    · exact ⟨m, hm, rfl, rfl⟩
  refine ⟨fun j hj => ?_, fun j m hm hrole => ?_, fun j k m m' hm hm' hrole hrole' heq => ?_,
    fun e he => ?_⟩
  · rw [Graph.handOver, Array.size_modify] at hj
    by_cases hij : j = i
    · exact List.mem_append_right _ (List.mem_singleton.2 hij)
    · exact List.mem_append_left _ ((List.mem_erase_of_ne hij).2 (h.listed j hj))
  · obtain ⟨m', hm', hr, hs⟩ := hnodes hm
    rw [← hs]
    exact h.signed j m' hm' (hr.trans hrole)
  · obtain ⟨a, ha, har, has⟩ := hnodes hm
    obtain ⟨c, hc, hcr, hcs⟩ := hnodes hm'
    exact h.distinct j k a c ha hc (har.trans hrole) (hcr.trans hrole') (by rw [has, hcs, heq])
  · obtain ⟨ht, hk⟩ := h.edges e he
    rw [Graph.handOver, Array.size_modify]
    exact ⟨ht, hk⟩

/-- There is one definition of a version, under whatever name. -/
theorem defines_unique {base base' : String} {j : Nat} (h : g.Signed ids) (hi : g.Defines base v i)
    (hj : g.Defines base' v j) : i = j := by
  obtain ⟨n, hn, hnr, -, hnv⟩ := hi
  obtain ⟨m, hm, hmr, -, hmv⟩ := hj
  exact h.distinct i j n m hn hm hnr hmr
    ((Version.stmt?_of_sameOrigin hnv).trans (Version.stmt?_of_sameOrigin hmv).symm)

theorem target_ne (h : g.Signed ids) (hnew : σ ∉ ids) : ∀ e ∈ g.edges, e.key.target ≠ .stmt σ := by
  intro e he heq
  obtain ⟨-, τ, hτ, hk⟩ := h.edges e he
  rw [hk] at heq
  cases heq
  exact hnew hτ

end Signed

end DefUse.Graph

/-! ## names that are followed -/

/-- What statements put into the graph: the statement at a place of the row, the position of its
definition, and the subscript there. -/
abbrev Placement := Nat → Nat → Subscript → Prop

/-- Every name that an array goes by is bound, and no other. The version that it is bound to has its
definition under the name, at the position where the last definition of the array was put. -/
structure Follows (puts : Placement) (ids : List StmtId) (g : Graph) (t : Bindings) (x : Arrays) :
    Prop where
  signed : g.Signed ids
  proper : x.Proper
  bound : ∀ base : String, t[base]?.isSome = (x.carried base).isSome
  backed : ∀ base o v, x.carried base = some o → t[base]? = some v →
    ∃ (i : Nat) (n : Node), puts (x.defined o) i n.index ∧ g.nodes[i]? = some n ∧
    n.role = .defines ∧ n.base = base ∧
      n.version.sameOrigin v = true

namespace Follows

variable {puts : Placement} {ids : List StmtId} {g g' : Graph} {t : Bindings} {x : Arrays}
  {n : Node} {σ : StmtId} {base source : String} {v : Version} {o : Nat}

theorem start (keepsRejected : Bool) : Follows puts [] (.empty keepsRejected) ∅ .start where
  signed := .empty keepsRejected
  proper := Arrays.proper_start
  bound base := by simp [Arrays.start]
  backed base o v hc := by simp [Arrays.start] at hc

theorem tick (h : Follows puts ids g t x) (met : Nat) :
    Follows puts ids g t { x with met := met } where
  signed := h.signed
  proper := ⟨h.proper.below, h.proper.sole⟩
  bound := h.bound
  backed := h.backed

theorem mono {ids' : List StmtId} (h : Follows puts ids g t x) (hids : ids ⊆ ids') :
    Follows puts ids' g t x :=
  { h with signed := h.signed.mono hids }

theorem exists_carried (h : Follows puts ids g t x) (hv : t[base]? = some v) :
    ∃ o, x.carried base = some o := by
  rw [← Option.isSome_iff_exists, ← h.bound, hv]
  rfl

theorem define (h : Follows puts ids g t x) (hrole : n.role = .defines)
    (hstmt : n.version.stmt? = some σ) (hnew : σ ∉ ids)
    (hsole : ∀ base', x.carried base' = some o → base' = n.base)
    (hputs : puts x.met g.nodes.size n.index) :
    Follows puts (ids ++ [σ]) (g.push n) (t.insert n.base n.version) (x.define n.base o) where
  signed := h.signed.define hstmt hnew
  proper := h.proper.define hsole
  bound base := by
    rw [Std.ExtTreeMap.getElem?_insert, Arrays.define]
    dsimp only
    rw [Function.update_apply]
    by_cases hb : base = n.base
    · simp [hb]
    · simp [hb, Ne.symm hb, h.bound base]
  backed base o' v hc hv := by
    by_cases hb : base = n.base
    · subst hb
      simp only [Arrays.define, Function.update_self, Option.some.injEq] at hc
      subst hc
      simp only [Std.ExtTreeMap.getElem?_insert_self, Option.some.injEq] at hv
      subst hv
      refine ⟨g.nodes.size, n, ?_, ?_, hrole, rfl, Version.sameOrigin_refl _⟩
      · simpa [Arrays.define] using hputs
      · rw [Graph.getElem?_push_nodes, if_pos rfl]
    · -- the other names go by other arrays, whose definitions are still there
      have hc' : x.carried base = some o' := by simpa [Arrays.define, hb] using hc
      have hv' : t[base]? = some v := by
        rw [Std.ExtTreeMap.getElem?_insert] at hv
        simpa [Ne.symm hb] using hv
      have hne : o' ≠ o := by
        rintro rfl
        exact hb (hsole base hc')
      obtain ⟨i, m, hp, hm, hrest⟩ := h.backed base o' v hc' hv'
      refine ⟨i, m, ?_, ?_, hrest⟩
      · simpa [Arrays.define, hne] using hp
      · rw [Graph.getElem?_push_nodes, if_neg (Nat.ne_of_lt (Array.getElem?_eq_some_iff.1 hm).1),
          hm]

theorem attach {i : Nat} {d : Node} (h : Follows puts ids g t x) (hn : n.role = .uses)
    (hstmt : n.stmt = some σ) (hv : t[base]? = some v) (ha : g.Attached n i d g') :
    Follows puts (ids ++ [σ]) g' (t.insert base v.markRead) x where
  signed := h.signed.attach hn hstmt ha
  proper := h.proper
  bound base' := by
    rw [Std.ExtTreeMap.getElem?_insert, ← h.bound base']
    by_cases hb : base = base'
    · subst hb
      simp [hv]
    · simp [hb]
  backed base' o w hc hw := by
    have hkept : ∀ {j : Nat} {m : Node}, g.nodes[j]? = some m → g'.nodes[j]? = some m := by
      intro j m hm
      rw [ha.nodes, Array.getElem?_push, if_neg (Nat.ne_of_lt (Array.getElem?_eq_some_iff.1 hm).1),
        hm]
    rw [Std.ExtTreeMap.getElem?_insert] at hw
    by_cases hb : base = base'
    · subst hb
      obtain rfl : v.markRead = w := by simpa using hw
      obtain ⟨j, m, hp, hm, hrole, hbase, horigin⟩ := h.backed base o v hc hv
      refine ⟨j, m, hp, hkept hm, hrole, hbase, ?_⟩
      rw [Version.sameOrigin_iff] at horigin ⊢
      rw [horigin, Version.stem_markRead]
    · obtain ⟨j, m, hp, hm, hrest⟩ := h.backed base' o w hc (by simpa [hb] using hw)
      exact ⟨j, m, hp, hkept hm, hrest⟩

/-- The definition of the version that a name is bound to is found, and was put there by the last
definition of the array. -/
theorem exists_definition (h : Follows puts ids g t x) (hv : t[base]? = some v) :
    ∃ o i n, x.carried base = some o ∧ puts (x.defined o) i n.index ∧ g.nodes[i]? = some n ∧
      n.role = .defines ∧
      n.base = base ∧ n.version.sameOrigin v = true ∧ i ∈ g.order ∧ g.Defines base v i ∧
      ∀ j, g.Defines base v j → j = i := by
  obtain ⟨o, hc⟩ := h.exists_carried hv
  obtain ⟨i, n, hp, hn, hrole, hbase, horigin⟩ := h.backed base o v hc hv
  have hdef : g.Defines base v i := ⟨n, hn, hrole, hbase, horigin⟩
  exact ⟨o, i, n, hc, hp, hn, hrole, hbase, horigin, h.signed.listed i hdef.lt, hdef,
    fun j hj => h.signed.defines_unique hj hdef⟩

/-- A rename of a bound name finds the definition of its version and hands it over. -/
theorem rename (h : Follows puts ids g t x) (stmt : Statement) (target : String)
    (hv : t[source]? = some v) :
    ∃ i, g.resolve ⟨source, v.signature, .defines⟩ v = some i ∧
      Follows puts ids (g.handOver i stmt target v) ((t.erase source).insert target v)
        (x.rename source target) := by
  obtain ⟨o, i, n, hc, hp, hn, hrole, hbase, horigin, hmem, hdef, hsole⟩ := h.exists_definition hv
  have hdefined : (x.rename source target).defined = x.defined := by simp only [Arrays.rename, hc]
  have htable : ∀ base : String, ((t.erase source).insert target v)[base]? =
      if base = target then some v else if base = source then none else t[base]? := by
    intro base
    simp only [Std.ExtTreeMap.getElem?_insert, Std.ExtTreeMap.getElem?_erase,
      Std.LawfulEqOrd.compare_eq_iff_eq, eq_comm (a := target), eq_comm (a := source)]
  refine ⟨i, Graph.resolve_eq_some hmem hdef hsole,
    h.signed.handOver hn (Version.stmt?_of_sameOrigin horigin), h.proper.rename hc, fun base => ?_,
    fun base o' w hc' hw => ?_⟩
  · rw [Arrays.carried_rename hc, htable]
    split
    · rfl
    · split
      · rfl
      · exact h.bound base
  · rw [Arrays.carried_rename hc] at hc'
    rw [htable] at hw
    rw [hdefined]
    split at hc'
    · rename_i htarget
      cases hc'
      rw [if_pos htarget] at hw
      cases hw
      refine ⟨i, n.rebind stmt target v, hp, ?_, hrole, htarget.symm, Version.sameOrigin_refl v⟩
      simp [Graph.handOver, Array.getElem?_modify, hn]
    · rename_i htarget
      rw [if_neg htarget] at hw
      split at hc'
      · cases hc'
      · rename_i hsource
        rw [if_neg hsource] at hw
        -- another name has another definition, since it stands under that name
        obtain ⟨j, m, hp', hm, hrole', hbase', horigin'⟩ := h.backed base o' w hc' hw
        have hij : i ≠ j := by
          rintro rfl
          rw [hn] at hm
          cases hm
          exact hsource (hbase'.symm.trans hbase)
        refine ⟨j, m, hp', ?_, hrole', hbase', horigin'⟩
        rw [Graph.handOver, Array.getElem?_modify, if_neg hij, hm]

/-- A read of a bound name finds the definition that the last definition of its array put into the
graph. -/
theorem read {stmt : Statement} {a : Access} (b : BlockId) (h : Follows puts ids g t x)
    (hnew : stmt.id ∉ ids) (hv : t[a.base]? = some v) :
    let use := Node.ofStatement .uses stmt a.base v.markRead a.index b
    ∃ o d n, x.carried a.base = some o ∧ puts (x.defined o) d n.index ∧ n.isPhi = false ∧
      (g.push use).resolve use.key.opposite use.version = some d ∧ (∃ e, (g.addUse use).1 = .ok e) ∧
      g.Attached use d n (g.addUse use).2 := by
  obtain ⟨o, d, n, hc, hp, hn, hrole, -, -, hmem, hdef, hsole⟩ := h.exists_definition hv
  have hsame : ∀ j, g.Defines a.base v.markRead j ↔ g.Defines a.base v j :=
    fun j => Graph.Defines.congr v.stem_markRead
  have hdef' := (hsame d).2 hdef
  have hsole' : ∀ j, g.Defines a.base v.markRead j → j = d := fun j hj => hsole j ((hsame j).1 hj)
  -- merges make no definitions here, since every definition has a statement
  have hphi : n.isPhi = false := by
    obtain ⟨σ, -, hσ⟩ := h.signed.signed d n hn hrole
    unfold Node.isPhi
    cases hver : n.version with
    | single => rfl
    | phi =>
      rw [hver] at hσ
      cases hσ
  obtain ⟨hok, n', hn', -, -, -, ha⟩ := Graph.addUse_attached
    (n := .ofStatement .uses stmt a.base v.markRead a.index b) hmem rfl hdef' hsole'
      (h.signed.target_ne hnew)
  rw [hn] at hn'
  cases hn'
  exact ⟨o, d, n, hc, hp, hphi, Graph.resolve_push_use hmem rfl hdef' hsole', hok, ha⟩

end Follows

/-! ## rows of statements -/

namespace Transfer

variable {s : Settings} {b : BlockId} {t t' : Bindings} {f f' : Facts} {stmt : Statement}
  {puts : Placement} {ids : List StmtId} {x : Arrays}

/-- Applied in a row, the statement at a place, which creates or writes an array, puts its
definition at a position of the graph. -/
inductive Puts (s : Settings) (b : BlockId) (row : List Statement) : Placement
  | intro {past later : List Statement} {stmt : Statement} {t t' : Bindings}
      {f f' : Facts} {n : Node} (hrow : row = past ++ stmt :: later)
      (hpast : statements s b past ∅ (.start s) = .ok (t, f))
      (hstmt : statement s b t f stmt = .ok (t', f')) (hact : stmt.action.definedAt? = some n.index)
      (hnodes : f'.graph.nodes = f.graph.nodes.push n) (hrole : n.role = .defines) :
      Puts s b row past.length f.graph.nodes.size n.index

theorem Puts.definedAt {row : List Statement} {q d : Nat} {index : Subscript}
    (h : Puts s b row q d index) :
    row[q]?.bind (·.action.definedAt?) = some index := by
  cases h with
  | intro hrow _ _ hact => simp [hrow, hact]

theorem exists_definition_of_definedAt? {index : Subscript}
    (hact : stmt.action.definedAt? = some index) (h : statement s b t f stmt = .ok (t', f')) :
    ∃ n : Node, f'.graph.nodes = f.graph.nodes.push n ∧ n.role = .defines ∧ n.index = index := by
  unfold Action.definedAt? at hact
  cases statement_effect h with
  | write hwrite | create hwrite =>
    rw [hwrite] at hact
    cases hact
    exact ⟨_, rfl, rfl, rfl⟩
  | missed hno | used hno | dangling hno | unmoved hno | moved hno | redefined hno | other hno =>
    rw [hno] at hact
    cases hact

/-- A statement that was not met before keeps names and arrays together. -/
theorem statement_follows (h : Follows puts ids f.graph t x) (hnew : stmt.id ∉ ids)
    (hputs : ∀ index, stmt.action.definedAt? = some index → puts x.met f.graph.nodes.size index)
    (hs : statement s b t f stmt = .ok (t', f')) :
    Follows puts (ids ++ [stmt.id]) f'.graph t' (x.step stmt) := by
  have hmore : ids ⊆ ids ++ [stmt.id] := List.subset_append_left ..
  rw [Arrays.step]
  refine Follows.tick ?_ _
  cases statement_effect hs with
  | @write a v hact hv =>
    have hstmt : v.stmt? = some stmt.id := by
      rw [hv]
      split
      · rfl
      · rfl
    rw [hact]
    exact h.define (n := .ofStatement .defines stmt a.base v a.index b) rfl hstmt hnew
      (fun base' => h.proper.sole_getD) (hputs _ (by rw [hact]; rfl))
  | missed hact =>
    rw [hact]
    exact h.mono hmore
  | used hact hv =>
    obtain ⟨o, d, n, -, -, -, -, -, ha⟩ := h.read b hnew hv
    rw [hact]
    exact h.attach rfl rfl hv ha
  | dangling hact hv huse =>
    obtain ⟨o, d, n, -, -, -, -, ⟨e, hok⟩, -⟩ := h.read b hnew hv
    cases hok.symm.trans huse
  | @create base hact =>
    rw [hact]
    exact h.define (n := .wholeArray stmt base (.created b stmt.id stmt.line) b) rfl rfl hnew
      (fun base' hc => absurd (h.proper.below base' _ hc) (Nat.lt_irrefl _))
        (hputs _ (by rw [hact]; rfl))
  | @unmoved source target hact hv =>
    have hc : x.carried source = none := by
      rw [← Option.isNone_iff_eq_none, ← Option.not_isSome, ← h.bound, hv]
      rfl
    rw [hact, Arrays.act, Arrays.rename, hc]
    exact h.mono hmore
  | @moved source target v i hact hv hi =>
    obtain ⟨j, hj, hf⟩ := h.rename stmt target hv
    cases hj.symm.trans hi
    rw [hact]
    exact hf.mono hmore
  | @redefined source target v hact hv hi =>
    obtain ⟨j, hj, -⟩ := h.rename stmt target hv
    cases hj.symm.trans hi
  | other hact =>
    rw [hact]
    exact h.mono hmore

theorem not_mem_ids {row past later : List Statement} (hids : (row.map (·.id)).Nodup)
    (hrow : row = past ++ stmt :: later) : stmt.id ∉ past.map (·.id) := by
  rw [hrow, List.map_append] at hids
  intro hmem
  exact (List.nodup_append.1 hids).2.2 _ hmem stmt.id (by simp) rfl

/-- So do statements in a row, by induction on the row from its end. -/
theorem statements_follow {row past rest : List Statement} (hids : (row.map (·.id)).Nodup)
    (hrow : row = past ++ rest) (hs : statements s b past ∅ (.start s) = .ok (t, f)) :
    Follows (Puts s b row) (past.map (·.id)) f.graph t (.after past) := by
  induction past using List.reverseRecOn generalizing rest t f with
  | nil =>
    cases hs
    exact .start _
  | append_singleton past stmt ih =>
    rw [statements_append, bind_eq_ok] at hs
    obtain ⟨⟨t₁, f₁⟩, hpast, hs⟩ := hs
    rw [statements_cons, bind_eq_ok] at hs
    obtain ⟨⟨t₂, f₂⟩, hstmt, hs⟩ := hs
    cases hs
    rw [List.append_assoc] at hrow
    have h := ih hrow hpast
    have hnew := not_mem_ids hids hrow
    rw [List.map_append, Arrays.after_append_singleton]
    refine statement_follows h hnew (fun index hact => ?_) hstmt
    obtain ⟨n, hnodes, hrole, rfl⟩ := exists_definition_of_definedAt? hact hstmt
    rw [Arrays.met_after]
    exact .intro hrow hpast hstmt hact hnodes hrole

end Transfer

/-! ## what stays in the graph -/

namespace DefUse.Graph

variable {g g' g'' : Graph}

/-- Uses stay as they are, and edges that come later lead to nodes that come later. -/
structure Grows (g g' : Graph) : Prop where
  size_le : g.nodes.size ≤ g'.nodes.size
  uses : ∀ (i : Nat) n, g.nodes[i]? = some n → n.role = .uses → g'.nodes[i]? = some n
  edges : ∀ e, e.target < g.nodes.size → (e ∈ g'.edges ↔ e ∈ g.edges)

theorem Grows.refl (g : Graph) : g.Grows g := ⟨Nat.le_refl _, fun _ _ h _ => h, fun _ _ => Iff.rfl⟩

theorem Grows.trans (h : g.Grows g') (h' : g'.Grows g'') : g.Grows g'' where
  size_le := Nat.le_trans h.size_le h'.size_le
  uses i n hn hrole := h'.uses i n (h.uses i n hn hrole) hrole
  edges e he := (h'.edges e (Nat.lt_of_lt_of_le he h.size_le)).trans (h.edges e he)

theorem Grows.of_push {n : Node} (hnodes : g'.nodes = g.nodes.push n)
    (hedges : ∀ e, e.target < g.nodes.size → (e ∈ g'.edges ↔ e ∈ g.edges)) : g.Grows g' where
  size_le := by simp [hnodes]
  uses i m hm _ := by
    rw [hnodes, Array.getElem?_push, if_neg (Nat.ne_of_lt (Array.getElem?_eq_some_iff.1 hm).1), hm]
  edges := hedges

theorem Change.grows (h : Change g g') : g.Grows g' := by
  cases h with
  | defined hn => exact .of_push rfl fun _ _ => Iff.rfl
  | @used n hn =>
    refine .of_push (addUse_nodes g n) fun e he => ?_
    have hused := addUse_used (g := g) hn
    generalize (g.addUse n).1 = result, (g.addUse n).2 = g' at hused ⊢
    cases hused with
    | joined =>
      rw [Array.mem_push]
      refine or_iff_left ?_
      rintro rfl
      exact Nat.lt_irrefl _ he
    | dangling | swallowed | rejected | dropped => exact Iff.rfl
  | @renamed source target v i stmt hi =>
    obtain ⟨d, hd, hk⟩ := exists_of_resolve hi
    refine ⟨?_, fun j n hn hrole => ?_, fun _ _ => Iff.rfl⟩
    · rw [handOver, Array.size_modify]
    · have hij : i ≠ j := by
        rintro rfl
        rw [hd] at hn
        cases hn
        have hdef : d.role = .defines := congrArg Key.role hk
        rw [hrole] at hdef
        cases hdef
      rw [handOver, Array.getElem?_modify, if_neg hij, hn]

theorem Changes.grows (h : Changes g g') : g.Grows g' :=
  h.invariant (P := g.Grows) (.refl g) fun _ _ ih hc => ih.trans hc.grows

/-- The edges into a use that was just added. -/
theorem Attached.incoming {n d : Node} {i : Nat} (ha : g.Attached n i d g')
    (hold : ∀ e ∈ g.edges, e.target < g.nodes.size) (j : Nat) :
    (∃ e ∈ g'.edges, e.source = j ∧ e.target = g.nodes.size) ↔ j = i ∧
    (d.isPhi = true ∨ d.index = n.index) := by
  obtain ⟨es, hes, hsources, htargets⟩ := ha.edges
  have hmem : ∀ e, e ∈ g'.edges ↔ e ∈ g.edges ∨ e ∈ es := by
    intro e
    rw [← Array.mem_toList_iff, hes, List.mem_append, Array.mem_toList_iff]
  have hnew : (∃ e ∈ g'.edges, e.source = j ∧ e.target = g.nodes.size) ↔ j ∈ es.map (·.source) := by
    rw [List.mem_map]
    constructor
    · rintro ⟨e, he, hsource, htarget⟩
      rcases (hmem e).1 he with he | he
      · exact absurd htarget (Nat.ne_of_lt (hold e he))
      · exact ⟨e, he, hsource⟩
    · rintro ⟨e, he, hsource⟩
      exact ⟨e, (hmem e).2 (.inr he), hsource, (htargets e he).1⟩
  rw [hnew, hsources]
  split
  · rename_i hreach
    simp [hreach]
  · rename_i hreach
    simp [hreach]

end DefUse.Graph

/-! ## the row as a whole -/

namespace Transfer

variable {s : Settings} {b : BlockId} {t t' : Bindings} {f f' : Facts} {stmt : Statement}

theorem read_followed {puts : Placement} {ids : List StmtId} {x : Arrays} {a : Access} {v : Version}
    (h : Follows puts ids f.graph t x) (hnew : stmt.id ∉ ids) (hact : stmt.action = .read a)
    (hv : t[a.base]? = some v) (hs : statement s b t f stmt = .ok (t', f')) :
    let use := Node.ofStatement .uses stmt a.base v.markRead a.index b
    f'.diagnostics = f.diagnostics ∧ f'.graph.nodes = f.graph.nodes.push use ∧
    ∃ o d index, x.carried a.base = some o ∧ puts (x.defined o) d index ∧
      (f.graph.push use).resolve use.key.opposite use.version = some d ∧
      ∀ i, (∃ e ∈ f'.graph.edges, e.source = i ∧ e.target = f.graph.nodes.size) ↔ i = d ∧
          index = a.index := by
  obtain ⟨o, d, n, hc, hp, hphi, hres, ⟨e, hok⟩, ha⟩ := h.read b hnew hv
  unfold statement at hs
  simp only [hact] at hs
  obtain ⟨-, ⟨-, -, rfl⟩ | ⟨fault, herr, -⟩⟩ := read_bound hv hs
  · refine ⟨rfl, ha.nodes, o, d, n.index, hc, hp, hres, fun i => ?_⟩
    rw [ha.incoming (fun e he => (h.signed.edges e he).1), hphi]
    simp [Node.ofStatement]
  · rw [hok] at herr
    cases herr

theorem getElem?_rebind_rename {source target : String} {v : Version}
    (hact : stmt.action = .rename source target) (hv : t[source]? = some v) :
    (source ≠ target → (rebind b t stmt)[source]? = none) ∧
    (rebind b t stmt)[target]? = some v := by
  simp only [rebind, hact, hv]
  refine ⟨fun hne => ?_, Std.ExtTreeMap.getElem?_insert_self⟩
  rw [Std.ExtTreeMap.getElem?_insert]
  simp [Ne.symm hne]

end Transfer

/-- In a row of statements with names of their own, entered with nothing bound and nothing found,
names are followed through all renames: at every point exactly those names are bound that an array
goes by. A read of a bound name adds a use and nothing is noted; it looks up the very definition
that the last creation of the array, or the last write to it, put into the graph, and at the end of
the row an edge leads to the use from there, if both have one subscript, and from nowhere else. A
rename leaves the old name free, unless it is the new one, and the new name has the version. -/
theorem renames_followed (p : Procedure) (s : Settings) (b : BlockId) (hs : s.strictUses = false)
    (hids : ((p.statementsOf b).map (·.id)).Nodup) :
    ∃ found, Transfer.process s b p ∅ (.start s) = .ok found ∧
      ∀ past rest, p.statementsOf b = past ++ rest → ∃ t f,
        Transfer.statements s b past ∅ (.start s) = .ok (t, f) ∧
        (∀ base : String, t[base]?.isSome = ((Arrays.after past).carried base).isSome) ∧
        ∀ stmt later, rest = stmt :: later → ∃ t' f',
          Transfer.statement s b t f stmt = .ok (t', f') ∧
          (∀ a v, stmt.action = .read a → t[a.base]? = some v →
            let use := Node.ofStatement .uses stmt a.base v.markRead a.index b
            f'.diagnostics = f.diagnostics ∧ found.graph.nodes[f.graph.nodes.size]? = some use ∧
            ∃ o d index, (Arrays.after past).carried a.base = some o ∧
              Transfer.Puts s b (p.statementsOf b) ((Arrays.after past).defined o) d index ∧
              (f.graph.push use).resolve use.key.opposite use.version = some d ∧
              ∀ i, (∃ e ∈ found.graph.edges, e.source = i ∧ e.target = f.graph.nodes.size) ↔ i = d ∧
                index = a.index) ∧
          ∀ source target v, stmt.action = .rename source target → t[source]? = some v →
            (source ≠ target → t'[source]? = none) ∧ t'[target]? = some v := by
  obtain ⟨⟨u, g⟩, hall⟩ := Transfer.statements_lenient (b := b) (t := ∅) (f := .start s) hs
    (p.statementsOf b)
  refine ⟨g.expose b u, Transfer.process_eq_ok.2 ⟨u, g, hall, rfl⟩, fun past rest hrow => ?_⟩
  rw [hrow, Transfer.statements_append, bind_eq_ok] at hall
  obtain ⟨⟨t, f⟩, hpast, hrest⟩ := hall
  have h := Transfer.statements_follow hids hrow hpast
  refine ⟨t, f, hpast, h.bound, fun stmt later heq => ?_⟩
  rw [heq, Transfer.statements_cons, bind_eq_ok] at hrest
  obtain ⟨⟨t', f'⟩, hstmt, hlater⟩ := hrest
  have hnew := Transfer.not_mem_ids hids (heq ▸ hrow)
  refine ⟨t', f', hstmt, fun a v hact hv => ?_, fun source target v hact hv => ?_⟩
  · obtain ⟨hd, hnodes, o, d, index, hc, hp, hres, hedges⟩ :=
      Transfer.read_followed h hnew hact hv hstmt
    -- later statements leave the use and the edges into it alone
    have hgrows : f'.graph.Grows g.graph := (Transfer.statements_changes hlater).grows
    have hlt : f.graph.nodes.size < f'.graph.nodes.size := by
      rw [hnodes, Array.size_push]
      omega
    refine ⟨hd, hgrows.uses _ _ ?_ rfl, o, d, index, hc, hp, hres, fun i => ?_⟩
    · rw [hnodes, Array.getElem?_push_size]
    · rw [← hedges i]
      refine exists_congr fun e => ⟨fun ⟨he, hi, ht⟩ => ⟨(hgrows.edges e (ht ▸ hlt)).1 he, hi, ht⟩,
        fun ⟨he, hi, ht⟩ => ⟨(hgrows.edges e (ht ▸ hlt)).2 he, hi, ht⟩⟩
  · obtain ⟨rfl, -⟩ := Transfer.statement_eq_ok hstmt
    exact Transfer.getElem?_rebind_rename hact hv

/-- Two arrays swap their names by way of a third name, which is free then and is renamed in vain.
The array that was written takes the name of the other one away, and its own name once more, so that
both have a definition under one key; it is read where it was written. -/
def swappedNames : Procedure where
  name := "swapped names"
  entry := ⟨0⟩
  blocks := [{
    id := ⟨0⟩
    statements := [
      ⟨⟨0⟩, 1, "a = new", .create "a"⟩, ⟨⟨1⟩, 2, "b[i] = x", .write ⟨"b", .expr "i"⟩⟩,
      ⟨⟨2⟩, 3, "t = a", .rename "a" "t"⟩, ⟨⟨3⟩, 4, "a = b", .rename "b" "a"⟩,
      ⟨⟨4⟩, 5, "b = t", .rename "t" "b"⟩, ⟨⟨5⟩, 6, "a = t", .rename "t" "a"⟩,
      ⟨⟨6⟩, 7, "b = a", .rename "a" "b"⟩, ⟨⟨7⟩, 8, "b = b", .rename "b" "b"⟩,
      ⟨⟨8⟩, 9, "y = b[i]", .read ⟨"b", .expr "i"⟩⟩]
    successors := []
    predecessors := [] }]
  loopExits := []

theorem renames_followed_swappedNames :
    let row := swappedNames.statementsOf ⟨0⟩
    (row.map (·.id)).Nodup ∧ (Arrays.after (row.take 8)).carried "b" = some 1 ∧
      (Arrays.after (row.take 8)).defined 1 = 1 ∧
      ∃ found t f d, Transfer.process {} ⟨0⟩ swappedNames ∅ (.start {}) = .ok found ∧
        Transfer.statements {} ⟨0⟩ (row.take 8) ∅ (.start {}) = .ok (t, f) ∧
        Transfer.Puts {} ⟨0⟩ row 1 d (.expr "i") ∧
        ∃ e ∈ found.graph.edges, e.source = d ∧ e.target = f.graph.nodes.size := by
  have hids : ((swappedNames.statementsOf ⟨0⟩).map (·.id)).Nodup := by decide
  have hcarried : (Arrays.after ((swappedNames.statementsOf ⟨0⟩).take 8)).carried "b" =
    some 1 := by decide
  have hdefined : (Arrays.after ((swappedNames.statementsOf ⟨0⟩).take 8)).defined 1 = 1 := by decide
  obtain ⟨found, hfound, hpoint⟩ := renames_followed swappedNames {} ⟨0⟩ rfl hids
  obtain ⟨t, f, hpast, hbound, hnext⟩ := hpoint _ _ (List.take_append_drop 8 _).symm
  obtain ⟨t', f', -, hread, -⟩ := hnext ⟨⟨8⟩, 9, "y = b[i]", .read ⟨"b", .expr "i"⟩⟩ [] rfl
  obtain ⟨v, hv⟩ := Option.isSome_iff_exists.1 ((hbound "b").trans (hcarried ▸ rfl))
  obtain ⟨-, -, o, d, index, hc, hputs, -, hedges⟩ := hread _ v rfl hv
  obtain rfl := Option.some.inj (hcarried.symm.trans hc)
  rw [hdefined] at hputs
  obtain rfl : Subscript.expr "i" = index := Option.some.inj hputs.definedAt
  exact ⟨hids, hcarried, hdefined, found, t, f, d, hfound, hpast, hputs, (hedges d).2 ⟨rfl, rfl⟩⟩

end ArrayFlow
