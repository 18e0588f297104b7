import ArrayFlow.Proofs.Acyclic
import ArrayFlow.Proofs.Reads

/-!
# Versions and the definitions that reach a point

In a procedure without loops and renames, the version of an array stands for its last definitions on
all ways from the entry.

* `Procedure.Trace`   : statements that are executed, one after the other, on a way from the entry
  to a block;
* `Procedure.TraceAt` : the same, up to a point inside the block;
* `lastDefinition`    : the last creation or write of an array among executed statements;
* `Describes`         : bindings that say of every array whether it is always defined, and where it
  was defined last;
* `analyze_versions_reaching` : the bindings at every point describe the ways to it.
-/

namespace ArrayFlow

/-! ## executions -/

/-- Is the action a creation or a write of the array? -/
def Action.defines (base : String) : Action → Bool
  | write a => a.base == base
  | create b => b == base
  | _ => false

/-- On some way from the entry, control comes to a block when these statements were executed. -/
inductive Procedure.Trace (p : Procedure) : BlockId → List (BlockId × Statement) → Prop
  | entry : Trace p p.entry []
  | step {a b : BlockId} {l : List (BlockId × Statement)} (h : Trace p a l)
      (hb : b ∈ p.successors a) :
      Trace p b (l ++ (p.statementsOf a).map (a, ·))

/-- On some way from the entry, control comes to statement number `i` of a block when these were
executed. -/
def Procedure.TraceAt (p : Procedure) (b : BlockId) (i : Nat)
    (l : List (BlockId × Statement)) : Prop :=
  ∃ l₀, p.Trace b l₀ ∧ l = l₀ ++ ((p.statementsOf b).take i).map (b, ·)

/-- The last creation or write of an array. -/
def lastDefinition (base : String) (l : List (BlockId × Statement)) : Option (BlockId × StmtId) :=
  (l.reverse.find? fun e => e.2.action.defines base).map fun e => (e.1, e.2.id)

theorem lastDefinition_append_singleton (base : String)
    (l : List (BlockId × Statement)) (b : BlockId) (stmt : Statement) :
    lastDefinition base (l ++ [(b, stmt)]) =
      if stmt.action.defines base = true then some (b, stmt.id) else lastDefinition base l := by
  unfold lastDefinition
  rw [List.reverse_append, List.reverse_singleton, List.singleton_append, List.find?_cons]
  by_cases h : stmt.action.defines base = true <;> simp [h]

theorem lastDefinition_eq_none {base : String} {l : List (BlockId × Statement)} :
    lastDefinition base l = none ↔ ∀ e ∈ l, e.2.action.defines base = false := by
  simp [lastDefinition]

/-! ## bindings that describe executions -/

/-- A name is bound when all executions define it; the leaves of its version are then its last
definitions. -/
def Describes (T : List (BlockId × Statement) → Prop) (t : Bindings) : Prop :=
  ∀ base, match t[base]?.map Version.leaves with
    | none => ∃ l, T l ∧ lastDefinition base l = none
    | some xs => (∀ l, T l → lastDefinition base l ≠ none) ∧ ∀ x, x ∈ xs ↔ ∃ l, T l ∧
        lastDefinition base l = some x

variable {p : Procedure} {s : Settings} {b : BlockId} {t : Bindings}

/-- A creation or write makes a version with one leaf; other statements leave the leaves alone. -/
theorem Transfer.leaves_rebind {stmt : Statement}
    (hr : ∀ source target, stmt.action ≠ .rename source target) (base : String) :
    (rebind b t stmt)[base]?.map Version.leaves =
      if stmt.action.defines base = true then some [(b, stmt.id)]
        else t[base]?.map Version.leaves := by
  unfold rebind Action.defines
  cases hact : stmt.action with
  | write a =>
    by_cases hb : a.base = base
    · subst hb
      cases hv : t[a.base]? <;> simp [hv, Version.leaves, Version.next, Version.firstWrite]
    · cases hv : t[a.base]? <;> simp [hv, hb, Std.ExtTreeMap.getElem?_insert]
  | read a =>
    by_cases hb : a.base = base
    · subst hb
      cases hv : t[a.base]? <;> simp [hv]
    · cases hv : t[a.base]? <;> simp [hv, hb, Std.ExtTreeMap.getElem?_insert]
  | create c =>
    by_cases hb : c = base
    · subst hb
      simp [Version.leaves, Version.created]
    · simp [hb, Std.ExtTreeMap.getElem?_insert]
  | rename source target => exact absurd hact (hr source target)
  | other => simp

namespace Describes

variable {T T' : List (BlockId × Statement) → Prop}

theorem congr (h : Describes T t) (hT : ∀ l, T l ↔ T' l) : Describes T' t := by
  have : T = T' := funext fun l => propext (hT l)
  rwa [← this]

theorem rebind {stmt : Statement} (h : Describes T t) (hne : ∃ l, T l)
    (hr : ∀ source target, stmt.action ≠ .rename source target) :
    Describes (fun l => ∃ l₀, T l₀ ∧ l = l₀ ++ [(b, stmt)]) (Transfer.rebind b t stmt) := by
  intro base
  rw [Transfer.leaves_rebind hr]
  have hlast : ∀ l₀, lastDefinition base (l₀ ++ [(b, stmt)]) =
      if stmt.action.defines base = true then some (b, stmt.id) else lastDefinition base l₀ :=
          fun l₀ =>
    lastDefinition_append_singleton base l₀ b stmt
  by_cases hd : stmt.action.defines base = true
  · simp only [hd, if_true] at hlast ⊢
    obtain ⟨l₁, hT₁⟩ := hne
    refine ⟨?_, fun x => ?_⟩
    · rintro _ ⟨l₀, hT, rfl⟩
      rw [hlast]
      exact Option.some_ne_none _
    · constructor
      · intro hx
        rw [List.mem_singleton.1 hx]
        exact ⟨_, ⟨l₁, hT₁, rfl⟩, hlast l₁⟩
      · rintro ⟨_, ⟨l₀, hT, rfl⟩, hx⟩
        rw [hlast] at hx
        exact List.mem_singleton.2 (Option.some.inj hx).symm
  · simp only [hd, if_false, Bool.false_eq_true] at hlast ⊢
    have hbase := h base
    split at hbase
    · obtain ⟨l₀, hT, hnone⟩ := hbase
      exact ⟨_, ⟨l₀, hT, rfl⟩, (hlast l₀).trans hnone⟩
    · refine ⟨?_, fun x => ?_⟩
      · rintro _ ⟨l₀, hT, rfl⟩
        rw [hlast]
        exact hbase.1 l₀ hT
      · rw [hbase.2]
        constructor
        · rintro ⟨l₀, hT, hx⟩
          exact ⟨_, ⟨l₀, hT, rfl⟩, (hlast l₀).trans hx⟩
        · rintro ⟨_, ⟨l₀, hT, rfl⟩, hx⟩
          exact ⟨l₀, hT, (hlast l₀).symm.trans hx⟩

theorem foldl {stmts : List Statement} (h : Describes T t) (hne : ∃ l, T l)
    (hr : ∀ stmt ∈ stmts, ∀ source target, stmt.action ≠ .rename source target) :
    Describes (fun l => ∃ l₀, T l₀ ∧ l = l₀ ++ stmts.map (b, ·))
      (stmts.foldl (Transfer.rebind b) t) := by
  induction stmts generalizing T t with
  | nil => exact h.congr fun l => by simp
  | cons stmt rest ih =>
    obtain ⟨l₁, hT₁⟩ := hne
    refine (ih (h.rebind ⟨l₁, hT₁⟩ (hr stmt (by simp))) ⟨_, l₁, hT₁, rfl⟩ fun stmt' hm =>
      hr stmt' (by simp [hm])).congr
      fun l => ?_
    constructor
    · rintro ⟨_, ⟨l₀, hT, rfl⟩, rfl⟩
      exact ⟨l₀, hT, by simp⟩
    · rintro ⟨l₀, hT, rfl⟩
      exact ⟨_, ⟨l₀, hT, rfl⟩, by simp⟩

theorem exists_iff (h : Describes T t) (base : String) :
    (∃ v, t[base]? = some v) ↔ ∀ l, T l → ∃ e ∈ l, e.2.action.defines base = true := by
  have hbase := h base
  have hdef : ∀ l, lastDefinition base l ≠ none ↔ ∃ e ∈ l, e.2.action.defines base = true := by
    intro l
    rw [ne_eq, lastDefinition_eq_none]
    simp
  cases hv : t[base]? with
  | none =>
    rw [hv] at hbase
    obtain ⟨l, hl, hnone⟩ := hbase
    exact ⟨by simp, fun hall => absurd hnone ((hdef l).2 (hall l hl))⟩
  | some v =>
    rw [hv] at hbase
    exact ⟨fun _ l hl => (hdef l).1 (hbase.1 l hl), fun _ => ⟨v, rfl⟩⟩

theorem mem_leaves_iff (h : Describes T t) {base : String} {v : Version} (hv : t[base]? = some v)
    (x : BlockId × StmtId) : x ∈ v.leaves ↔ ∃ l, T l ∧ lastDefinition base l = some x := by
  have hbase := h base
  rw [hv] at hbase
  exact hbase.2 x

end Describes

/-! ## merges -/

/-- Where tables merge, a name is bound when all of them bind it, and then has the leaves of all of
them. -/
theorem Merge.version?_leaves (s : Settings) (b : BlockId) (line : Nat) {tables : List Bindings}
    (h2 : 2 ≤ tables.length) (base : String) :
    (version? s b line tables base = none ∧ ∃ u ∈ tables, u[base]? = none) ∨
      ∃ v, version? s b line tables base = some v ∧ (∀ u ∈ tables, u[base]? ≠ none) ∧
        ∀ x, x ∈ v.leaves ↔ ∃ u ∈ tables, ∃ w, u[base]? = some w ∧ x ∈ w.leaves := by
  have hmem : ∀ x, (∃ w ∈ tables.filterMap fun u => u[base]?, x ∈ w.leaves) ↔
      ∃ u ∈ tables, ∃ w, u[base]? = some w ∧ x ∈ w.leaves := by
    intro x
    constructor
    · rintro ⟨w, hw, hx⟩
      obtain ⟨u, hu, huw⟩ := List.mem_filterMap.1 hw
      exact ⟨u, hu, w, huw, hx⟩
    · rintro ⟨u, hu, w, huw, hx⟩
      exact ⟨w, List.mem_filterMap.2 ⟨u, hu, huw⟩, hx⟩
  have hall : (tables.filterMap fun u => u[base]?).length = tables.length ↔
    ∀ u ∈ tables, u[base]?.isSome = true :=
    List.filterMap_length_eq_length
  have hlen := inputs_length_le tables base
  unfold version?
  dsimp only
  by_cases hlt : (tables.filterMap fun u => u[base]?).length < tables.length
  · refine .inl ⟨if_pos hlt, ?_⟩
    by_contra hsome
    have := hall.2 fun u hu => Option.isSome_iff_ne_none.2 fun hnone => hsome ⟨u, hu, hnone⟩
    omega
  · rw [if_neg hlt]
    have hsome := hall.1 (by omega)
    obtain ⟨v, vs, hinputs⟩ : ∃ v vs, (tables.filterMap fun u => u[base]?) = v :: vs := by
      refine List.exists_cons_of_ne_nil fun hnil => ?_
      rw [hnil, List.length_nil] at hlt
      omega
    rw [hinputs] at hmem ⊢
    right
    by_cases hprune : (s.pruneTrivial && Version.trivialMerge (v :: vs)) = true
    · -- the tables bind one version, so the leaves of the first are those of all
      rw [if_pos hprune]
      refine ⟨shared v (v :: vs), rfl, fun u hu => Option.isSome_iff_ne_none.1 (hsome u hu),
        fun x => ?_⟩
      have hshared : (shared v (v :: vs)).leaves = v.leaves := by
        unfold shared
        split
        · exact Version.leaves_markRead v
        · rfl
      rw [hshared, ← hmem]
      simp only [Bool.and_eq_true, Version.trivialMerge, List.all_eq_true] at hprune
      constructor
      · exact fun hx => ⟨v, by simp, hx⟩
      · rintro ⟨w, hw, hx⟩
        rcases List.mem_cons.1 hw with rfl | hw
        · exact hx
        · rwa [← Version.leaves_of_sameOrigin (hprune.2 w hw)]
    · rw [if_neg hprune]
      have hlen' : ¬ (v :: vs).length < 2 := by
        rw [← hinputs]
        omega
      refine ⟨_, if_neg hlen', fun u hu => Option.isSome_iff_ne_none.1 (hsome u hu), fun x => ?_⟩
      rw [Version.leaves_phi, List.mem_flatMap, hmem]

/-- Where tables merge, the executions of all predecessors come together. -/
theorem Describes.joined {T : BlockId → List (BlockId × Statement) → Prop}
    {x : BlockId → Bindings} {line : Nat} {preds : List BlockId} (hne : preds ≠ [])
    (h : ∀ a ∈ preds, Describes (T a) (x a)) :
    Describes (fun l => ∃ a ∈ preds, T a l) (Merge.joined s b line (preds.map x)) := by
  match preds with
  | [] => exact absurd rfl hne
  | [a] => exact (h a (by simp)).congr fun l => by simp
  | a :: c :: rest =>
    generalize hps : a :: c :: rest = ps at h ⊢
    have h2 : 2 ≤ (ps.map x).length := by simp [← hps]
    intro base
    rw [Merge.getElem?_joined h2]
    rcases Merge.version?_leaves s b line h2 base with ⟨hv, u, hu, hnone⟩ | ⟨v, hv, hsome, hleaves⟩
    · rw [hv]
      obtain ⟨a, ha, rfl⟩ := List.mem_map.1 hu
      have := h a ha base
      rw [hnone] at this
      obtain ⟨l, hl, hlast⟩ := this
      exact ⟨l, ⟨a, ha, hl⟩, hlast⟩
    · rw [hv]
      -- each predecessor describes its own executions
      have hown : ∀ a ∈ ps, ∃ w, (x a)[base]? = some w ∧
          (∀ l, T a l → lastDefinition base l ≠ none) ∧
          ∀ y, y ∈ w.leaves ↔ ∃ l, T a l ∧ lastDefinition base l = some y := by
        intro a ha
        obtain ⟨w, hw⟩ := Option.ne_none_iff_exists'.1 (hsome _ (List.mem_map_of_mem ha))
        have := h a ha base
        rw [hw] at this
        exact ⟨w, hw, this⟩
      refine ⟨?_, fun y => ?_⟩
      · rintro l ⟨a, ha, hl⟩
        obtain ⟨w, -, hdef, -⟩ := hown a ha
        exact hdef l hl
      · rw [hleaves]
        constructor
        · rintro ⟨u, hu, w, hw, hy⟩
          obtain ⟨a, ha, rfl⟩ := List.mem_map.1 hu
          obtain ⟨w', hw', -, hlast⟩ := hown a ha
          rw [hw] at hw'
          cases hw'
          obtain ⟨l, hl, hy⟩ := (hlast y).1 hy
          exact ⟨l, ⟨a, ha, hl⟩, hy⟩
        · rintro ⟨l, ⟨a, ha, hl⟩, hy⟩
          obtain ⟨w, hw, -, hlast⟩ := hown a ha
          exact ⟨x a, List.mem_map_of_mem ha, w, hw, (hlast y).2 ⟨l, hl, hy⟩⟩

/-! ## executions of a procedure without loops -/

namespace Procedure

variable {x : BlockId → Bindings} {l : List (BlockId × Statement)}

theorem Reachable.exists_trace (h : p.Reachable b) : ∃ l, p.Trace b l := by
  induction h with
  | refl => exact ⟨[], .entry⟩
  | tail _ hb ih =>
    obtain ⟨l, hl⟩ := ih
    exact ⟨_, hl.step hb⟩

theorem trace_iff (hw : p.WellFormed) (hb : b ≠ p.entry) :
    p.Trace b l ↔ ∃ a ∈ p.predecessors b, ∃ l₀, p.Trace a l₀ ∧
      l = l₀ ++ (p.statementsOf a).map (a, ·) := by
  constructor
  · intro h
    cases h with
    | entry => exact absurd rfl hb
    | step h hsucc => exact ⟨_, (hw.mem_predecessors _ _).2 hsucc, _, h, rfl⟩
  · rintro ⟨a, ha, l₀, h, rfl⟩
    exact h.step ((hw.mem_predecessors a b).1 ha)

/-- The solution of the equations describes the executions, by induction on the rank. -/
theorem Solves.describes (ha : p.Acyclic) (hw : p.WellFormed) (hfree : p.RenameFree)
    (hx : p.Solves s x) :
    ∀ b, p.Reachable b → Describes (p.Trace b) (p.entered s x b) := by
  intro b hb
  induction hk : Acyclic.rank p b using Nat.strong_induction_on generalizing b with
  | _ k ih =>
    subst hk
    unfold entered
    by_cases heq : b = p.entry
    · subst heq
      have hnil := ha.entry_predecessors hw
      rw [hnil]
      intro base
      exact ⟨[], .entry, rfl⟩
    · have hne : p.predecessors b ≠ [] := by
        obtain ⟨l, hl⟩ := hb.exists_trace
        obtain ⟨a, hpred, -⟩ := (trace_iff hw heq).1 hl
        exact List.ne_nil_of_mem hpred
      refine (Describes.joined hne fun a hpred => ?_).congr fun l => (trace_iff hw heq).symm
      -- the predecessor adds its statements to the executions that come to it
      have hreach := ha.source a b hb hpred
      rw [hx a hreach]
      exact (ih _ (ha.rank_lt hreach ((hw.mem_predecessors a b).1 hpred)) a hreach rfl).foldl
        hreach.exists_trace
        fun stmt hs => hfree.statementsOf hs

end Procedure

/-- The bindings that the analysis has at a point are those that the solution of the equations
gives. -/
theorem Machine.LiveAt.eq_foldl {i : Nat} {x : BlockId → Bindings} (ha : p.Acyclic)
    (hw : p.WellFormed) (hx : p.Solves s x) (h : LiveAt p s b i t) :
    t = ((p.statementsOf b).take i).foldl (Transfer.rebind b) (p.entered s x b) := by
  obtain ⟨f, m, t₀, f₀, hm, he, hs⟩ := h
  obtain ⟨hall, rfl⟩ := (hm.tabled ha hw).enters ha hw hm he
  rw [Procedure.entered_congr fun a hpred => (hm.table_eq_solution ha hw hx a (hall a hpred)).symm]
  exact (Transfer.statements_eq_ok hs).1

theorem Machine.LiveAt.describes {i : Nat} {x : BlockId → Bindings} (ha : p.Acyclic)
    (hw : p.WellFormed) (hfree : p.RenameFree) (hx : p.Solves s x) (hb : p.Reachable b)
    (h : LiveAt p s b i t) :
    Describes (p.TraceAt b i) t := by
  rw [h.eq_foldl ha hw hx]
  exact (hx.describes ha hw hfree b hb).foldl hb.exists_trace fun stmt hs =>
    hfree.statementsOf (List.mem_of_mem_take hs)

/-! ## versions and reaching definitions -/

variable {r : Report}

/-- Without loops and renames, every point of a reachable block has its bindings. An array is bound
there when it is created or written on every way to the point, and the leaves of its version are its
last creations and writes on these ways. A read is noted as a dangling use when its array is neither
created nor written on some way to it. -/
theorem analyze_versions_reaching {d : Draft} (hb : d.build = .ok p) (ha : p.Acyclic)
    (hfree : p.RenameFree) (h : analyze p s = .ok r) :
    (∀ b i, p.Reachable b → ∃! t, Machine.LiveAt p s b i t) ∧
    (∀ b i t base, p.Reachable b → Machine.LiveAt p s b i t →
      ((∃ v, t[base]? = some v) ↔ ∀ l, p.TraceAt b i l → ∃ e ∈ l, e.2.action.defines base = true) ∧
      ∀ v, t[base]? = some v → ∀ x, x ∈ v.leaves ↔ ∃ l, p.TraceAt b i l ∧
        lastDefinition base l = some x) ∧
    ∀ b i stmt a, p.Reachable b → (p.statementsOf b)[i]? = some stmt → stmt.action = .read a →
      ((∃ x ∈ r.facts.diagnostics, x.kind = .danglingUse ∧ x.stmt = some stmt.id) ↔
        ∃ l, p.TraceAt b i l ∧ ∀ e ∈ l, e.2.action.defines a.base = false) := by
  have hw := Procedure.WellFormed.of_build hb
  have hsol := Report.solves hw ha h
  have hacc := Report.accounted hw hfree h
  have hlive : ∀ b i, p.Reachable b → ∃ t, Machine.LiveAt p s b i t := by
    intro b i hreach
    have hc := (Report.claimed_iff_reachable hw ha h b).2 hreach
    obtain ⟨-, m, -, hm, rfl⟩ := analyze_eq_ok h
    rw [Machine.conclude_eq] at hc
    exact hm.before hc i
  refine ⟨fun b i hreach => ?_, fun b i t base hreach ht => ?_,
    fun b i stmt a hreach hstmt hact => ?_⟩
  · obtain ⟨t, ht⟩ := hlive b i hreach
    exact ⟨t, ht, fun u hu => hu.unique ht⟩
  · have hdesc := ht.describes ha hw hfree hsol hreach
    exact ⟨hdesc.exists_iff base, fun v hv => hdesc.mem_leaves_iff hv⟩
  · obtain ⟨t, ht⟩ := hlive b i hreach
    have hdesc := ht.describes ha hw hfree hsol hreach
    have hset := hacc.reads b i stmt a t ((Report.claimed_iff_reachable hw ha h b).2 hreach)
      ⟨hstmt, hact, ht⟩
    rw [hset.dangling_iff, Option.eq_none_iff_forall_ne_some, ← not_exists, hdesc.exists_iff]
    push Not
    simp only [ne_eq, Bool.not_eq_true]

/-- Both branches write `a`, one of them creates `b`, and both arrays are read where they meet. -/
def halfDefined : Draft where
  name := "half defined"
  blocks := [
    (⟨0⟩, [⟨⟨0⟩, 1, "a = new", .create "a"⟩]),
    (⟨1⟩, [⟨⟨1⟩, 2, "a[i] = x", .write ⟨"a", .expr "i"⟩⟩, ⟨⟨2⟩, 3, "b = new", .create "b"⟩]),
    (⟨2⟩, [⟨⟨3⟩, 4, "a[j] = x", .write ⟨"a", .expr "j"⟩⟩]),
    (⟨3⟩, [⟨⟨4⟩, 5, "y = a[i]", .read ⟨"a", .expr "i"⟩⟩,
      ⟨⟨5⟩, 6, "z = b[i]", .read ⟨"b", .expr "i"⟩⟩])]
  edges := [(⟨0⟩, ⟨1⟩), (⟨0⟩, ⟨2⟩), (⟨1⟩, ⟨3⟩), (⟨2⟩, ⟨3⟩)]

theorem analyze_versions_reaching_halfDefined :
    ∃ p r, halfDefined.build = .ok p ∧ analyze p {} = .ok r ∧
      r.facts.diagnostics.map (·.stmt) = [some ⟨5⟩] ∧
      ((r.facts.exposed.table ⟨3⟩)["a"]?.map Version.leaves) = some [(⟨1⟩, ⟨1⟩), (⟨2⟩, ⟨3⟩)] ∧
      ∀ b i t base, p.Reachable b → Machine.LiveAt p {} b i t →
        ((∃ v, t[base]? = some v) ↔ ∀ l, p.TraceAt b i l →
          ∃ e ∈ l, e.2.action.defines base = true) ∧
        ∀ v, t[base]? = some v → ∀ x, x ∈ v.leaves ↔ ∃ l, p.TraceAt b i l ∧
          lastDefinition base l = some x := by
  obtain ⟨p, r, hb, h, hP⟩ := Draft.check_eq_true (d := halfDefined) (s := {})
    (P := fun p r => p.Ordered ∧ p.RenameFree ∧ r.facts.diagnostics.map (·.stmt) = [some ⟨5⟩] ∧
      ((r.facts.exposed.table ⟨3⟩)["a"]?.map Version.leaves) = some [(⟨1⟩, ⟨1⟩), (⟨2⟩, ⟨3⟩)])
      (by decide +kernel)
  rw [decide_eq_true_eq] at hP
  obtain ⟨hord, hfree, hdiag, hleaves⟩ := hP
  exact ⟨p, r, hb, h, hdiag, hleaves,
    (analyze_versions_reaching hb (hord.acyclic (.of_build hb)) hfree h).2.1⟩

end ArrayFlow
