import ArrayFlow.Proofs.Reaching

/-!
# Nothing to complain of

Where loops are nested and all arrays are defined at the entry, an analysis finds nothing to
complain of.

* `Binds`               : bindings of exactly some names;
* `Procedure.Closed`    : the entry defines the arrays, and no block is about another one;
* `Clean.process_isOk`  : the statements of a block succeed, since what they read is bound and has a
  definition;
* `Machine.Clean`       : nothing to complain of so far, and all that is exposed binds the arrays;
* `Reaches.clean`       : this is so in every state that is reached.
-/

namespace ArrayFlow

variable {p : Procedure} {s : Settings} {b : BlockId} {t : Bindings} {arrays : List String}

/-! ## statements -/

def Action.Within (arrays : List String) : Action → Prop
  | write a => a.base ∈ arrays
  | read a => a.base ∈ arrays
  | create b => b ∈ arrays
  | rename _ _ => False
  | other => True

theorem Action.Within.ne_rename {action : Action} (h : action.Within arrays)
    (source target : String) :
    action ≠ .rename source target := by
  rintro rfl
  exact h

theorem Action.Within.mem_of_defines {action : Action} (h : action.Within arrays) {base : String}
    (hd : action.defines base = true) : base ∈ arrays := by
  cases action with
  | write a => exact (beq_iff_eq.1 hd : a.base = base) ▸ h
  | create c => exact (beq_iff_eq.1 hd : c = base) ▸ h
  | read | rename | other => cases hd

namespace Transfer

theorem isSome_rebind {stmt : Statement} (hr : ∀ source target, stmt.action ≠ .rename source target)
    (base : String) :
    (rebind b t stmt)[base]?.isSome = true ↔ stmt.action.defines base = true ∨
      t[base]?.isSome = true := by
  have h := congrArg Option.isSome (leaves_rebind (b := b) (t := t) hr base)
  rw [Option.isSome_map] at h
  rw [h]
  split
  · simp [*]
  · simp [*]

theorem isSome_foldl_rebind {stmts : List Statement}
    (hr : ∀ stmt ∈ stmts, ∀ source target, stmt.action ≠ .rename source target) (base : String) :
    (stmts.foldl (rebind b) t)[base]?.isSome = true ↔
      (∃ stmt ∈ stmts, stmt.action.defines base = true) ∨ t[base]?.isSome = true := by
  induction stmts generalizing t with
  | nil => simp
  | cons stmt rest ih =>
    rw [List.foldl_cons, ih fun stmt' hm => hr stmt' (by simp [hm]),
      isSome_rebind (hr stmt (by simp))]
    simp only [List.mem_cons, exists_eq_or_imp]
    rw [or_left_comm, or_assoc]

end Transfer

namespace Linked

variable {done : StmtId → Prop} {joined : BlockId → String → Prop} {f : Facts} {stmt : Statement}

theorem statement_isOk (h : Linked s done joined f) (hb : Backed f.graph t) (hnew : ¬ done stmt.id)
    (hfree : ∀ source target, stmt.action ≠ .rename source target)
    (hread : ∀ a, stmt.action = .read a → t[a.base]?.isSome = true) :
    ∃ t' f', Transfer.statement s b t f stmt = .ok (t', f') ∧ f'.diagnostics = f.diagnostics := by
  cases Transfer.statement_acts s b stmt with
  | @write a hact heq =>
    rw [heq]
    unfold Transfer.write Bindings.increment
    rw [Std.ExtTreeMap.contains_eq_isSome_getElem?]
    cases hv : t[a.base]? <;> exact ⟨_, _, rfl, rfl⟩
  | @read a hact heq =>
    obtain ⟨v, hv⟩ := Option.isSome_iff_exists.1 (hread a hact)
    obtain ⟨⟨e, hok⟩, -⟩ := h.addUse b hnew hb hv
    have hres : f.graph.addUse (.ofStatement .uses stmt a.base v.markRead a.index b) =
        (.ok e, (f.graph.addUse (.ofStatement .uses stmt a.base v.markRead a.index b)).2) :=
        Prod.ext hok rfl
    simp only [heq, Transfer.read, Bindings.markRead, hv]
    rw [hres]
    exact ⟨_, _, rfl, rfl⟩
  | create hact heq | other hact heq => exact ⟨_, _, heq t f, rfl⟩
  | rename hact => exact absurd hact (hfree _ _)

/-- Statements that read nothing but arrays bound before them succeed, since nothing is ever
unbound. -/
theorem statements_isOk {stmts : List Statement} (h : Linked s done joined f)
    (hb : Backed f.graph t) (hnodup : (stmts.map (·.id)).Nodup)
    (hnew : ∀ stmt ∈ stmts, ¬ done stmt.id)
    (hfree : ∀ stmt ∈ stmts, ∀ source target, stmt.action ≠ .rename source target)
    (hread : ∀ stmt ∈ stmts, ∀ a, stmt.action = .read a → t[a.base]?.isSome = true) :
    ∃ t' f', Transfer.statements s b stmts t f = .ok (t', f') ∧ f'.diagnostics = f.diagnostics := by
  induction stmts generalizing t f done with
  | nil => exact ⟨t, f, rfl, rfl⟩
  | cons stmt rest ih =>
    simp only [List.map_cons, List.nodup_cons] at hnodup
    have hapart : ∀ stmt' ∈ rest, stmt'.id ≠ stmt.id := fun stmt' hm heq =>
      hnodup.1 (heq ▸ List.mem_map_of_mem hm)
    have hnew₁ := hnew stmt (by simp)
    have hfree₁ := hfree stmt (by simp)
    obtain ⟨t₁, f₁, h₁, hd₁⟩ := h.statement_isOk (b := b) hb hnew₁ hfree₁ (hread stmt (by simp))
    obtain ⟨hl, hb₁, -⟩ := h.statement hb hnew₁ (fun σ hσ => hσ) hfree₁ h₁
    obtain ⟨rfl, -⟩ := Transfer.statement_eq_ok h₁
    obtain ⟨t', f', hs, hd⟩ := ih hl hb₁ hnodup.2
      (fun stmt' hm hd => hd.elim (hnew stmt' (by simp [hm])) (hapart stmt' hm))
      (fun stmt' hm => hfree stmt' (by simp [hm]))
      fun stmt' hm a ha =>
        (Transfer.isSome_rebind hfree₁ _).2 (.inr (hread stmt' (by simp [hm]) a ha))
    refine ⟨t', f', ?_, hd.trans hd₁⟩
    rw [Transfer.statements_cons, h₁]
    exact hs

end Linked

/-! ## merges -/

/-- Exactly the names of `arrays` are bound. -/
def Binds (arrays : List String) (t : Bindings) : Prop :=
  ∀ base, t[base]?.isSome = true ↔ base ∈ arrays

/-- Where tables of the same names merge, these names are bound. -/
theorem Binds.joined {tables : List Bindings} {line : Nat} (hne : tables ≠ [])
    (h : ∀ u ∈ tables, Binds arrays u) :
    Binds arrays (Merge.joined s b line tables) := by
  match tables with
  | [] => exact absurd rfl hne
  | [u] => exact h u (by simp)
  | u :: w :: rest =>
    generalize htables : u :: w :: rest = tables at h
    have h2 : 2 ≤ tables.length := by simp [← htables]
    intro base
    rw [Merge.getElem?_joined h2]
    rcases Merge.version?_leaves s b line h2 base with ⟨hv, x, hx, hnone⟩ | ⟨v, hv, hsome, -⟩
    · rw [hv, ← h x hx base, hnone]
    · have hu : u ∈ tables := by simp [← htables]
      rw [hv, ← h u hu base]
      exact ⟨fun _ => Option.isSome_iff_ne_none.2 (hsome u hu), fun _ => rfl⟩

namespace Merge

variable {preds : List BlockId} {tables : List Bindings} {line : Nat} {f f' : Facts}

theorem falsePhis_foldl_name {bases : List String}
    (h : ∀ base ∈ bases, ∀ u ∈ tables, u[base]?.isSome = true) :
    (bases.foldl (fun (t, f) base => name s b line preds tables t f base) (t, f)).2.falsePhis =
      f.falsePhis := by
  have hnone : bases.flatMap (falsePhi? b preds tables) = [] := by
    refine List.flatMap_eq_nil_iff.2 fun base hbase => if_neg ?_
    rw [List.filterMap_length_eq_length.2 (h base hbase)]
    exact Nat.lt_irrefl _
  rw [names_absorb, Facts.absorb, hnone]
  exact List.append_nil _

theorem falsePhis_predecessors (hb : ∀ a ∈ preds, Binds arrays (f.exposed.table a))
    (h : predecessors s f b line preds = .ok (t, f')) : f'.falsePhis = f.falsePhis := by
  rcases predecessors_cases h with ⟨-, -, rfl⟩ | ⟨-, -, -, rfl⟩ | ⟨-, -, h⟩
  · rfl
  · rfl
  · obtain rfl := congrArg Prod.snd h
    -- a name of one table is a name of all
    refine falsePhis_foldl_name fun base hbase u hu => ?_
    obtain ⟨w, hw, hmem⟩ := mem_names.1 hbase
    obtain ⟨a, ha, rfl⟩ := List.mem_map.1 hu
    obtain ⟨c, hc, rfl⟩ := List.mem_map.1 hw
    exact (hb a ha base).2 ((hb c hc base).1 (Std.ExtTreeMap.mem_iff_isSome_getElem?.1 hmem))

end Merge

/-! ## procedures over known arrays -/

namespace Procedure

/-- No block is about another array, and the entry defines all arrays without reading any. -/
structure Closed (p : Procedure) (arrays : List String) : Prop where
  within : ∀ b, ∀ stmt ∈ p.statementsOf b, stmt.action.Within arrays
  defined : ∀ base ∈ arrays, ∃ stmt ∈ p.statementsOf p.entry, stmt.action.defines base = true
  unread : ∀ stmt ∈ p.statementsOf p.entry, ∀ a, stmt.action ≠ .read a

/-- A block is entered with the arrays bound, the entry with nothing. -/
def Admits (p : Procedure) (arrays : List String) (b : BlockId) (t : Bindings) : Prop :=
  b = p.entry ∧ t = ∅ ∨ Binds arrays t

namespace Closed

theorem renameFree (h : p.Closed arrays) (hw : p.WellFormed) : p.RenameFree := by
  intro k hk stmt hs
  have hmem : stmt ∈ p.statementsOf k.id := by
    rw [statementsOf, block?_eq_some hw.ids_nodup hk]
    exact hs
  have hwithin := h.within k.id stmt hmem
  cases hact : stmt.action with
  | rename => rw [hact] at hwithin; exact hwithin.elim
  | write | read | create | other => rfl

theorem left (h : p.Closed arrays) (ht : p.Admits arrays b t) :
    Binds arrays ((p.statementsOf b).foldl (Transfer.rebind b) t) := by
  intro base
  rw [Transfer.isSome_foldl_rebind fun stmt hs => (h.within b stmt hs).ne_rename]
  constructor
  · rintro (⟨stmt, hs, hd⟩ | hsome)
    · exact (h.within b stmt hs).mem_of_defines hd
    · rcases ht with ⟨-, rfl⟩ | ht
      · simp at hsome
      · exact (ht base).1 hsome
  · intro hbase
    rcases ht with ⟨rfl, -⟩ | ht
    · exact .inl (h.defined base hbase)
    · exact .inr ((ht base).2 hbase)

theorem bound (h : p.Closed arrays) (ht : p.Admits arrays b t) :
    ∀ stmt ∈ p.statementsOf b, ∀ a, stmt.action = .read a → t[a.base]?.isSome = true := by
  intro stmt hs a ha
  rcases ht with ⟨rfl, -⟩ | ht
  · exact absurd ha (h.unread stmt hs a)
  · have hwithin := h.within b stmt hs
    rw [ha] at hwithin
    exact (ht a.base).2 hwithin

end Closed

variable {owner : BlockId → Option BlockId} {rank : BlockId → Nat}

/-- The sole predecessor of a block of a loop is not a block that the loop is left to. -/
theorem Nested.sole_predecessor (hw : p.WellFormed) (hn : Nested p owner rank) {a h : BlockId}
    (hb : p.Reachable b) (ho : owner b = some h) (hp : p.predecessors b = [a]) :
    p.isLoopExit h a = false := by
  have hne : b ≠ p.entry := by
    rintro rfl
    rw [hn.entry_owner] at ho
    cases ho
  obtain ⟨c, hc, hlt⟩ := hn.forward b hb hne
  obtain rfl : c = a := List.mem_singleton.1 (hp ▸ (hw.mem_predecessors c b).2 hc)
  have hreach := hn.source c b hb hc
  have hh := (hn.owner_spec b h hb ho).1
  cases hn.edge c b hreach hc with
  | level _ howner => exact hn.not_isLoopExit hh (howner.symm.trans ho)
  | enter _ howner =>
    obtain rfl : h = c := Option.some.inj (ho.symm.trans howner)
    by_contra hx
    have hself := hn.exit_edge h h hh (by simpa using hx)
    cases hn.edge h h hh hself with
    | level hrank => exact Nat.lt_irrefl _ hrank
    | enter hrank => exact Nat.lt_irrefl _ hrank
    | back howner => exact Nat.lt_irrefl _ (hn.owner_spec h h hh howner).2.2
  | back howner => exact absurd hlt (Nat.not_lt_of_gt (hn.owner_spec c b hreach howner).2.2)

end Procedure

open Procedure

namespace Machine

variable {owner : BlockId → Option BlockId} {rank : BlockId → Nat} {m m' : Machine} {f f₁ : Facts}

/-- A block is entered with what the walk brings, or with what some predecessors leave, at least
one. -/
theorem Placed.source (hw : p.WellFormed) (hn : Nested p owner rank) (h : Placed p owner m)
    (he : Enters p s m b t f) :
    ((b, t) ∈ m.visits ∧ f = m.facts) ∨
      ∃ preds, preds ≠ [] ∧ Merge.predecessors s m.facts b (p.headLine b) preds = .ok (t, f) := by
  cases he with
  | brought _ hv => exact .inl ⟨by simp [hv], rfl⟩
  | header _ _ _ _ hr hm => exact .inr ⟨_, List.ne_nil_of_length_pos (by omega), hm⟩
  | merge _ _ _ _ hp _ hm => exact .inr ⟨_, List.ne_nil_of_length_pos (by omega), hm⟩
  | settled _ _ hr hm => exact .inr ⟨_, (resolvable?_eq_some hr).2.2, hm⟩
  | @looped r outer queue _ _ hl hq _ _ hm =>
    obtain ⟨hreach, howner, a, ha, -⟩ := (h.loops r (by rw [hl]; simp)).queue b (by simp [hq])
    rcases LoopRun.entry_eq_some hm with ⟨-, -, hnil | ⟨c, hsole, hx⟩⟩ | ⟨preds, hne, -, hm⟩
    · have := (hw.mem_predecessors a b).2 ha
      simp [hnil] at this
    · rw [hn.sole_predecessor hw hreach howner hsole] at hx
      cases hx
    · exact .inr ⟨preds, hne, hm⟩

/-! ## clean states -/

/-- There is nothing to complain of, and the arrays are bound behind every block. -/
structure Clean (p : Procedure) (arrays : List String) (m : Machine) : Prop where
  diagnostics : m.facts.diagnostics = []
  falsePhis : m.facts.falsePhis = []
  exposed : ∀ (b : BlockId) (t : Bindings), m.facts.exposed[b]? = some t → Binds arrays t
  visits : ∀ x ∈ m.visits, p.Admits arrays x.1 x.2

namespace Clean

theorem enters (hw : p.WellFormed) (hn : Nested p owner rank) (hp : Placed p owner m)
    (h : Clean p arrays m) (he : Enters p s m b t f) : p.Admits arrays b t ∧ f.falsePhis = [] := by
  rcases hp.source hw hn he with ⟨hmem, rfl⟩ | ⟨preds, hne, hm⟩
  · exact ⟨h.visits _ hmem, h.falsePhis⟩
  · obtain ⟨hready, rfl, -⟩ := Merge.predecessors_eq_ok hm
    have hbinds : ∀ a ∈ preds, Binds arrays (m.facts.exposed.table a) := fun a ha =>
      h.exposed a _ (Exposed.isReady_iff.1 (hready a ha))
    refine ⟨.inr (.joined (by simpa using hne) fun u hu => ?_), ?_⟩
    · obtain ⟨a, ha, rfl⟩ := List.mem_map.1 hu
      exact hbinds a ha
    · rw [Merge.falsePhis_predecessors hbinds hm, h.falsePhis]

theorem process_isOk (hw : p.WellFormed) (hn : Nested p owner rank) (hc : p.Closed arrays)
    (hm : Reaches p s m) (h : Clean p arrays m) (he : Enters p s m b t f) :
    ∃ f₁, Transfer.process s b p t f = .ok f₁ ∧ f₁.diagnostics = [] ∧ f₁.falsePhis = [] := by
  obtain ⟨hadmits, hphis⟩ := h.enters hw hn (hm.placed hn) he
  have hfree := hc.renameFree hw
  obtain ⟨hacc, hvisits⟩ := hm.accounted hw hfree
  obtain ⟨hlinked, hbacked, -⟩ := he.linked hacc hvisits
  obtain ⟨t', f', hs, hd⟩ := hlinked.statements_isOk (b := b) hbacked (hw.statements_nodup b)
    (he.not_done hw)
    (fun stmt hs => hfree.statementsOf hs) (hc.bound hadmits)
  refine ⟨f'.expose b t', Transfer.process_eq_ok.2 ⟨t', f', hs, rfl⟩, ?_, ?_⟩
  · exact (hd.trans he.diagnostics_eq).trans h.diagnostics
  · exact (Transfer.statements_eq_ok hs).2.2.trans hphis

theorem step (hw : p.WellFormed) (hn : Nested p owner rank) (hc : p.Closed arrays)
    (hm : Reaches p s m) (hlim : ∀ r ∈ m.loops, r.queue ≠ [] → r.taken < s.maxIterations)
    (h : Clean p arrays m) (hstep : Step p s m m') :
    Clean p arrays m' := by
  have key : m'.facts.diagnostics = [] ∧ m'.facts.falsePhis = [] ∧
      ∀ (b : BlockId) (t : Bindings), m'.facts.exposed[b]? = some t → Binds arrays t := by
    cases hstep.change with
    | @processed b t f f₁ he hproc hcore =>
      obtain ⟨f₂, hproc', hd, hphis⟩ := h.process_isOk hw hn hc hm he
      obtain rfl : f₁ = f₂ := Except.ok.inj (hproc.symm.trans hproc')
      rw [Facts.diagnostics_of_core hcore, Facts.falsePhis_of_core hcore,
        Facts.exposed_of_core hcore]
      refine ⟨hd, hphis, fun c u hu => ?_⟩
      rw [Transfer.exposed_process hproc, he.exposed_eq] at hu
      split at hu
      · cases hu
        exact hc.left (h.enters hw hn (hm.placed hn) he).1
      · exact h.exposed c u hu
    | @ended r outer f f₁ hl he hclose hcore =>
      rw [Facts.diagnostics_of_core hcore, Facts.falsePhis_of_core hcore,
        Facts.exposed_of_core hcore]
      -- the loop has nothing left to do, so nothing is noted
      obtain ⟨-, rfl⟩ := Covered.drained (hm.orderly hn) hlim (by rw [hl]; simp) he
      rcases LoopRun.close_eq_ok hclose with ⟨-, rfl⟩ | ⟨l, t, -, ht, rfl⟩
      · exact ⟨h.diagnostics, h.falsePhis, h.exposed⟩
      · refine ⟨h.diagnostics, h.falsePhis, fun c u hu => ?_⟩
        rw [Facts.getElem?_expose] at hu
        split at hu
        · cases hu
          exact h.exposed l t ht
        · exact h.exposed c u hu
    | none _ hcore =>
      rw [Facts.diagnostics_of_core hcore, Facts.falsePhis_of_core hcore,
        Facts.exposed_of_core hcore]
      exact ⟨h.diagnostics, h.falsePhis, h.exposed⟩
  refine ⟨key.1, key.2.1, key.2.2, fun x hx => ?_⟩
  rcases hstep.visits_cases hx with hx | ⟨a, -, hx⟩
  · exact h.visits x hx
  · exact .inr (key.2.2 a _ hx)

end Clean

theorem Reaches.clean (hw : p.WellFormed) (hn : Nested p owner rank) (hc : p.Closed arrays)
    (hlim : ∀ m, Reaches p s m → ∀ r ∈ m.loops, r.queue ≠ [] → r.taken < s.maxIterations)
    (hm : Reaches p s m) :
    Clean p arrays m := by
  refine hm.invariant ⟨rfl, rfl, ?_, ?_⟩ fun m _ hm ih hstep =>
    ih.step hw hn hc hm (hlim m hm) hstep
  · simp [start, Facts.start]
  · intro x hx
    obtain rfl := List.mem_singleton.1 hx
    exact .inl ⟨rfl, rfl⟩

end Machine

end ArrayFlow
