import ArrayFlow.Proofs.Pruning

/-!
# Versions along control flow

In a procedure without loops and renames, the number of an array only grows along an edge, unless
the block behind the edge creates the array anew or finds that not all its predecessors carry it.

* `Transfer.number_rebind`, `Transfer.number_foldl` : statements do not lower the number of a
  version, writes raise it;
* `Merge.number_version?` : a merge is numbered past its inputs, and a merge that is left out keeps
  their number;
* `Machine.Marked`        : an array that a merge loses has a false phi, by induction on the run;
* `Procedure.Carries`     : the edges that an array is carried along;
* `analyze_versions_monotone` : numbers grow along such edges, and along paths of them.

That a merge saw what its predecessors leave in the end, and not something older, is what the
equations of a procedure without loops say: see `Procedure.Solves`.
-/

namespace ArrayFlow

open Procedure

def Action.writes (base : String) : Action → Bool
  | write a => a.base == base
  | _ => false

/-! ## statements -/

namespace Transfer

variable {b : BlockId} {t : Bindings} {base : String} {v : Version}

theorem getElem?_rebind_of_ne {stmt : Statement}
    (hr : ∀ source target, stmt.action ≠ .rename source target)
    (hb : stmt.action.base? ≠ some base) : (rebind b t stmt)[base]? = t[base]? := by
  unfold rebind
  cases hact : stmt.action with
  | write a =>
    have hne : a.base ≠ base := fun heq => hb (by rw [hact, ← heq]; rfl)
    dsimp only
    split
    · simp [Std.ExtTreeMap.getElem?_insert, hne]
    · simp [Std.ExtTreeMap.getElem?_insert, hne]
  | read a =>
    have hne : a.base ≠ base := fun heq => hb (by rw [hact, ← heq]; rfl)
    dsimp only
    split
    · simp [Std.ExtTreeMap.getElem?_insert, hne]
    · rfl
  | create c =>
    have hne : c ≠ base := fun heq => hb (by rw [hact, ← heq]; rfl)
    simp [Std.ExtTreeMap.getElem?_insert, hne]
  | rename source target => exact absurd hact (hr source target)
  | other => rfl

/-- A statement that neither renames nor creates the array does not lower its number, and a write
raises it. -/
theorem number_rebind {stmt : Statement} (hr : ∀ source target, stmt.action ≠ .rename source target)
    (hc : stmt.action ≠ .create base) (hv : t[base]? = some v) :
    ∃ w, (rebind b t stmt)[base]? = some w ∧ v.number ≤ w.number ∧
      (stmt.action.writes base = true → v.number < w.number) := by
  by_cases hb : stmt.action.base? = some base
  · unfold rebind
    cases hact : stmt.action with
    | write a =>
      rw [hact] at hb
      obtain rfl : a.base = base := Option.some.inj hb
      simp only [hv]
      refine ⟨_, Std.ExtTreeMap.getElem?_insert_self, ?_, fun _ => ?_⟩
      · exact Nat.le_succ v.number
      · exact Nat.lt_succ_self v.number
    | read a =>
      rw [hact] at hb
      obtain rfl : a.base = base := Option.some.inj hb
      simp only [hv]
      exact ⟨_, Std.ExtTreeMap.getElem?_insert_self, (Version.number_markRead v).ge, nofun⟩
    | create c =>
      rw [hact] at hb
      cases hb
      exact absurd hact hc
    | rename source target => exact absurd hact (hr source target)
    | other =>
      rw [hact] at hb
      cases hb
  · refine ⟨v, (getElem?_rebind_of_ne hr hb).trans hv, Nat.le_refl _, fun hwrite => absurd ?_ hb⟩
    unfold Action.writes at hwrite
    split at hwrite
    · rename_i a hact
      rw [hact, ← eq_of_beq hwrite]
      rfl
    · cases hwrite

theorem number_foldl {stmts : List Statement}
    (hr : ∀ stmt ∈ stmts, ∀ source target, stmt.action ≠ .rename source target)
    (hc : ∀ stmt ∈ stmts, stmt.action ≠ .create base) (hv : t[base]? = some v) :
    ∃ w, (stmts.foldl (rebind b) t)[base]? = some w ∧ v.number ≤ w.number ∧
      ((∃ stmt ∈ stmts, stmt.action.writes base = true) → v.number < w.number) := by
  induction stmts generalizing t v with
  | nil => exact ⟨v, hv, Nat.le_refl _, by simp⟩
  | cons stmt rest ih =>
    obtain ⟨u, hu, hle, hlt⟩ := number_rebind (b := b) (hr stmt (by simp)) (hc stmt (by simp)) hv
    obtain ⟨w, hw, hle', hlt'⟩ :=
      ih (fun x hx => hr x (by simp [hx])) (fun x hx => hc x (by simp [hx])) hu
    refine ⟨w, hw, by omega, ?_⟩
    rintro ⟨x, hx, hwrite⟩
    rcases List.mem_cons.1 hx with rfl | hx
    · have := hlt hwrite
      omega
    · have := hlt' ⟨x, hx, hwrite⟩
      omega

end Transfer

/-! ## merges -/

namespace Merge

variable {s : Settings} {b : BlockId} {line : Nat} {tables : List Bindings} {base : String}

theorem number_shared (v : Version) (inputs : List Version) :
    (shared v inputs).number = v.number := by
  unfold shared
  split
  · exact Version.number_markRead v
  · rfl

/-- Where all tables bind the name, it is bound to a version with no smaller number, and with a
greater one unless the merge is left out. -/
theorem number_version? (s : Settings) (b : BlockId) (line : Nat) (h2 : 2 ≤ tables.length)
    (hall : ∀ u ∈ tables, u[base]? ≠ none) {u : Bindings} {v : Version} (hu : u ∈ tables)
    (hv : u[base]? = some v) :
    ∃ w, version? s b line tables base = some w ∧ v.number ≤ w.number ∧
      (s.pruneTrivial = false → v.number < w.number) := by
  have hlen : (tables.filterMap fun u => u[base]?).length = tables.length :=
    List.filterMap_length_eq_length.2 fun u hu => Option.isSome_iff_ne_none.2 (hall u hu)
  have hmem : v ∈ tables.filterMap fun u => u[base]? := List.mem_filterMap.2 ⟨u, hu, hv⟩
  unfold version?
  dsimp only
  rw [if_neg (by omega)]
  generalize (tables.filterMap fun u => u[base]?) = inputs at hlen hmem
  by_cases hprune : (s.pruneTrivial && Version.trivialMerge inputs) = true
  · -- all inputs are one version, so they have one number
    rw [if_pos hprune]
    rw [Bool.and_eq_true] at hprune
    cases inputs with
    | nil => cases hmem
    | cons w ws =>
      refine ⟨shared w (w :: ws), rfl, ?_, fun hs => ?_⟩
      · rw [number_shared]
        rcases List.mem_cons.1 hmem with rfl | hmem
        · exact Nat.le_refl _
        · have horigin := (Version.sameOrigin_iff v w).1 (List.all_eq_true.1 hprune.2 v hmem)
          rw [← Version.number_stem v, horigin, Version.number_stem]
      · rw [hs] at hprune
        cases hprune.1
  · rw [if_neg hprune]
    have hmax := (Version.maxNumber_spec (List.ne_nil_of_mem hmem)).1 v hmem
    refine ⟨.phi (Version.maxNumber inputs + 1) inputs b line, ?_, ?_, fun _ => ?_⟩
    · exact if_neg (by omega)
    · exact Nat.le_succ_of_le hmax
    · exact Nat.lt_succ_of_le hmax

theorem falsePhis_of_predecessors {f f' : Facts} {preds : List BlockId} {t : Bindings}
    (h : predecessors s f b line preds = .ok (t, f')) (h2 : 2 ≤ preds.length) :
    f'.falsePhis = f.falsePhis ++ (names (preds.map f.exposed.table)).flatMap
      (falsePhi? b preds (preds.map f.exposed.table)) := by
  rcases predecessors_cases h with ⟨rfl, -, -⟩ | ⟨a, rfl, -, -⟩ | ⟨-, -, h⟩
  · simp at h2
  · simp at h2
  · obtain ⟨hφ, -⟩ := names_facts s b line preds (preds.map f.exposed.table) ∅ f
      (names (preds.map f.exposed.table))
    rwa [h] at hφ

theorem exists_falsePhi (b : BlockId) (preds : List BlockId) (hsome : ∃ u ∈ tables, u[base]? ≠ none)
    (hnone : ∃ u ∈ tables, u[base]? = none) :
    ∃ φ ∈ (names tables).flatMap (falsePhi? b preds tables), φ.block = b ∧ φ.base = base := by
  obtain ⟨u, hu, hbound⟩ := hsome
  obtain ⟨w, hw, hunbound⟩ := hnone
  have hlen : (tables.filterMap fun u => u[base]?).length < tables.length := by
    refine Nat.lt_of_le_of_ne (inputs_length_le tables base) fun heq => ?_
    have := List.filterMap_length_eq_length.1 heq w hw
    rw [hunbound] at this
    cases this
  refine ⟨⟨b, base, contributors preds tables base⟩, List.mem_flatMap.2 ⟨base, ?_, ?_⟩, rfl, rfl⟩
  · exact mem_names.2 ⟨u, hu,
      Std.ExtTreeMap.mem_iff_isSome_getElem?.2 (Option.isSome_iff_ne_none.2 hbound)⟩
  · rw [falsePhi?, if_pos hlen]
    exact List.mem_singleton_self _

end Merge

/-! ## false phis of a run -/

namespace Machine

variable {p : Procedure} {s : Settings} {m m' : Machine} {b : BlockId} {t : Bindings} {f : Facts}
  {x : BlockId → Bindings}

/-- Without loops, a block with several predecessors is entered with the merge of all of them. -/
theorem Enters.acyclic_cases (ha : p.Acyclic) (hw : p.WellFormed) (hm : Reaches p s m)
    (he : Enters p s m b t f) :
    (p.predecessors b).length < 2 ∧ f = m.facts ∨
      2 ≤ (p.predecessors b).length ∧
        Merge.predecessors s m.facts b (p.headLine b) (p.predecessors b) = .ok (t, f) := by
  have hl := hm.loops_eq_nil ha
  cases he with
  | brought _ _ _ hp =>
    refine .inl ⟨hp.resolve_right fun hb => ?_, rfl⟩
    rw [ha.plain] at hb
    cases hb.1
  | header _ _ _ hb =>
    rw [ha.plain] at hb
    cases hb
  | merge _ _ _ _ hp _ hmerge => exact .inr ⟨hp, hmerge⟩
  | settled _ hv hr hmerge =>
    obtain ⟨t₀, rest, hv'⟩ :=
      (hm.covered_acyclic ha hw).visited (ha.nested hw) (hm.placed (ha.nested hw)) hl
      (.settled hl hv hr hmerge)
    rw [hv] at hv'
    cases hv'
  | looped hl' =>
    rw [hl] at hl'
    cases hl'

/-- Where some predecessors of a processed merge carry an array by `x` and others do not, a false
phi was noted. -/
def Marked (p : Procedure) (x : BlockId → Bindings) (m : Machine) : Prop :=
  ∀ b, m.facts.claimed b = true → 2 ≤ (p.predecessors b).length → ∀ base : String,
    (∃ a ∈ p.predecessors b, (x a)[base]? ≠ none) → (∃ a ∈ p.predecessors b, (x a)[base]? = none) →
    ∃ φ ∈ m.facts.falsePhis, φ.block = b ∧ φ.base = base

theorem Marked.step (ha : p.Acyclic) (hw : p.WellFormed) (hx : p.Solves s x) (hm : Reaches p s m)
    (h : Marked p x m) (hstep : Step p s m m') : Marked p x m' := by
  cases hstep.change with
  | @processed c t f f₁ he hp hcore =>
    obtain ⟨t', f', hs, rfl⟩ := Transfer.process_eq_ok.1 hp
    have hφ : m'.facts.falsePhis = f.falsePhis := by
      rw [Facts.falsePhis_of_core hcore]
      exact (Transfer.statements_eq_ok hs).2.2
    intro b hb h2 base hsome hnone
    rw [Facts.claimed_of_core hcore, Transfer.claimed_process hp, he.claimed_eq] at hb
    rw [hφ]
    rcases he.acyclic_cases ha hw hm with ⟨hlt, rfl⟩ | ⟨hle, hmerge⟩
    · refine h b (hb.resolve_left ?_) h2 base hsome hnone
      rintro rfl
      omega
    · rw [Merge.falsePhis_of_predecessors hmerge hle]
      rcases hb with rfl | hb
      · -- the tables that were merged are those of the solution
        have htables : (p.predecessors b).map m.facts.exposed.table = (p.predecessors b).map x :=
          List.map_congr_left fun a hpred =>
            hm.table_eq_solution ha hw hx a ((Merge.predecessors_eq_ok hmerge).1 a hpred)
        rw [htables]
        have htable : ∀ q : Option Version → Prop, (∃ a ∈ p.predecessors b, q (x a)[base]?) →
            ∃ u ∈ (p.predecessors b).map x, q u[base]? := by simp
        obtain ⟨φ, hφ, hplace⟩ :=
          Merge.exists_falsePhi b (p.predecessors b) (htable (· ≠ none) hsome)
          (htable (· = none) hnone)
        exact ⟨φ, List.mem_append_right _ hφ, hplace⟩
      · obtain ⟨φ, hφ, hplace⟩ := h b hb h2 base hsome hnone
        exact ⟨φ, List.mem_append_left _ hφ, hplace⟩
  | ended hl _ _ _ =>
    rw [hm.loops_eq_nil ha] at hl
    cases hl
  | none _ hcore =>
    intro b hb
    rw [Facts.claimed_of_core hcore] at hb
    rw [Facts.falsePhis_of_core hcore]
    exact h b hb

theorem Reaches.marked (ha : p.Acyclic) (hw : p.WellFormed) (hx : p.Solves s x)
    (hm : Reaches p s m) :
    Marked p x m := by
  refine hm.invariant ?_ fun _ _ hm ih hstep => ih.step ha hw hx hm hstep
  intro b hb
  simp [start] at hb

end Machine

/-! ## numbers along edges -/

variable {p : Procedure} {s : Settings} {r : Report} {b c : BlockId} {base : String}

/-- The edge leads to a block that does not create the array, and at which no false phi was noted
for it. -/
def Procedure.Carries (p : Procedure) (falsePhis : List FalsePhi) (base : String)
    (b c : BlockId) : Prop :=
  c ∈ p.successors b ∧ (∀ stmt ∈ p.statementsOf c, stmt.action ≠ .create base) ∧
    ∀ φ ∈ falsePhis, φ.block = c → φ.base ≠ base

instance (p : Procedure) (falsePhis : List FalsePhi) (base : String) (b c : BlockId) :
    Decidable (p.Carries falsePhis base b c) := by
  unfold Procedure.Carries
  infer_instance

/-- Where an array is carried along an edge, the block behind it is entered with a version of no
smaller number. -/
theorem Report.number_entered (hw : p.WellFormed) (ha : p.Acyclic) (h : analyze p s = .ok r)
    (hb : p.Reachable b) (hc : p.Carries r.facts.falsePhis base b c) {v : Version}
    (hv : (r.facts.exposed.table b)[base]? = some v) :
    ∃ w, (p.entered s r.facts.exposed.table c)[base]? = some w ∧ v.number ≤ w.number ∧
      (s.pruneTrivial = false ∧ 2 ≤ (p.predecessors c).length → v.number < w.number) := by
  have hpred : b ∈ p.predecessors c := (hw.mem_predecessors b c).2 hc.1
  unfold Procedure.entered
  by_cases h2 : 2 ≤ (p.predecessors c).length
  · have hlen : 2 ≤ ((p.predecessors c).map r.facts.exposed.table).length := by rwa
      [List.length_map]
    -- no false phi was noted, so all predecessors carry the array
    have hall : ∀ u ∈ (p.predecessors c).map r.facts.exposed.table, u[base]? ≠ none := by
      intro u hu hnone
      obtain ⟨a, ha', rfl⟩ := List.mem_map.1 hu
      have hclaimed := (Report.claimed_iff_reachable hw ha h c).2 (hb.step hc.1)
      have hsol := Report.solves hw ha h
      obtain ⟨-, m, -, hm, rfl⟩ := analyze_eq_ok h
      rw [Machine.conclude_eq] at hclaimed hsol hc hv hnone
      obtain ⟨φ, hφ, hblock, hbase⟩ := hm.marked ha hw hsol c hclaimed h2 base
        ⟨b, hpred, by rw [hv]; exact Option.some_ne_none _⟩ ⟨a, ha', hnone⟩
      exact hc.2.2 φ hφ hblock hbase
    rw [Merge.getElem?_joined hlen]
    obtain ⟨w, hw, hle, hlt⟩ :=
      Merge.number_version? s c (p.headLine c) hlen hall (List.mem_map_of_mem hpred) hv
    exact ⟨w, hw, hle, fun hs => hlt hs.1⟩
  · -- a sole predecessor is copied
    have hsole : p.predecessors c = [b] := by
      match hps : p.predecessors c with
      | [] => simp [hps] at hpred
      | [a] => simpa [hps, eq_comm] using hpred
      | _ :: _ :: _ =>
        rw [hps, List.length_cons, List.length_cons] at h2
        omega
    rw [hsole]
    exact ⟨v, hv, Nat.le_refl _, fun hs => by simp at hs⟩

/-- Without loops and renames, an array that is carried along an edge is bound behind it, to a
version of no smaller number; the number is greater if the block behind the edge writes the array,
or merges several predecessors while no merge is left out. So numbers never decrease along paths of
such edges. -/
theorem analyze_versions_monotone {d : Draft} (hb : d.build = .ok p) (ha : p.Acyclic)
    (hfree : p.RenameFree) (h : analyze p s = .ok r) :
    (∀ b c base t v, p.Reachable b → p.Carries r.facts.falsePhis base b c →
      r.facts.exposed[b]? = some t →
      t[base]? = some v → ∃ u w, r.facts.exposed[c]? = some u ∧ u[base]? = some w ∧
        v.number ≤ w.number ∧
        ((∃ stmt ∈ p.statementsOf c, stmt.action.writes base = true) ∨
          s.pruneTrivial = false ∧ 2 ≤ (p.predecessors c).length → v.number < w.number)) ∧
    ∀ b c base t v, p.Reachable b → Relation.ReflTransGen (p.Carries r.facts.falsePhis base) b c →
      r.facts.exposed[b]? = some t → t[base]? = some v →
      ∃ u w, r.facts.exposed[c]? = some u ∧ u[base]? = some w ∧ v.number ≤ w.number := by
  have hw := WellFormed.of_build hb
  have hedge : ∀ b c base t v, p.Reachable b → p.Carries r.facts.falsePhis base b c →
      r.facts.exposed[b]? = some t →
      t[base]? = some v → ∃ u w, r.facts.exposed[c]? = some u ∧ u[base]? = some w ∧
      v.number ≤ w.number ∧
        ((∃ stmt ∈ p.statementsOf c, stmt.action.writes base = true) ∨
          s.pruneTrivial = false ∧ 2 ≤ (p.predecessors c).length → v.number < w.number) := by
    intro b c base t v hreach hcarry ht hv
    have hc := hreach.step hcarry.1
    rw [← Exposed.table_eq ht] at hv
    obtain ⟨w₀, hw₀, hle, hlt⟩ := Report.number_entered hw ha h hreach hcarry hv
    obtain ⟨w, hw', hle', hlt'⟩ :=
      Transfer.number_foldl (b := c) (fun stmt hs => hfree.statementsOf hs) hcarry.2.1 hw₀
    refine ⟨_, w, Exposed.isReady_iff.1 ((Report.claimed_iff_reachable hw ha h c).2 hc),
      ?_, by omega, ?_⟩
    · rw [Report.solves hw ha h c hc]
      exact hw'
    · rintro (hwrite | hmerge)
      · have := hlt' hwrite
        omega
      · have := hlt hmerge
        omega
  refine ⟨hedge, fun b c base t v hreach hpath ht hv => ?_⟩
  -- along a path, by induction on its last edge
  induction hpath with
  | refl => exact ⟨t, v, ht, hv, Nat.le_refl _⟩
  | @tail a c hinit hcarry ih =>
    obtain ⟨u, w, hu, hw', hle⟩ := ih
    have ha' : p.Reachable a :=
      hreach.trans (Relation.ReflTransGen.mono (fun _ _ hc => hc.1) _ _ hinit)
    obtain ⟨u', w', hu', hw'', hle', -⟩ := hedge a c base u w ha' hcarry hu hw'
    exact ⟨u', w', hu', hw'', by omega⟩

/-- One branch writes `a`, the other creates `c`; behind their merge one way creates `a` anew. -/
def createdAnew : Draft where
  name := "created anew"
  blocks := [
    (⟨0⟩, [⟨⟨0⟩, 1, "a = new", .create "a"⟩]),
    (⟨1⟩, [⟨⟨1⟩, 2, "a[i] = x", .write ⟨"a", .expr "i"⟩⟩]),
    (⟨2⟩, [⟨⟨2⟩, 3, "c = new", .create "c"⟩, ⟨⟨3⟩, 4, "y = a[i]", .read ⟨"a", .expr "i"⟩⟩]),
    (⟨3⟩, [⟨⟨4⟩, 5, "a[j] = x", .write ⟨"a", .expr "j"⟩⟩]),
    (⟨4⟩, [⟨⟨5⟩, 6, "a = new", .create "a"⟩]),
    (⟨5⟩, [⟨⟨6⟩, 7, "y = a[j]", .read ⟨"a", .expr "j"⟩⟩]),
    (⟨6⟩, [⟨⟨7⟩, 8, "y = a[k]", .read ⟨"a", .expr "k"⟩⟩])]
  edges := [(⟨0⟩, ⟨1⟩), (⟨0⟩, ⟨2⟩), (⟨1⟩, ⟨3⟩), (⟨2⟩, ⟨3⟩), (⟨3⟩, ⟨4⟩), (⟨3⟩, ⟨5⟩),
    (⟨4⟩, ⟨6⟩), (⟨5⟩, ⟨6⟩)]

theorem analyze_versions_monotone_createdAnew :
    ∃ p r, createdAnew.build = .ok p ∧ analyze p {} = .ok r ∧
      r.facts.falsePhis.map (fun φ => (φ.block, φ.base)) = [(⟨3⟩, "c")] ∧
      ¬ p.Carries r.facts.falsePhis "a" ⟨3⟩ ⟨4⟩ ∧ ¬ p.Carries r.facts.falsePhis "c" ⟨2⟩ ⟨3⟩ ∧
      (∃ t v u w, r.facts.exposed[(⟨1⟩ : BlockId)]? = some t ∧ t["a"]? = some v ∧
        r.facts.exposed[(⟨3⟩ : BlockId)]? = some u ∧ u["a"]? = some w ∧ v.number < w.number) ∧
      ∃ t v u w, r.facts.exposed[(⟨0⟩ : BlockId)]? = some t ∧ t["a"]? = some v ∧
        r.facts.exposed[(⟨6⟩ : BlockId)]? = some u ∧ u["a"]? = some w ∧ v.number ≤ w.number := by
  obtain ⟨p, r, hb, h, hP⟩ := Draft.check_eq_true (d := createdAnew) (s := {})
    (P := fun p r => p.Ordered ∧ p.RenameFree ∧ p.entry = ⟨0⟩ ∧
      r.facts.falsePhis.map (fun φ => (φ.block, φ.base)) = [(⟨3⟩, "c")] ∧
      ¬ p.Carries r.facts.falsePhis "a" ⟨3⟩ ⟨4⟩ ∧ ¬ p.Carries r.facts.falsePhis "c" ⟨2⟩ ⟨3⟩ ∧
      p.Carries r.facts.falsePhis "a" ⟨0⟩ ⟨1⟩ ∧ p.Carries r.facts.falsePhis "a" ⟨1⟩ ⟨3⟩ ∧
      p.Carries r.facts.falsePhis "a" ⟨3⟩ ⟨5⟩ ∧ p.Carries r.facts.falsePhis "a" ⟨5⟩ ⟨6⟩ ∧
      (p.predecessors ⟨3⟩).length = 2 ∧
      (r.facts.exposed[(⟨0⟩ : BlockId)]?.bind (·["a"]?)).isSome = true ∧
      (r.facts.exposed[(⟨1⟩ : BlockId)]?.bind (·["a"]?)).isSome = true) (by decide +kernel)
  obtain ⟨hord, hfree, hentry, hφ, hnew, hlost, h01, h13, h35, h56, hpreds, hv₀, hv₁⟩ :=
    of_decide_eq_true hP
  obtain ⟨v₀, hv₀⟩ := Option.isSome_iff_exists.1 hv₀
  obtain ⟨v₁, hv₁⟩ := Option.isSome_iff_exists.1 hv₁
  obtain ⟨t₀, ht₀, hv₀⟩ := Option.bind_eq_some_iff.1 hv₀
  obtain ⟨t₁, ht₁, hv₁⟩ := Option.bind_eq_some_iff.1 hv₁
  have hreach : p.Reachable ⟨0⟩ := hentry ▸ .refl
  obtain ⟨hedge, hpath⟩ := analyze_versions_monotone hb (hord.acyclic (.of_build hb)) hfree h
  obtain ⟨u, w, hu, hw, -, hlt⟩ := hedge ⟨1⟩ ⟨3⟩ "a" t₁ v₁ (hreach.step h01.1) h13 ht₁ hv₁
  obtain ⟨u', w', hu', hw', hle⟩ := hpath ⟨0⟩ ⟨6⟩ "a" t₀ v₀ hreach
    ((((Relation.ReflTransGen.single h01).tail h13).tail h35).tail h56) ht₀ hv₀
  exact ⟨p, r, hb, h, hφ, hnew, hlost,
    ⟨t₁, v₁, u, w, ht₁, hv₁, hu, hw, hlt (.inr ⟨rfl, hpreds.ge⟩)⟩, t₀, v₀, u', w', ht₀, hv₀,
    hu', hw', hle⟩

end ArrayFlow
