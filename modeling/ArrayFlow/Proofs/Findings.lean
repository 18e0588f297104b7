import ArrayFlow.Proofs.Runs
import ArrayFlow.Proofs.Origin

/-!
# What is reported

Findings are only ever added. Statements report dangling uses, loops report why they were given up,
and merges that were left over are reported at the end.

* `Transfer.finding?`       : what a statement reports;
* `Step.diagnostics`        : what a step reports;
* `Reaches.dangling_iff`    : the dangling uses reported are the findings of the statements of the
  processed blocks.
-/

namespace ArrayFlow

open DefUse

/-! ## uses without a definition -/

namespace DefUse.Graph

variable {g : Graph} {n : Node} {k : Key} {v : Version} {i : Nat}

theorem mem_slot : i ∈ g.slot k ↔ i ∈ g.order ∧ ∃ n, g.nodes[i]? = some n ∧ n.key = k := by
  simp [slot, hasKey, Option.any_eq_true]

theorem slot_push_of_ne (h : n.key ≠ k) : (g.push n).slot k = g.slot k := by
  have hkey : (g.push n).hasKey k = g.hasKey k := by
    funext i
    unfold hasKey push
    rw [Array.getElem?_push]
    split
    · rename_i hi
      simp [hi, h]
    · rfl
  have hnew : g.hasKey k g.nodes.size = false := by simp [hasKey]
  rw [slot, hkey]
  simp [push, slot, hnew]

theorem resolve_eq_none : g.resolve k v = none ↔ g.slot k = [] := by
  unfold resolve
  split
  · rename_i i hi
    have hmem := List.mem_reverse.1 (List.mem_of_find?_eq_some hi)
    refine ⟨nofun, fun h => ?_⟩
    rw [h] at hmem
    cases hmem
  · exact List.getLast?_eq_none_iff

/-- A use dangles when nothing defines its array at a version of its signature. -/
theorem addUse_eq_error (hn : n.role = .uses) {fault : Fault} :
    (g.addUse n).1 = .error fault ↔ g.slot ⟨n.base, n.version.signature, .defines⟩ = [] ∧
      fault = .danglingUse n.base n.version.signature.text n.stmt n.block := by
  have hopp : n.key.opposite = ⟨n.base, n.version.signature, .defines⟩ := by
    simp [Node.key, Key.opposite, hn, Role.opposite]
  have hne : n.key ≠ ⟨n.base, n.version.signature, .defines⟩ := by
    simp [Node.key, hn]
  have hres : (g.push n).resolve n.key.opposite n.version = none ↔
      g.slot ⟨n.base, n.version.signature, .defines⟩ = [] := by
    rw [hopp, resolve_eq_none, slot_push_of_ne hne]
  unfold addUse
  cases hr : (g.push n).resolve n.key.opposite n.version with
  | some d =>
    have hslot : g.slot ⟨n.base, n.version.signature, .defines⟩ ≠ [] := by
      intro hnil
      rw [hres.2 hnil] at hr
      cases hr
    simp [hslot, hr]
  | none => simp [hres.1 hr, hr, eq_comm]

end DefUse.Graph

/-! ## what statements report -/

namespace Transfer

/-- What a statement reports, met with the bindings `t` and the facts `f`: a read dangles when its
array is not bound, or when nothing defines the array at a version of this signature. -/
def finding? (block : BlockId) (t : Bindings) (f : Facts) (stmt : Statement) : Option Diagnostic :=
  match stmt.action with
  | .read a =>
    match t[a.base]? with
    | none => some (.ofFault (.danglingUse a.base "none" (some stmt.id) block))
    | some v =>
      if f.graph.slot ⟨a.base, v.signature, .defines⟩ = [] then
        some (.ofFault (.danglingUse a.base v.signature.text (some stmt.id) block))
      else none
  | _ => none

variable {s : Settings} {block : BlockId} {p : Procedure} {t t' : Bindings} {f f' f₁ : Facts}
  {stmt : Statement} {x : Diagnostic}

theorem finding?_kind (h : finding? block t f stmt = some x) :
    x.kind = .danglingUse ∧ x.stmt = some stmt.id := by
  unfold finding? at h
  split at h
  · split at h
    · cases h
      exact ⟨rfl, rfl⟩
    · split at h
      · cases h
        exact ⟨rfl, rfl⟩
      · cases h
  · cases h

theorem isSome_finding? {a : Access} (hact : stmt.action = .read a) :
    (finding? block t f stmt).isSome = true ↔
      t[a.base]? = none ∨ ∃ v, t[a.base]? = some v ∧
        f.graph.slot ⟨a.base, v.signature, .defines⟩ = [] := by
  simp only [finding?, hact]
  cases ht : t[a.base]? with
  | none => simp
  | some v => by_cases hslot : f.graph.slot ⟨a.base, v.signature, .defines⟩ = [] <;> simp [hslot]

/-- A read of a version cannot be linked when nothing defines its array at a version of this
signature. -/
theorem use_eq_error {a : Access} {v : Version} {fault : Fault} :
    (f.graph.addUse (.ofStatement .uses stmt a.base v.markRead a.index block)).1 = .error fault ↔
      f.graph.slot ⟨a.base, v.signature, .defines⟩ = [] ∧
        fault = .danglingUse a.base v.signature.text (some stmt.id) block := by
  have hsig := Version.signature_markRead v
  rw [Graph.addUse_eq_error rfl]
  simp only [Node.ofStatement, hsig]

theorem slot_ne_nil_of_use {a : Access} {v : Version} {e : Option Nat}
    (h : (f.graph.addUse (.ofStatement .uses stmt a.base v.markRead a.index block)).1 = .ok e) :
    f.graph.slot ⟨a.base, v.signature, .defines⟩ ≠ [] := by
  intro hnil
  rw [use_eq_error.2 ⟨hnil, rfl⟩] at h
  cases h

theorem statement_diagnostics (h : statement s block t f stmt = .ok (t', f')) :
    f'.diagnostics = f.diagnostics ++ (finding? block t f stmt).toList := by
  cases statement_effect h with
  | missed hact hv =>
    simp only [finding?, hact, hv]
    rfl
  | used hact hv huse => simp [finding?, hact, hv, slot_ne_nil_of_use huse]
  | dangling hact hv huse =>
    obtain ⟨hnil, rfl⟩ := use_eq_error.1 huse
    simp [finding?, hact, hv, hnil, Facts.report]
  | write hact | create hact | unmoved hact | moved hact | redefined hact | other hact =>
    simp [finding?, hact, Facts.define, Facts.record]

/-- Statements in a row report the findings of each of them, met with what the ones before it
leave. -/
theorem statements_diagnostics {stmts : List Statement}
    (h : statements s block stmts t f = .ok (t', f')) :
    ∃ ds, f'.diagnostics = f.diagnostics ++ ds ∧ ∀ x, x ∈ ds ↔ ∃ i stmt u g, stmts[i]? = some stmt ∧
      statements s block (stmts.take i) t f = .ok (u, g) ∧ finding? block u g stmt = some x := by
  induction stmts generalizing t f with
  | nil =>
    cases h
    exact ⟨[], by simp, by simp⟩
  | cons stmt rest ih =>
    rw [statements_cons, bind_eq_ok] at h
    obtain ⟨⟨t₁, f₁⟩, h₁, h⟩ := h
    obtain ⟨ds, hds, hmem⟩ := ih h
    have htake : ∀ i, statements s block ((stmt :: rest).take (i + 1)) t f =
        statements s block (rest.take i) t₁ f₁ := by
      intro i
      rw [List.take_succ_cons, statements_cons, h₁]
      rfl
    refine ⟨(finding? block t f stmt).toList ++ ds, ?_, fun x => ?_⟩
    · rw [hds, statement_diagnostics h₁, List.append_assoc]
    · rw [List.mem_append, Option.mem_toList, hmem]
      constructor
      · rintro (hx | ⟨i, stmt', u, g, hi, hs, hx⟩)
        · exact ⟨0, stmt, t, f, rfl, rfl, hx⟩
        · exact ⟨i + 1, stmt', u, g, hi, (htake i).trans hs, hx⟩
      · rintro ⟨_ | i, stmt', u, g, hi, hs, hx⟩
        · cases hi
          cases hs
          exact .inl hx
        · exact .inr ⟨i, stmt', u, g, hi, (htake i).symm.trans hs, hx⟩

end Transfer

namespace Machine

variable {p : Procedure} {s : Settings} {m m' : Machine} {b : BlockId} {i : Nat} {t : Bindings}
  {f f₁ : Facts}

/-! ## what steps report -/

theorem Ended.diagnostics {r : LoopRun} (h : Ended s m r f) :
    ∃ ds, f.diagnostics = m.facts.diagnostics ++ ds ∧
    (∀ d ∈ ds, d.kind = .loopLimit ∨ d.kind = .loopReentry) ∧ (ds = [] → r.queue = []) := by
  cases h with
  | drained hq => exact ⟨[], by simp, by simp, fun _ => hq⟩
  | limit => exact ⟨_, rfl, by simp [Diagnostic.ofFault], by simp⟩
  | reentry => exact ⟨_, rfl, by simp [Diagnostic.ofFault], by simp⟩

theorem diagnostics_close {r : LoopRun} (h : LoopRun.close f r = .ok f₁) :
    f₁.diagnostics = f.diagnostics := by
  rcases LoopRun.close_eq_ok h with ⟨-, rfl⟩ | ⟨l, u, -, -, rfl⟩
  · rfl
  · rfl

/-- Findings are only added, and none of those that the machine adds is about a merge that was left
over. -/
theorem Step.diagnostics (h : Step p s m m') :
    ∃ ds, m'.facts.diagnostics = m.facts.diagnostics ++ ds ∧
    ∀ d ∈ ds, d.kind ≠ .unreachableMerge := by
  cases h.change with
  | processed he hp hcore =>
    obtain ⟨t', f', hs, rfl⟩ := Transfer.process_eq_ok.1 hp
    obtain ⟨ds, hds, hmem⟩ := Transfer.statements_diagnostics hs
    refine ⟨ds, ?_, fun d hd => ?_⟩
    · rw [Facts.diagnostics_of_core hcore, ← he.diagnostics_eq]
      exact hds
    · obtain ⟨i, stmt, u, g, -, -, hx⟩ := (hmem d).1 hd
      rw [(Transfer.finding?_kind hx).1]
      decide
  | ended hl he hc hcore =>
    obtain ⟨ds, hds, hkind, -⟩ := he.diagnostics
    refine ⟨ds, ?_, fun d hd => ?_⟩
    · rw [Facts.diagnostics_of_core hcore, diagnostics_close hc, hds]
    · rcases hkind d hd with hk | hk <;> rw [hk] <;> decide
  | none hn hcore => exact ⟨[], by simp [Facts.diagnostics_of_core hcore], by simp⟩

theorem Step.mem_diagnostics (h : Step p s m m') {d : Diagnostic} (hd : d ∈ m.facts.diagnostics) :
    d ∈ m'.facts.diagnostics := by
  obtain ⟨ds, hds, -⟩ := h.diagnostics
  rw [hds]
  exact List.mem_append_left _ hd

theorem run_diagnostics {n : Nat} (h : run p s n m = .ok m') :
    ∃ ds, m'.facts.diagnostics = m.facts.diagnostics ++ ds := by
  induction n generalizing m with
  | zero =>
    cases h
    exact ⟨[], by simp⟩
  | succ n ih =>
    rw [run] at h
    split at h
    · cases h
      exact ⟨[], by simp⟩
    · rw [bind_eq_ok] at h
      obtain ⟨m₁, h₁, h⟩ := h
      obtain ⟨ds, hds, -⟩ := (step_cases h₁).diagnostics
      obtain ⟨es, hes⟩ := ih h
      exact ⟨ds ++ es, by rw [hes, hds, List.append_assoc]⟩

theorem Reaches.not_unreachableMerge (h : Reaches p s m) :
    ∀ d ∈ m.facts.diagnostics, d.kind ≠ .unreachableMerge := by
  refine h.invariant (P := fun m => ∀ d ∈ m.facts.diagnostics, d.kind ≠ .unreachableMerge) ?_ ?_
  · simp [start, Facts.start]
  · intro m m' _ ih hstep d hd
    obtain ⟨ds, hds, hnew⟩ := hstep.diagnostics
    rw [hds, List.mem_append] at hd
    exact hd.elim (ih d) (hnew d)

/-! ## the dangling uses of a run -/

/-- The finding `x` is what statement number `i` of the block reports. -/
def Found (p : Procedure) (s : Settings) (b : BlockId) (i : Nat) (x : Diagnostic) : Prop :=
  ∃ stmt t f, (p.statementsOf b)[i]? = some stmt ∧ Before p s b i t f ∧
    Transfer.finding? b t f stmt = some x

theorem Enters.diagnostics (hm : Reaches p s m) (he : Enters p s m b t f)
    (hp : Transfer.process s b p t f = .ok f₁) :
    ∃ ds, f₁.diagnostics = m.facts.diagnostics ++ ds ∧ ∀ x, x ∈ ds ↔ ∃ i, Found p s b i x := by
  obtain ⟨t', f', hs, rfl⟩ := Transfer.process_eq_ok.1 hp
  obtain ⟨ds, hds, hmem⟩ := Transfer.statements_diagnostics hs
  refine ⟨ds, he.diagnostics_eq ▸ hds, fun x => ?_⟩
  rw [hmem]
  constructor
  · rintro ⟨i, stmt, u, g, hi, hrun, hx⟩
    exact ⟨i, stmt, u, g, hi, ⟨m, t, f, hm, he, hrun⟩, hx⟩
  · rintro ⟨i, stmt, u, g, hi, ⟨m₀, t₀, f₀, hm₀, he₀, hrun⟩, hx⟩
    obtain ⟨rfl, rfl⟩ := hm.enters_unique hm₀ he he₀
    exact ⟨i, stmt, u, g, hi, hrun, hx⟩

/-- The dangling uses that were reported are the findings of the statements of the processed
blocks. -/
theorem Reaches.dangling_iff (h : Reaches p s m) (x : Diagnostic) :
    x ∈ m.facts.diagnostics ∧ x.kind = .danglingUse ↔ ∃ b i, m.facts.claimed b = true ∧
      Found p s b i x := by
  refine h.invariant (P := fun m => x ∈ m.facts.diagnostics ∧ x.kind = .danglingUse ↔
    ∃ b i, m.facts.claimed b = true ∧ Found p s b i x) ?_ ?_
  · simp [start, Facts.start, Facts.claimed, Exposed.isReady]
  · intro m m' hm ih hstep
    cases hstep.change with
    | @processed b t f f₁ he hp hcore =>
      obtain ⟨ds, hds, hmem⟩ := he.diagnostics hm hp
      have hclaimed : ∀ c, m'.facts.claimed c = true ↔
          c = b ∨ m.facts.claimed c = true := fun c => by
        rw [Facts.claimed_of_core hcore, Transfer.claimed_process hp, he.claimed_eq]
      have hkind : x ∈ ds → x.kind = .danglingUse := by
        intro hx
        obtain ⟨i, stmt, u, g, -, -, hfound⟩ := (hmem x).1 hx
        exact (Transfer.finding?_kind hfound).1
      rw [Facts.diagnostics_of_core hcore, hds, List.mem_append]
      constructor
      · rintro ⟨hx | hx, hk⟩
        · obtain ⟨c, i, hc, hfound⟩ := ih.1 ⟨hx, hk⟩
          exact ⟨c, i, (hclaimed c).2 (.inr hc), hfound⟩
        · obtain ⟨i, hfound⟩ := (hmem x).1 hx
          exact ⟨b, i, (hclaimed b).2 (.inl rfl), hfound⟩
      · rintro ⟨c, i, hc, hfound⟩
        rcases (hclaimed c).1 hc with rfl | hc
        · have hx := (hmem x).2 ⟨i, hfound⟩
          exact ⟨.inr hx, hkind hx⟩
        · exact (ih.2 ⟨c, i, hc, hfound⟩).imp_left .inl
    | ended hl he hc hcore =>
      obtain ⟨ds, hds, hloop, -⟩ := he.diagnostics
      have hnew : x ∈ ds → x.kind ≠ .danglingUse := by
        intro hx
        rcases hloop x hx with hk | hk <;> rw [hk] <;> decide
      rw [Facts.diagnostics_of_core hcore, diagnostics_close hc, hds, List.mem_append,
        Facts.claimed_of_core hcore,
        hm.claimed_close (by rw [hl]; exact List.mem_cons_self ..) he hc, ← ih]
      exact ⟨fun h => ⟨h.1.resolve_right fun hx => hnew hx h.2, h.2⟩, fun h => ⟨.inl h.1, h.2⟩⟩
    | none hn hcore =>
      rw [Facts.diagnostics_of_core hcore, Facts.claimed_of_core hcore]
      exact ih

end Machine

theorem Report.dangling_iff {p : Procedure} {s : Settings} {r : Report} (h : analyze p s = .ok r)
    (x : Diagnostic) :
    x ∈ r.facts.diagnostics ∧ x.kind = .danglingUse ↔
      ∃ b i, r.facts.claimed b = true ∧ Machine.Found p s b i x := by
  obtain ⟨-, m, -, hm, rfl⟩ := analyze_eq_ok h
  rw [Machine.conclude_eq]
  have hnew : x ∈ (m.pending.toList.filter fun b => !m.facts.claimed b).map .unreachableMerge →
      x.kind ≠ .danglingUse := by
    intro hx
    obtain ⟨b, -, rfl⟩ := List.mem_map.1 hx
    exact DiagnosticKind.noConfusion
  rw [List.mem_append]
  exact Iff.trans ⟨fun h => ⟨h.1.resolve_right fun hx => hnew hx h.2, h.2⟩,
    fun h => ⟨.inl h.1, h.2⟩⟩
    (hm.dangling_iff x)

end ArrayFlow
