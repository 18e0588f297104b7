import ArrayFlow.Proofs.Lockstep
import ArrayFlow.Proofs.Provenance
import ArrayFlow.Proofs.Reaching

/-!
# Pruning of trivial merges

Where all predecessors of a block carry one version, a merge may be left out. From there on numbers
and keys differ from those of an analysis that makes all merges; but a version still stands for the
same definitions, and its number can only be smaller.

* `Version.Collapses`   : the versions stand for the same definitions, and the first has no larger
  number;
* `Bindings.Collapses`, `Facts.Collapses` : name by name, and block by block;
* `Bindings.Collapses.rebind`, `Merge.version?_collapses` : statements and merges keep this;
* `analyze_pruning`     : so it holds of the reports with and without pruning, by running both in
  lockstep.
-/

namespace ArrayFlow

/-! ## versions -/

namespace Version

/-- The versions stand for the same definitions, and the first has no larger number. -/
structure Collapses (v w : Version) : Prop where
  leaves : ∀ x, x ∈ v.leaves ↔ x ∈ w.leaves
  number : v.number ≤ w.number

variable {v w : Version}

theorem Collapses.refl (v : Version) : v.Collapses v := ⟨fun _ => .rfl, Nat.le_refl _⟩

theorem number_markRead (v : Version) : v.markRead.number = v.number := by
  rw [← number_stem, stem_markRead, number_stem]

theorem Collapses.markRead (h : v.Collapses w) : v.markRead.Collapses w.markRead where
  leaves x := by rw [leaves_markRead, leaves_markRead, h.leaves]
  number := by
    rw [number_markRead, number_markRead]
    exact h.number

theorem Collapses.next (h : v.Collapses w) (b : BlockId) (σ : StmtId) (l : Nat) :
    (v.next b σ l).Collapses (w.next b σ l) := ⟨fun _ => .rfl, Nat.succ_le_succ h.number⟩

/-! ### merges -/

variable {vs ws : List Version} {b : BlockId} {line line' : Nat}

theorem maxNumber_le (h : List.Forall₂ Collapses vs ws) : maxNumber vs ≤ maxNumber ws := by
  have hle : ∀ {k k' : Nat}, k ≤ k' →
      vs.foldl (fun m v => Nat.max m v.number) k ≤ ws.foldl (fun m v => Nat.max m v.number) k' := by
    induction h with
    | nil => exact id
    | cons hv _ ih =>
      intro k k' hk
      exact ih (max_le_max hk hv.number)
  exact hle (Nat.le_refl 0)

theorem mem_leaves_forall₂ (h : List.Forall₂ Collapses vs ws) (x : BlockId × StmtId) :
    (∃ v ∈ vs, x ∈ v.leaves) ↔ ∃ w ∈ ws, x ∈ w.leaves := by
  induction h with
  | nil => exact .rfl
  | cons hv _ ih => simp only [List.mem_cons, exists_eq_or_imp, hv.leaves, ih]

theorem Collapses.phi (h : List.Forall₂ Collapses vs ws) :
    (Version.phi (maxNumber vs + 1) vs b line).Collapses (.phi (maxNumber ws + 1) ws b line') where
  leaves x := by
    rw [leaves_phi, leaves_phi, List.mem_flatMap, List.mem_flatMap]
    exact mem_leaves_forall₂ h x
  number := Nat.succ_le_succ (maxNumber_le h)

/-- A version that all inputs of a merge are, against the merge that another analysis makes. -/
theorem Collapses.shared (h : List.Forall₂ Collapses (v :: vs) ws)
    (htriv : trivialMerge (v :: vs) = true) :
    (Merge.shared v (v :: vs)).Collapses (.phi (maxNumber ws + 1) ws b line) := by
  have hmarks : (Merge.shared v (v :: vs)).leaves = v.leaves ∧ (Merge.shared v (v :: vs)).number =
      v.number := by
    unfold Merge.shared
    split
    · exact ⟨leaves_markRead v, number_markRead v⟩
    · exact ⟨rfl, rfl⟩
  have hsame : ∀ u ∈ v :: vs, u.leaves = v.leaves := by
    intro u hu
    rcases List.mem_cons.1 hu with rfl | hu
    · rfl
    · exact leaves_of_sameOrigin (List.all_eq_true.1 htriv u hu)
  constructor
  · intro x
    rw [hmarks.1, leaves_phi, List.mem_flatMap, ← mem_leaves_forall₂ h]
    constructor
    · exact fun hx => ⟨v, List.mem_cons_self .., hx⟩
    · rintro ⟨u, hu, hx⟩
      rwa [hsame u hu] at hx
  · cases h with
    | @cons _ w _ ws hv hrest =>
      have hmax := (maxNumber_spec (List.cons_ne_nil w ws)).1 w (List.mem_cons_self ..)
      rw [hmarks.2]
      exact Nat.le_succ_of_le (Nat.le_trans hv.number hmax)

end Version

/-! ## bindings -/

/-- The same names are bound, to versions that collapse. -/
def Bindings.Collapses (t u : Bindings) : Prop :=
  ∀ base : String, Option.Rel Version.Collapses t[base]? u[base]?

namespace Bindings.Collapses

variable {t u : Bindings} {v w : Version}

theorem empty : Bindings.Collapses ∅ ∅ := by
  intro base
  rw [Std.ExtTreeMap.getElem?_empty]
  exact .none

theorem insert (h : t.Collapses u) (hv : v.Collapses w) (base : String) :
    Bindings.Collapses (t.insert base v) (u.insert base w) := by
  intro c
  rw [Std.ExtTreeMap.getElem?_insert, Std.ExtTreeMap.getElem?_insert]
  split
  · exact .some hv
  · exact h c

theorem erase (h : t.Collapses u) (base : String) :
    Bindings.Collapses (t.erase base) (u.erase base) := by
  intro c
  rw [Std.ExtTreeMap.getElem?_erase, Std.ExtTreeMap.getElem?_erase]
  split
  · exact .none
  · exact h c

theorem contains (h : t.Collapses u) (base : String) : u.contains base = t.contains base := by
  rw [Std.ExtTreeMap.contains_eq_isSome_getElem?, Std.ExtTreeMap.contains_eq_isSome_getElem?,
    isSome_of_rel (h base)]

/-- Every statement keeps this. -/
theorem rebind (h : t.Collapses u) (b : BlockId) (stmt : Statement) :
    Bindings.Collapses (Transfer.rebind b t stmt) (Transfer.rebind b u stmt) := by
  unfold Transfer.rebind
  cases stmt.action with
  | write a =>
    have hrel := h a.base
    dsimp only
    generalize t[a.base]? = o, u[a.base]? = o' at hrel ⊢
    cases hrel with
    | some hv => exact h.insert (hv.next ..) _
    | none => exact h.insert (.refl _) _
  | read a =>
    have hrel := h a.base
    dsimp only
    generalize t[a.base]? = o, u[a.base]? = o' at hrel ⊢
    cases hrel with
    | some hv => exact h.insert hv.markRead _
    | none => exact h
  | create base => exact h.insert (.refl _) base
  | rename source target =>
    have hrel := h source
    dsimp only
    generalize t[source]? = o, u[source]? = o' at hrel ⊢
    cases hrel with
    | some hv => exact (h.erase source).insert hv target
    | none => exact h
  | other => exact h

theorem foldl_rebind (h : t.Collapses u) (b : BlockId) (stmts : List Statement) :
    Bindings.Collapses (stmts.foldl (Transfer.rebind b) t) (stmts.foldl (Transfer.rebind b) u) :=
  List.foldl_rel (r := Bindings.Collapses) h fun stmt _ _ _ h => h.rebind b stmt

end Bindings.Collapses

/-! ## facts -/

/-- The same blocks are processed, and what they leave collapses; what is noted beside the graph is
equal. -/
structure Facts.Collapses (f g : Facts) : Prop where
  exposed : ∀ b : BlockId, Option.Rel Bindings.Collapses f.exposed[b]? g.exposed[b]?
  falsePhis : g.falsePhis = f.falsePhis
  creations : g.creations = f.creations
  flow : g.flow = f.flow

theorem Facts.Collapses.expose {f g : Facts} {t u : Bindings} (h : f.Collapses g)
    (ht : t.Collapses u) (b : BlockId) :
    (f.expose b t).Collapses (g.expose b u) where
  exposed c := by
    rw [Facts.getElem?_expose, Facts.getElem?_expose]
    split
    · exact .some ht
    · exact h.exposed c
  falsePhis := h.falsePhis
  creations := h.creations
  flow := h.flow

namespace Transfer

variable {s : Settings} {b : BlockId} {t t' : Bindings} {f f' : Facts} {stmt : Statement}

/-- The creations that are known behind a statement. -/
def noteCreation (created : Std.ExtTreeSet StmtId) (stmt : Statement) : Std.ExtTreeSet StmtId :=
  match stmt.action with
  | .create _ => created.insert stmt.id
  | _ => created

theorem statement_creations (h : statement s b t f stmt = .ok (t', f')) :
    f'.creations = noteCreation f.creations stmt ∧ f'.flow = f.flow := by
  unfold noteCreation
  cases statement_effect h with
  | write hact | missed hact | used hact | dangling hact | create hact | unmoved hact | moved hact
  | redefined hact | other hact =>
    rw [hact]
    exact ⟨rfl, rfl⟩

theorem statements_creations {stmts : List Statement}
    (h : statements s b stmts t f = .ok (t', f')) :
    f'.creations = stmts.foldl noteCreation f.creations ∧ f'.flow = f.flow := by
  induction stmts generalizing t f with
  | nil =>
    cases h
    exact ⟨rfl, rfl⟩
  | cons stmt rest ih =>
    rw [statements_cons, bind_eq_ok] at h
    obtain ⟨⟨t₁, f₁⟩, h₁, h⟩ := h
    obtain ⟨hc, hf⟩ := statement_creations h₁
    obtain ⟨hc', hf'⟩ := ih h
    exact ⟨by rw [hc', hc, List.foldl_cons], hf'.trans hf⟩

theorem recover_lenient (hs : s.strictUses = false) (fault : Fault) :
    f.recover s fault = .ok (f.report (.ofFault fault)) := by
  unfold Facts.recover
  split
  · rw [hs]
    rfl
  · rfl

theorem statement_lenient (hs : s.strictUses = false) (stmt : Statement) :
    ∃ x, statement s b t f stmt = .ok x := by
  cases statement_acts s b stmt with
  | @write a hact heq =>
    rw [heq]
    unfold write Bindings.increment
    rw [Std.ExtTreeMap.contains_eq_isSome_getElem?]
    cases t[a.base]? with
    | none => exact ⟨_, rfl⟩
    | some v => exact ⟨_, rfl⟩
  | read hact heq =>
    rw [heq, read]
    split
    · rw [recover_lenient hs]
      exact ⟨_, rfl⟩
    · split
      · exact ⟨_, rfl⟩
      · rw [recover_lenient hs]
        exact ⟨_, rfl⟩
  | create hact heq | other hact heq => exact ⟨_, heq t f⟩
  | rename hact heq =>
    rw [heq, rename]
    split
    · exact ⟨_, rfl⟩
    · rename_i v hv
      simp only [Bindings.rename, hv]
      exact ⟨_, rfl⟩

theorem statements_lenient (hs : s.strictUses = false) (stmts : List Statement) :
    ∃ x, statements s b stmts t f = .ok x := by
  induction stmts generalizing t f with
  | nil => exact ⟨_, rfl⟩
  | cons stmt rest ih =>
    obtain ⟨x, hx⟩ := statement_lenient (b := b) (t := t) (f := f) hs stmt
    rw [statements_cons, hx]
    exact ih

/-- A block keeps the facts of two lenient analyses together, whatever else their settings are. -/
theorem process_collapses {s' : Settings} {p : Procedure} {g : Facts} {u : Bindings}
    (hs : s.strictUses = false) (hs' : s'.strictUses = false) (h : f.Collapses g)
    (ht : t.Collapses u) :
    Agree Facts.Collapses (process s b p t f) (process s' b p u g) := by
  obtain ⟨⟨t₁, f₁⟩, h₁⟩ := statements_lenient (b := b) (t := t) (f := f) hs (p.statementsOf b)
  obtain ⟨⟨u₁, g₁⟩, k₁⟩ := statements_lenient (b := b) (t := u) (f := g) hs' (p.statementsOf b)
  rw [process_eq_ok.2 ⟨t₁, f₁, h₁, rfl⟩, process_eq_ok.2 ⟨u₁, g₁, k₁, rfl⟩]
  obtain ⟨ht₁, hx, hφ⟩ := statements_eq_ok h₁
  obtain ⟨hu₁, kx, kφ⟩ := statements_eq_ok k₁
  obtain ⟨hc, hf⟩ := statements_creations h₁
  obtain ⟨kc, kf⟩ := statements_creations k₁
  have hfacts : f₁.Collapses g₁ := by
    refine ⟨?_, ?_, ?_, ?_⟩
    · rw [hx, kx]
      exact h.exposed
    · rw [hφ, kφ, h.falsePhis]
    · rw [hc, kc, h.creations]
    · rw [hf, kf, h.flow]
  rw [ht₁, hu₁]
  exact .ok (hfacts.expose (ht.foldl_rebind b _) b)

end Transfer

/-! ## merges -/

namespace Merge

variable {s : Settings} {b : BlockId} {line : Nat} {preds : List BlockId}
  {tables tables' : List Bindings} {t : Bindings} {f g : Facts}

theorem names_facts (s : Settings) (b : BlockId) (line : Nat) (preds : List BlockId)
    (tables : List Bindings) (t : Bindings) (f : Facts) (bases : List String) :
    let r := bases.foldl (fun (t, f) base => name s b line preds tables t f base) (t, f)
    r.2.falsePhis = f.falsePhis ++ bases.flatMap (falsePhi? b preds tables) ∧
      r.2.creations = f.creations ∧
      r.2.flow = f.flow := by
  dsimp only
  rw [names_absorb]
  exact ⟨rfl, rfl, rfl⟩

/-! ### tables that collapse one by one -/

theorem inputs_collapse (h : List.Forall₂ Bindings.Collapses tables tables') (base : String) :
    List.Forall₂ Version.Collapses (tables.filterMap fun u => u[base]?)
      (tables'.filterMap fun u => u[base]?) :=
  List.rel_filterMap (fun _ _ hu => hu base) h

theorem names_eq (h : List.Forall₂ Bindings.Collapses tables tables') :
    names tables' = names tables := by
  have hmem : ∀ base, (∃ u ∈ tables', base ∈ u) ↔ ∃ u ∈ tables, base ∈ u := by
    intro base
    induction h with
    | nil => exact .rfl
    | cons hu _ ih =>
      simp only [List.mem_cons, exists_eq_or_imp, ih]
      rw [Std.ExtTreeMap.mem_iff_contains, Std.ExtTreeMap.mem_iff_contains, hu.contains]
  refine congrArg Std.ExtTreeSet.toList (Std.ExtTreeSet.ext_mem fun base => ?_)
  rw [← Std.ExtTreeSet.mem_toList, ← Std.ExtTreeSet.mem_toList]
  exact mem_names.trans ((hmem base).trans mem_names.symm)

/-- Which predecessors bind a name depends on nothing else that they bind. -/
theorem contributors_congr {base : String}
    (h : List.Forall₂ (fun t u : Bindings => u.contains base = t.contains base) tables tables') :
    contributors preds tables' base = contributors preds tables base := by
  unfold contributors
  induction h generalizing preds with
  | nil => rfl
  | cons hu _ ih =>
    cases preds with
    | nil => rfl
    | cons c preds =>
      simp only [List.zip_cons_cons, List.filter_cons, hu]
      split
      · simp only [List.map_cons, ih]
      · exact ih

theorem contributors_eq (h : List.Forall₂ Bindings.Collapses tables tables') (base : String) :
    contributors preds tables' base = contributors preds tables base :=
  contributors_congr (h.imp fun _ _ hu => hu.contains base)

theorem falsePhi?_eq (h : List.Forall₂ Bindings.Collapses tables tables') :
    falsePhi? b preds tables' = falsePhi? b preds tables := by
  funext base
  unfold falsePhi?
  rw [contributors_eq h, ← h.length_eq, ← (inputs_collapse h base).length_eq]

theorem version?_collapses {s' : Settings} (b : BlockId) (line : Nat) (hs : s.pruneTrivial = true)
    (hs' : s'.pruneTrivial = false) (h : List.Forall₂ Bindings.Collapses tables tables')
    (h2 : 2 ≤ tables.length) (base : String) :
    Option.Rel Version.Collapses (version? s b line tables base)
      (version? s' b line tables' base) := by
  have hin := inputs_collapse h base
  unfold version?
  dsimp only
  rw [hs, hs', ← h.length_eq, ← hin.length_eq]
  generalize (tables.filterMap fun u => u[base]?) = vs,
    (tables'.filterMap fun u => u[base]?) = ws at hin ⊢
  split
  · exact .none
  · rename_i hall
    have hlen : ¬ vs.length < 2 := by omega
    have hphi : Version.phi? ws b line = some (.phi (Version.maxNumber ws + 1) ws b line) := by
      rw [Version.phi?, ← hin.length_eq, if_neg hlen]
    simp only [Bool.true_and, Bool.false_and, Bool.false_eq_true, if_false, hphi]
    split
    · rename_i htriv
      cases vs with
      | nil => exact absurd Nat.two_pos hlen
      | cons v vs => exact .some (.shared hin htriv)
    · rw [Version.phi?, if_neg hlen]
      exact .some (.phi hin)

theorem names_collapse {s' : Settings} (hs : s.pruneTrivial = true) (hs' : s'.pruneTrivial = false)
    (htables : List.Forall₂ Bindings.Collapses tables tables') (h2 : 2 ≤ tables.length)
    (h : f.Collapses g) :
    let x := (names tables).foldl (fun (t, f) base => name s b line preds tables t f base) (∅, f)
    let y := (names tables').foldl (fun (t, f) base => name s' b line preds tables' t f base) (∅, g)
    x.1.Collapses y.1 ∧ x.2.Collapses y.2 := by
  dsimp only
  obtain ⟨ht, hx, -⟩ := foldl_name_spec s b line preds tables (names tables) ∅ f
  obtain ⟨ku, kx, -⟩ := foldl_name_spec s' b line preds tables' (names tables') ∅ g
  obtain ⟨hφ, hc, hf⟩ := names_facts s b line preds tables ∅ f (names tables)
  obtain ⟨kφ, kc, kf⟩ := names_facts s' b line preds tables' ∅ g (names tables')
  refine ⟨fun base => ?_, ⟨?_, ?_, ?_, ?_⟩⟩
  · have hrel := version?_collapses b line hs hs' htables h2 base
    rw [ht, ku, getElem?_foldl_version, getElem?_foldl_version, names_eq htables,
      isSome_of_rel hrel]
    split
    · exact hrel
    · exact Bindings.Collapses.empty base
  · rw [hx, kx]
    exact h.exposed
  · rw [hφ, kφ, h.falsePhis, names_eq htables, falsePhi?_eq htables]
  · rw [hc, kc, h.creations]
  · rw [hf, kf, h.flow]

/-- A merge keeps the facts with pruning and those without together. -/
theorem predecessors_collapse {s' : Settings} (hs : s.pruneTrivial = true)
    (hs' : s'.pruneTrivial = false) (h : f.Collapses g) :
    Agree (fun x y => x.1.Collapses y.1 ∧ x.2.Collapses y.2) (predecessors s f b line preds)
      (predecessors s' g b line preds) := by
  refine (Agree.mapM fun c _ => Exposed.get_agree (h.exposed c)).bind fun tables tables' htables =>
    ?_
  cases htables with
  | nil => exact .ok ⟨.empty, h⟩
  | cons ht hrest =>
    cases hrest with
    | nil => exact .ok ⟨ht, h⟩
    | cons ht' hrest => exact .ok (names_collapse hs hs' (.cons ht (.cons ht' hrest)) (by simp) h)

end Merge

/-! ## both analyses -/

/-- An analysis that prunes and one that does not go in lockstep, if dangling uses stop neither. -/
theorem lockstep_pruning {p : Procedure} {s s' : Settings} (hs : s.pruneTrivial = true)
    (hs' : s'.pruneTrivial = false) (hl : s.strictUses = false) (hl' : s'.strictUses = false)
    (hmax : s'.maxIterations = s.maxIterations) :
    Lockstep p p s s' Facts.Collapses Bindings.Collapses where
  predecessors _ := rfl
  successors _ := rfl
  isLoopHeader _ := rfl
  isLoopExit _ _ := rfl
  maxIterations := hmax
  empty := .empty
  exposed h := h.exposed
  flowTo h := ⟨h.exposed, h.falsePhis, h.creations, by rw [Facts.flowTo, Facts.flowTo, h.flow]⟩
  expose h ht := h.expose ht _
  report h := ⟨h.exposed, h.falsePhis, h.creations, h.flow⟩
  process h ht := Transfer.process_collapses hl hl' h ht
  merge h := Merge.predecessors_collapse hs hs' h

/-- Pruning of trivial merges keeps the meaning of a report. With it and without it the analysis
ends with one fault, or it ends well both times; then the same blocks are processed and leave the
same names bound, to versions with the same leaves, and the number with pruning is no larger. False
phis, creations and flow graph are equal. -/
theorem analyze_pruning {p : Procedure} {s : Settings} (hs : s.strictUses = false) :
    (∃ fault, analyze p { s with pruneTrivial := true } = .error fault ∧
      analyze p { s with pruneTrivial := false } = .error fault) ∨
    ∃ r r', analyze p { s with pruneTrivial := true } = .ok r ∧
    analyze p { s with pruneTrivial := false } = .ok r' ∧
      (∀ b, r.facts.claimed b = r'.facts.claimed b) ∧
      (∀ (b : BlockId) (t t' : Bindings), r.facts.exposed[b]? = some t →
        r'.facts.exposed[b]? = some t' → ∀ base : String, t[base]?.isSome = t'[base]?.isSome ∧
          ∀ v v' : Version, t[base]? = some v → t'[base]? = some v' →
            (∀ x, x ∈ v.leaves ↔ x ∈ v'.leaves) ∧ v.number ≤ v'.number) ∧
      r.facts.falsePhis = r'.facts.falsePhis ∧ r.facts.creations = r'.facts.creations ∧
      r.facts.flow = r'.facts.flow := by
  have L : Lockstep p p { s with pruneTrivial := true } { s with pruneTrivial :=
    false } Facts.Collapses
      Bindings.Collapses := lockstep_pruning rfl rfl hs hs rfl
  have hagree := L.analyze ⟨fun _ => by simp [Facts.start], rfl, rfl, rfl⟩
  generalize analyze p { s with pruneTrivial := true } = x,
    analyze p { s with pruneTrivial := false } = y at hagree ⊢
  cases hagree with
  | error fault => exact .inl ⟨fault, rfl, rfl⟩
  | @ok r r' h =>
    refine .inr ⟨r, r', rfl, rfl, fun b => (L.claimed h b).symm, fun b t t' ht ht' base => ?_,
      h.falsePhis.symm, h.creations.symm, h.flow.symm⟩
    have hrel := h.exposed b
    rw [ht, ht'] at hrel
    cases hrel with
    | some hcol =>
      have hname := hcol base
      refine ⟨(isSome_of_rel hname).symm, fun v v' hv hv' => ?_⟩
      rw [hv, hv'] at hname
      cases hname with
      | some hcol => exact ⟨hcol.leaves, hcol.number⟩

/-- Neither branch writes the array, so that their merge is trivial; a write and a loop follow. -/
def writeBehindBranches : Draft where
  name := "write behind branches"
  blocks := [
    (⟨0⟩, [⟨⟨0⟩, 1, "a[i] = x", .write ⟨"a", .expr "i"⟩⟩]),
    (⟨1⟩, [⟨⟨1⟩, 2, "y = a[i]", .read ⟨"a", .expr "i"⟩⟩]),
    (⟨2⟩, [⟨⟨2⟩, 3, "skip", .other⟩]),
    (⟨3⟩, [⟨⟨3⟩, 4, "y = a[i]", .read ⟨"a", .expr "i"⟩⟩,
      ⟨⟨4⟩, 5, "a[j] = x", .write ⟨"a", .expr "j"⟩⟩]),
    (⟨4⟩, [⟨⟨5⟩, 6, "while", .other⟩]),
    (⟨5⟩, [⟨⟨6⟩, 7, "b = a", .rename "a" "b"⟩, ⟨⟨7⟩, 8, "a = b", .rename "b" "a"⟩]),
    (⟨6⟩, [⟨⟨8⟩, 9, "y = a[j]", .read ⟨"a", .expr "j"⟩⟩])]
  edges := [(⟨0⟩, ⟨1⟩), (⟨0⟩, ⟨2⟩), (⟨1⟩, ⟨3⟩), (⟨2⟩, ⟨3⟩), (⟨3⟩, ⟨4⟩), (⟨4⟩, ⟨5⟩),
    (⟨5⟩, ⟨4⟩), (⟨4⟩, ⟨6⟩)]
  loops := [.blocks ⟨4⟩ ⟨6⟩]

theorem analyze_pruning_writeBehindBranches :
    ∃ p r r' t t' v v', writeBehindBranches.build = .ok p ∧
      analyze p { pruneTrivial := true } = .ok r ∧
      analyze p { pruneTrivial := false } = .ok r' ∧ r.facts.graph.stats.phiNodes = 0 ∧
      r'.facts.graph.stats.phiNodes = 1 ∧ r.facts.exposed[(⟨6⟩ : BlockId)]? = some t ∧
      r'.facts.exposed[(⟨6⟩ : BlockId)]? = some t' ∧ t["a"]? = some v ∧ t'["a"]? = some v' ∧
      v.number = 1 ∧
      v'.number = 2 ∧ ∀ x, x ∈ v.leaves ↔ x ∈ v'.leaves := by
  obtain ⟨p, r, hb, h, hP⟩ :=
    Draft.check_eq_true (d := writeBehindBranches) (s := { pruneTrivial := true })
    (P := fun _ r => r.facts.graph.stats.phiNodes = 0 ∧
      (r.facts.exposed[(⟨6⟩ : BlockId)]?.bind (·["a"]?)).map Version.number =
      some 1) (by decide +kernel)
  obtain ⟨p', r', hb', h', hP'⟩ :=
    Draft.check_eq_true (d := writeBehindBranches) (s := { pruneTrivial := false })
    (P := fun _ r => r.facts.graph.stats.phiNodes = 1 ∧
      (r.facts.exposed[(⟨6⟩ : BlockId)]?.bind (·["a"]?)).map Version.number =
      some 2) (by decide +kernel)
  obtain rfl : p = p' := Except.ok.inj (hb.symm.trans hb')
  obtain ⟨hphi, hnum⟩ := of_decide_eq_true hP
  obtain ⟨hphi', hnum'⟩ := of_decide_eq_true hP'
  obtain ⟨v, hv, hnum⟩ := Option.map_eq_some_iff.1 hnum
  obtain ⟨v', hv', hnum'⟩ := Option.map_eq_some_iff.1 hnum'
  obtain ⟨t, ht, hv⟩ := Option.bind_eq_some_iff.1 hv
  obtain ⟨t', ht', hv'⟩ := Option.bind_eq_some_iff.1 hv'
  refine ⟨p, r, r', t, t', v, v', hb, h, h', hphi, hphi', ht, ht', hv, hv', hnum, hnum', ?_⟩
  rcases analyze_pruning (p := p) (s := {}) rfl with ⟨fault, herr, -⟩ | ⟨q, q', hq, hq',
    -, htables, -⟩
  · rw [h] at herr
    cases herr
  · rw [h] at hq
    cases hq
    rw [h'] at hq'
    cases hq'
    exact ((htables ⟨6⟩ t t' ht ht' "a").2 v v' hv hv').1

end ArrayFlow
