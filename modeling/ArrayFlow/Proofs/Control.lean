import ArrayFlow.Proofs.Pruning

/-!
# Control does not depend on data

Which blocks are processed, in which order, which loops are given up and which merges are left over
is decided by the control-flow graph alone. Two procedures with one control-flow graph may do to
their arrays what they like.

* `Procedure.SameControl` : the procedures have one control-flow graph, with the same statements at
  the heads of blocks;
* `Procedure.Aligned`     : the same for procedures given block by block, with a relation between
  their statements;
* `Facts.SameCourse`      : the same blocks are processed, the same edges followed and the same
  loops given up;
* `Transfer.process_course`, `Merge.predecessors_course` : blocks and merges keep this, whatever
  their statements are;
* `analyze_control_independent` : so it holds of the reports, by running both analyses in lockstep.
-/

namespace ArrayFlow

/-! ## one control-flow graph -/

namespace Procedure

/-- The procedures have one control-flow graph. Loops are declared by head statements, so that these
carry the same names; nothing else is asked of the statements. -/
structure SameControl (p p' : Procedure) : Prop where
  entry : p'.entry = p.entry
  contains : ∀ b, p'.contains b = p.contains b
  successors : ∀ b, p'.successors b = p.successors b
  predecessors : ∀ b, p'.predecessors b = p.predecessors b
  loopExits : p'.loopExits = p.loopExits
  head? : ∀ b, p'.head? b = p.head? b

namespace SameControl

variable {p p' : Procedure}

theorem loopExitsOf (h : p.SameControl p') (b : BlockId) : p'.loopExitsOf b = p.loopExitsOf b := by
  unfold Procedure.loopExitsOf
  rw [h.head?, h.loopExits]

theorem isLoopHeader (h : p.SameControl p') (b : BlockId) :
    p'.isLoopHeader b = p.isLoopHeader b := by
  unfold Procedure.isLoopHeader
  rw [h.loopExitsOf]

theorem isLoopExit (h : p.SameControl p') (a c : BlockId) :
    p'.isLoopExit a c = p.isLoopExit a c := by
  unfold Procedure.isLoopExit
  rw [h.head?, h.loopExitsOf]

end SameControl

/-- The procedures have the same blocks one by one, with statements that are related by `R`. -/
structure Aligned (R : List Statement → List Statement → Prop) (p p' : Procedure) : Prop where
  entry : p'.entry = p.entry
  loopExits : p'.loopExits = p.loopExits
  blocks : List.Forall₂ (fun k k' => k'.id = k.id ∧ k'.successors = k.successors ∧
    k'.predecessors = k.predecessors ∧ R k.statements k'.statements) p.blocks p'.blocks

instance (R : List Statement → List Statement → Prop) [DecidableRel R] (p p' : Procedure) :
    Decidable (Aligned R p p') :=
  decidable_of_iff (p'.entry = p.entry ∧ p'.loopExits = p.loopExits ∧
    List.Forall₂ (fun k k' => k'.id = k.id ∧ k'.successors = k.successors ∧
    k'.predecessors = k.predecessors ∧
      R k.statements k'.statements) p.blocks p'.blocks)
    ⟨fun h => ⟨h.1, h.2.1, h.2.2⟩, fun h => ⟨h.entry, h.loopExits, h.blocks⟩⟩

namespace Aligned

variable {R : List Statement → List Statement → Prop} {p p' : Procedure}

theorem statementsOf (h : Aligned R p p') (hnil : R [] []) (b : BlockId) :
    R (p.statementsOf b) (p'.statementsOf b) := by
  unfold Procedure.statementsOf
  rcases block?_forall₂ (fun _ _ h => h.1) h.blocks b with ⟨hk, hk'⟩ | ⟨k, k', hk, hk', -, -, -, hR⟩
  · rw [hk, hk']
    exact hnil
  · rw [hk, hk']
    exact hR

/-- Blocks that fit together have one control-flow graph, if their head statements have the same
names. -/
theorem sameControl (h : Aligned R p p')
    (hR : ∀ l l', R l l' → l'.head?.map (·.id) = l.head?.map (·.id)) : p.SameControl p' where
  entry := h.entry
  contains b := by
    unfold Procedure.contains
    rcases block?_forall₂ (fun _ _ h => h.1) h.blocks b with ⟨hk, hk'⟩ | ⟨k, k', hk, hk', -⟩
    · rw [hk, hk']
    · rw [hk, hk']
      rfl
  successors b := by
    unfold Procedure.successors
    rcases block?_forall₂ (fun _ _ h => h.1) h.blocks b with ⟨hk, hk'⟩ | ⟨k, k', hk, hk', -, heq, -⟩
    · rw [hk, hk']
    · rw [hk, hk', Option.map_some, Option.map_some, heq]
  predecessors b := by
    unfold Procedure.predecessors
    rcases block?_forall₂ (fun _ _ h => h.1) h.blocks b with ⟨hk, hk'⟩ | ⟨k, k', hk,
      hk', -, -, heq, -⟩
    · rw [hk, hk']
    · rw [hk, hk', Option.map_some, Option.map_some, heq]
  loopExits := h.loopExits
  head? b := by
    unfold Procedure.head? Procedure.statementsOf
    rcases block?_forall₂ (fun _ _ h => h.1) h.blocks b with ⟨hk, hk'⟩ | ⟨k, k', hk, hk',
      -, -, -, hrel⟩
    · rw [hk, hk']
    · rw [hk, hk']
      exact hR _ _ hrel

theorem headLine (h : Aligned R p p') (hnil : R [] [])
    (hR : ∀ l l', R l l' → l'.head?.map (·.line) = l.head?.map (·.line)) (b : BlockId) :
    p'.headLine b = p.headLine b := by
  unfold Procedure.headLine
  rw [hR _ _ (h.statementsOf hnil b)]

end Aligned

/-- Heads of lists that are related element by element have in common what all related elements
have. -/
theorem head?_map_of_forall₂ {α β : Type} {S : α → α → Prop} {φ : α → β}
    (hS : ∀ x y, S x y → φ y = φ x) {l l' : List α} (h : List.Forall₂ S l l') :
    l'.head?.map φ = l.head?.map φ := by
  cases h with
  | nil => rfl
  | cons hxy _ => exact congrArg some (hS _ _ hxy)

end Procedure

/-! ## the course of an analysis -/

/-- Is the finding about a loop that was given up, or about a merge that was left over? -/
def Diagnostic.concernsControl (d : Diagnostic) : Bool :=
  match d.kind with
  | .loopReentry => true
  | .loopLimit => true
  | .unreachableMerge => true
  | _ => false

/-- The same blocks were processed, the same edges followed, and the same loops given up. -/
structure Facts.SameCourse (f g : Facts) : Prop where
  claimed : ∀ b, g.claimed b = f.claimed b
  flow : g.flow = f.flow
  findings : g.diagnostics.filter Diagnostic.concernsControl =
    f.diagnostics.filter Diagnostic.concernsControl

namespace Facts.SameCourse

variable {f g f' g' : Facts}

theorem refl (f : Facts) : f.SameCourse f := ⟨fun _ => rfl, rfl, rfl⟩

theorem symm (h : f.SameCourse g) : g.SameCourse f :=
  ⟨fun b => (h.claimed b).symm, h.flow.symm, h.findings.symm⟩

theorem trans (h : f.SameCourse g) (h' : g.SameCourse f') : f.SameCourse f' :=
  ⟨fun b => (h'.claimed b).trans (h.claimed b), h'.flow.trans h.flow, h'.findings.trans h.findings⟩

theorem exposed (h : f.SameCourse g) (b : BlockId) :
    Option.Rel (fun _ _ => True) f.exposed[b]? g.exposed[b]? := by
  have hb := h.claimed b
  rw [Facts.claimed, Facts.claimed, Exposed.isReady, Exposed.isReady,
    Std.ExtTreeMap.contains_eq_isSome_getElem?, Std.ExtTreeMap.contains_eq_isSome_getElem?] at hb
  generalize f.exposed[b]? = x, g.exposed[b]? = y at hb ⊢
  cases x with
  | none =>
    cases y with
    | none => exact .none
    | some => cases hb
  | some =>
    cases y with
    | none => cases hb
    | some => exact .some trivial

theorem expose (h : f.SameCourse g) (b : BlockId) (t u : Bindings) :
    (f.expose b t).SameCourse (g.expose b u) where
  claimed c := by
    rw [Bool.eq_iff_iff, Facts.claimed_expose, Facts.claimed_expose, h.claimed]
  flow := h.flow
  findings := h.findings

theorem report (h : f.SameCourse g) (d : Diagnostic) : (f.report d).SameCourse (g.report d) where
  claimed := h.claimed
  flow := h.flow
  findings := by
    simp only [Facts.report, List.filter_append]
    rw [h.findings]

end Facts.SameCourse

namespace Transfer

variable {s : Settings} {b : BlockId} {p p' : Procedure} {t t' u : Bindings} {f f' g : Facts}

/-- Statements have no influence on the course: what they report is about uses. -/
theorem statements_course {stmts : List Statement} (h : statements s b stmts t f = .ok (t', f')) :
    f.SameCourse f' where
  claimed c := by rw [Facts.claimed, Facts.claimed, (statements_eq_ok h).2.1]
  flow := (statements_creations h).2
  findings := by
    obtain ⟨ds, hds, hmem⟩ := statements_diagnostics h
    have hnone : ds.filter Diagnostic.concernsControl = [] := by
      refine List.filter_eq_nil_iff.2 fun d hd => ?_
      obtain ⟨i, stmt, v, k, -, -, hfound⟩ := (hmem d).1 hd
      unfold Diagnostic.concernsControl
      rw [(finding?_kind hfound).1]
      exact Bool.false_ne_true
    rw [hds, List.filter_append, hnone, List.append_nil]

theorem process_course (hs : s.strictUses = false) (h : f.SameCourse g) :
    Agree Facts.SameCourse (process s b p t f) (process s b p' u g) := by
  obtain ⟨⟨t₁, f₁⟩, h₁⟩ := statements_lenient (b := b) (t := t) (f := f) hs (p.statementsOf b)
  obtain ⟨⟨u₁, g₁⟩, k₁⟩ := statements_lenient (b := b) (t := u) (f := g) hs (p'.statementsOf b)
  rw [process_eq_ok.2 ⟨t₁, f₁, h₁, rfl⟩, process_eq_ok.2 ⟨u₁, g₁, k₁, rfl⟩]
  have hbetween : f₁.SameCourse g₁ :=
    ((statements_course h₁).symm.trans h).trans (statements_course k₁)
  exact .ok (hbetween.expose b t₁ u₁)

end Transfer

namespace Merge

variable {s : Settings} {b : BlockId} {line line' : Nat} {preds : List BlockId}
  {t : Bindings} {f g : Facts}

theorem names_course (tables : List Bindings) (bases : List String) :
    f.SameCourse (bases.foldl (fun (t, f) base => name s b line preds tables t f base) (t,
      f)).2 := by
  obtain ⟨-, hexposed, hdiagnostics⟩ := foldl_name_spec s b line preds tables bases t f
  obtain ⟨-, -, hflow⟩ := names_facts s b line preds tables t f bases
  refine ⟨fun c => ?_, hflow, ?_⟩
  · rw [Facts.claimed, Facts.claimed, hexposed]
  · rw [hdiagnostics]

theorem predecessors_course (h : f.SameCourse g) :
    Agree (fun x y => True ∧ x.2.SameCourse y.2) (predecessors s f b line preds)
      (predecessors s g b line' preds) := by
  refine (Agree.mapM fun c _ => Exposed.get_agree (h.exposed c)).bind fun tables tables' htables =>
    ?_
  cases htables with
  | nil => exact .ok ⟨trivial, h⟩
  | cons _ hrest =>
    cases hrest with
    | nil => exact .ok ⟨trivial, h⟩
    | cons _ _ => exact .ok ⟨trivial, ((names_course _ _).symm.trans h).trans (names_course _ _)⟩

end Merge

/-! ## both analyses -/

/-- Two analyses over one control-flow graph go in lockstep, if dangling uses stop neither. -/
theorem lockstep_control {p p' : Procedure} {s : Settings} (h : p.SameControl p')
    (hs : s.strictUses = false) :
    Lockstep p p' s s Facts.SameCourse fun _ _ => True where
  predecessors := h.predecessors
  successors := h.successors
  isLoopHeader := h.isLoopHeader
  isLoopExit := h.isLoopExit
  maxIterations := rfl
  empty := trivial
  exposed hf := hf.exposed
  flowTo hf := ⟨hf.claimed, by rw [Facts.flowTo, Facts.flowTo, hf.flow], hf.findings⟩
  expose hf _ := hf.expose _ _ _
  report hf := hf.report _
  process hf _ := Transfer.process_course hs hf
  merge hf := Merge.predecessors_course hf

/-- Control is independent of data. Two procedures with one control-flow graph end with the same
fault, or both end well; then the same blocks are processed, the flow graphs are equal, and the same
loops were given up and merges left over, in the same order. -/
theorem analyze_control_independent {p p' : Procedure} {s : Settings} (h : p.SameControl p')
    (hs : s.strictUses = false) :
    (∃ fault, analyze p s = .error fault ∧ analyze p' s = .error fault) ∨
    ∃ r r', analyze p s = .ok r ∧ analyze p' s = .ok r' ∧
      (∀ b : BlockId, (∃ t, r'.facts.exposed[b]? = some t) ↔ ∃ t, r.facts.exposed[b]? = some t) ∧
      r'.facts.flow = r.facts.flow ∧
      r'.facts.diagnostics.filter Diagnostic.concernsControl =
        r.facts.diagnostics.filter Diagnostic.concernsControl := by
  have hagree := (lockstep_control h hs).reports h.entry (h.contains p.entry) (.refl _)
  rcases hagree.cases_eq with hfault | ⟨r, r', hr, hr', hcourse⟩
  · exact .inl hfault
  · refine .inr ⟨r, r', hr, hr', fun b => ?_, hcourse.flow, hcourse.findings⟩
    rw [← Facts.claimed_iff, ← Facts.claimed_iff, hcourse.claimed]

/-- A loop with a branch inside, left to a block that a dead one leads to as well. `body` gives the
statements behind the heads of the blocks. -/
def branchInLoop (body : Nat → List Statement) : Draft where
  name := "branch in loop"
  blocks := (List.range 8).map fun i => (⟨i⟩, ⟨⟨i⟩, i + 1, "skip", .other⟩ :: body i)
  edges := [(⟨0⟩, ⟨1⟩), (⟨1⟩, ⟨2⟩), (⟨2⟩, ⟨3⟩), (⟨2⟩, ⟨4⟩), (⟨3⟩, ⟨5⟩), (⟨4⟩, ⟨5⟩), (⟨5⟩, ⟨1⟩),
    (⟨1⟩, ⟨6⟩), (⟨7⟩, ⟨6⟩)]
  loops := [.blocks ⟨1⟩ ⟨6⟩]

/-- The array `a` is written on one branch, where `b` is read before it exists, and becomes `b` on
the other. -/
def branchAccesses : Nat → List Statement
  | 0 => [⟨⟨8⟩, 9, "new a", .create "a"⟩]
  | 3 => [⟨⟨9⟩, 10, "a[i] = 0", .write ⟨"a", .expr "i"⟩⟩,
      ⟨⟨10⟩, 11, "x = b[i]", .read ⟨"b", .expr "i"⟩⟩]
  | 4 => [⟨⟨11⟩, 12, "b = a", .rename "a" "b"⟩]
  | 5 => [⟨⟨12⟩, 13, "y = a[j]", .read ⟨"a", .expr "j"⟩⟩]
  | _ => []

theorem analyze_control_independent_branchInLoop :
    ∃ p p' r r', (branchInLoop fun _ => []).build = .ok p ∧
      (branchInLoop branchAccesses).build = .ok p' ∧
      analyze p { maxIterations := 3 } = .ok r ∧ analyze p' { maxIterations := 3 } = .ok r' ∧
      r.facts.diagnostics.map (·.kind) = [.loopLimit] ∧
      r'.facts.diagnostics.map (·.kind) = [.danglingUse, .loopLimit] ∧
      r.facts.graph.nodes.size = 0 ∧ r'.facts.graph.nodes.size = 2 ∧
      (∃ t, r.facts.exposed[(⟨4⟩ : BlockId)]? = some t) ∧
      (∃ t, r'.facts.exposed[(⟨4⟩ : BlockId)]? = some t) ∧
      r'.facts.flow = r.facts.flow ∧
      r'.facts.diagnostics.filter Diagnostic.concernsControl =
          r.facts.diagnostics.filter Diagnostic.concernsControl := by
  obtain ⟨p, r, hb, h, hP⟩ :=
    Draft.check_eq_true (d := branchInLoop fun _ => []) (s := { maxIterations := 3 })
    (P := fun p r => r.facts.diagnostics.map (·.kind) = [.loopLimit] ∧
      r.facts.graph.nodes.size = 0 ∧ r.facts.claimed ⟨4⟩ = true ∧
      (branchInLoop branchAccesses).check { maxIterations := 3 } fun p' r' =>
        r'.facts.diagnostics.map (·.kind) = [.danglingUse, .loopLimit] ∧
          r'.facts.graph.nodes.size = 2 ∧
        p.Aligned (fun l l' => l'.head?.map (·.id) = l.head?.map (·.id)) p') (by decide +kernel)
  obtain ⟨hkinds, hsize, hfour, hcheck⟩ := of_decide_eq_true hP
  obtain ⟨p', r', hb', h', hP'⟩ := Draft.check_eq_true hcheck
  obtain ⟨hkinds', hsize', haligned⟩ := of_decide_eq_true hP'
  obtain ⟨t, ht⟩ := Facts.claimed_iff.1 hfour
  rcases analyze_control_independent (s := { maxIterations := 3 })
    (haligned.sameControl fun _ _ => id) rfl with
    ⟨fault, herr, -⟩ | ⟨q, q', hq, hq', hsame, hflow, hfindings⟩
  · rw [h] at herr
    cases herr
  · rw [h] at hq
    rw [h'] at hq'
    cases hq
    cases hq'
    exact ⟨p, p', r, r', hb, hb', h, h', hkinds, hkinds', hsize, hsize', ⟨t, ht⟩,
      (hsame _).2 ⟨t, ht⟩, hflow, hfindings⟩

end ArrayFlow
