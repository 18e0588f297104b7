import ArrayFlow.Proofs.Faults

/-!
# Strict analyses

Strict settings change nothing as long as no use dangles. The first use that does ends the analysis,
with the fault that a lenient analysis notes before it goes on.

* `Facts.firstUse?`  : the first dangling use that was reported;
* `Stricter`         : what a strict computation makes of a lenient one;
* `Stricter.bind`    : computations in a row, which is all that loops inside of loops come to;
* `step_stricter`, `run_stricter` : steps and runs, from states without dangling uses;
* `analyze_strict`   : so it holds of analyses.
-/

namespace ArrayFlow

/-- The first dangling use that was reported. -/
def Facts.firstUse? (f : Facts) : Option Diagnostic := f.diagnostics.find? (·.kind = .danglingUse)

namespace Facts

variable {f g : Facts} {ds : List Diagnostic}

theorem firstUse?_append (h : g.diagnostics = f.diagnostics ++ ds) :
    g.firstUse? = f.firstUse?.or (ds.find? (·.kind = .danglingUse)) := by
  rw [firstUse?, h, List.find?_append, firstUse?]

theorem firstUse?_append_of_ne (h : g.diagnostics = f.diagnostics ++ ds)
    (hds : ∀ d ∈ ds, d.kind ≠ .danglingUse) :
    g.firstUse? = f.firstUse? := by
  rw [firstUse?_append h, List.find?_eq_none.2 fun d hd => by simpa using hds d hd, Option.or_none]

end Facts

theorem Fault.Dangles.kind {fault : Fault} (h : fault.Dangles) :
    (Diagnostic.ofFault fault).kind = .danglingUse := by
  obtain ⟨_, _, _, _, rfl⟩ := h
  rfl

/-! ## two computations -/

/-- What a strict computation makes of a lenient one: the same, unless a use dangles; then it stops
with the first one. `facts` are the facts behind a result. -/
inductive Stricter {α : Type} (facts : α → Facts) : Except Fault α → Except Fault α → Prop
  | ok {a : α} (h : (facts a).firstUse? = none) : Stricter facts (.ok a) (.ok a)
  | error (fault : Fault) : Stricter facts (.error fault) (.error fault)
  | stopped {x : Except Fault α} {fault : Fault} (hd : fault.Dangles)
      (h : ∀ a, x = .ok a → (facts a).firstUse? = some (.ofFault fault)) :
      Stricter facts x (.error fault)

/-- Where the strict computation has stopped, the lenient one may go on: it adds to what it
found. -/
theorem Stricter.bind {α β : Type} {facts : α → Facts} {facts' : β → Facts} {x y : Except Fault α}
    {k k' : α → Except Fault β} (h : Stricter facts x y)
    (hk : ∀ a, x = .ok a → (facts a).firstUse? = none → Stricter facts' (k a) (k' a))
    (hgrow : ∀ a b, x = .ok a → k a = .ok b →
      ∃ ds, (facts' b).diagnostics = (facts a).diagnostics ++ ds) :
    Stricter facts' (x >>= k) (y >>= k') := by
  cases h with
  | ok h => exact hk _ rfl h
  | error fault => exact .error fault
  | stopped hd h =>
    refine .stopped hd fun b hb => ?_
    obtain ⟨a, ha, hb⟩ := bind_eq_ok.1 hb
    obtain ⟨ds, hds⟩ := hgrow a b ha hb
    rw [Facts.firstUse?_append hds, h a ha, Option.some_or]

/-! ## statements -/

namespace Transfer

variable {s l : Settings} {p : Procedure} {b : BlockId} {t : Bindings} {f : Facts}

theorem statement_stricter (hs : s.strictUses = true) (hl : l.strictUses = false)
    (hf : f.firstUse? = none) (stmt : Statement) :
    Stricter Prod.snd (statement l b t f stmt) (statement s b t f stmt) := by
  obtain ⟨x, hx⟩ := statement_lenient (b := b) (t := t) (f := f) hl stmt
  have hfirst := Facts.firstUse?_append (statement_diagnostics hx)
  rw [hf, Option.none_or] at hfirst
  rw [hx]
  rcases statement_strict hs hx with ⟨hnone, hok⟩ | ⟨fault, hd, hsome, herr⟩
  · rw [hok]
    exact .ok (by simpa [hnone] using hfirst)
  · rw [herr]
    refine .stopped hd fun a ha => ?_
    cases ha
    simpa [hsome, hd.kind] using hfirst

theorem statements_stricter (hs : s.strictUses = true) (hl : l.strictUses = false)
    (hf : f.firstUse? = none) (stmts : List Statement) :
    Stricter Prod.snd (statements l b stmts t f) (statements s b stmts t f) := by
  induction stmts generalizing t f with
  | nil => exact .ok hf
  | cons stmt rest ih =>
    rw [statements_cons, statements_cons]
    refine (statement_stricter hs hl hf stmt).bind (fun x _ hx => ih hx) fun x y _ hy => ?_
    obtain ⟨ds, hds, -⟩ := statements_diagnostics hy
    exact ⟨ds, hds⟩

theorem process_stricter (hs : s.strictUses = true) (hl : l.strictUses = false)
    (hf : f.firstUse? = none) :
    Stricter id (process l b p t f) (process s b p t f) := by
  refine (statements_stricter hs hl hf _).bind (fun x _ hx => .ok hx) fun x f₁ _ h => ?_
  cases h
  exact ⟨[], by simp [Facts.expose]⟩

end Transfer

/-! ## steps and runs -/

namespace Machine

variable {p : Procedure} {s : Settings} {m m' : Machine}

theorem Step.firstUse?_of_idle (h : Step p s m m') (hn : ∀ b t f, ¬ Enters p s m b t f) :
    m'.facts.firstUse? = m.facts.firstUse? := by
  cases h.change with
  | processed he => exact absurd he (hn _ _ _)
  | ended hl he hc hcore =>
    obtain ⟨ds, hds, hkind, -⟩ := he.diagnostics
    have hadded : m'.facts.diagnostics = m.facts.diagnostics ++ ds := by
      rw [Facts.diagnostics_of_core hcore, diagnostics_close hc, hds]
    refine Facts.firstUse?_append_of_ne hadded fun d hd => ?_
    rcases hkind d hd with hk | hk <;> rw [hk] <;> decide
  | none _ hcore => rw [Facts.firstUse?, Facts.firstUse?, Facts.diagnostics_of_core hcore]

theorem step_stricter (hm : m.facts.firstUse? = none) :
    Stricter Machine.facts (step p { s with strictUses := false } m)
      (step p { s with strictUses := true } m) := by
  cases step_work p s m with
  | @processes b t f k he hx hk =>
    have hf : f.firstUse? = none := by rw [Facts.firstUse?, he.diagnostics_eq]; exact hm
    have hgo : ∀ f₁, Transfer.process { s with strictUses := false } b p t f = .ok f₁ →
        ∃ m', k f₁ = .ok m' ∧ m'.facts.diagnostics = f₁.diagnostics := fun f₁ hp =>
      hk f₁ ((Transfer.claimed_process hp b).2 (.inl rfl))
    rw [show step p { s with strictUses := false } m = _ from hx false,
      show step p { s with strictUses := true } m = _ from hx true]
    refine (Transfer.process_stricter rfl rfl hf).bind (fun f₁ hp hf₁ => ?_) fun f₁ m' hp hm' => ?_
    · obtain ⟨m', hm', hd⟩ := hgo f₁ hp
      rw [hm']
      exact .ok (by rw [Facts.firstUse?, hd]; exact hf₁)
    · obtain ⟨m₁, hm₁, hd⟩ := hgo f₁ hp
      obtain rfl := Except.ok.inj (hm₁.symm.trans hm')
      exact ⟨[], by rw [hd, List.append_nil]; rfl⟩
  | other y hn hx hy =>
    rw [show step p { s with strictUses := false } m = _ from hx false,
      show step p { s with strictUses := true } m = _ from hx true]
    cases hres : y with
    | error fault => exact .error fault
    | ok m' =>
      have hstep : step p s m = .ok m' := (hx s.strictUses).trans hres
      exact .ok (((step_cases hstep).firstUse?_of_idle hn).trans hm)

theorem run_stricter (hm : m.facts.firstUse? = none) (n : Nat) :
    Stricter Machine.facts (run p { s with strictUses := false } n m)
      (run p { s with strictUses := true } n m) := by
  induction n generalizing m with
  | zero => exact .ok hm
  | succ n ih =>
    rw [run, run]
    split
    · exact .ok hm
    · exact (step_stricter hm).bind (fun m₁ _ hm₁ => ih hm₁) fun m₁ m' _ h => run_diagnostics h

theorem firstUse?_conclude (m : Machine) : m.conclude.firstUse? = m.facts.firstUse? := by
  rw [conclude_eq]
  refine Facts.firstUse?_append_of_ne rfl fun d hd => ?_
  obtain ⟨b, -, rfl⟩ := List.mem_map.1 hd
  exact DiagnosticKind.noConfusion

end Machine

theorem analyze_stricter (p : Procedure) (s : Settings) :
    Stricter Report.facts (analyze p { s with strictUses := false })
      (analyze p { s with strictUses := true }) := by
  unfold analyze
  split
  · refine (Machine.run_stricter (m := .start p s) rfl p.stepBound).bind
      (fun m _ hm => ?_) fun m r _ hr => ?_
    · exact .ok ((Machine.firstUse?_conclude m).trans hm)
    · cases hr
      exact ⟨_, by rw [Machine.conclude_eq]⟩
  · exact .error _

/-- A strict analysis is a lenient one that no use dangles in. If the lenient analysis ends with a
report without dangling uses, the strict one ends with the same report; if there are some, the
strict one ends with the first of them as its fault; and if the lenient one fails, the strict one
fails with the same fault or with a dangling use. -/
theorem analyze_strict (p : Procedure) (s : Settings) :
    (∀ r, analyze p { s with strictUses := false } = .ok r →
    (∀ d ∈ r.facts.diagnostics, d.kind ≠ .danglingUse) →
      analyze p { s with strictUses := true } = .ok r) ∧
    (∀ r d, analyze p { s with strictUses := false } = .ok r →
      r.facts.diagnostics.find? (·.kind = .danglingUse) = some d →
      ∃ base version stmt block,
        analyze p { s with strictUses := true } = .error (.danglingUse base version stmt block) ∧
        d = .ofFault (.danglingUse base version stmt block)) ∧
    (∀ fault, analyze p { s with strictUses := false } = .error fault →
      analyze p { s with strictUses := true } = .error fault ∨
      ∃ base version stmt block,
        analyze p { s with strictUses := true } =
            .error (.danglingUse base version stmt block)) := by
  have hstrict := analyze_stricter p s
  generalize analyze p { s with strictUses := false } = x, analyze p { s with strictUses := true } =
    y at hstrict ⊢
  cases hstrict with
  | @ok r h =>
    refine ⟨fun _ hr _ => hr, fun r' d hr hd => ?_, nofun⟩
    cases hr
    rw [Facts.firstUse?, hd] at h
    cases h
  | error fault => exact ⟨nofun, nofun, fun _ h => .inl h⟩
  | @stopped _ fault hdangles h =>
    obtain ⟨base, version, stmt, block, rfl⟩ := hdangles
    refine ⟨fun r hr hno => ?_, fun r d hr hd => ?_, fun _ _ => .inr ⟨_, _, _, _, rfl⟩⟩
    · have hmem := List.mem_of_find?_eq_some (h r hr)
      exact absurd rfl (hno _ hmem)
    · exact ⟨_, _, _, _, rfl, Option.some.inj (hd.symm.trans (h r hr))⟩

/-- A loop inside of another one, with a read of `b` in each. -/
def readsInLoops (created : String) : Draft where
  name := "reads in loops"
  blocks := [
    (⟨0⟩, [⟨⟨0⟩, 1, "new", .create created⟩]),
    (⟨1⟩, [⟨⟨1⟩, 2, "while", .other⟩]),
    (⟨2⟩, [⟨⟨2⟩, 3, "while", .other⟩]),
    (⟨3⟩, [⟨⟨3⟩, 4, "y = b[i]", .read ⟨"b", .expr "i"⟩⟩]),
    (⟨4⟩, [⟨⟨4⟩, 5, "y = b[j]", .read ⟨"b", .expr "j"⟩⟩]),
    (⟨5⟩, [⟨⟨5⟩, 6, "return", .other⟩])]
  edges := [(⟨0⟩, ⟨1⟩), (⟨1⟩, ⟨2⟩), (⟨2⟩, ⟨3⟩), (⟨3⟩, ⟨2⟩), (⟨2⟩, ⟨4⟩), (⟨4⟩, ⟨1⟩), (⟨1⟩, ⟨5⟩)]
  loops := [.blocks ⟨1⟩ ⟨5⟩, .blocks ⟨2⟩ ⟨4⟩]

theorem analyze_strict_readsInLoops :
    (∃ p r, (readsInLoops "b").build = .ok p ∧ r.facts.graph.nodes.size = 3 ∧
      analyze p { strictUses := false } = .ok r ∧ analyze p { strictUses := true } = .ok r) ∧
    (∃ p r base version stmt block, (readsInLoops "a").build = .ok p ∧
      analyze p { strictUses := false } = .ok r ∧
      r.facts.diagnostics.map (fun d => (d.kind, d.stmt)) =
      [(.danglingUse, some ⟨3⟩), (.danglingUse, some ⟨4⟩)] ∧ analyze p { strictUses := true } =
      .error (.danglingUse base version stmt block) ∧
      r.facts.diagnostics.head? = some (.ofFault (.danglingUse base version stmt block))) ∧
    (analyze waitsForever { strictUses := true } = .error (.blockNotProcessed ⟨9⟩) ∨
      ∃ base version stmt block,
        analyze waitsForever { strictUses := true } =
            .error (.danglingUse base version stmt block)) := by
  refine ⟨?_, ?_, ?_⟩
  · obtain ⟨p, r, hb, h, hP⟩ :=
      Draft.check_eq_true (d := readsInLoops "b") (s := { strictUses := false })
      (P := fun _ r => r.facts.diagnostics = [] ∧ r.facts.graph.nodes.size = 3) (by decide +kernel)
    obtain ⟨hnone, hsize⟩ := of_decide_eq_true hP
    exact ⟨p, r, hb, hsize, h, (analyze_strict p {}).1 r h (by simp [hnone])⟩
  · obtain ⟨p, r, hb, h, hP⟩ :=
      Draft.check_eq_true (d := readsInLoops "a") (s := { strictUses := false })
      (P := fun _ r => r.facts.diagnostics.map (fun d => (d.kind, d.stmt)) =
          [(.danglingUse, some ⟨3⟩), (.danglingUse, some ⟨4⟩)] ∧
        r.facts.diagnostics.find? (·.kind = .danglingUse) = r.facts.diagnostics.head? ∧
        r.facts.diagnostics.head?.isSome) (by decide +kernel)
    obtain ⟨hkinds, hfirst, hsome⟩ := of_decide_eq_true hP
    obtain ⟨d, hd⟩ := Option.isSome_iff_exists.1 hsome
    obtain ⟨base, version, stmt, block, hstrict, rfl⟩ :=
      (analyze_strict p {}).2.1 r d h (hfirst.trans hd)
    exact ⟨p, r, base, version, stmt, block, hb, h, hkinds, hstrict, hd⟩
  · exact (analyze_strict waitsForever {}).2.2 _ (failsWith_iff.1 (by decide +kernel))

end ArrayFlow
