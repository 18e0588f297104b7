import ArrayFlow.Proofs.Steps
import Mathlib.Logic.Relation

/-!
# The runs of the analysis

* `Machine.Leads`      : the steps from one state to another;
* `Machine.Reaches`    : the states that an analysis goes through;
* `Reaches.invariant`  : what every step keeps holds of all of them;
* `Reaches.enters_unique` : a block is entered once;
* `Machine.Before`     : the bindings and facts that the analysis comes to a statement with;
* `Machine.LiveAt`     : the bindings alone;
* `analyze_eq_ok`      : a report is made of the last state of a run.
-/

namespace ArrayFlow

variable {p : Procedure} {s : Settings}

namespace Machine

variable {m m' : Machine} {b : BlockId} {t : Bindings} {f f₁ : Facts}

/-! ## runs -/

/-- The steps from one state to another. -/
def Leads (p : Procedure) (s : Settings) : Machine → Machine → Prop :=
  Relation.ReflTransGen fun m m' => step p s m = .ok m'

/-- The states that the analysis goes through. -/
def Reaches (p : Procedure) (s : Settings) (m : Machine) : Prop := Leads p s (start p s) m

/-- What holds at the start and is kept by every step holds of every state that is reached. -/
theorem Reaches.invariant {P : Machine → Prop} (h : Reaches p s m) (hstart : P (start p s))
    (hstep : ∀ m m', Reaches p s m → P m → Step p s m m' → P m') : P m := by
  induction h with
  | refl => exact hstart
  | tail h h' ih => exact hstep _ _ h ih (step_cases h')

theorem leads_of_run {n : Nat} (hrun : run p s n m = .ok m') : Leads p s m m' := by
  induction n generalizing m with
  | zero =>
    cases hrun
    exact .refl
  | succ n ih =>
    rw [run] at hrun
    split at hrun
    · cases hrun
      exact .refl
    · rw [bind_eq_ok] at hrun
      obtain ⟨m₁, h₁, hrun⟩ := hrun
      exact .head h₁ (ih hrun)

theorem reaches_of_run {n : Nat} (h : Reaches p s m) (hrun : run p s n m = .ok m') :
    Reaches p s m' :=
  h.trans (leads_of_run hrun)

theorem Reaches.header_claimed (h : Reaches p s m) :
    ∀ r ∈ m.loops, m.facts.claimed r.header = true := by
  refine h.invariant (P := fun m => ∀ r ∈ m.loops, m.facts.claimed r.header = true)
    (by simp [start]) ?_
  intro m m' _ ih hstep r hr
  have hold : ∀ q ∈ m.loops, m'.facts.claimed q.header = true := fun q hq =>
    hstep.claimed_mono (ih q hq)
  have hhead : ∀ {q outer}, m.loops = q :: outer → m'.facts.claimed q.header = true := fun hl =>
    hold _ (by rw [hl]; exact List.mem_cons_self ..)
  cases hstep.loop hr with
  | kept hr => exact hold r (List.mem_of_mem_tail hr)
  | opened he hp hb =>
    rw [(LoopRun.opened_grown (p := p) _ _).header]
    cases hstep.change with
    | processed he' hp' hcore =>
      obtain ⟨rfl, -, -⟩ := he.deterministic he'
      rw [Facts.claimed_of_core hcore, Transfer.claimed_process hp']
      exact .inl rfl
    | ended hl he' _ _ => exact absurd he (he'.loops_ne hl)
    | none hn _ => exact absurd he (hn _ _ _)
  | nested hl => exact (hhead hl :)
  | looped hl _ _ _ _ hg =>
    rw [hg.header]
    exact (hhead hl :)
  | deferred hl => exact (hhead hl :)
  | returned hl _ _ hg =>
    rw [hg.header]
    exact hold _ (by rw [hl]; simp)

theorem Reaches.loop_header (hm : Reaches p s m) :
    ∀ h ∈ m.loops.map (·.header), p.isLoopHeader h = true := by
  refine hm.invariant (P := fun m => ∀ h ∈ m.loops.map (·.header), p.isLoopHeader h = true)
    (by simp [start]) ?_
  intro m m' _ ih hstep h hh
  rcases hstep.headers with ⟨b, t, f, -, hb, heq⟩ | heq | heq
  · rw [heq] at hh
    rcases List.mem_cons.1 hh with rfl | hh
    · exact hb
    · exact ih h hh
  · exact ih h (heq ▸ hh)
  · rw [heq, List.map_tail] at hh
    exact ih h (List.mem_of_mem_tail hh)

theorem Reaches.claimed_close (h : Reaches p s m) {r : LoopRun} (hr : r ∈ m.loops)
    (he : Ended s m r f) (hc : LoopRun.close f r = .ok f₁) : f₁.claimed = m.facts.claimed := by
  funext c
  have hf : f.claimed c = m.facts.claimed c := by rw [Facts.claimed, Facts.claimed, he.exposed_eq]
  rcases LoopRun.close_eq_ok hc with ⟨-, rfl⟩ | ⟨l, t, -, -, rfl⟩
  · exact hf
  · rw [Bool.eq_iff_iff, Facts.claimed_expose, hf]
    exact ⟨fun hc => hc.elim (fun heq => heq ▸ h.header_claimed r hr) id, .inr⟩

/-- Behind a step, what was processed before is processed, and the block that was entered. -/
theorem Reaches.claimed_step (h : Reaches p s m) (hstep : Step p s m m') :
    (∃ b t f, Enters p s m b t f ∧ ∀ c, m'.facts.claimed c = true ↔
      c = b ∨ m.facts.claimed c = true) ∨
      (∀ b t f, ¬ Enters p s m b t f) ∧ m'.facts.claimed = m.facts.claimed := by
  cases hstep.change with
  | processed he hp hcore =>
    refine .inl ⟨_, _, _, he, fun c => ?_⟩
    rw [Facts.claimed_of_core hcore, Transfer.claimed_process hp, he.claimed_eq]
  | ended hl he hclose hcore =>
    refine .inr ⟨fun b t f => he.loops_ne hl, ?_⟩
    rw [Facts.claimed_of_core hcore,
      h.claimed_close (by rw [hl]; exact List.mem_cons_self ..) he hclose]
  | none hn hcore => exact .inr ⟨hn, Facts.claimed_of_core hcore⟩

theorem Reaches.claimed_process (h : Reaches p s m) (hstep : Step p s m m')
    (he : Enters p s m b t f) (hp : Transfer.process s b p t f = .ok f₁) :
    m'.facts.claimed = f₁.claimed := by
  rcases h.claimed_step hstep with ⟨b', t', f', he', hc⟩ | ⟨hn, -⟩
  · obtain ⟨rfl, -, -⟩ := he.deterministic he'
    funext c
    rw [Bool.eq_iff_iff, hc, Transfer.claimed_process hp, he.claimed_eq]
  · exact absurd he (hn _ _ _)

theorem Reaches.claimed_of_enters (h : Reaches p s m) (hstep : Step p s m m')
    (he : Enters p s m b t f) :
    m'.facts.claimed b = true := by
  rcases h.claimed_step hstep with ⟨b', t', f', he', hc⟩ | ⟨hn, -⟩
  · exact (hc b).2 (.inl (he.deterministic he').1)
  · exact absurd he (hn _ _ _)

/-- A processed block was entered at some time. -/
theorem Reaches.entered (h : Reaches p s m) (hc : m.facts.claimed b = true) :
    ∃ m₀ t f f₁, Reaches p s m₀ ∧ Enters p s m₀ b t f ∧ Transfer.process s b p t f = .ok f₁ := by
  revert hc
  refine h.invariant (P := fun m => m.facts.claimed b = true →
    ∃ m₀ t f f₁, Reaches p s m₀ ∧ Enters p s m₀ b t f ∧ Transfer.process s b p t f = .ok f₁) ?_ ?_
  · simp [start]
  · intro m m' hm ih hstep hc
    by_cases hold : m.facts.claimed b = true
    · exact ih hold
    · rcases hm.claimed_step hstep with ⟨b', t, f, he, hcl⟩ | ⟨-, hcl⟩
      · rcases (hcl b).1 hc with rfl | hc
        · cases hstep.change with
          | processed he' hp _ =>
            obtain ⟨rfl, rfl, rfl⟩ := he.deterministic he'
            exact ⟨m, _, _, _, hm, he, hp⟩
          | ended hl he' _ _ => exact absurd he (he'.loops_ne hl)
          | none hn _ => exact absurd he (hn _ _ _)
        · exact absurd hc hold
      · exact absurd (hcl ▸ hc) hold

/-- Of two states of one analysis, one comes before the other. -/
theorem Reaches.total {m₁ m₂ : Machine} (h₁ : Reaches p s m₁) (h₂ : Reaches p s m₂) :
    Leads p s m₁ m₂ ∨ Leads p s m₂ m₁ := by
  refine Relation.ReflTransGen.total_of_right_unique ?_ h₁ h₂
  intro a b c hb hc
  rw [hb] at hc
  exact Except.ok.inj hc

theorem Leads.claimed (h : Leads p s m m') (hc : m.facts.claimed b = true) :
    m'.facts.claimed b = true := by
  induction h with
  | refl => exact hc
  | tail _ hstep ih => exact (step_cases hstep).claimed_mono ih

theorem Leads.unclaimed (h : Leads p s m m') (hc : m'.facts.claimed b = false) :
    m.facts.claimed b = false := by
  rw [← Bool.not_eq_true] at hc ⊢
  exact fun hclaimed => hc (h.claimed hclaimed)

/-- A block is entered in one state only. -/
theorem Reaches.eq_of_enters {m₁ m₂ : Machine} {t₁ t₂ : Bindings} {f₁ f₂ : Facts}
    (h₁ : Reaches p s m₁) (h₂ : Reaches p s m₂) (he₁ : Enters p s m₁ b t₁ f₁)
    (he₂ : Enters p s m₂ b t₂ f₂) : m₁ = m₂ := by
  have later : ∀ {m₁ m₂ : Machine} {t₁ t₂ : Bindings} {f₁ f₂ : Facts}, Reaches p s m₁ →
    Leads p s m₁ m₂ →
      Enters p s m₁ b t₁ f₁ → Enters p s m₂ b t₂ f₂ → m₁ = m₂ := by
    intro m₁ m₂ t₁ t₂ f₁ f₂ h₁ h he₁ he₂
    rcases Relation.ReflTransGen.cases_head h with rfl | ⟨m', hm', hrest⟩
    · rfl
    · exfalso
      have hc := Leads.claimed hrest (h₁.claimed_of_enters (step_cases hm') he₁)
      rw [he₂.unclaimed] at hc
      cases hc
  rcases h₁.total h₂ with h | h
  · exact later h₁ h he₁ he₂
  · exact (later h₂ h he₂ he₁).symm

/-- A block is entered once. -/
theorem Reaches.enters_unique {m₁ m₂ : Machine} {t₁ t₂ : Bindings} {f₁ f₂ : Facts}
    (h₁ : Reaches p s m₁) (h₂ : Reaches p s m₂) (he₁ : Enters p s m₁ b t₁ f₁)
    (he₂ : Enters p s m₂ b t₂ f₂) : t₁ = t₂ ∧ f₁ = f₂ := by
  obtain rfl := h₁.eq_of_enters h₂ he₁ he₂
  exact (he₁.deterministic he₂).2

/-- The analysis comes to statement number `i` of the block `b` with the bindings `t` and the facts
`f`. -/
def Before (p : Procedure) (s : Settings) (b : BlockId) (i : Nat) (t : Bindings)
    (f : Facts) : Prop :=
  ∃ m t₀ f₀, Reaches p s m ∧ Enters p s m b t₀ f₀ ∧
    Transfer.statements s b ((p.statementsOf b).take i) t₀ f₀ = .ok (t, f)

theorem Before.unique {i : Nat} {t' : Bindings} {f' : Facts} (h : Before p s b i t f)
    (h' : Before p s b i t' f') :
    t = t' ∧ f = f' := by
  obtain ⟨m, t₀, f₀, hr, he, hs⟩ := h
  obtain ⟨m', t₀', f₀', hr', he', hs'⟩ := h'
  obtain ⟨rfl, rfl⟩ := hr.enters_unique hr' he he'
  rw [hs] at hs'
  cases hs'
  exact ⟨rfl, rfl⟩

theorem Reaches.before (h : Reaches p s m) (hc : m.facts.claimed b = true) (i : Nat) :
    ∃ t f, Before p s b i t f := by
  obtain ⟨m₀, t₀, f₀, f₁, hr, he, hp⟩ := h.entered hc
  obtain ⟨t', f', hs, -⟩ := Transfer.process_eq_ok.1 hp
  rw [← List.take_append_drop i (p.statementsOf b), Transfer.statements_append, bind_eq_ok] at hs
  obtain ⟨⟨t, f⟩, ht, -⟩ := hs
  exact ⟨t, f, m₀, t₀, f₀, hr, he, ht⟩

/-- In the analysis, `t` are the bindings before statement number `i` of the block `b`. -/
def LiveAt (p : Procedure) (s : Settings) (b : BlockId) (i : Nat) (t : Bindings) : Prop :=
  ∃ f, Before p s b i t f

theorem LiveAt.unique {i : Nat} {t₁ t₂ : Bindings} (h₁ : LiveAt p s b i t₁)
    (h₂ : LiveAt p s b i t₂) : t₁ = t₂ := by
  obtain ⟨f₁, h₁⟩ := h₁
  obtain ⟨f₂, h₂⟩ := h₂
  exact (h₁.unique h₂).1

/-! ## the report -/

/-- At the end the merges that were left over are reported, and nothing else changes. -/
theorem conclude_eq (m : Machine) :
    m.conclude = { m.facts with
      diagnostics := m.facts.diagnostics ++
        (m.pending.toList.filter fun b => !m.facts.claimed b).map .unreachableMerge } := by
  unfold conclude
  generalize (m.pending.toList.filter fun b => !m.facts.claimed b) = bs
  have key : ∀ f : Facts, bs.foldl (fun f b => f.report (.unreachableMerge b)) f =
      { f with diagnostics := f.diagnostics ++ bs.map .unreachableMerge } := by
    induction bs with
    | nil => simp
    | cons b bs ih =>
      intro f
      rw [List.foldl_cons, ih]
      simp [Facts.report]
  exact key m.facts

end Machine

/-- A report is made of the last state of a run. -/
theorem analyze_eq_ok {r : Report} (h : analyze p s = .ok r) :
    p.contains p.entry = true ∧
      ∃ m, Machine.run p s p.stepBound (.start p s) = .ok m ∧ Machine.Reaches p s m ∧
        r = ⟨p.name, m.conclude⟩ := by
  unfold analyze at h
  split at h
  · rename_i hc
    simp only [bind_eq_ok, pure_eq_ok] at h
    obtain ⟨m, hm, rfl⟩ := h
    exact ⟨hc, m, hm, Machine.reaches_of_run .refl hm, rfl⟩
  · cases h

/-- Is there a result, and does `P` hold of it? -/
def checkOk {ε α : Type} (x : Except ε α) (P : α → Bool) : Bool :=
  match x with
  | .ok a => P a
  | .error _ => false

theorem checkOk_eq_true {ε α : Type} {x : Except ε α} {P : α → Bool} (h : checkOk x P = true) :
    ∃ a, x = .ok a ∧ P a = true := by
  unfold checkOk at h
  split at h
  · exact ⟨_, rfl, h⟩
  · cases h

/-- Can the procedure of a draft be built and analysed, with a report of which `P` holds? -/
def Draft.check (d : Draft) (s : Settings) (P : Procedure → Report → Bool) : Bool :=
  match d.build with
  | .ok p =>
    match analyze p s with
    | .ok r => P p r
    | .error _ => false
  | .error _ => false

theorem Draft.check_eq_true {d : Draft} {P : Procedure → Report → Bool} (h : d.check s P = true) :
    ∃ p r, d.build = .ok p ∧ analyze p s = .ok r ∧ P p r = true := by
  unfold check at h
  split at h
  · rename_i p hp
    split at h
    · rename_i r hr
      exact ⟨p, r, hp, hr, h⟩
    · cases h
  · cases h

end ArrayFlow
