import ArrayFlow.Proofs.Pruning

/-!
# Which faults stop an analysis

Most faults are noted and passed over. What stops an analysis is a missing entry, a dangling use if
the settings say so, or a loop that asks for a block which was not processed.

* `Transfer.statement_strict` : a statement under strict settings, compared with the same statement
  under lenient ones;
* `OnlyUnready`      : a computation that fails only for want of a block that was not processed;
* `Machine.Work`     : what a step comes to, whatever is done about dangling uses; `step_work` says
  that every step does;
* `step_eq_error`    : why a step fails;
* `analyze_eq_error` : a fault of an analysis is that of one of its steps, or the entry is missing;
* `analyze_faults`   : so there are three kinds of faults that an analysis can end with.
-/

namespace ArrayFlow

/-! ## faults of statements -/

/-- The fault is a use without a definition. -/
def Fault.Dangles (fault : Fault) : Prop :=
  ∃ base version stmt block, fault = .danglingUse base version stmt block

namespace Transfer

variable {s l : Settings} {p : Procedure} {b : BlockId} {t : Bindings} {f f₁ : Facts}
  {stmt : Statement} {fault : Fault} {x : Bindings × Facts}

theorem recover_strict (hs : s.strictUses = true) (h : fault.Dangles) :
    f.recover s fault = .error fault := by
  obtain ⟨_, _, _, _, rfl⟩ := h
  simp [Facts.recover, hs]

theorem read_strict {a : Access} (hs : s.strictUses = true) (hact : stmt.action = .read a)
    (h : read l b stmt a t f = .ok x) :
    (finding? b t f stmt = none ∧ read s b stmt a t f = .ok x) ∨
      ∃ fault, fault.Dangles ∧ finding? b t f stmt = some (.ofFault fault) ∧
        read s b stmt a t f = .error fault := by
  simp only [finding?, hact]
  cases hv : t[a.base]? with
  | none =>
    refine .inr ⟨_, ⟨_, _, _, _, rfl⟩, rfl, ?_⟩
    simp only [read, Bindings.markRead, hv, recover_strict hs ⟨_, _, _, _, rfl⟩]
    rfl
  | some v =>
    simp only [read, Bindings.markRead, hv] at h ⊢
    cases huse : f.graph.addUse (.ofStatement .uses stmt a.base v.markRead a.index b) with
    | mk result g =>
      cases result with
      | ok e =>
        rw [huse] at h
        exact .inl ⟨if_neg (slot_ne_nil_of_use (congrArg Prod.fst huse)), h⟩
      | error fault =>
        obtain ⟨hslot, rfl⟩ := use_eq_error.1 (congrArg Prod.fst huse)
        refine .inr ⟨_, ⟨_, _, _, _, rfl⟩, if_pos hslot, ?_⟩
        simp only [recover_strict hs ⟨_, _, _, _, rfl⟩]
        rfl

/-- Under strict settings a statement does what it does under lenient ones, unless it has a finding:
then it fails, with the use that dangles. -/
theorem statement_strict (hs : s.strictUses = true) (h : statement l b t f stmt = .ok x) :
    (finding? b t f stmt = none ∧ statement s b t f stmt = .ok x) ∨
      ∃ fault, fault.Dangles ∧ finding? b t f stmt = some (.ofFault fault) ∧
        statement s b t f stmt = .error fault := by
  unfold statement at h ⊢
  cases hact : stmt.action with
  | read a =>
    simp only [hact] at h ⊢
    exact read_strict hs hact h
  | write a | create base | rename source target | other =>
    simp only [hact] at h ⊢
    exact .inl ⟨by simp [finding?, hact], h⟩

theorem statement_eq_error (h : statement s b t f stmt = .error fault) :
    s.strictUses = true ∧ fault.Dangles := by
  obtain ⟨x, hx⟩ := statement_lenient (s := { s with strictUses := false }) (b := b) (t := t)
    (f := f) rfl stmt
  cases hs : s.strictUses with
  | false =>
    obtain ⟨y, hy⟩ := statement_lenient (b := b) (t := t) (f := f) hs stmt
    rw [h] at hy
    cases hy
  | true =>
    rcases statement_strict hs hx with ⟨-, hok⟩ | ⟨fault', hd, -, herr⟩
    · rw [h] at hok
      cases hok
    · rw [h] at herr
      cases herr
      exact ⟨rfl, hd⟩

theorem statements_eq_error {stmts : List Statement} (h : statements s b stmts t f = .error fault) :
    s.strictUses = true ∧ fault.Dangles := by
  induction stmts generalizing t f with
  | nil => cases h
  | cons stmt rest ih =>
    rw [statements_cons] at h
    rcases bind_eq_error.1 h with h | ⟨x, -, h⟩
    · exact statement_eq_error h
    · exact ih h

theorem process_eq_error (h : process s b p t f = .error fault) :
    s.strictUses = true ∧ fault.Dangles := by
  rcases bind_eq_error.1 h with h | ⟨x, -, h⟩
  · exact statements_eq_error h
  · cases h

end Transfer

/-! ## blocks that are asked for too early -/

/-- The computation fails only for want of a block that was not processed. -/
def OnlyUnready {α : Type} (x : Except Fault α) : Prop :=
  ∀ fault, x = .error fault → ∃ b, fault = .blockNotProcessed b

namespace OnlyUnready

variable {α β : Type} {p : Procedure} {s : Settings} {f : Facts} {b : BlockId}

theorem ok (a : α) : OnlyUnready (.ok a) := nofun

theorem bind {x : Except Fault α} {k : α → Except Fault β} (hx : OnlyUnready x)
    (hk : ∀ a, OnlyUnready (k a)) :
    OnlyUnready (x >>= k) := by
  intro fault h
  rcases bind_eq_error.1 h with h | ⟨a, -, h⟩
  · exact hx fault h
  · exact hk a fault h

theorem mapM {k : α → Except Fault β} (hk : ∀ a, OnlyUnready (k a)) (l : List α) :
    OnlyUnready (l.mapM k) := by
  induction l with
  | nil => exact ok _
  | cons a l ih =>
    rw [List.mapM_cons]
    exact (hk a).bind fun _ => ih.bind fun _ => ok _

theorem foldlM {k : α → β → Except Fault α} (hk : ∀ a c, OnlyUnready (k a c)) (l : List β) (a : α) :
    OnlyUnready (l.foldlM k a) := by
  induction l generalizing a with
  | nil => exact ok a
  | cons c l ih =>
    rw [List.foldlM_cons]
    exact (hk a c).bind fun a => ih a

theorem get (x : Exposed) (b : BlockId) : OnlyUnready (x.get b) := by
  unfold Exposed.get
  split
  · exact ok _
  · intro fault h
    cases h
    exact ⟨b, rfl⟩

theorem merge (line : Nat) (preds : List BlockId) :
    OnlyUnready (Merge.predecessors s f b line preds) := by
  refine (mapM (get f.exposed) preds).bind fun tables => ?_
  split <;> exact ok _

theorem entry (header b : BlockId) : OnlyUnready (LoopRun.entry p s f header b) := by
  unfold LoopRun.entry
  split
  · exact ok _
  · split
    · exact ok _
    · exact (get _ _).bind fun _ => ok _
  · dsimp only
    split
    · split
      · intro fault h
        cases h
        exact ⟨_, rfl⟩
      · exact (merge _ _).bind fun _ => ok _
    · split
      · exact (merge _ _).bind fun _ => ok _
      · exact ok _

theorem close (r : LoopRun) : OnlyUnready (LoopRun.close f r) := by
  unfold LoopRun.close
  split
  · exact (get _ _).bind fun _ => ok _
  · exact ok _

theorem follow (m : Machine) (es : List (BlockId × BlockId)) :
    OnlyUnready (Machine.follow p m es) := by
  refine foldlM (fun m e => ?_) _ m
  unfold Machine.followEdge
  dsimp only
  split
  · exact ok _
  · exact (get _ _).bind fun _ => ok _

theorem leave (m : Machine) (r : LoopRun) (outer : List LoopRun) :
    OnlyUnready (Machine.leave p m f r outer) := by
  refine (close r).bind fun f₁ => ?_
  cases outer with
  | nil => exact follow _ _
  | cons o rest => exact ok _

theorem defer (m : Machine) (r : LoopRun) (outer : List LoopRun) (b : BlockId) :
    OnlyUnready (Machine.defer p m r outer b) := by
  unfold Machine.defer
  dsimp only
  split
  · intro fault h
    cases h
    exact ⟨_, rfl⟩
  · exact ok _

end OnlyUnready

/-! ## what a step comes to -/

namespace Machine

variable {p : Procedure} {s : Settings} {m m' : Machine} {b : BlockId} {t : Bindings} {f f₁ : Facts}
  {fault : Fault}

/-- What a step comes to, where `x` gives its result for both ways to treat dangling uses. -/
inductive Work (p : Procedure) (s : Settings) (m : Machine) (x : Bool → Except Fault Machine) : Prop
  /-- A block is processed; what comes behind it neither fails nor reports anything. -/
  | processes {b : BlockId} {t : Bindings} {f : Facts} (k : Facts → Except Fault Machine)
      (he : Enters p s m b t f)
      (hx : ∀ strict, x strict = Transfer.process { s with strictUses := strict } b p t f >>= k)
      (hk : ∀ f₁, f₁.claimed b = true → ∃ m', k f₁ = .ok m' ∧ m'.facts.diagnostics = f₁.diagnostics)
  /-- No block is processed, so that it does not matter what is done about dangling uses. Only a
  loop can fail then. -/
  | other (y : Except Fault Machine) (hn : ∀ b t f, ¬ Enters p s m b t f)
      (hx : ∀ strict, x strict = y)
      (hy : ∀ fault, y = .error fault → m.loops ≠ [] ∧ ∃ b, fault = .blockNotProcessed b)

namespace Work

theorem enter {m₀ : Machine} (he : Enters p s m b t m₀.facts) :
    Work p s m fun strict => enter p { s with strictUses := strict } m₀ b t := by
  refine .processes (fun f₁ => if p.isLoopHeader b then
      .ok { m₀ with facts := (LoopRun.opened p f₁ b).1, loops :=
      (LoopRun.opened p f₁ b).2 :: m₀.loops }
    else follow p { m₀ with facts := f₁ } (p.edgesFrom b)) he (fun _ => rfl) fun f₁ hb => ?_
  split
  · exact ⟨_, rfl, Facts.diagnostics_of_core (LoopRun.opened_grown f₁ b).core⟩
  · have hsrc : ∀ e ∈ p.edgesFrom b, f₁.claimed e.1 = true := by
      intro e hmem
      obtain ⟨c, -, rfl⟩ := List.mem_map.1 hmem
      exact hb
    obtain ⟨m', hm'⟩ := follow_isOk (p := p) (m := { m₀ with facts := f₁ }) hsrc
    exact ⟨m', hm', Facts.diagnostics_of_core (follow_eq_ok hm').1⟩

theorem enterMerged {m₀ : Machine} {preds : List BlockId} (hfacts : m₀.facts = m.facts)
    (hready : ∀ c ∈ preds, m.facts.claimed c = true)
    (he : ∀ t f, Merge.predecessors s m.facts b (p.headLine b) preds = .ok (t, f) →
      Enters p s m b t f) :
    Work p s m fun strict => enterMerged p { s with strictUses := strict } m₀ b preds := by
  obtain ⟨t, f, hm⟩ : ∃ t f, Merge.predecessors s m.facts b (p.headLine b) preds = .ok (t, f) :=
    Merge.predecessors_isOk hready
  have heq : ∀ strict, Machine.enterMerged p { s with strictUses := strict } m₀ b preds =
      Machine.enter p { s with strictUses := strict } { m₀ with facts := f } b t := by
    intro strict
    -- merges do not look at this setting
    have hm' : Merge.predecessors { s with strictUses := strict } m₀.facts b (p.headLine b) preds =
      .ok (t, f) :=
      hfacts ▸ hm
    rw [Machine.enterMerged, hm']
    rfl
  simp only [heq]
  exact Work.enter (he t f hm)

theorem visit {visits : List (BlockId × Bindings)} (hl : m.loops = [])
    (hv : m.visits = (b, t) :: visits) :
    Work p s m fun strict => visit p { s with strictUses := strict } { m with visits :=
  visits } b t := by
  unfold Machine.visit
  dsimp only
  by_cases hc : m.facts.claimed b = true
  · simp only [if_pos hc]
    exact .other _ (fun _ _ _ => not_enters_of_claimed hl hv hc) (fun _ => rfl) nofun
  · have hc' : m.facts.claimed b = false := by simpa using hc
    simp only [if_neg hc]
    by_cases h2 : (p.predecessors b).length < 2
    · simp only [if_pos h2]
      exact .enter (.brought hl hv hc' (.inl h2))
    · simp only [if_neg h2]
      by_cases hb : p.isLoopHeader b = true
      · simp only [if_pos hb]
        by_cases hr : (m.facts.exposed.readyOf (p.predecessors b)).length < 2
        · simp only [if_pos hr]
          exact .enter (.brought hl hv hc' (.inr ⟨hb, hr⟩))
        · simp only [if_neg hr]
          exact .enterMerged rfl (fun c hc => (Exposed.mem_readyOf.1 hc).2) fun t f hm =>
            .header hl hv hc' hb (by omega) hm
      · simp only [if_neg hb]
        by_cases hr : m.facts.exposed.allReady (p.predecessors b) = true
        · simp only [if_pos hr]
          exact .enterMerged rfl (Exposed.allReady_iff.1 hr) fun t f hm =>
            .merge hl hv hc' (by simpa using hb) (by omega) hr hm
        · simp only [if_neg hr]
          exact .other _ (fun _ _ _ =>
            not_enters_of_not_ready hl hv (by omega) (by simpa using hb) (by simpa using hr))
            (fun _ => rfl) nofun

theorem enterLooped {r : LoopRun} {outer : List LoopRun} (he : Enters p s m b t f) :
    Work p s m fun strict => enterLooped p { s with strictUses := strict } m r outer b t f := by
  refine .processes (fun f₁ => if p.isLoopHeader b then
      .ok ⟨(LoopRun.opened p f₁ b).1, m.pending.erase b, m.visits,
        (LoopRun.opened p f₁ b).2 :: { r with stalled := 0 } :: outer⟩
    else
      .ok ⟨(LoopRun.absorb p f₁ { r with stalled := 0 } (p.edgesFrom b)).1,
      m.pending.erase b, m.visits,
        (LoopRun.absorb p f₁ { r with stalled := 0 } (p.edgesFrom b)).2 :: outer⟩) he (fun _ =>
        rfl) fun f₁ _ => ?_
  split
  · exact ⟨_, rfl, Facts.diagnostics_of_core (LoopRun.opened_grown f₁ b).core⟩
  · exact ⟨_, rfl, Facts.diagnostics_of_core (LoopRun.absorb_grown f₁ _ _).core⟩

theorem take {r : LoopRun} {outer : List LoopRun} {queue : List BlockId} (hl : m.loops = r :: outer)
    (hq : r.queue = b :: queue) :
    Work p s m fun strict => take p { s with strictUses := strict } m { r with queue :=
  queue } outer b := by
  -- a loop that goes on without processing a block
  have hother : ∀ {y : Except Fault Machine}, (∀ b t f, ¬ Enters p s m b t f) → OnlyUnready y →
      Work p s m fun _ => y := fun hn hy => .other _ hn (fun _ => rfl) fun fault h =>
      ⟨by simp [hl], hy fault h⟩
  unfold Machine.take
  dsimp only
  by_cases ht : s.maxIterations < r.taken + 1
  · simp only [if_pos ht]
    exact hother (fun _ _ _ => (Ended.limit hq (by omega)).loops_ne hl) (.leave _ _ _)
  · simp only [if_neg ht]
    by_cases hc : m.facts.claimed b = true
    · simp only [if_pos hc]
      exact hother (fun _ _ _ => (Ended.reentry hq (by omega) hc).loops_ne hl) (.leave _ _ _)
    · simp only [if_neg hc]
      have hentry : ∀ strict, LoopRun.entry p { s with strictUses := strict } m.facts r.header b =
          LoopRun.entry p s m.facts r.header b := fun _ => rfl
      simp only [hentry]
      cases hm : LoopRun.entry p s m.facts r.header b with
      | error e =>
        refine hother (y := .error e) (fun _ _ _ he => ?_) fun fault h => ?_
        · cases he <;> simp_all
        · cases h
          exact OnlyUnready.entry _ _ e hm
      | ok result =>
        cases result with
        | none => exact hother (fun _ _ _ => not_enters_of_entry_none hl hq hm) (.defer _ _ _ _)
        | some x => exact .enterLooped (.looped hl hq (by omega) (by simpa using hc) hm)

end Work

/-- Every step comes to one of the two. -/
theorem step_work (p : Procedure) (s : Settings) (m : Machine) :
    Work p s m fun strict => step p { s with strictUses := strict } m := by
  unfold step
  split
  · rename_i r outer hl
    split
    · rename_i b queue hq
      exact .take hl hq
    · rename_i hq
      exact .other _ (fun _ _ _ => (Ended.drained hq).loops_ne hl) (fun _ => rfl) fun fault h =>
        ⟨by simp [hl], OnlyUnready.leave _ _ _ fault h⟩
  · rename_i b t visits hl hv
    exact .visit hl hv
  · rename_i hl hv
    split
    · rename_i b hr
      exact .enterMerged rfl (fun c hc => (Exposed.mem_readyOf.1 hc).2) fun t f hm =>
        .settled hl hv hr hm
    · rename_i hr
      exact .other _ (fun _ _ _ => not_enters_of_finished (by simp [Machine.finished, hl, hv, hr]))
        (fun _ => rfl) nofun

/-! ## faults of steps and runs -/

/-- A step fails because of a dangling use, or because a loop asks for a block that was not
processed. -/
theorem step_eq_error (h : step p s m = .error fault) :
    (s.strictUses = true ∧ fault.Dangles) ∨ m.loops ≠ [] ∧ ∃ b, fault = .blockNotProcessed b := by
  cases step_work p s m with
  | processes k he hx hk =>
    rcases bind_eq_error.1 ((hx s.strictUses).symm.trans h) with h | ⟨f₁, hp, h⟩
    · exact .inl (Transfer.process_eq_error h)
    · obtain ⟨m', hm', -⟩ := hk f₁ ((Transfer.claimed_process hp _).2 (.inl rfl))
      rw [hm'] at h
      cases h
  | other y hn hx hy => exact .inr (hy fault ((hx s.strictUses).symm.trans h))

theorem run_eq_error {n : Nat} (hm : Reaches p s m) (h : run p s n m = .error fault) :
    ∃ m', Reaches p s m' ∧ step p s m' = .error fault := by
  induction n generalizing m with
  | zero => cases h
  | succ n ih =>
    rw [run] at h
    split at h
    · cases h
    · rcases bind_eq_error.1 h with h | ⟨m₁, hs, h⟩
      · exact ⟨m, hm, h⟩
      · exact ih (hm.tail hs) h

end Machine

theorem Procedure.contains_of_isLoopHeader {p : Procedure} {b : BlockId}
    (h : p.isLoopHeader b = true) :
    p.contains b = true := by
  obtain ⟨σ, τ, hhead, -⟩ := Procedure.isLoopHeader_iff.1 h
  unfold head? statementsOf at hhead
  unfold contains
  cases hk : p.block? b with
  | none => simp [hk] at hhead
  | some k => rfl

variable {p : Procedure} {s : Settings} {fault : Fault}

theorem analyze_eq_error (h : analyze p s = .error fault) :
    (p.contains p.entry = false ∧ fault = .blockNotFound p.entry) ∨
      p.contains p.entry = true ∧ ∃ m, Machine.Reaches p s m ∧
        Machine.step p s m = .error fault := by
  unfold analyze at h
  split at h
  · rename_i hc
    rcases bind_eq_error.1 h with h | ⟨m, -, h⟩
    · exact .inr ⟨hc, Machine.run_eq_error .refl h⟩
    · cases h
  · rename_i hc
    cases h
    exact .inl ⟨by simpa using hc, rfl⟩

/-- The faults that an analysis can end with. The entry is missing exactly when no block carries its
name. A dangling use stops the analysis under strict settings only, and it asks for a block that was
not processed only if some block is a loop header. No other fault gets out, so that a lenient
analysis without loop headers ends with a report. -/
theorem analyze_faults (p : Procedure) (s : Settings) :
    (analyze p s = .error (.blockNotFound p.entry) ↔ p.contains p.entry = false) ∧
    (∀ fault, analyze p s = .error fault →
      fault = .blockNotFound p.entry ∨
      (∃ base version stmt block, fault = .danglingUse base version stmt block) ∧
        s.strictUses = true ∨
      (∃ b, fault = .blockNotProcessed b) ∧ ∃ h, p.contains h = true ∧ p.isLoopHeader h = true) ∧
    (s.strictUses = false → p.contains p.entry = true →
    (∀ b, p.contains b = true → p.isLoopHeader b = false) →
      ∃ r, analyze p s = .ok r) := by
  have hfaults : ∀ fault, analyze p s = .error fault →
      (p.contains p.entry = false ∧ fault = .blockNotFound p.entry) ∨
      (fault.Dangles ∧ s.strictUses = true) ∨
      (∃ b, fault = .blockNotProcessed b) ∧ ∃ h, p.contains h = true ∧ p.isLoopHeader h = true := by
    intro fault h
    rcases analyze_eq_error h with hentry | ⟨-, m, hm, hstep⟩
    · exact .inl hentry
    · rcases Machine.step_eq_error hstep with ⟨hs, hd⟩ | ⟨hl, hb⟩
      · exact .inr (.inl ⟨hd, hs⟩)
      · obtain ⟨r, hr⟩ := List.exists_mem_of_ne_nil _ hl
        have hheader := hm.loop_header r.header (List.mem_map_of_mem hr)
        exact .inr (.inr ⟨hb, r.header, Procedure.contains_of_isLoopHeader hheader, hheader⟩)
  refine ⟨⟨fun h => ?_, fun h => ?_⟩, fun fault h => ?_, fun hs hentry hplain => ?_⟩
  · rcases hfaults _ h with ⟨hentry, -⟩ | ⟨⟨_, _, _, _, hd⟩, -⟩ | ⟨⟨_, hb⟩, -⟩
    · exact hentry
    · cases hd
    · cases hb
  · unfold analyze
    rw [if_neg (by simp [h])]
  · exact (hfaults fault h).imp_left And.right
  · cases h : analyze p s with
    | ok r => exact ⟨r, rfl⟩
    | error fault =>
      rcases hfaults fault h with ⟨hno, -⟩ | ⟨-, hstrict⟩ | ⟨-, b, hb, hheader⟩
      · rw [hentry] at hno
        cases hno
      · rw [hs] at hstrict
        cases hstrict
      · rw [hplain b hb] at hheader
        cases hheader

def failsWith {α : Type} (x : Except Fault α) (fault : Fault) : Bool :=
  match x with
  | .error e => e = fault
  | .ok _ => false

theorem failsWith_iff {α : Type} {x : Except Fault α} :
    failsWith x fault = true ↔ x = .error fault := by
  cases x <;> simp [failsWith]

/-- Block 1 heads a loop whose body waits for a block that is not there. -/
def waitsForever : Procedure where
  name := "waits forever"
  entry := ⟨0⟩
  blocks := [
    ⟨⟨0⟩, [⟨⟨0⟩, 1, "a = new", .create "a"⟩], [⟨1⟩], []⟩,
    ⟨⟨1⟩, [⟨⟨1⟩, 2, "while", .other⟩], [⟨2⟩, ⟨3⟩], [⟨0⟩, ⟨2⟩]⟩,
    ⟨⟨2⟩, [⟨⟨2⟩, 3, "y = b[i]", .read ⟨"b", .expr "i"⟩⟩], [⟨1⟩], [⟨1⟩, ⟨9⟩]⟩,
    ⟨⟨3⟩, [⟨⟨3⟩, 4, "y = b[i]", .read ⟨"b", .expr "i"⟩⟩], [], [⟨1⟩]⟩]
  loopExits := [⟨⟨1⟩, ⟨3⟩⟩]

theorem analyze_faults_waitsForever :
    waitsForever.contains ⟨0⟩ = true ∧
      analyze waitsForever {} = .error (.blockNotProcessed ⟨9⟩) ∧
      (∃ h, waitsForever.contains h = true ∧ waitsForever.isLoopHeader h = true) ∧
      analyze { waitsForever with loopExits := [] } { strictUses := true } =
        .error (.danglingUse "b" "none" (some ⟨3⟩) ⟨3⟩) ∧
      (∃ r, analyze { waitsForever with loopExits := [] } {} = .ok r) ∧
      analyze { waitsForever with entry := ⟨9⟩ } {} = .error (.blockNotFound ⟨9⟩) := by
  have hstuck : analyze waitsForever {} = .error (.blockNotProcessed ⟨9⟩) :=
    failsWith_iff.1 (by decide +kernel)
  refine ⟨rfl, hstuck, ?_, failsWith_iff.1 (by decide +kernel), ?_, ?_⟩
  · rcases (analyze_faults waitsForever {}).2.1 _ hstuck with h | ⟨⟨_, _, _, _, h⟩, -⟩ | ⟨-, h⟩
    · cases h
    · cases h
    · exact h
  · exact (analyze_faults { waitsForever with loopExits := [] } {}).2.2 rfl rfl fun b _ =>
      Procedure.isLoopHeader_of_loopExits rfl b
  · exact (analyze_faults { waitsForever with entry := ⟨9⟩ } {}).1.2 rfl

end ArrayFlow
