import ArrayFlow.Proofs.Exploration

/-!
# Two analyses in lockstep

What the analysis does next depends on the control-flow graph and on which blocks are processed, and
not on the bindings. So two analyses over one control-flow graph go the same way, and what relates
their facts block by block and merge by merge relates their reports.

* `Agree`            : two results are the same fault, or both are there and related;
* `Lockstep`         : what has to be known of two analyses: the control-flow graph is one, and
  blocks and merges keep the facts related;
* `Machine.Alike`    : two states with related facts and bindings that go on in the same way;
* `Lockstep.step`, `Lockstep.run` : they stay so, step by step;
* `Lockstep.reports` : so the reports are related, if there are any;
* `Lockstep.analyze` : the same for two analyses of one procedure.
-/

namespace ArrayFlow

/-! ## results that agree -/

/-- Both results are the same fault, or both are there and related. -/
inductive Agree {ε α β : Type} (R : α → β → Prop) : Except ε α → Except ε β → Prop
  | ok {a : α} {b : β} (h : R a b) : Agree R (.ok a) (.ok b)
  | error (e : ε) : Agree R (.error e) (.error e)

namespace Agree

variable {ε α β γ δ κ : Type} {R : α → β → Prop} {S : γ → δ → Prop} {x : Except ε α}
  {y : Except ε β}

theorem bind {f : α → Except ε γ} {g : β → Except ε δ} (h : Agree R x y)
    (hf : ∀ a b, R a b → Agree S (f a) (g b)) :
    Agree S (x >>= f) (y >>= g) := by
  cases h with
  | ok h => exact hf _ _ h
  | error e => exact .error e

theorem foldlM {f : α → κ → Except ε α} {g : β → κ → Except ε β} {l : List κ} {a : α}
    {b : β} (h : R a b) (hf : ∀ a b c, R a b → Agree R (f a c) (g b c)) :
    Agree R (l.foldlM f a) (l.foldlM g b) := by
  induction l generalizing a b with
  | nil => exact .ok h
  | cons c l ih =>
    rw [List.foldlM_cons, List.foldlM_cons]
    exact (hf a b c h).bind fun _ _ => ih

theorem foldlM_forall₂ {ι : Type} {S : κ → ι → Prop} {f : α → κ → Except ε α}
    {g : β → ι → Except ε β} {l : List κ} {l' : List ι} {a : α} {b : β}
    (hl : List.Forall₂ S l l') (h : R a b)
    (hf : ∀ a b c c', R a b → S c c' → Agree R (f a c) (g b c')) :
    Agree R (l.foldlM f a) (l'.foldlM g b) := by
  induction hl generalizing a b with
  | nil => exact .ok h
  | cons hc _ ih =>
    rw [List.foldlM_cons, List.foldlM_cons]
    exact (hf a b _ _ h hc).bind fun _ _ => ih

theorem mapM {f : κ → Except ε α} {g : κ → Except ε β} {l : List κ}
    (hf : ∀ c ∈ l, Agree R (f c) (g c)) :
    Agree (List.Forall₂ R) (l.mapM f) (l.mapM g) := by
  induction l with
  | nil => exact .ok .nil
  | cons c l ih =>
    rw [List.mapM_cons, List.mapM_cons]
    refine (hf c (by simp)).bind fun a b h => ?_
    exact (ih fun c' hc => hf c' (by simp [hc])).bind fun _ _ hs => .ok (.cons h hs)

theorem cases_eq (h : Agree R x y) :
    (∃ e, x = .error e ∧ y = .error e) ∨ ∃ a b, x = .ok a ∧ y = .ok b ∧ R a b := by
  cases h with
  | ok h => exact .inr ⟨_, _, rfl, rfl, h⟩
  | error e => exact .inl ⟨e, rfl, rfl⟩

end Agree

theorem isSome_of_rel {α β : Type} {R : α → β → Prop} {x : Option α} {y : Option β}
    (h : Option.Rel R x y) :
    y.isSome = x.isSome := by
  cases h with
  | some => rfl
  | none => rfl

theorem rel_of_map_eq {α β : Type} {φ : α → β} {x y : Option α} (h : x.map φ = y.map φ) :
    Option.Rel (fun a b => φ a = φ b) x y := by
  cases x with
  | none =>
    cases y with
    | none => exact .none
    | some => cases h
  | some =>
    cases y with
    | none => cases h
    | some => exact .some (Option.some.inj h)

theorem Exposed.get_agree {T : Bindings → Bindings → Prop} {x y : Exposed} {b : BlockId}
    (h : Option.Rel T x[b]? y[b]?) : Agree T (x.get b) (y.get b) := by
  unfold get
  generalize x[b]? = t, y[b]? = u at h ⊢
  cases h with
  | some ht => exact .ok ht
  | none => exact .error _

/-! ## what two analyses have in common -/

/-- The two analyses have one control-flow graph, and blocks and merges keep facts related by `F`,
of which the bindings are related by `T`. -/
structure Lockstep (p p' : Procedure) (s s' : Settings) (F : Facts → Facts → Prop)
    (T : Bindings → Bindings → Prop) :
    Prop where
  predecessors : ∀ b, p'.predecessors b = p.predecessors b
  successors : ∀ b, p'.successors b = p.successors b
  isLoopHeader : ∀ b, p'.isLoopHeader b = p.isLoopHeader b
  isLoopExit : ∀ a c, p'.isLoopExit a c = p.isLoopExit a c
  maxIterations : s'.maxIterations = s.maxIterations
  empty : T ∅ ∅
  exposed : ∀ {f f'}, F f f' → ∀ b : BlockId, Option.Rel T f.exposed[b]? f'.exposed[b]?
  flowTo : ∀ {f f' a c isBack}, F f f' → F (f.flowTo a c isBack) (f'.flowTo a c isBack)
  expose : ∀ {f f' t t' b}, F f f' → T t t' → F (f.expose b t) (f'.expose b t')
  report : ∀ {f f' d}, F f f' → F (f.report d) (f'.report d)
  process : ∀ {f f' t t' b}, F f f' → T t t' →
    Agree F (Transfer.process s b p t f) (Transfer.process s' b p' t' f')
  merge : ∀ {f f' b preds}, F f f' →
    Agree (fun x y => T x.1 y.1 ∧ F x.2 y.2) (Merge.predecessors s f b (p.headLine b) preds)
      (Merge.predecessors s' f' b (p'.headLine b) preds)

/-- Two states that go on in the same way: facts and waiting bindings are related, and all else is
equal. -/
structure Machine.Alike (F : Facts → Facts → Prop) (T : Bindings → Bindings → Prop)
    (m m' : Machine) : Prop where
  facts : F m.facts m'.facts
  pending : m'.pending = m.pending
  visits : List.Forall₂ (fun x y => y.1 = x.1 ∧ T x.2 y.2) m.visits m'.visits
  loops : m'.loops = m.loops

namespace Machine.Alike

variable {F : Facts → Facts → Prop} {T : Bindings → Bindings → Prop} {m m' : Machine}

theorem withFacts {f f' : Facts} (h : m.Alike F T m') (hf : F f f') :
    Alike F T { m with facts := f } { m' with facts := f' } := ⟨hf, h.pending, h.visits, h.loops⟩

theorem withPending (h : m.Alike F T m') (pending : Std.ExtTreeSet BlockId) :
    Alike F T { m with pending := pending } { m' with pending := pending } :=
  ⟨h.facts, rfl, h.visits, h.loops⟩

theorem withVisits {visits visits' : List (BlockId × Bindings)} (h : m.Alike F T m')
    (hv : List.Forall₂ (fun x y => y.1 = x.1 ∧ T x.2 y.2) visits visits') :
    Alike F T { m with visits := visits } { m' with visits := visits' } :=
  ⟨h.facts, h.pending, hv, h.loops⟩

theorem withLoops {loops loops' : List LoopRun} (h : m.Alike F T m') (hl : loops' = loops) :
    Alike F T { m with loops := loops } { m' with loops := loops' } :=
  ⟨h.facts, h.pending, h.visits, hl⟩

end Machine.Alike

theorem Machine.run_enough {p : Procedure} {s : Settings} {n : Nat} (h : p.stepBound ≤ n) :
    run p s n (start p s) = run p s p.stepBound (start p s) := by
  obtain ⟨k, rfl⟩ := Nat.exists_eq_add_of_le h
  rw [run_add]
  cases hrun : run p s p.stepBound (start p s) with
  | error fault => rfl
  | ok m => exact run_of_finished (run_finished hrun) k

namespace Lockstep

variable {p p' : Procedure} {s s' : Settings} {F : Facts → Facts → Prop}
  {T : Bindings → Bindings → Prop} {f f' : Facts} {t t' : Bindings} {b : BlockId} {r : LoopRun}
  {m m' : Machine}

theorem edgesFrom (L : Lockstep p p' s s' F T) (b : BlockId) : p'.edgesFrom b = p.edgesFrom b := by
  rw [Procedure.edgesFrom, Procedure.edgesFrom, L.successors]

/-! ### processed blocks -/

theorem claimed (L : Lockstep p p' s s' F T) (h : F f f') (b : BlockId) :
    f'.claimed b = f.claimed b := by
  rw [Facts.claimed, Facts.claimed, Exposed.isReady, Exposed.isReady,
    Std.ExtTreeMap.contains_eq_isSome_getElem?, Std.ExtTreeMap.contains_eq_isSome_getElem?,
    isSome_of_rel (L.exposed h b)]

theorem allReady (L : Lockstep p p' s s' F T) (h : F f f') (bs : List BlockId) :
    f'.exposed.allReady bs = f.exposed.allReady bs := by
  rw [Exposed.allReady, Exposed.allReady,
    show f'.exposed.isReady = f.exposed.isReady from funext (L.claimed h)]

theorem readyOf (L : Lockstep p p' s s' F T) (h : F f f') (bs : List BlockId) :
    f'.exposed.readyOf bs = f.exposed.readyOf bs := by
  rw [Exposed.readyOf, Exposed.readyOf,
    show f'.exposed.isReady = f.exposed.isReady from funext (L.claimed h)]

theorem get (L : Lockstep p p' s s' F T) (h : F f f') (b : BlockId) :
    Agree T (f.exposed.get b) (f'.exposed.get b) := Exposed.get_agree (L.exposed h b)

/-! ### loops -/

theorem seed (L : Lockstep p p' s s' F T) (h : F f f') (c : BlockId) :
    F (LoopRun.seed p (f, r) c).1 (LoopRun.seed p' (f', r) c).1 ∧
      (LoopRun.seed p' (f', r) c).2 = (LoopRun.seed p (f, r) c).2 := by
  unfold LoopRun.seed
  dsimp only
  rw [L.isLoopExit, L.claimed h, L.isLoopHeader]
  split
  · exact ⟨h, rfl⟩
  · split
    · exact ⟨L.flowTo h, rfl⟩
    · split
      · exact ⟨L.flowTo h, rfl⟩
      · exact ⟨L.flowTo h, rfl⟩

theorem opened (L : Lockstep p p' s s' F T) (h : F f f') (b : BlockId) :
    F (LoopRun.opened p f b).1 (LoopRun.opened p' f' b).1 ∧
      (LoopRun.opened p' f' b).2 = (LoopRun.opened p f b).2 := by
  unfold LoopRun.opened
  rw [L.successors]
  refine List.foldl_rel (r := fun (x y : Facts × LoopRun) => F x.1 y.1 ∧ y.2 = x.2) ⟨h, rfl⟩ ?_
  rintro c - ⟨g, r⟩ ⟨g', r'⟩ ⟨hg, rfl⟩
  exact L.seed hg c

theorem absorbEdge (L : Lockstep p p' s s' F T) (h : F f f') (e : BlockId × BlockId) :
    F (LoopRun.absorbEdge p (f, r) e).1 (LoopRun.absorbEdge p' (f', r) e).1 ∧
      (LoopRun.absorbEdge p' (f', r) e).2 = (LoopRun.absorbEdge p (f, r) e).2 := by
  unfold LoopRun.absorbEdge
  dsimp only
  rw [L.isLoopExit, L.claimed h, L.isLoopHeader]
  split
  · exact ⟨L.flowTo h, rfl⟩
  · split
    · exact ⟨h, rfl⟩
    · split
      · exact ⟨L.flowTo h, rfl⟩
      · exact ⟨L.flowTo h, rfl⟩

theorem absorb (L : Lockstep p p' s s' F T) (h : F f f') (es : List (BlockId × BlockId)) :
    F (LoopRun.absorb p f r es).1 (LoopRun.absorb p' f' r es).1 ∧
      (LoopRun.absorb p' f' r es).2 = (LoopRun.absorb p f r es).2 := by
  unfold LoopRun.absorb
  refine List.foldl_rel (r := fun (x y : Facts × LoopRun) => F x.1 y.1 ∧ y.2 = x.2) ⟨h, rfl⟩ ?_
  rintro e - ⟨g, r⟩ ⟨g', r'⟩ ⟨hg, rfl⟩
  exact L.absorbEdge hg e

theorem close (L : Lockstep p p' s s' F T) (h : F f f') :
    Agree F (LoopRun.close f r) (LoopRun.close f' r) := by
  unfold LoopRun.close
  split
  · exact (L.get h _).bind fun _ _ ht => .ok (L.expose h ht)
  · exact .ok h

theorem entry (L : Lockstep p p' s s' F T) (h : F f f') (header b : BlockId) :
    Agree (Option.Rel fun x y => T x.1 y.1 ∧ F x.2 y.2) (LoopRun.entry p s f header b)
      (LoopRun.entry p' s' f' header b) := by
  unfold LoopRun.entry
  rw [L.predecessors]
  split
  · exact .ok (.some ⟨L.empty, h⟩)
  · rw [L.isLoopExit]
    split
    · exact .ok (.some ⟨L.empty, h⟩)
    · exact (L.get h _).bind fun _ _ ht => .ok (.some ⟨ht, h⟩)
  · dsimp only
    rw [L.isLoopHeader, L.readyOf h, L.allReady h]
    split
    · split
      · exact .error _
      · exact (L.merge h).bind fun _ _ hx => .ok (.some hx)
    · split
      · exact (L.merge h).bind fun _ _ hx => .ok (.some hx)
      · exact .ok .none

theorem missing (L : Lockstep p p' s s' F T) (h : F f f') (b : BlockId) :
    LoopRun.missing p' f' b = LoopRun.missing p f b := by
  rw [LoopRun.missing, LoopRun.missing, L.predecessors,
    show f'.claimed = f.claimed from funext (L.claimed h)]

/-! ### the walk -/

theorem followEdge (L : Lockstep p p' s s' F T) (h : m.Alike F T m') (e : BlockId × BlockId) :
    Agree (Machine.Alike F T) (Machine.followEdge p m e) (Machine.followEdge p' m' e) := by
  unfold Machine.followEdge
  dsimp only
  rw [L.claimed h.facts, L.isLoopHeader]
  split
  · exact .ok (h.withFacts (L.flowTo h.facts))
  · refine (L.get h.facts _).bind fun t t' ht => ?_
    exact .ok ((h.withFacts (L.flowTo h.facts)).withVisits (.cons ⟨rfl, ht⟩ h.visits))

theorem follow (L : Lockstep p p' s s' F T) (h : m.Alike F T m') (es : List (BlockId × BlockId)) :
    Agree (Machine.Alike F T) (Machine.follow p m es) (Machine.follow p' m' es) :=
  Agree.foldlM h fun _ _ e h => L.followEdge h e

theorem enter (L : Lockstep p p' s s' F T) (h : m.Alike F T m') (ht : T t t') (b : BlockId) :
    Agree (Machine.Alike F T) (Machine.enter p s m b t) (Machine.enter p' s' m' b t') := by
  refine (L.process h.facts ht).bind fun g g' hg => ?_
  dsimp only
  rw [L.isLoopHeader, L.edgesFrom]
  split
  · obtain ⟨hf, hr⟩ := L.opened hg b
    exact .ok ((h.withFacts hf).withLoops (by rw [hr, h.loops]))
  · exact L.follow (h.withFacts hg) _

theorem enterMerged (L : Lockstep p p' s s' F T) (h : m.Alike F T m') (b : BlockId)
    (preds : List BlockId) :
    Agree (Machine.Alike F T) (Machine.enterMerged p s m b preds)
      (Machine.enterMerged p' s' m' b preds) := by
  refine (L.merge h.facts).bind ?_
  rintro ⟨u, g⟩ ⟨u', g'⟩ ⟨hu, hg⟩
  exact L.enter (h.withFacts hg) hu b

theorem visit (L : Lockstep p p' s s' F T) (h : m.Alike F T m') (ht : T t t') (b : BlockId) :
    Agree (Machine.Alike F T) (Machine.visit p s m b t) (Machine.visit p' s' m' b t') := by
  unfold Machine.visit
  dsimp only
  rw [L.predecessors, L.claimed h.facts, L.isLoopHeader, L.readyOf h.facts,
    L.allReady h.facts, h.pending]
  split
  · exact .ok h
  · split
    · exact L.enter h ht b
    · split
      · split
        · exact L.enter h ht b
        · exact L.enterMerged h b _
      · split
        · exact L.enterMerged (h.withPending _) b _
        · exact .ok (h.withPending _)

theorem resolvable (L : Lockstep p p' s s' F T) (h : m.Alike F T m') :
    m'.resolvable? p' = m.resolvable? p := by
  unfold Machine.resolvable?
  rw [h.pending]
  congr 1
  funext b
  rw [L.claimed h.facts, L.predecessors, L.readyOf h.facts]

theorem settle (L : Lockstep p p' s s' F T) (h : m.Alike F T m') (b : BlockId) :
    Agree (Machine.Alike F T) (Machine.settle p s m b) (Machine.settle p' s' m' b) := by
  unfold Machine.settle
  rw [L.predecessors, L.readyOf h.facts, h.pending]
  exact L.enterMerged (h.withPending _) b _

/-! ### steps -/

theorem leave (L : Lockstep p p' s s' F T) (h : m.Alike F T m') (hf : F f f') (r : LoopRun)
    (outer : List LoopRun) :
    Agree (Machine.Alike F T) (Machine.leave p m f r outer) (Machine.leave p' m' f' r outer) := by
  refine (L.close hf).bind fun g g' hg => ?_
  cases outer with
  | nil => exact L.follow ((h.withFacts hg).withLoops rfl) _
  | cons o rest =>
    obtain ⟨hf, ho⟩ := L.absorb (r := o) hg r.exits
    exact .ok ((h.withFacts hf).withLoops (congrArg (· :: rest) ho))

theorem enterLooped (L : Lockstep p p' s s' F T) (h : m.Alike F T m') (ht : T t t')
    (hf : F f f') (r : LoopRun) (outer : List LoopRun) (b : BlockId) :
    Agree (Machine.Alike F T) (Machine.enterLooped p s m r outer b t f)
      (Machine.enterLooped p' s' m' r outer b t' f') := by
  refine (L.process hf ht).bind fun g g' hg => ?_
  dsimp only
  rw [L.isLoopHeader, L.edgesFrom, h.pending]
  split
  · obtain ⟨hf, hr⟩ := L.opened hg b
    exact .ok (((h.withFacts hf).withPending _).withLoops (congrArg (· :: _) hr))
  · obtain ⟨hf, hr⟩ := L.absorb (r := { r with stalled := 0 }) hg (p.edgesFrom b)
    exact .ok (((h.withFacts hf).withPending _).withLoops (congrArg (· :: _) hr))

theorem defer (L : Lockstep p p' s s' F T) (h : m.Alike F T m') (r : LoopRun) (outer : List LoopRun)
    (b : BlockId) :
    Agree (Machine.Alike F T) (Machine.defer p m r outer b) (Machine.defer p' m' r outer b) := by
  unfold Machine.defer
  dsimp only
  rw [L.missing h.facts]
  split
  · exact .error _
  · exact .ok (h.withLoops rfl)

theorem take (L : Lockstep p p' s s' F T) (h : m.Alike F T m') (r : LoopRun) (outer : List LoopRun)
    (b : BlockId) :
    Agree (Machine.Alike F T) (Machine.take p s m r outer b) (Machine.take p' s' m' r outer b) := by
  unfold Machine.take
  dsimp only
  rw [L.maxIterations, L.claimed h.facts]
  split
  · exact L.leave h (L.report h.facts) _ outer
  · split
    · exact L.leave h (L.report h.facts) _ outer
    · refine (L.entry h.facts r.header b).bind fun x y hxy => ?_
      cases hxy with
      | some hx => exact L.enterLooped h hx.1 hx.2 _ outer b
      | none => exact L.defer h _ outer b

/-- Two states that go on in the same way fail in the same way, or go on to two such states. -/
theorem step (L : Lockstep p p' s s' F T) (h : m.Alike F T m') :
    Agree (Machine.Alike F T) (Machine.step p s m) (Machine.step p' s' m') := by
  unfold Machine.step
  rw [h.loops, L.resolvable h]
  have hvisits := h.visits
  cases hl : m.loops with
  | cons r outer =>
    dsimp only
    split
    · exact L.take h _ outer _
    · exact L.leave h h.facts r outer
  | nil =>
    generalize hv : m.visits = visits, hv' : m'.visits = visits' at hvisits
    cases hvisits with
    | @cons x y rest rest' hxy hrest =>
      obtain ⟨b, t⟩ := x
      obtain ⟨b', t'⟩ := y
      obtain ⟨rfl, ht⟩ := hxy
      exact L.visit ((h.withVisits hrest).withLoops rfl) ht b'
    | nil =>
      dsimp only
      split
      · exact L.settle h _
      · exact .ok h

theorem finished (L : Lockstep p p' s s' F T) (h : m.Alike F T m') :
    m'.finished p' = m.finished p := by
  have hvisits : m'.visits.isEmpty = m.visits.isEmpty := by
    have hrel := h.visits
    generalize m.visits = xs, m'.visits = ys at hrel ⊢
    cases hrel with
    | cons => rfl
    | nil => rfl
  rw [Machine.finished, Machine.finished, h.loops, hvisits, L.resolvable h]

theorem run (L : Lockstep p p' s s' F T) (h : m.Alike F T m') (n : Nat) :
    Agree (Machine.Alike F T) (Machine.run p s n m) (Machine.run p' s' n m') := by
  induction n generalizing m m' with
  | zero => exact .ok h
  | succ n ih =>
    rw [Machine.run, Machine.run, L.finished h]
    split
    · exact .ok h
    · exact (L.step h).bind fun _ _ => ih

theorem conclude (L : Lockstep p p' s s' F T) (h : m.Alike F T m') : F m.conclude m'.conclude := by
  unfold Machine.conclude
  rw [h.pending, show m'.facts.claimed = m.facts.claimed from funext (L.claimed h.facts)]
  exact List.foldl_rel (r := F) h.facts fun _ _ _ _ hf => L.report hf

/-- Two analyses in lockstep end with the same fault, or with related reports. -/
theorem reports (L : Lockstep p p' s s' F T) (hentry : p'.entry = p.entry)
    (hcontains : p'.contains p.entry = p.contains p.entry) (h : F (.start s) (.start s')) :
    Agree (fun r r' : Report => F r.facts r'.facts) (ArrayFlow.analyze p s)
      (ArrayFlow.analyze p' s') := by
  unfold ArrayFlow.analyze
  rw [hentry, hcontains]
  split
  · have hstart : (Machine.start p s).Alike F T (.start p' s') :=
      ⟨h, rfl, .cons ⟨hentry, L.empty⟩ .nil, rfl⟩
    -- the bounds may differ, but more steps than enough change nothing
    rw [← Machine.run_enough (Nat.le_max_left p.stepBound p'.stepBound),
      ← Machine.run_enough (Nat.le_max_right p.stepBound p'.stepBound)]
    exact (L.run hstart _).bind fun _ _ hm => .ok (L.conclude hm)
  · exact .error _

/-- Two analyses of a procedure in lockstep end with the same fault, or with related reports. -/
theorem analyze (L : Lockstep p p s s' F T) (h : F (.start s) (.start s')) :
    Agree (fun r r' : Report => F r.facts r'.facts) (analyze p s) (analyze p s') :=
  L.reports rfl rfl h

end Lockstep

end ArrayFlow
