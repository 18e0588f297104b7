import ArrayFlow.Proofs.Headers

/-!
# Merges that are left pending

A merge outside of loops waits for its predecessors. Where control does not come to one of them, the
merge is still pending when the walk is over, and is then settled with the predecessors that were
processed. The pending merges are settled in the order of their numbers, so that one may come before
another that lies in front of it.

* `Procedure.incoming` : the predecessors of a block that control can come to;
* `Procedure.Starved`  : control can come to the block, but not to all of its predecessors;
* `Machine.Awaited`    : the block is on the walk, or pending and short of a predecessor;
* `Reaches.awaited`    : what comes behind a processed block is processed or awaited, by induction
  on the run;
* `Reaches.exists_starved` : when the walk is over, a starved merge is pending in front of every
  block that control can come to and that was not processed;
* `analyze_merges_incoming` : a merge misses an incoming predecessor only where such a merge has a
  greater number, so that it misses none where numbers go along with control;
* `merge_misses_write` : a merge that is settled before the write in front of it.
-/

namespace ArrayFlow

namespace Procedure

open Classical in
/-- The predecessors of a block that control can come to. -/
noncomputable def incoming (p : Procedure) (b : BlockId) : List BlockId :=
  (p.predecessors b).filter p.Reachable

/-- Control can come to the block, but not to all of its predecessors. -/
def Starved (p : Procedure) (b : BlockId) : Prop :=
  p.Reachable b ∧ ∃ a ∈ p.predecessors b, ¬ p.Reachable a

theorem mem_incoming {p : Procedure} {a b : BlockId} : a ∈ p.incoming b ↔ a ∈ p.predecessors b ∧
    p.Reachable a := by
  classical
  simp [incoming]

end Procedure

open Procedure

namespace Machine

variable {p : Procedure} {s : Settings} {m m' : Machine} {a b c : BlockId}
  {t : Bindings} {f : Facts}

/-- Pending merges are settled in the order of their numbers. -/
theorem resolvable?_le (h : m.resolvable? p = some b) (hc : c ∈ m.pending)
    (hno : m.facts.claimed c = false) (ha : a ∈ p.predecessors c)
    (hready : m.facts.claimed a = true) : b.index ≤ c.index := by
  unfold resolvable? at h
  obtain ⟨-, before, behind, hlist, hbefore⟩ := List.find?_eq_some_iff_append.1 h
  have hmem := Std.ExtTreeSet.mem_toList.2 hc
  have hord := Std.ExtTreeSet.ordered_toList (t := m.pending)
  rw [hlist] at hmem hord
  rcases List.mem_append.1 hmem with hc | hc
  · have hne : m.facts.exposed.readyOf (p.predecessors c) ≠ [] :=
      List.ne_nil_of_mem (Exposed.mem_readyOf.2 ⟨ha, hready⟩)
    simpa [hno, hne] using hbefore c hc
  · rcases List.mem_cons.1 hc with rfl | hc
    · exact Nat.le_refl _
    · have hlt := (List.pairwise_cons.1 (List.pairwise_append.1 hord).2.1).1 c hc
      exact Nat.le_of_lt (Nat.compare_eq_lt.1 hlt)

/-! ## what waits, and what for -/

/-- The block is on the walk, or it is pending and some predecessor of it was not processed. -/
inductive Awaited (p : Procedure) (m : Machine) (c : BlockId) : Prop
  | visited {t : Bindings} (h : (c, t) ∈ m.visits)
  | pending {a : BlockId} (h : c ∈ m.pending) (ha : a ∈ p.predecessors c)
      (hno : m.facts.claimed a = false)

namespace Awaited

theorem of_enters (hl : m.loops = []) (hb : p.isLoopHeader b = false) (hstep : Step p s m m')
    (he : Enters p s m b t f) (hc : c ∈ p.successors b) (hno : m'.facts.claimed c = false) :
    Awaited p m' c := by
  cases hstep with
  | walked _ he' _ _ _ hf =>
    obtain ⟨rfl, -, -⟩ := he.deterministic he'
    rcases visited_of_follow hf (List.mem_map_of_mem hc) with hclaimed | ⟨t, hx⟩
    · rw [hno] at hclaimed
      cases hclaimed
    · exact .visited hx
  | opened _ he' _ hb' =>
    obtain ⟨rfl, -, -⟩ := he.deterministic he'
    rw [hb] at hb'
    cases hb'
  | skipped _ hv hcl => exact absurd he (not_enters_of_claimed hl hv hcl)
  | pended _ hv _ hpred hb hr => exact absurd he (not_enters_of_not_ready hl hv hpred hb hr)
  | finished hf => exact absurd he (not_enters_of_finished hf)
  | looped hl' => rw [hl] at hl'; cases hl'
  | nested hl' => rw [hl] at hl'; cases hl'
  | deferred hl' => rw [hl] at hl'; cases hl'
  | closed hl' => rw [hl] at hl'; cases hl'
  | returned hl' => rw [hl] at hl'; cases hl'

theorem step (hw : p.WellFormed) (hplain : ∀ b, p.isLoopHeader b = false) (hm : Reaches p s m)
    (hstep : Step p s m m') (h : Awaited p m c) (hno : m'.facts.claimed c = false) :
    Awaited p m' c := by
  cases h with
  | visited hx =>
    rcases hstep.visit_kept hm hx with hc | hx | ⟨hx, -, a, ha, hna⟩
    · rw [hno] at hc
      cases hc
    · exact .visited hx
    · exact .pending hx ha hna
  | @pending a hx ha hna =>
    rcases hstep.pending_kept hm hx with hc | hx
    · rw [hno] at hc
      cases hc
    · by_cases hclaimed : m'.facts.claimed a = true
      · -- the predecessor that was missing is the one that the step processes, and the walk comes back
        rcases hm.claimed_step hstep with ⟨b, t, f, he, hcl⟩ | ⟨-, hcl⟩
        · obtain rfl := ((hcl a).1 hclaimed).resolve_right (by simp [hna])
          exact of_enters (hm.loops_of_plain hplain) (hplain a) hstep he
            ((hw.mem_predecessors a c).1 ha) hno
        · rw [hcl, hna] at hclaimed
          cases hclaimed
      · exact .pending hx ha (by simpa using hclaimed)

end Awaited

/-- What comes behind a processed block is processed or awaited. -/
theorem Reaches.awaited (hw : p.WellFormed) (hplain : ∀ b, p.isLoopHeader b = false)
    (hm : Reaches p s m) :
    ∀ a c, m.facts.claimed a = true → c ∈ p.successors a → m.facts.claimed c = false →
      Awaited p m c := by
  refine hm.invariant (P := fun m => ∀ a c, m.facts.claimed a = true → c ∈ p.successors a →
    m.facts.claimed c = false → Awaited p m c) ?_ ?_
  · simp [start]
  · intro m m' hm ih hstep a c ha hc hno
    by_cases hold : m.facts.claimed a = true
    · have hbefore : m.facts.claimed c = false := by
        by_contra hclaimed
        rw [hstep.claimed_mono (by simpa using hclaimed)] at hno
        cases hno
      exact (ih a c hold hc hbefore).step hw hplain hm hstep hno
    · rcases hm.claimed_step hstep with ⟨b, t, f, he, hcl⟩ | ⟨-, hcl⟩
      · obtain rfl := ((hcl a).1 ha).resolve_right hold
        exact .of_enters (hm.loops_of_plain hplain) (hplain a) hstep he hc hno
      · exact absurd (hcl ▸ ha) hold

/-- When the walk is over, a starved merge that could be settled is pending in front of every block
that control can come to and that was not processed. -/
theorem Reaches.exists_starved (hw : p.WellFormed) (hplain : ∀ b, p.isLoopHeader b = false)
    (hacyclic : ∀ b, p.Reachable b → ¬ Relation.TransGen (fun a c => c ∈ p.successors a) b b)
    (hm : Reaches p s m) (hv : m.visits = []) (hentry : m.facts.claimed p.entry = true)
    (ha : p.Reachable a) (hno : m.facts.claimed a = false) :
    ∃ c ∈ m.pending, p.Starved c ∧ m.facts.claimed c = false ∧
      (∃ u ∈ p.predecessors c, m.facts.claimed u = true) ∧
      Relation.ReflTransGen (fun a c => c ∈ p.successors a) c a := by
  -- back along the edges as long as control comes from a block that was not processed
  induction hk : Acyclic.rank p a using Nat.strong_induction_on generalizing a with
  | _ k ih =>
    subst hk
    by_cases hback : ∃ u ∈ p.predecessors a, p.Reachable u ∧ m.facts.claimed u = false
    · obtain ⟨u, hpred, hu, hunclaimed⟩ := hback
      have hsucc := (hw.mem_predecessors u a).1 hpred
      obtain ⟨c, hc, hstarved, hcno, hready, hpath⟩ :=
        ih _ (Acyclic.rank_lt_of_irrefl (hacyclic u hu) hsucc) hu hunclaimed rfl
      exact ⟨c, hc, hstarved, hcno, hready, hpath.tail hsucc⟩
    · have hall : ∀ u ∈ p.predecessors a, p.Reachable u → m.facts.claimed u = true := by
        intro u hpred hu
        by_contra hunclaimed
        exact hback ⟨u, hpred, hu, by simpa using hunclaimed⟩
      rcases Relation.ReflTransGen.cases_tail ha with heq | ⟨u, hu, hsucc⟩
      · rw [heq, hentry] at hno
        cases hno
      · have hpred := (hw.mem_predecessors u a).2 hsucc
        have hready := hall u hpred hu
        cases hm.awaited hw hplain u a hready hsucc hno with
        | visited hx => rw [hv] at hx; cases hx
        | @pending w hx hw' hwno =>
          refine ⟨a, hx, ⟨ha, w, hw', fun hreach => ?_⟩, hno, ⟨u, hpred, hready⟩, .refl⟩
          rw [hall w hw' hreach] at hwno
          cases hwno

/-! ## merges -/

/-- Outside of loops a merge is entered with the predecessors that were processed: with all of them,
or when it is settled. -/
theorem Enters.merges_claimed (hl : m.loops = []) (hb : p.isLoopHeader b = false)
    (h2 : 2 ≤ (p.predecessors b).length) (he : Enters p s m b t f) :
    Merge.predecessors s m.facts b (p.headLine b) (m.facts.exposed.readyOf (p.predecessors b)) =
      .ok (t, f) ∧
      ((∀ a ∈ p.predecessors b, m.facts.claimed a = true) ∨ m.visits = [] ∧
        m.resolvable? p = some b) := by
  cases he with
  | brought _ _ _ hp =>
    rcases hp with hlt | ⟨hb', -⟩
    · omega
    · rw [hb] at hb'
      cases hb'
  | header _ _ _ hb' =>
    rw [hb] at hb'
    cases hb'
  | merge _ _ _ _ _ _ hmerge =>
    have hall := (Merge.predecessors_eq_ok hmerge).1
    have heq : m.facts.exposed.readyOf (p.predecessors b) = p.predecessors b :=
      List.filter_eq_self.2 hall
    rw [heq]
    exact ⟨hmerge, .inl hall⟩
  | settled _ hv hr hmerge => exact ⟨hmerge, .inr ⟨hv, hr⟩⟩
  | looped hl' =>
    rw [hl] at hl'
    cases hl'

/-- A merge misses a block that control can come to only if a starved merge in front of that block
has a greater number. -/
theorem Reaches.starved_of_missed (hw : p.WellFormed) (hplain : ∀ b, p.isLoopHeader b = false)
    (hacyclic : ∀ b, p.Reachable b → ¬ Relation.TransGen (fun a c => c ∈ p.successors a) b b)
    (hm : Reaches p s m) (h2 : 2 ≤ (p.predecessors b).length) (he : Enters p s m b t f)
    (ha : a ∈ p.incoming b) (hno : m.facts.claimed a = false) :
    ∃ c ∈ m.pending, p.Starved c ∧ Relation.ReflTransGen (fun a c => c ∈ p.successors a) c a ∧
      b.index < c.index := by
  obtain ⟨hpred, hreach⟩ := mem_incoming.1 ha
  rcases (he.merges_claimed (hm.loops_of_plain hplain) (hplain b) h2).2 with hall | ⟨hv, hr⟩
  · rw [hall a hpred] at hno
    cases hno
  · obtain ⟨w, hready⟩ := List.exists_mem_of_ne_nil _ (resolvable?_eq_some hr).2.2
    have hentry := hm.entry_first (Exposed.mem_readyOf.1 hready).2
    obtain ⟨c, hc, hstarved, hcno, ⟨u, hu, huready⟩, hpath⟩ :=
      hm.exists_starved hw hplain hacyclic hv hentry hreach hno
    have hle := resolvable?_le hr hc hcno hu huready
    have hne : b.index ≠ c.index := by
      intro heq
      obtain rfl : b = c := by cases b; cases c; simp_all
      exact hacyclic b hstarved.1
        (Relation.TransGen.tail' hpath ((hw.mem_predecessors a b).1 hpred))
    exact ⟨c, hc, hstarved, hpath, by omega⟩

theorem Reaches.table_kept (hplain : ∀ b, p.isLoopHeader b = false) (hm : Reaches p s m)
    (hpath : Leads p s m m') (ha : m.facts.claimed a = true) :
    m'.facts.exposed.table a = m.facts.exposed.table a := by
  induction hpath with
  | refl => rfl
  | @tail m₁ m₂ hpath hstep ih =>
    have hm₁ : Reaches p s m₁ := hm.trans hpath
    have hkept := (step_cases hstep).exposed_kept (Leads.claimed hpath ha)
      (by simp [hm₁.loops_of_plain hplain])
    rw [← ih, Exposed.table, Exposed.table, hkept]

end Machine

/-- Where no loops are declared and control does not come back to a block, a processed block with
several predecessors was entered with the merge of the predecessors that were processed by then, of
the bindings that they leave in the end, and control can come to all of them. It misses another one
that control can come to only if a starved merge in front of that one is still pending and has a
greater number. So it is entered with the merge of its incoming predecessors where the starved
merges in front of it have smaller numbers. -/
theorem analyze_merges_incoming {d : Draft} {p : Procedure} {s : Settings}
    {r : Report} {b : BlockId} (hb : d.build = .ok p) (hplain : ∀ c, p.isLoopHeader c = false)
    (hacyclic : ∀ c, p.Reachable c → ¬ Relation.TransGen (fun a c => c ∈ p.successors a) c c)
    (h : analyze p s = .ok r) (hc : r.facts.claimed b = true) (h2 : 2 ≤ (p.predecessors b).length) :
    (∃ m t f, Machine.Reaches p s m ∧ Machine.Enters p s m b t f) ∧
    ∀ m t f, Machine.Reaches p s m → Machine.Enters p s m b t f →
      Merge.predecessors s m.facts b (p.headLine b) ((p.predecessors b).filter m.facts.claimed) =
        .ok (t, f) ∧
      t = Merge.joined s b (p.headLine b)
        (((p.predecessors b).filter m.facts.claimed).map r.facts.exposed.table) ∧
      (∀ a ∈ p.predecessors b, m.facts.claimed a = true → a ∈ p.incoming b) ∧
      (∀ a ∈ p.incoming b, m.facts.claimed a = false → ∃ c ∈ m.pending, p.Starved c ∧
        Relation.ReflTransGen (fun a c => c ∈ p.successors a) c a ∧ b.index < c.index) ∧
      ((∀ c, p.Starved c → Relation.TransGen (fun a c => c ∈ p.successors a) c b →
        c.index < b.index) →
        (p.predecessors b).filter m.facts.claimed = p.incoming b) := by
  have hw : p.WellFormed := .of_build hb
  obtain ⟨-, m₁, -, hm₁, rfl⟩ := analyze_eq_ok h
  rw [Machine.conclude_eq] at hc ⊢
  obtain ⟨m₀, t₀, f₀, -, hm₀, he₀, -⟩ := hm₁.entered hc
  refine ⟨⟨m₀, t₀, f₀, hm₀, he₀⟩, fun m t f hm he => ?_⟩
  have hmerge := (he.merges_claimed (hm.loops_of_plain hplain) (hplain b) h2).1
  have hin : ∀ a ∈ p.predecessors b, m.facts.claimed a = true → a ∈ p.incoming b :=
      fun a hpred ha =>
    mem_incoming.2 ⟨hpred, hm.reachable.claimed a ha⟩
  have hmissed : ∀ a ∈ p.incoming b, m.facts.claimed a = false → ∃ c ∈ m.pending, p.Starved c ∧
      Relation.ReflTransGen (fun a c => c ∈ p.successors a) c a ∧ b.index < c.index :=
          fun a ha hno =>
    hm.starved_of_missed hw hplain hacyclic h2 he ha hno
  refine ⟨hmerge, ?_, hin, hmissed, fun hsmaller => ?_⟩
  · -- the end comes after the block was entered
    have hpath : Machine.Leads p s m m₁ := by
      refine (hm.total hm₁).resolve_right fun hback => ?_
      have hclaimed := Machine.Leads.claimed hback hc
      rw [he.unclaimed] at hclaimed
      cases hclaimed
    rw [(Merge.predecessors_eq_ok hmerge).2.1]
    congr 1
    exact List.map_congr_left fun a ha =>
      (hm.table_kept hplain hpath (Exposed.mem_readyOf.1 ha).2).symm
  · classical
    refine List.filter_congr fun a hpred => ?_
    rw [Bool.eq_iff_iff, decide_eq_true_iff]
    refine ⟨hm.reachable.claimed a, fun hreach => ?_⟩
    by_contra hno
    obtain ⟨c, -, hstarved, hto, hlt⟩ :=
      hmissed a (mem_incoming.2 ⟨hpred, hreach⟩) (by simpa using hno)
    have hgt := hsmaller c hstarved
      (Relation.TransGen.tail' hto ((hw.mem_predecessors a b).1 hpred))
    omega

/-- Two merges in a row, both of which wait for a block that control does not come to. -/
def starvedInTurn : Draft where
  name := "starved in turn"
  blocks := [(⟨0⟩, [⟨⟨0⟩, 1, "a = new", .create "a"⟩]), (⟨1⟩, [⟨⟨1⟩, 2, "skip", .other⟩]),
    (⟨2⟩, [⟨⟨2⟩, 3, "a[i] = x", .write ⟨"a", .expr "i"⟩⟩]),
    (⟨3⟩, [⟨⟨3⟩, 4, "y = a[i]", .read ⟨"a", .expr "i"⟩⟩])]
  edges := [(⟨0⟩, ⟨2⟩), (⟨1⟩, ⟨2⟩), (⟨0⟩, ⟨3⟩), (⟨1⟩, ⟨3⟩), (⟨2⟩, ⟨3⟩)]

theorem analyze_merges_incoming_starvedInTurn :
    ∃ p r m t f, starvedInTurn.build = .ok p ∧ analyze p {} = .ok r ∧
      (∀ c, p.isLoopHeader c = false) ∧
      (∀ c, p.Reachable c → ¬ Relation.TransGen (fun a c => c ∈ p.successors a) c c) ∧
      r.facts.claimed ⟨3⟩ = true ∧ 2 ≤ (p.predecessors ⟨3⟩).length ∧ p.Starved ⟨2⟩ ∧ p.Starved ⟨3⟩ ∧
      ⟨2⟩ ∈ p.incoming ⟨3⟩ ∧ Machine.Reaches p {} m ∧ Machine.Enters p {} m ⟨3⟩ t f ∧
      t = Merge.joined {} ⟨3⟩ (p.headLine ⟨3⟩) ((p.incoming ⟨3⟩).map r.facts.exposed.table) := by
  obtain ⟨p, r, hb, h, hP⟩ := Draft.check_eq_true (d := starvedInTurn) (s := {})
    (P := fun p r => p.loopExits = [] ∧ (∀ k ∈ p.blocks, ∀ c ∈ k.successors, k.id.index < c.index) ∧
      r.facts.claimed ⟨3⟩ = true ∧ p.entry = ⟨0⟩ ∧ p.successors ⟨0⟩ = [⟨2⟩, ⟨3⟩] ∧
      p.predecessors ⟨1⟩ = [] ∧ p.predecessors ⟨2⟩ = [⟨0⟩, ⟨1⟩] ∧
      p.predecessors ⟨3⟩ = [⟨0⟩, ⟨1⟩, ⟨2⟩]) (by decide +kernel)
  obtain ⟨hexits, hnum, hc, hentry, hzero, hone, htwo, hthree⟩ := of_decide_eq_true hP
  have hw : p.WellFormed := .of_build hb
  have hplain := isLoopHeader_of_loopExits hexits
  have hacyclic : ∀ c, p.Reachable c → ¬ Relation.TransGen (fun a c => c ∈ p.successors a) c c :=
      fun c _ =>
    not_cycle_of_key BlockId.index hnum c
  have hbehind : ∀ c ∈ p.successors ⟨0⟩, p.Reachable c := by
    intro c hsucc
    rw [← hentry] at hsucc
    exact .single hsucc
  have hdead : ¬ p.Reachable ⟨1⟩ := by
    intro hreach
    rcases Relation.ReflTransGen.cases_tail hreach with heq | ⟨a, -, hsucc⟩
    · simp [hentry] at heq
    · have hpred := (hw.mem_predecessors a ⟨1⟩).2 hsucc
      simp [hone] at hpred
  have h2 : 2 ≤ (p.predecessors ⟨3⟩).length := by simp [hthree]
  obtain ⟨⟨m, t, f, hm, he⟩, hall⟩ := analyze_merges_incoming hb hplain hacyclic h hc h2
  obtain ⟨-, ht, -, -, hexact⟩ := hall m t f hm he
  rw [hexact fun c _ hpath => key_lt_of_path BlockId.index hnum hpath] at ht
  exact ⟨p, r, m, t, f, hb, h, hplain, hacyclic, hc, h2,
    ⟨hbehind _ (by simp [hzero]), ⟨1⟩, by simp [htwo], hdead⟩,
    ⟨hbehind _ (by simp [hzero]), ⟨1⟩, by simp [hthree], hdead⟩,
    mem_incoming.2 ⟨by simp [hthree], hbehind _ (by simp [hzero])⟩, hm, he, ht⟩

/-- A write in front of a merge, which waits for a block that control does not come to. -/
def writeInFront (merge write : BlockId) : Draft where
  name := "write in front"
  blocks := [(⟨0⟩, [⟨⟨0⟩, 1, "a = new", .create "a"⟩]),
    (merge, [⟨⟨1⟩, 2, "y = a[i]", .read ⟨"a", .expr "i"⟩⟩]),
    (write, [⟨⟨2⟩, 3, "a[i] = x", .write ⟨"a", .expr "i"⟩⟩]), (⟨3⟩, [⟨⟨3⟩, 4, "skip", .other⟩])]
  edges := [(⟨0⟩, merge), (⟨0⟩, write), (write, merge), (⟨3⟩, write)]

theorem merge_misses_write :
    ∃ p r m t f, (writeInFront ⟨1⟩ ⟨2⟩).build = .ok p ∧ analyze p {} = .ok r ∧
      r.facts.diagnostics = [] ∧
      (∀ c, p.isLoopHeader c = false) ∧
      (∀ c, p.Reachable c → ¬ Relation.TransGen (fun a c => c ∈ p.successors a) c c) ∧
      r.facts.claimed ⟨1⟩ = true ∧ 2 ≤ (p.predecessors ⟨1⟩).length ∧
      (∀ a ∈ p.predecessors ⟨1⟩, p.Reachable a) ∧
      Machine.Reaches p {} m ∧ Machine.Enters p {} m ⟨1⟩ t f ∧
      Merge.predecessors {} m.facts ⟨1⟩ (p.headLine ⟨1⟩) (p.incoming ⟨1⟩) ≠ .ok (t, f) ∧
      (r.facts.exposed.table ⟨2⟩)["a"]?.map Version.leaves = some [(⟨2⟩, ⟨2⟩)] ∧
      (r.facts.exposed.table ⟨1⟩)["a"]?.map Version.leaves = some [(⟨0⟩, ⟨0⟩)] ∧
      -- with the numbers the other way round
      ∃ p' r', (writeInFront ⟨2⟩ ⟨1⟩).build = .ok p' ∧ analyze p' {} = .ok r' ∧
        (r'.facts.exposed.table ⟨2⟩)["a"]?.map Version.leaves = some [(⟨0⟩, ⟨0⟩), (⟨1⟩, ⟨2⟩)] := by
  obtain ⟨p', r', hb', h', hP'⟩ := Draft.check_eq_true (d := writeInFront ⟨2⟩ ⟨1⟩) (s := {})
    (P := fun _ r => (r.facts.exposed.table ⟨2⟩)["a"]?.map Version.leaves =
      some [(⟨0⟩, ⟨0⟩), (⟨1⟩, ⟨2⟩)])
    (by decide +kernel)
  obtain ⟨p, r, hb, h, hP⟩ := Draft.check_eq_true (d := writeInFront ⟨1⟩ ⟨2⟩) (s := {})
    (P := fun p r =>
      match Machine.run p {} 3 (.start p {}) with
      | .ok m => r.facts.diagnostics = [] ∧ p.loopExits = [] ∧
          (∀ k ∈ p.blocks, ∀ c ∈ k.successors, [0, 2, 1, 0].getD k.id.index 0 <
            [0, 2, 1, 0].getD c.index 0) ∧
          r.facts.claimed ⟨1⟩ = true ∧ p.entry = ⟨0⟩ ∧ p.successors ⟨0⟩ = [⟨1⟩, ⟨2⟩] ∧
          p.predecessors ⟨1⟩ = [⟨0⟩, ⟨2⟩] ∧ m.visits.isEmpty ∧ m.resolvable? p = some ⟨1⟩ ∧
          m.facts.claimed ⟨2⟩ = false ∧
          (r.facts.exposed.table ⟨2⟩)["a"]?.map Version.leaves = some [(⟨2⟩, ⟨2⟩)] ∧
          (r.facts.exposed.table ⟨1⟩)["a"]?.map Version.leaves = some [(⟨0⟩, ⟨0⟩)]
      | .error _ => false) (by decide +kernel)
  split at hP
  · rename_i m hrun
    obtain ⟨hnone, hexits, hnum, hc, hentry, hzero, hpreds, hv, hr, htwo, hwrite, hmerge⟩ :=
      of_decide_eq_true hP
    have hplain := isLoopHeader_of_loopExits hexits
    have hacyclic : ∀ c, p.Reachable c → ¬ Relation.TransGen (fun a c => c ∈ p.successors a) c c :=
        fun c _ =>
      not_cycle_of_key (fun b => [0, 2, 1, 0].getD b.index 0) hnum c
    have hm : Machine.Reaches p {} m := Machine.reaches_of_run .refl hrun
    have hreach : ∀ a ∈ p.predecessors ⟨1⟩, p.Reachable a := by
      intro a ha
      rw [hpreds] at ha
      rcases List.mem_pair.1 ha with rfl | rfl
      · rw [← hentry]
        exact .refl
      · refine .single ?_
        simp [hentry, hzero]
    obtain ⟨t, f, henter⟩ : ∃ t f, Merge.predecessors {} m.facts ⟨1⟩ (p.headLine ⟨1⟩)
        (m.facts.exposed.readyOf (p.predecessors ⟨1⟩)) = .ok (t, f) :=
      Merge.predecessors_isOk fun a ha => (Exposed.mem_readyOf.1 ha).2
    refine ⟨p, r, m, t, f, hb, h, hnone, hplain, hacyclic, hc, by simp [hpreds], hreach, hm,
      .settled (hm.loops_of_plain hplain) (List.isEmpty_iff.1 hv) hr henter, fun hall => ?_,
      hwrite, hmerge, p', r', hb', h', of_decide_eq_true hP'⟩
    have hmem : ⟨2⟩ ∈ p.predecessors ⟨1⟩ := by simp [hpreds]
    have hclaimed := (Merge.predecessors_eq_ok hall).1 _ (mem_incoming.2 ⟨hmem, hreach _ hmem⟩)
    rw [htwo] at hclaimed
    cases hclaimed
  · cases hP

end ArrayFlow
