import ArrayFlow.Proofs.Linking

/-!
# The reads of an analysis

* `Machine.ReadAt`    : a read, with the bindings that the analysis meets it with;
* `Machine.Accounted` : the facts account for the reads of the processed blocks, and for no others;
* `Reaches.accounted` : they do at every time, by induction on the run;
* `analyze_links_reads` : uses and definitions are linked exactly.
-/

namespace ArrayFlow

open DefUse

/-! ## the run -/

namespace Machine

variable {p : Procedure} {s : Settings} {m m' : Machine} {b : BlockId} {t : Bindings}
  {f f' f₁ : Facts}

/-- The statement number `i` of the block `b` is the read `a`, and the analysis meets it with the
bindings `t`. -/
def ReadAt (p : Procedure) (s : Settings) (b : BlockId) (i : Nat) (stmt : Statement) (a : Access)
    (t : Bindings) :
    Prop :=
  (p.statementsOf b)[i]? = some stmt ∧ stmt.action = .read a ∧ LiveAt p s b i t

/-- The statements of the processed blocks. -/
def Done (p : Procedure) (f : Facts) (σ : StmtId) : Prop :=
  ∃ b, f.claimed b = true ∧ ∃ stmt ∈ p.statementsOf b, stmt.id = σ

/-- The facts account for the reads of the processed blocks, and for nothing else. -/
structure Accounted (p : Procedure) (s : Settings) (f : Facts) : Prop where
  linked : Linked s (Done p f) (fun b _ => f.claimed b = true) f
  exposed : ∀ (b : BlockId) (t : Bindings), f.exposed[b]? = some t → Backed f.graph t
  reads : ∀ b i stmt a t, f.claimed b = true → ReadAt p s b i stmt a t → Settled s f b stmt a t
  dangling : ∀ x ∈ f.diagnostics, x.kind = .danglingUse → ∃ b i stmt a t, f.claimed b = true ∧
    ReadAt p s b i stmt a t ∧ t[a.base]? = none ∧ x.stmt = some stmt.id

theorem Enters.linked (h : Accounted p s m.facts) (hv : ∀ x ∈ m.visits, Backed m.facts.graph x.2)
    (he : Enters p s m b t f) :
    Linked s (Done p m.facts) (fun c _ => m.facts.claimed c = true ∨ c = b) f ∧ Backed f.graph t ∧
      m.facts.Extends (· = none) f := by
  rcases he.source with ⟨hmem, rfl⟩ | ⟨preds, -, hm⟩
  · exact ⟨h.linked.mono (fun _ hσ => hσ) fun _ _ hc => .inl hc, hv _ hmem, .of_eq rfl rfl⟩
  · refine h.linked.predecessors (fun _ => ?_) h.exposed hm
    rw [he.unclaimed]
    exact Bool.false_ne_true

theorem Enters.not_done (hp : p.WellFormed) (he : Enters p s m b t f) :
    ∀ stmt ∈ p.statementsOf b, ¬ Done p m.facts stmt.id := by
  rintro stmt hs ⟨c, hc, stmt', hs', heq⟩
  obtain ⟨rfl, -⟩ := hp.stmt_inj hs' hs heq
  rw [he.unclaimed] at hc
  cases hc

/-- The reads of a block that is processed are accounted for, and those of the other blocks still
are. -/
theorem Accounted.processed (hp : p.WellFormed) (hfree : p.RenameFree) (hm : Reaches p s m)
    (h : Accounted p s m.facts) (hv : ∀ x ∈ m.visits, Backed m.facts.graph x.2)
    (he : Enters p s m b t f) (hproc : Transfer.process s b p t f = .ok f₁) :
    Accounted p s f₁ ∧ ∃ q, m.facts.Extends q f₁ := by
  obtain ⟨hl, hb, hext⟩ := he.linked h hv
  have hclaimed : ∀ c, f₁.claimed c = true ↔ c = b ∨ m.facts.claimed c = true := fun c => by
    rw [Transfer.claimed_process hproc, he.claimed_eq]
  obtain ⟨t', f', hs, rfl⟩ := Transfer.process_eq_ok.1 hproc
  obtain ⟨hl', hb', hext', hreads, hdang⟩ :=
    hl.statements hb (hp.statements_nodup b) (he.not_done hp) (fun _ hm => hfree.statementsOf hm) hs
  have hall : m.facts.Extends (fun σ => σ = none ∨ ∃ stmt ∈ p.statementsOf b, σ = some stmt.id)
    (f'.expose b t') :=
    ((hext.mono fun _ => .inl).trans (hext'.mono fun _ => .inr)).trans (.of_eq rfl rfl)
  refine ⟨⟨?_, ?_, ?_, ?_⟩, _, hall⟩
  · refine (hl'.mono ?_ ?_).congr rfl fun _ hd _ => hd
    · rintro σ (⟨c, hc, hσ⟩ | hσ)
      · exact ⟨c, (hclaimed c).2 (.inr hc), hσ⟩
      · obtain ⟨stmt, hstmt, rfl⟩ := List.mem_map.1 hσ
        exact ⟨b, (hclaimed b).2 (.inl rfl), stmt, hstmt, rfl⟩
    · exact fun c _ hc => (hclaimed c).2 hc.symm
  · intro c u hu
    rw [Facts.getElem?_expose, (Transfer.statements_eq_ok hs).2.1, he.exposed_eq] at hu
    split at hu
    · cases hu
      exact hb'
    · exact (h.exposed c u hu).extend hall
  · intro c i stmt a u hc hread
    obtain ⟨hi, hact, hlive⟩ := hread
    rcases (hclaimed c).1 hc with rfl | hc
    · -- the bindings are those of this run of the block
      have hsplit := hs
      rw [← List.take_append_drop i (p.statementsOf c), Transfer.statements_append,
        bind_eq_ok] at hsplit
      obtain ⟨⟨u', g⟩, hg, -⟩ := hsplit
      obtain rfl := hlive.unique ⟨g, m, t, f, hm, he, hg⟩
      exact (hreads i stmt a u ⟨hi, hact, g, hg⟩).extend (.of_eq (q := fun _ => False) rfl rfl) id
    · refine (h.reads c i stmt a u hc ⟨hi, hact, hlive⟩).extend hall ?_
      rintro (hnone | ⟨stmt', hs', heq⟩)
      · cases hnone
      · obtain ⟨rfl, -⟩ := hp.stmt_inj hs' (List.mem_of_getElem? hi) (Option.some.inj heq).symm
        rw [he.unclaimed] at hc
        cases hc
  · intro x hx hk
    rcases hdang x hx hk with hx | ⟨i, stmt, a, u, ⟨hi, hact, g, hg⟩, hu, hxs⟩
    · rw [he.diagnostics_eq] at hx
      obtain ⟨c, i, stmt, a, u, hc, hrest⟩ := h.dangling x hx hk
      exact ⟨c, i, stmt, a, u, (hclaimed c).2 (.inr hc), hrest⟩
    · exact ⟨b, i, stmt, a, u, (hclaimed b).2 (.inl rfl), ⟨hi, hact, g, m, t, f, hm, he, hg⟩, hu,
        hxs⟩

theorem Accounted.congr (h : Accounted p s f) (hg : f'.graph = f.graph)
    (hc : f'.claimed = f.claimed)
    (hx : ∀ (b : BlockId) (t : Bindings), f'.exposed[b]? = some t →
      ∃ c : BlockId, f.exposed[c]? = some t)
    (hd : ∃ ds, f'.diagnostics = f.diagnostics ++ ds ∧ ∀ d ∈ ds, d.kind ≠ .danglingUse) :
    Accounted p s f' ∧ ∃ q, f.Extends q f' := by
  obtain ⟨ds, hds, hkind⟩ := hd
  have hold : ∀ x ∈ f'.diagnostics, x.kind = .danglingUse → x ∈ f.diagnostics := by
    intro x hx hk
    rw [hds, List.mem_append] at hx
    exact hx.resolve_right fun hm => hkind x hm hk
  have hext : f.Extends (fun _ => False) f' :=
    ⟨⟨[], by simp [hg]⟩, ⟨[], by simp [hg]⟩, ⟨[], by simp [hg]⟩,
      ⟨ds, hds, fun d hm hk => hkind d hm hk⟩⟩
  refine ⟨⟨?_, ?_, ?_, ?_⟩, _, hext⟩
  · have hdone : Done p f' = Done p f := by
      funext σ
      simp only [Done, hc]
    rw [hdone, hc]
    exact h.linked.congr hg hold
  · intro b t ht
    obtain ⟨c, hc⟩ := hx b t ht
    rw [hg]
    exact h.exposed c t hc
  · intro b i stmt a t hb hread
    rw [hc] at hb
    exact (h.reads b i stmt a t hb hread).extend hext id
  · intro x hx hk
    rw [hc]
    exact h.dangling x (hold x hx hk) hk

theorem Accounted.of_core (h : Accounted p s f) (hcore : f'.core = f.core) :
    Accounted p s f' ∧ ∃ q, f.Extends q f' :=
  h.congr (Facts.graph_of_core hcore) (Facts.claimed_of_core hcore)
    (fun b t ht => ⟨b, by rw [← Facts.exposed_of_core hcore, ht]⟩)
    ⟨[], by simp [Facts.diagnostics_of_core hcore]⟩

theorem Accounted.ended {r : LoopRun} (h : Accounted p s m.facts)
    (hr : m.facts.claimed r.header = true) (he : Ended s m r f)
    (hclose : LoopRun.close f r = .ok f₁) :
    Accounted p s f₁ ∧ ∃ q, m.facts.Extends q f₁ := by
  have hg : f.graph = m.facts.graph := by cases he <;> rfl
  have hd : ∃ ds, f.diagnostics = m.facts.diagnostics ++ ds ∧ ∀ d ∈ ds, d.kind ≠ .danglingUse := by
    cases he with
    | drained => exact ⟨[], by simp⟩
    | limit => exact ⟨_, rfl, by simp [Diagnostic.ofFault]⟩
    | reentry => exact ⟨_, rfl, by simp [Diagnostic.ofFault]⟩
  have hc : f.claimed = m.facts.claimed := by
    funext b
    rw [Facts.claimed, Facts.claimed, he.exposed_eq]
  rcases LoopRun.close_eq_ok hclose with ⟨-, rfl⟩ | ⟨l, t, -, hl, rfl⟩
  · exact h.congr hg hc (fun b t ht => ⟨b, by rw [← he.exposed_eq, ht]⟩) hd
  · refine h.congr hg ?_ (fun b u hu => ?_) hd
    · funext b
      rw [Bool.eq_iff_iff, Facts.claimed_expose, hc]
      exact ⟨fun hb => hb.elim (fun heq => heq ▸ hr) id, .inr⟩
    · rw [Facts.getElem?_expose] at hu
      rw [he.exposed_eq] at hu hl
      split at hu
      · cases hu
        exact ⟨l, hl⟩
      · exact ⟨b, hu⟩

theorem Reaches.accounted (hp : p.WellFormed) (hfree : p.RenameFree) (h : Reaches p s m) :
    Accounted p s m.facts ∧ ∀ x ∈ m.visits, Backed m.facts.graph x.2 := by
  refine h.invariant (P := fun m => Accounted p s m.facts ∧
    ∀ x ∈ m.visits, Backed m.facts.graph x.2) ?_ ?_
  · refine ⟨⟨.start s _ _, ?_, ?_, ?_⟩, ?_⟩
    · simp [start, Facts.start]
    · simp [start]
    · simp [start, Facts.start]
    · simp [start, Backed]
  · rintro m m' hm ⟨ih, hv⟩ hstep
    have key : Accounted p s m'.facts ∧ ∃ q, m.facts.Extends q m'.facts := by
      cases hstep.change with
      | processed he hproc hcore =>
        obtain ⟨ha, q, hq⟩ := ih.processed hp hfree hm hv he hproc
        obtain ⟨ha', q', hq'⟩ := ha.of_core hcore
        exact ⟨ha', fun σ => q σ ∨ q' σ, (hq.mono fun _ => .inl).trans (hq'.mono fun _ => .inr)⟩
      | ended hl he hclose hcore =>
        have hr := hm.header_claimed _ (by rw [hl]; exact List.mem_cons_self ..)
        obtain ⟨ha, q, hq⟩ := ih.ended hr he hclose
        obtain ⟨ha', q', hq'⟩ := ha.of_core hcore
        exact ⟨ha', fun σ => q σ ∨ q' σ, (hq.mono fun _ => .inl).trans (hq'.mono fun _ => .inr)⟩
      | none hn hcore => exact ih.of_core hcore
    obtain ⟨ha, q, hq⟩ := key
    refine ⟨ha, fun x hx => ?_⟩
    rcases hstep.visits_cases hx with hx | ⟨a, -, hx⟩
    · exact (hv x hx).extend hq
    · exact ha.exposed a _ hx

end Machine

/-- The report accounts for every read of the processed blocks. -/
theorem Report.accounted {p : Procedure} {s : Settings} {r : Report} (hp : p.WellFormed)
    (hfree : p.RenameFree) (h : analyze p s = .ok r) : Machine.Accounted p s r.facts := by
  obtain ⟨-, m, -, hm, rfl⟩ := analyze_eq_ok h
  have hd : ∃ ds, m.conclude.diagnostics = m.facts.diagnostics ++ ds ∧
      ∀ d ∈ ds, d.kind ≠ .danglingUse := by
    rw [Machine.conclude_eq]
    refine ⟨_, rfl, fun d hd => ?_⟩
    obtain ⟨b, -, rfl⟩ := List.mem_map.1 hd
    simp [Diagnostic.unreachableMerge]
  refine ((hm.accounted hp hfree).1.congr ?_ ?_ (fun b t ht => ⟨b, ?_⟩) hd).1
  · rw [Machine.conclude_eq]
  · rw [Machine.conclude_eq]
    rfl
  · rwa [Machine.conclude_eq] at ht

/-! ## exact linking -/

/-- Without renames, every version has at most one definition. A read of a bound array has one use,
at the version that is live there, and that version has one definition; the two are joined if the
definition is a merge or has the subscript of the read, else they are rejected. A read of an array
that is not bound is a dangling use, and there are no others. -/
theorem analyze_links_reads {d : Draft} {p : Procedure} {s : Settings} {r : Report}
    (hb : d.build = .ok p) (hfree : p.RenameFree) (h : analyze p s = .ok r) :
    (∀ (i j : Nat) (m n : Node), r.facts.graph.nodes[i]? = some m →
      r.facts.graph.nodes[j]? = some n → m.role = .defines →
      n.role = .defines → m.base = n.base → m.version.sameOrigin n.version = true → i = j) ∧
    (∀ b, r.facts.claimed b = true → ∀ i, ∃ t, Machine.LiveAt p s b i t) ∧
    (∀ b i stmt a t v, r.facts.claimed b = true → Machine.ReadAt p s b i stmt a t →
      t[a.base]? = some v →
      ∃ u d n, Links s r.facts b stmt a v u d n ∧ ∀ j, r.facts.graph.Defines a.base v.markRead j ↔
        j = d) ∧
    (∀ b i stmt a t, r.facts.claimed b = true → Machine.ReadAt p s b i stmt a t →
      t[a.base]? = none →
      Dangles r.facts b stmt a) ∧
    ∀ x ∈ r.facts.diagnostics, x.kind = .danglingUse → ∃ b i stmt a t, r.facts.claimed b = true ∧
      Machine.ReadAt p s b i stmt a t ∧ t[a.base]? = none ∧ x.stmt = some stmt.id := by
  have ha := Report.accounted (.of_build hb) hfree h
  refine ⟨?_, ?_, ?_, ?_, ha.dangling⟩
  · intro i j m n hm hn hrm hrn hbase hv
    exact ha.linked.distinct n.base n.version i j ⟨m, hm, hrm, hbase, hv⟩
      ⟨n, hn, hrn, rfl, Version.sameOrigin_refl _⟩
  · obtain ⟨-, m, -, hm, rfl⟩ := analyze_eq_ok h
    intro b hc i
    rw [Machine.conclude_eq] at hc
    exact hm.before hc i
  · intro b i stmt a t v hc hread hv
    have hset := ha.reads b i stmt a t hc hread
    rw [Settled, hv] at hset
    obtain ⟨u, d, n, hlinks⟩ := hset
    have hdef : r.facts.graph.Defines a.base v d := ⟨n, hlinks.definition⟩
    refine ⟨u, d, n, hlinks, fun j => ?_⟩
    rw [DefUse.Graph.Defines.congr v.stem_markRead]
    exact ⟨fun hj => ha.linked.distinct _ _ _ _ hj hdef, fun hj => hj ▸ hdef⟩
  · intro b i stmt a t hc hread hv
    have hset := ha.reads b i stmt a t hc hread
    rwa [Settled, hv] at hset

/-- Both branches write `a`, so that two definitions share a key; `b` is read and never defined. -/
def collidingWrites : Draft where
  name := "colliding writes"
  blocks := [
    (⟨0⟩, [⟨⟨0⟩, 1, "a = new", .create "a"⟩]),
    (⟨1⟩, [⟨⟨1⟩, 2, "a[i] = x", .write ⟨"a", .expr "i"⟩⟩,
      ⟨⟨2⟩, 3, "y = a[j]", .read ⟨"a", .expr "j"⟩⟩]),
    (⟨2⟩, [⟨⟨3⟩, 4, "a[j] = x", .write ⟨"a", .expr "j"⟩⟩,
      ⟨⟨4⟩, 5, "y = a[j]", .read ⟨"a", .expr "j"⟩⟩]),
    (⟨3⟩, [⟨⟨5⟩, 6, "y = a[i]", .read ⟨"a", .expr "i"⟩⟩,
      ⟨⟨6⟩, 7, "y = b[i]", .read ⟨"b", .expr "i"⟩⟩]),
    (⟨4⟩, [⟨⟨7⟩, 8, "while", .other⟩]),
    (⟨5⟩, [⟨⟨8⟩, 9, "a[k] = a[k]", .write ⟨"a", .expr "k"⟩⟩]),
    (⟨6⟩, [⟨⟨9⟩, 10, "y = a[k]", .read ⟨"a", .expr "k"⟩⟩])]
  edges := [(⟨0⟩, ⟨1⟩), (⟨0⟩, ⟨2⟩), (⟨1⟩, ⟨3⟩), (⟨2⟩, ⟨3⟩), (⟨3⟩, ⟨4⟩), (⟨4⟩, ⟨5⟩),
    (⟨5⟩, ⟨4⟩), (⟨4⟩, ⟨6⟩)]
  loops := [.blocks ⟨4⟩ ⟨6⟩]

theorem analyze_links_reads_collidingWrites :
    ∃ p r, collidingWrites.build = .ok p ∧ analyze p {} = .ok r ∧
      (r.facts.graph.slot ⟨"a", .single 1, .defines⟩).length = 2 ∧ r.facts.diagnostics.length = 1 ∧
      ∀ b i stmt a t v, r.facts.claimed b = true → Machine.ReadAt p {} b i stmt a t →
        t[a.base]? = some v →
        ∃ u d n, Links {} r.facts b stmt a v u d n ∧
          ∀ j, r.facts.graph.Defines a.base v.markRead j ↔ j = d := by
  obtain ⟨p, r, hb, h, hP⟩ := Draft.check_eq_true (d := collidingWrites) (s := {})
    (P := fun p r => p.RenameFree ∧ (r.facts.graph.slot ⟨"a", .single 1, .defines⟩).length = 2 ∧
      r.facts.diagnostics.length = 1) (by decide +kernel)
  rw [decide_eq_true_eq] at hP
  exact ⟨p, r, hb, h, hP.2.1, hP.2.2, (analyze_links_reads hb hP.1 h).2.2.1⟩

end ArrayFlow
