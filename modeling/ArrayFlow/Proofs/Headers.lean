import ArrayFlow.Proofs.Exploration
import ArrayFlow.Proofs.Reaching

/-!
# How a loop header is entered

A merge outside of loops waits for its predecessors. A loop header does not, since those inside of
its loop come later; it makes do with the predecessors that were processed when the analysis comes
to it. These all lie on ways into the loop, but they need not be all that do.

* `Procedure.Forward`  : control can come to a block without passing the header;
* `Reaches.forward`    : as long as a block is not processed, the analysis stays on ways that avoid
  it;
* `Reaches.brought`    : a visit carries what some predecessor of its block leaves, by induction on
  the run;
* `Reaches.merges_ready` : a header is entered with the merge of its processed predecessors;
* `analyze_merges_forward` : that is the merge of all forward predecessors exactly if all of them
  were processed before, and it is where there is one way in;
* `header_misses_arm`  : two arms of a branch that meet at a header, which is entered with one of
  them.
-/

namespace ArrayFlow

/-! ## ways into a loop -/

namespace Procedure

/-- Control can come from the entry to `a` without passing `b`. -/
def Forward (p : Procedure) (b a : BlockId) : Prop :=
  p.entry ≠ b ∧ Relation.ReflTransGen (fun a c => c ∈ p.successors a ∧ c ≠ b) p.entry a

open Classical in
/-- The predecessors of a block that control can come to without passing the block. -/
noncomputable def forward (p : Procedure) (b : BlockId) : List BlockId :=
  (p.predecessors b).filter (p.Forward b)

variable {p : Procedure} {a b c : BlockId}

theorem mem_forward : a ∈ p.forward b ↔ a ∈ p.predecessors b ∧ p.Forward b a := by
  classical
  simp [forward]

theorem Forward.step (h : p.Forward b a) (hc : c ∈ p.successors a) (hne : c ≠ b) : p.Forward b c :=
  ⟨h.1, h.2.tail ⟨hc, hne⟩⟩

/-- A set that holds the entry and what comes behind its blocks, `b` apart, holds all that is come
to without passing `b`. -/
theorem Forward.mem {bs : List BlockId} (h : p.Forward b a) (hentry : p.entry ∈ bs)
    (hclosed : ∀ a ∈ bs, ∀ c ∈ p.successors a, c ≠ b → c ∈ bs) : a ∈ bs := by
  obtain ⟨-, hpath⟩ := h
  induction hpath with
  | refl => exact hentry
  | tail _ hc ih => exact hclosed _ ih _ hc.1 hc.2

end Procedure

/-- Where tables are merged, a version has the leaves that its name has in the tables. -/
theorem Merge.mem_leaves_joined {s : Settings} {b : BlockId} {line : Nat} {tables : List Bindings}
    {base : String} {w : Version} (hw : (joined s b line tables)[base]? = some w)
    (x : BlockId × StmtId) :
    x ∈ w.leaves ↔ ∃ u ∈ tables, ∃ v, u[base]? = some v ∧ x ∈ v.leaves := by
  match tables with
  | [] => simp [joined] at hw
  | [u] =>
    have hu : u[base]? = some w := hw
    simp [hu]
  | u :: u' :: rest =>
    have h2 : 2 ≤ (u :: u' :: rest).length := by simp
    rw [getElem?_joined h2] at hw
    rcases version?_leaves s b line h2 base with ⟨hnone, -⟩ | ⟨v, hv, -, hleaves⟩
    · rw [hnone] at hw
      cases hw
    · rw [hv] at hw
      cases hw
      exact hleaves x

namespace Machine

open Procedure

variable {p : Procedure} {s : Settings} {m m' : Machine} {a b : BlockId} {t : Bindings} {f : Facts}

/-- As long as a block is not processed, what is processed was come to without passing it. -/
theorem Reaches.forward (hm : Reaches p s m) (hb : m.facts.claimed b = false)
    (ha : m.facts.claimed a = true) :
    p.Forward b a := by
  have hin : Within (fun c => c = b ∨ p.Forward b c) m := by
    refine hm.within ?_ ?_
    · by_cases hentry : p.entry = b
      · exact .inl hentry
      · exact .inr ⟨hentry, .refl⟩
    · rintro a c ha (rfl | hfwd) hc
      · rw [hb] at ha
        cases ha
      · by_cases hcb : c = b
        · exact .inl hcb
        · exact .inr (hfwd.step hc hcb)
  rcases hin.claimed a ha with rfl | hfwd
  · rw [hb] at ha
    cases ha
  · exact hfwd

/-- No block is processed before the entry. -/
theorem Reaches.entry_first (hm : Reaches p s m) (ha : m.facts.claimed a = true) :
    m.facts.claimed p.entry = true := by
  by_contra hentry
  obtain ⟨hne, -⟩ := hm.forward (b := p.entry) (by simpa using hentry) ha
  exact hne rfl

/-! ## what the walk brings -/

theorem Reaches.exits_edges (hm : Reaches p s m) :
    ∀ r ∈ m.loops, ∀ e ∈ r.exits, m.facts.claimed e.1 = true ∧ e.2 ∈ p.successors e.1 := by
  refine hm.invariant (P := fun m => ∀ r ∈ m.loops, ∀ e ∈ r.exits, m.facts.claimed e.1 = true ∧
    e.2 ∈ p.successors e.1)
    (by simp [start]) ?_
  intro m m' hm ih hstep r' hr'
  have hold : ∀ r ∈ m.loops, ∀ e ∈ r.exits, m'.facts.claimed e.1 = true ∧ e.2 ∈ p.successors e.1 :=
      fun r hr e he =>
    ⟨hstep.claimed_mono (ih r hr e he).1, (ih r hr e he).2⟩
  have hhead : ∀ {r outer}, m.loops = r :: outer → ∀ e ∈ r.exits,
      m'.facts.claimed e.1 = true ∧ e.2 ∈ p.successors e.1 := by
    intro r outer hl
    exact hold r (by rw [hl]; exact List.mem_cons_self ..)
  have hbehind : ∀ {b t f}, Enters p s m b t f → ∀ e ∈ p.edgesFrom b,
      m'.facts.claimed e.1 = true ∧ e.2 ∈ p.successors e.1 := by
    intro b t f he e hmem
    obtain ⟨c, hc, rfl⟩ := List.mem_map.1 hmem
    exact ⟨hm.claimed_of_enters hstep he, hc⟩
  -- a loop that takes up such edges is left by such edges
  have hgrown : ∀ {isExit f f' r r' es}, LoopRun.Grown p isExit f r es f' r' →
      (∀ e ∈ r.exits, m'.facts.claimed e.1 = true ∧ e.2 ∈ p.successors e.1) →
      (∀ e ∈ es, m'.facts.claimed e.1 = true ∧ e.2 ∈ p.successors e.1) →
      ∀ e ∈ r'.exits, m'.facts.claimed e.1 = true ∧ e.2 ∈ p.successors e.1 := by
    intro isExit f f' r r' es hg hr hes e he
    rcases hg.mem_exits he with he | he
    · exact hr e he
    · exact hes e he
  cases hstep.loop hr' with
  | kept hr => exact hold r' (List.mem_of_mem_tail hr)
  | opened he hp hb =>
    exact hgrown (LoopRun.opened_grown _ _) (by simp [LoopRun.start]) (hbehind he)
  | nested hl => exact (hhead hl :)
  | looped hl hq he hp hb hg => exact hgrown hg (hhead hl :) (hbehind he)
  | deferred hl => exact (hhead hl :)
  | returned hl he hc hg => exact hgrown hg (hold _ (by rw [hl]; simp)) (hold _ (by rw [hl]; simp))

/-- What a processed block leaves is changed only at the end of its own loop. -/
theorem Step.exposed_kept (hstep : Step p s m m') (ha : m.facts.claimed a = true)
    (hne : ∀ r outer f, m.loops = r :: outer → Ended s m r f → r.header ≠ a) :
    m'.facts.exposed[a]? = m.facts.exposed[a]? := by
  cases hstep.change with
  | processed he hp hcore =>
    rw [Facts.exposed_of_core hcore, Transfer.exposed_process hp, if_neg, he.exposed_eq]
    rintro rfl
    rw [he.unclaimed] at ha
    cases ha
  | @ended r outer f f₁ hl he hc hcore =>
    rw [Facts.exposed_of_core hcore, ← he.exposed_eq]
    rcases LoopRun.close_eq_ok hc with ⟨-, rfl⟩ | ⟨l, t, -, -, rfl⟩
    · rfl
    · rw [Facts.getElem?_expose, if_neg (hne r outer f hl he)]
  | none hn hcore => rw [Facts.exposed_of_core hcore]

/-- Only blocks that were not processed become headers of loops at work. -/
theorem Step.header_ne (hstep : Step p s m m') (ha : m.facts.claimed a = true)
    (hne : ∀ r ∈ m.loops, r.header ≠ a) :
    ∀ r ∈ m'.loops, r.header ≠ a := by
  have hnot : a ∉ m.loops.map (·.header) := by simpa using hne
  suffices hgoal : a ∉ m'.loops.map (·.header) by simpa using hgoal
  rcases hstep.headers with ⟨b, t, f, he, -, heq⟩ | heq | heq
  · rw [heq, List.mem_cons, not_or]
    refine ⟨?_, hnot⟩
    rintro rfl
    rw [he.unclaimed] at ha
    cases ha
  · rw [heq]
    exact hnot
  · rw [heq, List.map_tail]
    exact fun hmem => hnot (List.mem_of_mem_tail hmem)

/-- The visit carries what a processed predecessor leaves for good, or it is the first one. -/
inductive Brought (p : Procedure) (m : Machine) (x : BlockId × Bindings) : Prop
  | first (h : x = (p.entry, ∅))
  | behind {a : BlockId} (ha : m.facts.claimed a = true) (hx : x.1 ∈ p.successors a)
      (ht : m.facts.exposed[a]? = some x.2) (hne : ∀ r ∈ m.loops, r.header ≠ a)

theorem Brought.step {x : BlockId × Bindings} (h : Brought p m x) (hstep : Step p s m m') :
    Brought p m' x := by
  cases h with
  | first h => exact .first h
  | behind ha hx ht hne =>
    have hkept := hstep.exposed_kept ha fun r outer f hl _ =>
      hne r (by rw [hl]; exact List.mem_cons_self ..)
    exact .behind (hstep.claimed_mono ha) hx (hkept.trans ht) (hstep.header_ne ha hne)

/-- The walk goes along edges when no loop is at work, so that what it carries does not change any
more. -/
theorem Follows.brought {x : BlockId × Bindings} (h : Follows p s m a x.1) (hm : Reaches p s m)
    (hstep : Step p s m m') (ht : m'.facts.exposed[a]? = some x.2) : Brought p m' x := by
  cases h with
  | walked hl he hb hc =>
    refine .behind (hm.claimed_of_enters hstep he) hc ht ?_
    have hnone : m'.loops = [] := by
      rcases hstep.headers with ⟨b, t, f, he', hb', -⟩ | heq | heq
      · obtain ⟨rfl, -, -⟩ := he.deterministic he'
        rw [hb] at hb'
        cases hb'
      · simpa [hl] using heq
      · simpa [hl] using heq
    simp [hnone]
  | @left r f hl he hc =>
    obtain ⟨ha, hx⟩ := hm.exits_edges r (by rw [hl]; exact List.mem_cons_self ..) _ hc
    refine .behind (hstep.claimed_mono ha) hx ht ?_
    obtain ⟨f₁, -, -, ⟨-, hf⟩ | ⟨o, rest, o', hnil, -⟩⟩ := hstep.of_ended hl he
    · simp [(follow_eq_ok hf).2.2.1]
    · cases hnil

theorem Reaches.brought (hm : Reaches p s m) : ∀ x ∈ m.visits, Brought p m x := by
  refine hm.invariant (P := fun m => ∀ x ∈ m.visits, Brought p m x) ?_ ?_
  · intro x hx
    exact .first (List.mem_singleton.1 hx)
  · intro m m' hm ih hstep x hx
    rcases hstep.visits_cases hx with hx | ⟨a, hf, ht⟩
    · exact (ih x hx).step hstep
    · exact hf.brought hm hstep ht

/-! ## headers -/

/-- Inside a loop, a header is entered with the merge of its processed predecessors. -/
theorem entry_header {header : BlockId} {f' : Facts} (hh : p.isLoopHeader b = true)
    (h2 : 2 ≤ (p.predecessors b).length) (h : LoopRun.entry p s f header b = .ok (some (t, f'))) :
    Merge.predecessors s f b (p.headLine b) (f.exposed.readyOf (p.predecessors b)) =
      .ok (t, f') := by
  unfold LoopRun.entry at h
  split at h
  · rename_i hp
    simp [hp] at h2
  · rename_i hp
    simp [hp] at h2
  · rename_i hp
    rw [if_pos hh, ← hp] at h
    split at h
    · cases h
    · simp only [bind_eq_ok, pure_eq_ok, Option.some.injEq] at h
      obtain ⟨x, hx, rfl⟩ := h
      exact hx

/-- Where the walk goes on with what it brings, that is the merge of at most one processed
predecessor. -/
theorem Reaches.merges_brought (hw : p.WellFormed) (hm : Reaches p s m) (hx : (b, t) ∈ m.visits)
    (hc : m.facts.claimed b = false)
    (hr : (m.facts.exposed.readyOf (p.predecessors b)).length < 2) :
    Merge.predecessors s m.facts b (p.headLine b) (m.facts.exposed.readyOf (p.predecessors b)) =
      .ok (t, m.facts) := by
  cases hm.brought _ hx with
  | first h =>
    obtain ⟨rfl, rfl⟩ := Prod.mk.inj h
    -- the entry comes first, so that it has no processed predecessor
    have hnil : m.facts.exposed.readyOf (p.predecessors p.entry) = [] := by
      refine List.eq_nil_iff_forall_not_mem.2 fun a ha => ?_
      have hentry := hm.entry_first (Exposed.mem_readyOf.1 ha).2
      rw [hc] at hentry
      cases hentry
    rw [hnil]
    rfl
  | @behind a ha hsucc ht hne =>
    have hmem : a ∈ m.facts.exposed.readyOf (p.predecessors b) :=
      Exposed.mem_readyOf.2 ⟨(hw.mem_predecessors a b).2 hsucc, ha⟩
    obtain ⟨c, hone⟩ : ∃ c, m.facts.exposed.readyOf (p.predecessors b) = [c] := by
      refine List.length_eq_one_iff.1 ?_
      have := List.length_pos_of_mem hmem
      omega
    rw [hone] at hmem ⊢
    obtain rfl := List.mem_singleton.1 hmem
    have hget : m.facts.exposed.get a = .ok t := Exposed.get_eq_ok.2 ht
    simp [Merge.predecessors, hget, bind, Except.bind, pure, Except.pure]

theorem Reaches.merges_ready (hw : p.WellFormed) (hm : Reaches p s m) (hh : p.isLoopHeader b = true)
    (h2 : 2 ≤ (p.predecessors b).length) (he : Enters p s m b t f) :
    Merge.predecessors s m.facts b (p.headLine b) (m.facts.exposed.readyOf (p.predecessors b)) =
      .ok (t, f) := by
  cases he with
  | brought hl hv hc hp =>
    refine hm.merges_brought hw (by simp [hv]) hc ?_
    rcases hp with hlt | ⟨-, hlt⟩
    · omega
    · exact hlt
  | header _ _ _ _ _ hmerge => exact hmerge
  | merge _ _ _ hb =>
    rw [hh] at hb
    cases hb
  | settled _ _ _ hmerge => exact hmerge
  | looped _ _ _ _ hmerge => exact entry_header hh h2 hmerge

/-- Every way to a block goes through a processed predecessor, unless the block is the entry. -/
theorem Enters.exists_ready (hw : p.WellFormed) (hm : Reaches p s m) (hh : p.isLoopHeader b = true)
    (h2 : 2 ≤ (p.predecessors b).length) (hb : b ≠ p.entry) (he : Enters p s m b t f) :
    ∃ a ∈ p.predecessors b, m.facts.claimed a = true := by
  have hready : m.facts.exposed.readyOf (p.predecessors b) ≠ [] →
      ∃ a ∈ p.predecessors b, m.facts.claimed a = true := by
    intro hne
    obtain ⟨a, ha⟩ := List.exists_mem_of_ne_nil _ hne
    exact ⟨a, Exposed.mem_readyOf.1 ha⟩
  cases he with
  | brought hl hv =>
    cases hm.brought (b, t) (by simp [hv]) with
    | first h => exact absurd (Prod.mk.inj h).1 hb
    | behind ha hsucc => exact ⟨_, (hw.mem_predecessors _ b).2 hsucc, ha⟩
  | header _ _ _ _ hr => exact hready (List.length_pos_iff.1 (by omega))
  | merge _ _ _ hno =>
    rw [hh] at hno
    cases hno
  | settled _ _ hr => exact hready (resolvable?_eq_some hr).2.2
  | looped _ _ _ _ hmerge =>
    rcases LoopRun.entry_eq_some hmerge with ⟨-, -, hnil | ⟨c, hone, -⟩⟩ | ⟨preds,
      hne, hsub, hmerge⟩
    · simp [hnil] at h2
    · simp [hone] at h2
    · obtain ⟨a, ha⟩ := List.exists_mem_of_ne_nil _ hne
      exact ⟨a, hsub.subset ha, (Merge.predecessors_eq_ok hmerge).1 a ha⟩

/-- A processed predecessor of a block that is not processed is a forward one. -/
theorem Reaches.mem_forward (hm : Reaches p s m) (hb : m.facts.claimed b = false)
    (hpred : a ∈ p.predecessors b) (ha : m.facts.claimed a = true) : a ∈ p.forward b :=
  Procedure.mem_forward.2 ⟨hpred, hm.forward hb ha⟩

theorem Reaches.forward_eq_ready (hm : Reaches p s m) (hb : m.facts.claimed b = false)
    (hall : ∀ a ∈ p.forward b, m.facts.claimed a = true) :
    p.forward b = m.facts.exposed.readyOf (p.predecessors b) := by
  classical
  refine List.filter_congr fun a ha => ?_
  rw [Bool.eq_iff_iff, decide_eq_true_iff]
  exact ⟨fun hf => hall a (Procedure.mem_forward.2 ⟨ha, hf⟩), fun hca => hm.forward hb hca⟩

/-- What a merge of the processed predecessors binds has the leaves that forward predecessors
leave. -/
theorem Reaches.mem_leaves {base : String} {w : Version} (hm : Reaches p s m)
    (hb : m.facts.claimed b = false)
    (hmerge : Merge.predecessors s m.facts b (p.headLine b)
    (m.facts.exposed.readyOf (p.predecessors b)) = .ok (t, f))
    (hbase : t[base]? = some w) (x : BlockId × StmtId) :
    x ∈ w.leaves ↔
      ∃ a ∈ p.forward b, ∃ u, m.facts.exposed[a]? = some u ∧
        ∃ v : Version, u[base]? = some v ∧ x ∈ v.leaves := by
  obtain ⟨-, rfl, -⟩ := Merge.predecessors_eq_ok hmerge
  rw [Merge.mem_leaves_joined hbase]
  constructor
  · rintro ⟨u, hu, v, hv, hx⟩
    obtain ⟨a, ha, rfl⟩ := List.mem_map.1 hu
    obtain ⟨hpred, hready⟩ := Exposed.mem_readyOf.1 ha
    exact ⟨a, hm.mem_forward hb hpred hready, _, Exposed.isReady_iff.1 hready, v, hv, hx⟩
  · rintro ⟨a, ha, u, hu, v, hv, hx⟩
    have hready : m.facts.claimed a = true := Facts.claimed_iff.2 ⟨u, hu⟩
    refine ⟨u, ?_, v, hv, hx⟩
    rw [← Exposed.table_eq hu]
    exact List.mem_map_of_mem (Exposed.mem_readyOf.2 ⟨(Procedure.mem_forward.1 ha).1, hready⟩)

end Machine

/-- A processed loop header with several predecessors was entered with the merge of the predecessors
that were processed by then. All of them are forward predecessors, and the leaves of a version are
those that they leave. So the header is entered with the merge of all its forward predecessors
exactly if all of them were processed before it; where there is only one, it was. -/
theorem analyze_merges_forward {d : Draft} {p : Procedure} {s : Settings} {r : Report} {b : BlockId}
    (hb : d.build = .ok p) (h : analyze p s = .ok r) (hc : r.facts.claimed b = true)
    (hh : p.isLoopHeader b = true) (h2 : 2 ≤ (p.predecessors b).length) :
    (∃ m t f, Machine.Reaches p s m ∧ Machine.Enters p s m b t f) ∧
    ∀ m t f, Machine.Reaches p s m → Machine.Enters p s m b t f →
      Merge.predecessors s m.facts b (p.headLine b) ((p.predecessors b).filter m.facts.claimed) =
        .ok (t, f) ∧
      (∀ a ∈ p.predecessors b, m.facts.claimed a = true → a ∈ p.forward b) ∧
      (Merge.predecessors s m.facts b (p.headLine b) (p.forward b) = .ok (t, f) ↔
        ∀ a ∈ p.forward b, m.facts.claimed a = true) ∧
      ((p.forward b).length ≤ 1 → ∀ a ∈ p.forward b, m.facts.claimed a = true) ∧
      ∀ (base : String) (w : Version), t[base]? = some w → ∀ x, x ∈ w.leaves ↔
        ∃ a ∈ p.forward b, ∃ u, m.facts.exposed[a]? = some u ∧
          ∃ v : Version, u[base]? = some v ∧ x ∈ v.leaves := by
  have hw : p.WellFormed := .of_build hb
  obtain ⟨-, m₁, -, hm₁, rfl⟩ := analyze_eq_ok h
  rw [Machine.conclude_eq] at hc
  obtain ⟨m₀, t₀, f₀, -, hm₀, he₀, -⟩ := hm₁.entered hc
  refine ⟨⟨m₀, t₀, f₀, hm₀, he₀⟩, fun m t f hm he => ?_⟩
  have hmerge := hm.merges_ready hw hh h2 he
  refine ⟨hmerge, fun a => hm.mem_forward he.unclaimed,
    ⟨fun hall => (Merge.predecessors_eq_ok hall).1, fun hall => ?_⟩, fun hone a ha => ?_,
    fun base w => hm.mem_leaves he.unclaimed hmerge⟩
  · rw [hm.forward_eq_ready he.unclaimed hall]
    exact hmerge
  · -- some predecessor was processed, and it is a forward one
    have hne : b ≠ p.entry := fun heq => (Procedure.mem_forward.1 ha).2.1 heq.symm
    obtain ⟨c, hpred, hclaimed⟩ := he.exists_ready hw hm hh h2 hne
    have hmem := hm.mem_forward he.unclaimed hpred hclaimed
    obtain ⟨a', heq⟩ := List.length_eq_one_iff.1 (Nat.le_antisymm hone (List.length_pos_of_mem ha))
    rw [heq] at ha hmem
    rwa [List.mem_singleton.1 ha, ← List.mem_singleton.1 hmem]

/-- A write under a condition, in front of a loop. -/
def guardedWrite : Draft where
  name := "guarded write"
  blocks := [(⟨0⟩, [⟨⟨0⟩, 1, "a = new", .create "a"⟩]),
    (⟨1⟩, [⟨⟨1⟩, 2, "a[i] = x", .write ⟨"a", .expr "i"⟩⟩]), (⟨2⟩, [⟨⟨2⟩, 3, "while", .other⟩]),
    (⟨3⟩, [⟨⟨3⟩, 4, "skip", .other⟩]), (⟨4⟩, [⟨⟨4⟩, 5, "y = a[i]", .read ⟨"a", .expr "i"⟩⟩])]
  edges := [(⟨0⟩, ⟨1⟩), (⟨0⟩, ⟨2⟩), (⟨1⟩, ⟨2⟩), (⟨2⟩, ⟨3⟩), (⟨3⟩, ⟨2⟩), (⟨2⟩, ⟨4⟩)]
  loops := [.blocks ⟨2⟩ ⟨4⟩]

theorem analyze_merges_forward_guardedWrite :
    ∃ p r m t f, guardedWrite.build = .ok p ∧ analyze p {} = .ok r ∧ r.facts.claimed ⟨2⟩ = true ∧
      p.isLoopHeader ⟨2⟩ = true ∧ 2 ≤ (p.predecessors ⟨2⟩).length ∧ Machine.Reaches p {} m ∧
      Machine.Enters p {} m ⟨2⟩ t f ∧
      Merge.predecessors {} m.facts ⟨2⟩ (p.headLine ⟨2⟩) (p.forward ⟨2⟩) = .ok (t, f) := by
  obtain ⟨p, r, hb, h, hP⟩ := Draft.check_eq_true (d := guardedWrite) (s := {})
    (P := fun p r =>
      match Machine.run p {} 2 (.start p {}) with
      | .ok m => r.facts.claimed ⟨2⟩ = true ∧ p.isLoopHeader ⟨2⟩ = true ∧ p.entry = ⟨0⟩ ∧
          p.successors ⟨0⟩ = [⟨1⟩, ⟨2⟩] ∧ p.successors ⟨1⟩ = [⟨2⟩] ∧ m.loops = [] ∧
          m.visits.map (·.1) = [⟨2⟩, ⟨2⟩] ∧ m.facts.claimed ⟨2⟩ = false ∧
          m.facts.exposed.readyOf (p.predecessors ⟨2⟩) = [⟨0⟩, ⟨1⟩]
      | .error _ => false) (by decide +kernel)
  split at hP
  · rename_i m hrun
    obtain ⟨hc, hh, hentry, hzero, hone, hl, hv, hno, hready⟩ := of_decide_eq_true hP
    have hm : Machine.Reaches p {} m := Machine.reaches_of_run .refl hrun
    have h2 : 2 ≤ (m.facts.exposed.readyOf (p.predecessors ⟨2⟩)).length := by simp [hready]
    obtain ⟨⟨c, t₀⟩, rest, hvisits, rfl, -⟩ := List.map_eq_cons_iff.1 hv
    obtain ⟨t, f, hmerge⟩ : ∃ t f, Merge.predecessors {} m.facts ⟨2⟩ (p.headLine ⟨2⟩)
        (m.facts.exposed.readyOf (p.predecessors ⟨2⟩)) = .ok (t, f) :=
      Merge.predecessors_isOk fun a ha => (Exposed.mem_readyOf.1 ha).2
    have he : Machine.Enters p {} m ⟨2⟩ t f := .header hl hvisits hno hh h2 hmerge
    have hpreds := Nat.le_trans h2 (Exposed.readyOf_sublist _).length_le
    obtain ⟨-, -, hiff, -⟩ := (analyze_merges_forward hb h hc hh hpreds).2 m t f hm he
    refine ⟨p, r, m, t, f, hb, h, hc, hh, hpreds, hm, he, hiff.2 fun a ha => ?_⟩
    have hmem : a ∈ [⟨0⟩, ⟨1⟩] := by
      refine (Procedure.mem_forward.1 ha).2.mem (by simp [hentry]) ?_
      simp [hzero, hone]
    rw [← hready] at hmem
    exact (Exposed.mem_readyOf.1 hmem).2
  · cases hP

/-- Two arms of a branch, one of which writes, that meet at a loop header. -/
def twoArms : Draft where
  name := "two arms"
  blocks := [(⟨0⟩, [⟨⟨0⟩, 1, "a = new", .create "a"⟩]), (⟨1⟩, [⟨⟨1⟩, 2, "skip", .other⟩]),
    (⟨2⟩, [⟨⟨2⟩, 3, "a[i] = x", .write ⟨"a", .expr "i"⟩⟩]), (⟨3⟩, [⟨⟨3⟩, 4, "while", .other⟩]),
    (⟨4⟩, [⟨⟨4⟩, 5, "skip", .other⟩]), (⟨5⟩, [⟨⟨5⟩, 6, "y = a[i]", .read ⟨"a", .expr "i"⟩⟩])]
  edges := [(⟨0⟩, ⟨1⟩), (⟨0⟩, ⟨2⟩), (⟨1⟩, ⟨3⟩), (⟨2⟩, ⟨3⟩), (⟨3⟩, ⟨4⟩), (⟨4⟩, ⟨3⟩), (⟨3⟩, ⟨5⟩)]
  loops := [.blocks ⟨3⟩ ⟨5⟩]

theorem header_misses_arm :
    ∃ p r m t f, twoArms.build = .ok p ∧ analyze p {} = .ok r ∧ r.facts.diagnostics = [] ∧
      r.facts.claimed ⟨3⟩ = true ∧ p.isLoopHeader ⟨3⟩ = true ∧ 2 ≤ (p.predecessors ⟨3⟩).length ∧
      Machine.Reaches p {} m ∧ Machine.Enters p {} m ⟨3⟩ t f ∧ ⟨2⟩ ∈ p.forward ⟨3⟩ ∧
      Merge.predecessors {} m.facts ⟨3⟩ (p.headLine ⟨3⟩) (p.forward ⟨3⟩) ≠ .ok (t, f) ∧
      (r.facts.exposed.table ⟨2⟩)["a"]?.map Version.leaves = some [(⟨2⟩, ⟨2⟩)] ∧
      t["a"]?.map Version.leaves = some [(⟨0⟩, ⟨0⟩)] := by
  obtain ⟨p, r, hb, h, hP⟩ := Draft.check_eq_true (d := twoArms) (s := {})
    (P := fun p r =>
      match Machine.run p {} 2 (.start p {}) with
      | .ok m => r.facts.diagnostics = [] ∧ r.facts.claimed ⟨3⟩ = true ∧ p.isLoopHeader ⟨3⟩ = true ∧
          2 ≤ (p.predecessors ⟨3⟩).length ∧ p.entry = ⟨0⟩ ∧ ⟨2⟩ ∈ p.successors ⟨0⟩ ∧
          ⟨2⟩ ∈ p.predecessors ⟨3⟩ ∧ m.loops = [] ∧
          m.visits.map (fun x => (x.1, x.2["a"]?.map Version.leaves)) =
            [(⟨3⟩, some [(⟨0⟩, ⟨0⟩)]), (⟨2⟩, some [(⟨0⟩, ⟨0⟩)])] ∧
          m.facts.claimed ⟨3⟩ = false ∧ m.facts.claimed ⟨2⟩ = false ∧
          (m.facts.exposed.readyOf (p.predecessors ⟨3⟩)).length < 2 ∧
          (r.facts.exposed.table ⟨2⟩)["a"]?.map Version.leaves = some [(⟨2⟩, ⟨2⟩)]
      | .error _ => false) (by decide +kernel)
  split at hP
  · rename_i m hrun
    obtain ⟨hnone, hc, hh, h2, hentry, hsucc, hpred, hl, hv, hthree, htwo, hready, harm⟩ :=
      of_decide_eq_true hP
    obtain ⟨⟨c, t⟩, rest, hvisits, heq, -⟩ := List.map_eq_cons_iff.1 hv
    obtain ⟨rfl, hleaves⟩ := Prod.mk.inj heq
    have hfwd : ⟨2⟩ ∈ p.forward ⟨3⟩ := by
      refine Procedure.mem_forward.2 ⟨hpred, by simp [hentry], .single ⟨?_, by simp⟩⟩
      rw [hentry]
      exact hsucc
    refine ⟨p, r, m, t, m.facts, hb, h, hnone, hc, hh, h2, Machine.reaches_of_run .refl hrun,
      .brought hl hvisits hthree (.inr ⟨hh, hready⟩), hfwd, fun hmerge => ?_, harm, hleaves⟩
    -- the arm that writes was not processed
    have hclaimed := (Merge.predecessors_eq_ok hmerge).1 _ hfwd
    rw [htwo] at hclaimed
    cases hclaimed
  · cases hP

end ArrayFlow
