import ArrayFlow.Proofs.Coverage
import Mathlib.Data.List.Forall2

/-!
# Procedures without loops

Where control never comes back to a block, what the blocks expose is given by equations over the
control-flow graph, whatever the order in which the analysis takes them.

* `Procedure.Acyclic` : no loops, and no control from outside of what is reachable;
* `Procedure.entered`, `Procedure.left` : the bindings that a block is entered with and leaves, by
  those that its predecessors leave;
* `Procedure.Solves`  : bindings for every block that satisfy these equations;
* `Machine.Tabled`    : what is exposed so far satisfies them, by induction on the run;
* `analyze_exposes_solution` : the exposed bindings are the one solution.
-/

namespace ArrayFlow

namespace Procedure

/-- No block is a loop header, control does not come back to a block, and reachable blocks have
reachable predecessors. -/
structure Acyclic (p : Procedure) : Prop where
  plain : ∀ b, p.isLoopHeader b = false
  irreflexive : ∀ b, p.Reachable b → ¬ Relation.TransGen (fun a c => c ∈ p.successors a) b b
  source : ∀ a b, p.Reachable b → a ∈ p.predecessors b → p.Reachable a

/-- The bindings that a block is entered with, by those that the blocks before it leave. -/
def entered (p : Procedure) (s : Settings) (x : BlockId → Bindings) (b : BlockId) : Bindings :=
  Merge.joined s b (p.headLine b) ((p.predecessors b).map x)

/-- The bindings that a block leaves, by those that the blocks before it leave. -/
def left (p : Procedure) (s : Settings) (x : BlockId → Bindings) (b : BlockId) : Bindings :=
  (p.statementsOf b).foldl (Transfer.rebind b) (p.entered s x b)

/-- The bindings `x` satisfy the equations of the reachable blocks. -/
def Solves (p : Procedure) (s : Settings) (x : BlockId → Bindings) : Prop :=
  ∀ b, p.Reachable b → x b = p.left s x b

variable {p : Procedure} {s : Settings} {x y : BlockId → Bindings} {b : BlockId}

theorem entered_congr (h : ∀ a ∈ p.predecessors b, x a = y a) :
    p.entered s x b = p.entered s y b := by
  unfold entered
  rw [List.map_congr_left h]

theorem left_congr (h : ∀ a ∈ p.predecessors b, x a = y a) : p.left s x b = p.left s y b := by
  unfold left
  rw [entered_congr h]

namespace Acyclic

/-- The number of blocks that lie before a block. -/
noncomputable def rank (p : Procedure) (b : BlockId) : Nat :=
  open Classical in
  (p.blockIds.toFinset.filter fun a => Relation.TransGen (fun a c => c ∈ p.successors a) a b).card

theorem rank_lt_of_irrefl {a c : BlockId}
    (ha : ¬ Relation.TransGen (fun a c => c ∈ p.successors a) a a) (hc : c ∈ p.successors a) :
    rank p a < rank p c := by
  refine Finset.card_lt_card (Finset.ssubset_iff_of_subset ?_ |>.2 ⟨a, ?_, ?_⟩)
  · intro b hb
    simp only [Finset.mem_filter] at hb ⊢
    exact ⟨hb.1, hb.2.tail hc⟩
  · simp only [Finset.mem_filter, List.mem_toFinset]
    exact ⟨mem_blockIds_of_mem_successors hc, .single hc⟩
  · simp only [Finset.mem_filter, not_and]
    exact fun _ => ha

theorem rank_lt (h : p.Acyclic) {a c : BlockId} (ha : p.Reachable a) (hc : c ∈ p.successors a) :
    rank p a < rank p c :=
  rank_lt_of_irrefl (h.irreflexive a ha) hc

theorem entry_predecessors (h : p.Acyclic) (hw : p.WellFormed) : p.predecessors p.entry = [] := by
  refine List.eq_nil_iff_forall_not_mem.2 fun a ha => ?_
  have hreach := h.source a p.entry .refl ha
  exact h.irreflexive p.entry .refl
    (Relation.TransGen.tail' hreach ((hw.mem_predecessors a p.entry).1 ha))

/-- Without loops, no block has an owner. -/
theorem nested (h : p.Acyclic) (hw : p.WellFormed) : Nested p (fun _ => none) (rank p) where
  entry_owner := rfl
  entry_plain := h.plain _
  source := fun a b hb hsucc => h.source a b hb ((hw.mem_predecessors a b).2 hsucc)
  forward := by
    intro b hb hne
    rcases Relation.ReflTransGen.cases_tail hb with heq | ⟨a, ha, hsucc⟩
    · exact absurd heq hne
    · exact ⟨a, hsucc, h.rank_lt ha hsucc⟩
  edge := fun a c ha hsucc => .level (h.rank_lt ha hsucc) rfl fun hh => by
    rw [h.plain] at hh
    cases hh
  exit_edge := by
    intro a c _ hx
    have hplain := h.plain a
    simp only [isLoopHeader, Bool.not_eq_false', List.isEmpty_iff] at hplain
    unfold isLoopExit at hx
    split at hx
    · simp [hplain] at hx
    · cases hx
  owner_spec := by simp

/-- The equations have at most one solution, by induction on the rank. -/
theorem solution_unique (h : p.Acyclic) (hw : p.WellFormed) (hx : p.Solves s x)
    (hy : p.Solves s y) :
    ∀ b, p.Reachable b → x b = y b := by
  intro b hb
  induction hk : rank p b using Nat.strong_induction_on generalizing b with
  | _ k ih =>
    subst hk
    rw [hx b hb, hy b hb]
    refine left_congr fun a ha => ?_
    have hreach := h.source a b hb ha
    exact ih _ (h.rank_lt hreach ((hw.mem_predecessors a b).1 ha)) a hreach rfl

end Acyclic

/-! ## numbered blocks -/

theorem isLoopHeader_of_loopExits (h : p.loopExits = []) (b : BlockId) :
    p.isLoopHeader b = false := by
  simp only [isLoopHeader, loopExitsOf, h]
  split <;> rfl

section Numbered

variable (key : BlockId → Nat) (h : ∀ k ∈ p.blocks, ∀ c ∈ k.successors, key k.id < key c)
  {a c : BlockId}

include h

theorem key_lt_of_edge (hc : c ∈ p.successors a) : key a < key c := by
  unfold successors at hc
  cases hk : p.block? a with
  | none => simp [hk] at hc
  | some k =>
    rw [hk] at hc
    rw [← block?_id hk]
    exact h k (block?_mem hk) c hc

theorem key_lt_of_path (hpath : Relation.TransGen (fun a c => c ∈ p.successors a) a c) :
    key a < key c := by
  induction hpath with
  | single hc => exact key_lt_of_edge key h hc
  | tail _ hc ih => exact ih.trans (key_lt_of_edge key h hc)

theorem not_cycle_of_key (a : BlockId) : ¬ Relation.TransGen (fun a c => c ∈ p.successors a) a a :=
  fun hcycle =>
  Nat.lt_irrefl _ (key_lt_of_path key h hcycle)

end Numbered

/-- There are no declared loops, edges lead to blocks with greater numbers, and no block but the
entry is without predecessors. -/
def Ordered (p : Procedure) : Prop :=
  p.loopExits = [] ∧ (∀ k ∈ p.blocks, ∀ c ∈ k.successors, k.id.index < c.index) ∧
    ∀ k ∈ p.blocks, k.id = p.entry ∨ k.predecessors ≠ []

instance (p : Procedure) : Decidable p.Ordered := by
  unfold Ordered
  infer_instance

/-- Blocks numbered along the edges make an acyclic procedure, all of which is reachable. -/
theorem Ordered.acyclic (h : p.Ordered) (hw : p.WellFormed) : p.Acyclic where
  plain := isLoopHeader_of_loopExits h.1
  irreflexive := fun b _ => not_cycle_of_key BlockId.index h.2.1 b
  source := by
    intro a b _ ha
    have hmem : a ∈ p.blockIds := mem_blockIds_of_mem_successors ((hw.mem_predecessors a b).1 ha)
    clear ha
    induction hi : a.index using Nat.strong_induction_on generalizing a with
    | _ i ih =>
      subst hi
      obtain ⟨k, hk, rfl⟩ := List.mem_map.1 hmem
      rcases h.2.2 k hk with heq | hne
      · rw [heq]
        exact .refl
      · obtain ⟨c, hc⟩ := List.exists_mem_of_ne_nil _ hne
        have hsucc : k.id ∈ p.successors c := by
          refine (hw.mem_predecessors c k.id).1 ?_
          rw [predecessors, block?_eq_some hw.ids_nodup hk]
          exact hc
        have hlt := key_lt_of_edge BlockId.index h.2.1 hsucc
        exact (ih c.index hlt c (mem_blockIds_of_mem_successors hsucc) rfl).step hsucc

/-! ## the order of successors -/

/-- The procedures differ in nothing but their names and the order of the successors of blocks. -/
structure Reordered (p q : Procedure) : Prop where
  entry : q.entry = p.entry
  loopExits : q.loopExits = p.loopExits
  blocks : List.Forall₂ (fun k l => l.id = k.id ∧ l.statements = k.statements ∧
    l.predecessors = k.predecessors ∧ l.successors.Perm k.successors) p.blocks q.blocks

instance (p q : Procedure) : Decidable (Reordered p q) :=
  decidable_of_iff (q.entry = p.entry ∧ q.loopExits = p.loopExits ∧
    List.Forall₂ (fun k l => l.id = k.id ∧ l.statements = k.statements ∧
    l.predecessors = k.predecessors ∧
      l.successors.Perm k.successors) p.blocks q.blocks)
    ⟨fun h => ⟨h.1, h.2.1, h.2.2⟩, fun h => ⟨h.entry, h.loopExits, h.blocks⟩⟩

namespace Reordered

variable {q : Procedure}

theorem statementsOf_eq (h : Reordered p q) (b : BlockId) :
    q.statementsOf b = p.statementsOf b := by
  unfold statementsOf
  rcases block?_forall₂ (fun _ _ h => h.1) h.blocks b with ⟨hk, hl⟩ | ⟨k, l, hk, hl, -, heq, -⟩
  · rw [hk, hl]
  · rw [hk, hl, Option.map_some, Option.map_some, heq]

theorem predecessors_eq (h : Reordered p q) (b : BlockId) :
    q.predecessors b = p.predecessors b := by
  unfold predecessors
  rcases block?_forall₂ (fun _ _ h => h.1) h.blocks b with ⟨hk, hl⟩ | ⟨k, l, hk, hl, -, -, heq, -⟩
  · rw [hk, hl]
  · rw [hk, hl, Option.map_some, Option.map_some, heq]

theorem mem_successors (h : Reordered p q) {a b : BlockId} :
    b ∈ q.successors a ↔ b ∈ p.successors a := by
  unfold successors
  rcases block?_forall₂ (fun _ _ h => h.1) h.blocks a with ⟨hk, hl⟩ | ⟨k, l, hk, hl, -, -, -, hperm⟩
  · simp [hk, hl]
  · simp [hk, hl, hperm.mem_iff]

theorem reachable_iff (h : Reordered p q) {b : BlockId} : q.Reachable b ↔ p.Reachable b := by
  unfold Reachable
  simp only [h.mem_successors, h.entry]

theorem acyclic (h : Reordered p q) (hp : p.Acyclic) : q.Acyclic where
  plain := by
    intro b
    have := hp.plain b
    simpa only [isLoopHeader, loopExitsOf, head?, h.statementsOf_eq, h.loopExits] using this
  irreflexive := by
    intro b hb
    simp only [h.mem_successors]
    exact hp.irreflexive b (h.reachable_iff.1 hb)
  source := by
    intro a b hb ha
    rw [h.predecessors_eq] at ha
    exact h.reachable_iff.2 (hp.source a b (h.reachable_iff.1 hb) ha)

theorem solves_iff (h : Reordered p q) : q.Solves s x ↔ p.Solves s x := by
  simp only [Solves, left, entered, headLine, h.reachable_iff, h.statementsOf_eq, h.predecessors_eq]

end Reordered

end Procedure

open Procedure

namespace Machine

variable {p : Procedure} {s : Settings} {m m' : Machine} {b : BlockId} {t : Bindings} {f : Facts}

theorem Reaches.loops_of_plain (hplain : ∀ b, p.isLoopHeader b = false) (hm : Reaches p s m) :
    m.loops = [] := by
  refine List.eq_nil_iff_forall_not_mem.2 fun r hr => ?_
  have hheader := hm.loop_header r.header (List.mem_map_of_mem hr)
  rw [hplain] at hheader
  cases hheader

theorem Reaches.loops_eq_nil (h : p.Acyclic) (hm : Reaches p s m) : m.loops = [] :=
  hm.loops_of_plain h.plain

theorem Reaches.covered_acyclic (h : p.Acyclic) (hw : p.WellFormed) (hm : Reaches p s m) :
    Covered p (fun _ => none) (Acyclic.rank p) m :=
  hm.covered hw (h.nested hw) fun m hm r hr => by
    rw [hm.loops_eq_nil h] at hr
    cases hr

/-- What is exposed satisfies the equations, and so does what the walk carries along. -/
structure Tabled (p : Procedure) (s : Settings) (m : Machine) : Prop where
  exposed : ∀ (b : BlockId) (t : Bindings), m.facts.exposed[b]? = some t →
    (∀ a ∈ p.predecessors b, m.facts.claimed a = true) ∧ t = p.left s m.facts.exposed.table b
  visits : ∀ x ∈ m.visits, x.1 = p.entry ∧
    x.2 = ∅ ∨ ∃ a ∈ p.predecessors x.1, m.facts.exposed[a]? = some x.2

namespace Tabled

/-- A block is entered when all its predecessors were processed, with what they leave. -/
theorem enters (ha : p.Acyclic) (hw : p.WellFormed) (hm : Reaches p s m) (h : Tabled p s m)
    (he : Enters p s m b t f) :
    (∀ a ∈ p.predecessors b, m.facts.claimed a = true) ∧
      t = p.entered s m.facts.exposed.table b := by
  have hl := hm.loops_eq_nil ha
  have hplain : ∀ {b}, p.isLoopHeader b = true → False := fun hb => by
    rw [ha.plain] at hb
    cases hb
  cases he with
  | brought _ hv hc hp =>
    have hlen := hp.resolve_right fun hb => hplain hb.1
    rcases h.visits (b, t) (by simp [hv]) with ⟨rfl, rfl⟩ | ⟨a, hpred, hx⟩
    · unfold entered
      rw [ha.entry_predecessors hw]
      exact ⟨by simp, rfl⟩
    · -- a sole predecessor is copied
      have heq : p.predecessors b = [a] := by
        match hps : p.predecessors b with
        | [] => simp [hps] at hpred
        | [c] => simpa [hps, eq_comm] using hpred
        | _ :: _ :: _ =>
          rw [hps, List.length_cons, List.length_cons] at hlen
          omega
      unfold entered
      rw [heq]
      refine ⟨fun c hc => ?_, (Exposed.table_eq hx).symm⟩
      rw [List.mem_singleton.1 hc]
      exact Facts.claimed_iff.2 ⟨_, hx⟩
  | header _ _ _ hb => exact (hplain hb).elim
  | merge _ _ _ _ _ _ hmerge =>
    obtain ⟨hall, ht, -⟩ := Merge.predecessors_eq_ok hmerge
    exact ⟨hall, ht⟩
  | settled _ hv hr hmerge =>
    obtain ⟨t₀, rest, hv'⟩ :=
      (hm.covered_acyclic ha hw).visited (ha.nested hw) (hm.placed (ha.nested hw)) hl
      (.settled hl hv hr hmerge)
    rw [hv] at hv'
    cases hv'
  | looped hl' => rw [hl] at hl'; cases hl'

theorem step (ha : p.Acyclic) (hw : p.WellFormed) (hm : Reaches p s m) (h : Tabled p s m)
    (hstep : Step p s m m') :
    Tabled p s m' := by
  have hl := hm.loops_eq_nil ha
  -- what was exposed before stays as it was
  have hstable : ∀ (a : BlockId) (t : Bindings), m.facts.exposed[a]? = some t →
      m'.facts.exposed[a]? = some t := by
    intro a t ht
    cases hstep.change with
    | @processed b _ _ _ he hp hcore =>
      rw [Facts.exposed_of_core hcore, Transfer.exposed_process hp, he.exposed_eq, if_neg, ht]
      rintro rfl
      have := he.unclaimed
      rw [Facts.claimed_iff.2 ⟨t, ht⟩] at this
      cases this
    | ended hl' => rw [hl] at hl'; cases hl'
    | none _ hcore => rw [Facts.exposed_of_core hcore, ht]
  have htable : ∀ a, m.facts.claimed a = true →
      m'.facts.exposed.table a = m.facts.exposed.table a := fun a hc => by
    rw [Exposed.table_eq (hstable a _ (Exposed.isReady_iff.1 hc))]
  refine ⟨fun b t ht => ?_, fun x hx => ?_⟩
  · have hold : ∀ u, m.facts.exposed[b]? = some u →
        (∀ a ∈ p.predecessors b, m'.facts.claimed a = true) ∧
            u = p.left s m'.facts.exposed.table b := by
      intro u hu
      obtain ⟨hall, rfl⟩ := h.exposed b u hu
      exact ⟨fun a ha => hstep.claimed_mono (hall a ha), left_congr fun a ha =>
        (htable a (hall a ha)).symm⟩
    cases hstep.change with
    | @processed c u _ _ he hp hcore =>
      rw [Facts.exposed_of_core hcore, Transfer.exposed_process hp, he.exposed_eq] at ht
      split at ht
      · rename_i heq
        subst heq
        cases ht
        obtain ⟨hall, rfl⟩ := h.enters ha hw hm he
        refine ⟨fun a ha => hstep.claimed_mono (hall a ha), ?_⟩
        exact left_congr fun a ha => (htable a (hall a ha)).symm
      · exact hold t ht
    | ended hl' => rw [hl] at hl'; cases hl'
    | none _ hcore => exact hold t (by rw [← Facts.exposed_of_core hcore, ht])
  · rcases hstep.visits_cases hx with hx | ⟨a, hf, hx⟩
    · exact (h.visits x hx).imp id fun ⟨a, hpred, hx⟩ => ⟨a, hpred, hstable a _ hx⟩
    · cases hf with
      | walked _ _ _ hc => exact .inr ⟨a, (hw.mem_predecessors a x.1).2 hc, hx⟩
      | left hl' => rw [hl] at hl'; cases hl'

end Tabled

theorem Reaches.tabled (ha : p.Acyclic) (hw : p.WellFormed) (hm : Reaches p s m) :
    Tabled p s m := by
  refine hm.invariant ⟨?_, ?_⟩ fun _ _ hm ih hstep => ih.step ha hw hm hstep
  · simp [start, Facts.start]
  · simp [start]

theorem Reaches.table_eq_solution (ha : p.Acyclic) (hw : p.WellFormed) (hm : Reaches p s m)
    {x : BlockId → Bindings} (hx : p.Solves s x) :
    ∀ b, m.facts.claimed b = true → m.facts.exposed.table b = x b := by
  have htab := hm.tabled ha hw
  have hplaced := hm.placed (ha.nested hw)
  intro b hc
  induction hk : Acyclic.rank p b using Nat.strong_induction_on generalizing b with
  | _ k ih =>
    subst hk
    obtain ⟨hall, heq⟩ := htab.exposed b _ (Exposed.isReady_iff.1 hc)
    rw [hx b (hplaced.claimed b hc), heq]
    refine left_congr fun a hpred => ?_
    have hca := hall a hpred
    exact ih _ (ha.rank_lt (hplaced.claimed a hca) ((hw.mem_predecessors a b).1 hpred)) a hca rfl

end Machine

/-! ## the exposed bindings -/

variable {p : Procedure} {s : Settings} {r : Report}

theorem Report.claimed_iff_reachable (hw : p.WellFormed) (ha : p.Acyclic) (h : analyze p s = .ok r)
    (b : BlockId) :
    r.facts.claimed b = true ↔ p.Reachable b := by
  obtain ⟨-, m, hrun, hm, rfl⟩ := analyze_eq_ok h
  have hn := ha.nested hw
  rw [Machine.conclude_eq]
  refine ⟨(hm.placed hn).claimed b,
    hm.all_claimed hw hn (fun m hm r hr => ?_) (Machine.run_finished hrun) b⟩
  rw [hm.loops_eq_nil ha] at hr
  cases hr

theorem Report.solves (hw : p.WellFormed) (ha : p.Acyclic) (h : analyze p s = .ok r) :
    p.Solves s r.facts.exposed.table := by
  intro b hb
  have hc := (Report.claimed_iff_reachable hw ha h b).2 hb
  obtain ⟨-, m, -, hm, rfl⟩ := analyze_eq_ok h
  rw [Machine.conclude_eq] at hc ⊢
  exact ((hm.tabled ha hw).exposed b _ (Exposed.isReady_iff.1 hc)).2

/-- Without loops, every reachable block exposes its statements applied to the merge of what its
predecessors expose. These equations have one solution, so that the order of successors, and with it
the order of the walk, does not matter. -/
theorem analyze_exposes_solution {d : Draft} (hb : d.build = .ok p) (ha : p.Acyclic)
    (h : analyze p s = .ok r) :
    (∀ b, (∃ t, r.facts.exposed[b]? = some t) ↔ p.Reachable b) ∧
    p.Solves s r.facts.exposed.table ∧
    (∀ x, p.Solves s x → ∀ b, p.Reachable b → x b = r.facts.exposed.table b) ∧
    ∀ (d' : Draft) (q : Procedure) (r' : Report), d'.build = .ok q → Reordered p q →
      analyze q s = .ok r' →
      r'.facts.exposed = r.facts.exposed := by
  have hw := WellFormed.of_build hb
  have hsol := Report.solves hw ha h
  refine ⟨fun b => ?_, hsol, fun x hx => ha.solution_unique hw hx hsol,
    fun d' q r' hb' hpq h' => ?_⟩
  · rw [← Facts.claimed_iff]
    exact Report.claimed_iff_reachable hw ha h b
  · have hw' := WellFormed.of_build hb'
    have ha' := hpq.acyclic ha
    have hsol' := hpq.solves_iff.1 (Report.solves hw' ha' h')
    refine Std.ExtTreeMap.ext_getElem? fun b => ?_
    by_cases hreach : p.Reachable b
    · have hc := (Report.claimed_iff_reachable hw ha h b).2 hreach
      have hc' := (Report.claimed_iff_reachable hw' ha' h' b).2 (hpq.reachable_iff.2 hreach)
      rw [Exposed.isReady_iff.1 hc, Exposed.isReady_iff.1 hc',
        ha.solution_unique hw hsol' hsol b hreach]
    · have hc := mt (Report.claimed_iff_reachable hw ha h b).1 hreach
      have hc' := mt (Report.claimed_iff_reachable hw' ha' h' b).1 (mt hpq.reachable_iff.1 hreach)
      rw [Facts.claimed_iff] at hc hc'
      rw [Option.eq_none_iff_forall_ne_some.2 fun t ht => hc ⟨t, ht⟩,
        Option.eq_none_iff_forall_ne_some.2 fun t ht => hc' ⟨t, ht⟩]

/-- Two branches, one of which renames `a`; the second edge decides which branch is walked first. -/
def twoBranches (first second : BlockId) : Draft where
  name := "two branches"
  blocks := [
    (⟨0⟩, [⟨⟨0⟩, 1, "a = new", .create "a"⟩]),
    (⟨1⟩, [⟨⟨1⟩, 2, "a[i] = x", .write ⟨"a", .expr "i"⟩⟩]),
    (⟨2⟩, [⟨⟨2⟩, 3, "b = a", .rename "a" "b"⟩, ⟨⟨3⟩, 4, "a[j] = x", .write ⟨"a", .expr "j"⟩⟩]),
    (⟨3⟩, [⟨⟨4⟩, 5, "y = a[i]", .read ⟨"a", .expr "i"⟩⟩]),
    (⟨4⟩, [⟨⟨5⟩, 6, "y = a[j]", .read ⟨"a", .expr "j"⟩⟩])]
  edges := [(⟨0⟩, first), (⟨0⟩, second), (⟨0⟩, ⟨4⟩), (⟨1⟩, ⟨3⟩), (⟨2⟩, ⟨3⟩), (⟨3⟩, ⟨4⟩)]

theorem analyze_exposes_solution_twoBranches :
    ∃ p q r r', (twoBranches ⟨1⟩ ⟨2⟩).build = .ok p ∧ (twoBranches ⟨2⟩ ⟨1⟩).build = .ok q ∧
      analyze p {} = .ok r ∧ analyze q {} = .ok r' ∧ p.successors ⟨0⟩ ≠ q.successors ⟨0⟩ ∧
      p.Solves {} r.facts.exposed.table ∧ r'.facts.exposed = r.facts.exposed := by
  obtain ⟨p, r, hb, h, hP⟩ := Draft.check_eq_true (d := twoBranches ⟨1⟩ ⟨2⟩) (s := {})
    (P := fun p _ => (twoBranches ⟨2⟩ ⟨1⟩).check {} fun q _ =>
      p.Ordered ∧ Reordered p q ∧ p.successors ⟨0⟩ ≠ q.successors ⟨0⟩) (by decide +kernel)
  obtain ⟨q, r', hb', h', hQ⟩ := Draft.check_eq_true hP
  obtain ⟨hord, hpq, hne⟩ := of_decide_eq_true hQ
  have hsol := analyze_exposes_solution hb (hord.acyclic (.of_build hb)) h
  exact ⟨p, q, r, r', hb, hb', h, h', hne, hsol.2.1, hsol.2.2.2 _ q r' hb' hpq h'⟩

end ArrayFlow
