import ArrayFlow.Proofs.Headers

/-!
# Merges that are left over

A merge is left over when the walk is done with everything else and no predecessor of the merge was
processed. The walk comes to a block from a processed predecessor, whether loops are given up or
not, so that this cannot happen to it later on. It can happen to the entry, which the walk comes to
from nowhere.

* `Procedure.EntryMerges`  : several edges lead to the entry, and it is not declared as a loop
  header;
* `Reaches.pending_behind` : a pending merge comes behind a processed block, unless it is the entry;
* `Reaches.leftover_named` : so a report names the entry only;
* `Reaches.entry_waits`    : an entry that merges waits for good, and nothing is processed;
* `analyze_leftover`       : only the entry is ever left over, exactly if it merges;
* `entry_left_over`        : an entry that control comes back to from two branches.
-/

namespace ArrayFlow

/-- Several edges lead to the entry, which is not declared as a loop header. -/
def Procedure.EntryMerges (p : Procedure) : Prop :=
  2 ≤ (p.predecessors p.entry).length ∧ p.isLoopHeader p.entry = false

instance (p : Procedure) : Decidable p.EntryMerges :=
  inferInstanceAs (Decidable (2 ≤ (p.predecessors p.entry).length ∧ p.isLoopHeader p.entry = false))

namespace Machine

variable {p : Procedure} {s : Settings} {m : Machine} {a c : BlockId}

/-! ## merges behind processed blocks -/

/-- The walk came to a pending merge from a processed block, unless the merge is the entry. -/
theorem Reaches.pending_behind (hm : Reaches p s m) :
    ∀ c ∈ m.pending, c = p.entry ∨ ∃ a, m.facts.claimed a = true ∧ c ∈ p.successors a := by
  refine hm.invariant (P := fun m => ∀ c ∈ m.pending, c = p.entry ∨ ∃ a, m.facts.claimed a = true ∧
    c ∈ p.successors a)
    (by simp [start]) ?_
  intro m m' hm ih hstep c hc
  rcases hstep.pending_cases hc with hc | ⟨t, hx⟩
  · rcases ih c hc with rfl | ⟨a, ha, hsucc⟩
    · exact .inl rfl
    · exact .inr ⟨a, hstep.claimed_mono ha, hsucc⟩
  · cases hm.brought _ hx with
    | first h => exact .inl (congrArg Prod.fst h)
    | behind ha hsucc => exact .inr ⟨_, hstep.claimed_mono ha, hsucc⟩

/-- When nothing is left to do, the only merge that may be left over is the entry. -/
theorem Reaches.eq_entry_of_leftover (hw : p.WellFormed) (hm : Reaches p s m)
    (hf : m.finished p = true) (hc : c ∈ m.pending) (hno : m.facts.claimed c = false) :
    c = p.entry := by
  rcases hm.pending_behind c hc with heq | ⟨a, ha, hsucc⟩
  · exact heq
  · rw [claimed_of_pending hf hc ((hw.mem_predecessors a c).2 hsucc) ha] at hno
    cases hno

/-- A report names no merge as left over but the entry, and that one only if it was not
processed. -/
theorem Reaches.leftover_named (hw : p.WellFormed) (hm : Reaches p s m) (hf : m.finished p = true) :
    ∀ x ∈ m.conclude.diagnostics, x.kind = .unreachableMerge →
      x = .unreachableMerge p.entry ∧ m.facts.claimed p.entry = false := by
  intro x hx hkind
  rw [conclude_eq, List.mem_append] at hx
  rcases hx with hx | hx
  · exact absurd hkind (hm.not_unreachableMerge x hx)
  · obtain ⟨c, hc, rfl⟩ := List.mem_map.1 hx
    obtain ⟨hc, hno⟩ := List.mem_filter.1 hc
    have hno : m.facts.claimed c = false := by simpa using hno
    obtain rfl := hm.eq_entry_of_leftover hw hf (Std.ExtTreeSet.mem_toList.1 hc) hno
    exact ⟨rfl, hno⟩

/-! ## an entry that waits -/

/-- The machine in which nothing is left but the entry, which waits. -/
def stranded (p : Procedure) (s : Settings) : Machine := ⟨.start s, {p.entry}, [], []⟩

theorem readyOf_start (s : Settings) (bs : List BlockId) :
    (Facts.start s).exposed.readyOf bs = [] := by
  simp [Facts.start, Exposed.readyOf, Exposed.isReady]

theorem stranded_finished : (stranded p s).finished p = true := by
  have hnone : (stranded p s).resolvable? p = none := by
    simp [resolvable?, stranded, readyOf_start]
  rw [finished, hnone]
  rfl

theorem step_start_of_entryMerges (hp : p.EntryMerges) :
    step p s (start p s) = .ok (stranded p s) := by
  obtain ⟨h2, hb⟩ := hp
  have hready : (Facts.start s).exposed.allReady (p.predecessors p.entry) = false := by
    obtain ⟨a, ha⟩ := List.exists_mem_of_length_pos (Nat.lt_of_lt_of_le Nat.zero_lt_two h2)
    exact List.all_eq_false.2 ⟨a, ha, by simpa [Facts.claimed] using Facts.claimed_start s a⟩
  have hlt : ¬ (p.predecessors p.entry).length < 2 := by omega
  simp [step, start, visit, hlt, hb, hready, stranded]

theorem Reaches.entry_waits (hp : p.EntryMerges) (hm : Reaches p s m) :
    m = start p s ∨ m = stranded p s := by
  induction hm with
  | refl => exact .inl rfl
  | tail _ hstep ih =>
    rcases ih with rfl | rfl
    · rw [step_start_of_entryMerges hp] at hstep
      exact .inr (Except.ok.inj hstep).symm
    · rw [step_of_finished stranded_finished] at hstep
      exact .inr (Except.ok.inj hstep).symm

theorem conclude_stranded :
    (stranded p s).conclude = (Facts.start s).report (.unreachableMerge p.entry) := by
  have hlist : (stranded p s).pending.toList = [p.entry] := by
    refine List.perm_singleton.1
      ((List.perm_ext_iff_of_nodup (nodup_toList _) (List.nodup_singleton _)).2 fun c => ?_)
    simpa [stranded] using eq_comm
  rw [conclude, hlist]
  simp [stranded]

end Machine

/-- A report names a merge as left over only if it is the entry, and this happens exactly if several
edges lead to the entry and it is not declared as a loop header. Then nothing is processed at all,
and this is all that is found; otherwise the entry is processed, and no block that control can come
to is left over. -/
theorem analyze_leftover {d : Draft} {p : Procedure} {s : Settings} {r : Report}
    (hb : d.build = .ok p) (h : analyze p s = .ok r) :
    (r.facts.claimed p.entry = true ↔ ¬ p.EntryMerges) ∧
    ((∀ x ∈ r.facts.diagnostics, ∀ b, x.kind = .unreachableMerge → x.block = some b →
      ¬ p.Reachable b) ↔
      ¬ p.EntryMerges) ∧
    (∀ x ∈ r.facts.diagnostics, x.kind = .unreachableMerge → x = .unreachableMerge p.entry) ∧
    (p.EntryMerges → r.facts = (Facts.start s).report (.unreachableMerge p.entry)) := by
  obtain ⟨-, m, hrun, hm, rfl⟩ := analyze_eq_ok h
  have hf := Machine.run_finished hrun
  have hstart : m ≠ .start p s := by
    rintro rfl
    simp [Machine.finished, Machine.start] at hf
  have hfacts : p.EntryMerges →
      m.conclude = (Facts.start s).report (.unreachableMerge p.entry) := by
    intro hp
    rw [(hm.entry_waits hp).resolve_left hstart]
    exact Machine.conclude_stranded
  have hfirst : ¬ p.EntryMerges → m.facts.claimed p.entry = true := by
    intro hp
    refine (hm.entry_claimed ?_).resolve_left hstart
    by_contra hno
    rw [not_or] at hno
    exact hp ⟨by omega, by simpa using hno.2⟩
  have hnamed := hm.leftover_named (.of_build hb) hf
  refine ⟨⟨fun hc hp => ?_, fun hp => ?_⟩, ⟨fun hall hp => ?_, fun hp x hx b hkind _ _ => ?_⟩,
    fun x hx hkind => (hnamed x hx hkind).1, hfacts⟩
  · rw [hfacts hp] at hc
    exact Bool.false_ne_true ((Facts.claimed_start s p.entry).symm.trans hc)
  · rw [Machine.conclude_eq]
    exact hfirst hp
  · refine hall (.unreachableMerge p.entry) ?_ p.entry rfl rfl .refl
    rw [hfacts hp]
    exact List.mem_append_right _ (List.mem_singleton_self _)
  · have hno := (hnamed x hx hkind).2
    rw [hfirst hp] at hno
    cases hno

/-- An entry that heads a loop, and that control comes back to from behind the loop as well. On the
way there lies a second loop, which is too long, and a merge behind it that waits for a block of
it. -/
def loopAtEntry : Draft where
  name := "loop at the entry"
  blocks := (List.range 8).map fun i => (⟨i⟩, [⟨⟨i⟩, i, "skip", .other⟩])
  edges := [(⟨0⟩, ⟨1⟩), (⟨1⟩, ⟨0⟩), (⟨0⟩, ⟨2⟩), (⟨2⟩, ⟨3⟩), (⟨3⟩, ⟨4⟩), (⟨4⟩, ⟨5⟩), (⟨5⟩, ⟨3⟩),
    (⟨3⟩, ⟨6⟩), (⟨5⟩, ⟨7⟩), (⟨6⟩, ⟨7⟩), (⟨7⟩, ⟨0⟩)]
  loops := [.blocks ⟨0⟩ ⟨2⟩, .blocks ⟨3⟩ ⟨6⟩]

theorem analyze_leftover_loopAtEntry :
    ∃ p r, loopAtEntry.build = .ok p ∧ analyze p { maxIterations := 1 } = .ok r ∧ ¬ p.EntryMerges ∧
      2 ≤ (p.predecessors p.entry).length ∧ r.facts.diagnostics.map (·.kind) = [.loopLimit] ∧
      r.facts.claimed p.entry = true ∧ p.predecessors ⟨7⟩ = [⟨5⟩, ⟨6⟩] ∧
      r.facts.claimed ⟨5⟩ = false ∧ p.Reachable ⟨7⟩ ∧
      ∀ x ∈ r.facts.diagnostics, ¬ (x.kind = .unreachableMerge ∧ x.block = some ⟨7⟩) := by
  obtain ⟨p, r, hb, h, hP⟩ := Draft.check_eq_true (d := loopAtEntry) (s := { maxIterations := 1 })
    (P := fun p r => ¬ p.EntryMerges ∧ 2 ≤ (p.predecessors p.entry).length ∧
      r.facts.diagnostics.map (·.kind) = [.loopLimit] ∧ p.predecessors ⟨7⟩ = [⟨5⟩, ⟨6⟩] ∧
      r.facts.claimed ⟨5⟩ = false ∧ r.facts.claimed ⟨7⟩ = true) (by decide +kernel)
  obtain ⟨hentry, h2, hkinds, hpreds, hfive, hseven⟩ := of_decide_eq_true hP
  have hreach : p.Reachable ⟨7⟩ := by
    obtain ⟨-, m, -, hm, rfl⟩ := analyze_eq_ok h
    rw [Machine.conclude_eq] at hseven
    exact hm.reachable.claimed _ hseven
  obtain ⟨hclaimed, hnone, -, -⟩ := analyze_leftover hb h
  exact ⟨p, r, hb, h, hentry, h2, hkinds, hclaimed.2 hentry, hpreds, hfive, hreach,
    fun x hx hleft => hnone.2 hentry x hx ⟨7⟩ hleft.1 hleft.2 hreach⟩

/-- Two branches that both lead back to the entry. -/
def returningBranches : Draft where
  name := "returning branches"
  blocks := [(⟨0⟩, [⟨⟨0⟩, 1, "a = new", .create "a"⟩]), (⟨1⟩, [⟨⟨1⟩, 2, "skip", .other⟩]),
    (⟨2⟩, [⟨⟨2⟩, 3, "skip", .other⟩])]
  edges := [(⟨0⟩, ⟨1⟩), (⟨0⟩, ⟨2⟩), (⟨1⟩, ⟨0⟩), (⟨2⟩, ⟨0⟩)]

theorem entry_left_over :
    ∃ p r, returningBranches.build = .ok p ∧ analyze p {} = .ok r ∧ p.Reachable p.entry ∧
      r.facts.claimed p.entry = false ∧ r.facts.diagnostics = [.unreachableMerge p.entry] := by
  obtain ⟨p, r, hb, h, hP⟩ := Draft.check_eq_true (d := returningBranches) (s := {})
    (P := fun p r => r.facts.claimed p.entry = false ∧
      r.facts.diagnostics = [.unreachableMerge p.entry])
    (by decide +kernel)
  obtain ⟨hno, hleft⟩ := of_decide_eq_true hP
  exact ⟨p, r, hb, h, .refl, hno, hleft⟩

end ArrayFlow
