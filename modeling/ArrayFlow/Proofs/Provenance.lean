import ArrayFlow.Proofs.Stores

/-!
# Where versions come from

Every version that an analysis leaves anywhere was made by a statement or by a merge of the
procedure, and looks as its maker makes it.

* `Version.Inside`  : a version stands inside another one, at some depth;
* `Version.Genuine` : the version looks as its maker makes it, its inputs apart;
* `Version.Sound`   : the version is genuine at all depths;
* `Reaches.sound`   : the invariant, all versions that are kept are sound;
* `analyze_versions_genuine` : so are all versions in a report.
-/

namespace ArrayFlow

open DefUse

/-! ## versions -/

namespace Version

/-- The version `w` is `v`, or stands among the inputs of `v` at some depth. -/
inductive Inside (w : Version) : Version → Prop
  | self : Inside w w
  | input {n : Nat} {vs : List Version} {b : BlockId} {l : Nat} {v : Version} (hv : v ∈ vs)
      (h : Inside w v) :
      Inside w (phi n vs b l)

/-- The version looks as its maker makes it. A single version is made by a statement of its block,
at the line of that statement: a write, or a creation, which makes version 0. A merged version joins
at least two others and is numbered one past the largest of them; it is made in a block with at
least two predecessors, at the line where that block starts. -/
def Genuine (p : Procedure) : Version → Prop
  | single n b σ l w _ => ∃ stmt ∈ p.statementsOf b, stmt.id = σ ∧ stmt.line = l ∧
      ((∃ a, stmt.action = .write a) ∧ w = true ∨ (∃ base, stmt.action = .create base) ∧
        w = false ∧ n = 0)
  | phi n vs b l => 2 ≤ vs.length ∧ (∀ w ∈ vs, w.number < n) ∧ (∃ w ∈ vs, n = w.number + 1) ∧
      2 ≤ (p.predecessors b).length ∧ l = p.headLine b

/-- The version is genuine at all depths. -/
def Sound (p : Procedure) (v : Version) : Prop := ∀ w, Inside w v → Genuine p w

variable {p : Procedure} {v : Version}

theorem Sound.genuine (h : Sound p v) : Genuine p v := h v .self

theorem forall_inside_single {Q : Version → Prop} {n : Nat} {b : BlockId} {σ : StmtId} {l : Nat}
    {wr rd : Bool} :
    (∀ w, Inside w (single n b σ l wr rd) → Q w) ↔ Q (single n b σ l wr rd) := by
  refine ⟨fun h => h _ .self, fun h w hw => ?_⟩
  cases hw
  exact h

theorem forall_inside_phi {Q : Version → Prop} {n : Nat} {vs : List Version}
    {b : BlockId} {l : Nat} :
    (∀ w, Inside w (phi n vs b l) → Q w) ↔ Q (phi n vs b l) ∧ ∀ v ∈ vs, ∀ w, Inside w v → Q w := by
  constructor
  · intro h
    exact ⟨h _ .self, fun v hv w hw => h w (.input hv hw)⟩
  · rintro ⟨h, hvs⟩ w hw
    cases hw with
    | self => exact h
    | input hv hw => exact hvs _ hv w hw

theorem sound_single {n : Nat} {b : BlockId} {σ : StmtId} {l : Nat} {wr rd : Bool} :
    Sound p (single n b σ l wr rd) ↔ Genuine p (single n b σ l wr rd) := forall_inside_single

theorem sound_phi {n : Nat} {vs : List Version} {b : BlockId} {l : Nat} :
    Sound p (phi n vs b l) ↔ Genuine p (phi n vs b l) ∧ ∀ v ∈ vs, Sound p v := forall_inside_phi

theorem Sound.markRead (h : Sound p v) : Sound p v.markRead := by
  cases v with
  | single n b σ l wr rd =>
    rw [Version.markRead, sound_single]
    exact h.genuine
  | phi => exact h

/-! ### the makers of versions -/

theorem sound_created {b : BlockId} {stmt : Statement} {base : String}
    (hs : stmt ∈ p.statementsOf b) (hact : stmt.action = .create base) :
    Sound p (created b stmt.id stmt.line) :=
  sound_single.2 ⟨stmt, hs, rfl, rfl, .inr ⟨⟨base, hact⟩, rfl, rfl⟩⟩

theorem sound_written {b : BlockId} {stmt : Statement} {a : Access} (n : Nat)
    (hs : stmt ∈ p.statementsOf b) (hact : stmt.action = .write a) :
    Sound p (single n b stmt.id stmt.line true false) :=
  sound_single.2 ⟨stmt, hs, rfl, rfl, .inl ⟨⟨a, hact⟩, rfl⟩⟩

/-- The largest number among versions, with `k` for none, is reached and not passed. -/
theorem foldl_max_spec (vs : List Version) (k : Nat) :
    let n := vs.foldl (fun m v => Nat.max m v.number) k
    k ≤ n ∧ (∀ v ∈ vs, v.number ≤ n) ∧ (n = k ∨ ∃ v ∈ vs, v.number = n) := by
  induction vs generalizing k with
  | nil => simp
  | cons v vs ih =>
    obtain ⟨hle, hall, hreach⟩ := ih (Nat.max k v.number)
    have hk : k ≤ Nat.max k v.number := Nat.le_max_left ..
    have hv : v.number ≤ Nat.max k v.number := Nat.le_max_right ..
    refine ⟨Nat.le_trans hk hle, List.forall_mem_cons.2 ⟨Nat.le_trans hv hle, hall⟩, ?_⟩
    rcases hreach with heq | ⟨w, hw, heq⟩
    · rw [List.foldl_cons, heq]
      rcases Nat.le_total v.number k with hvk | hkv
      · exact .inl (Nat.max_eq_left hvk)
      · exact .inr ⟨v, List.mem_cons_self .., (Nat.max_eq_right hkv).symm⟩
    · exact .inr ⟨w, List.mem_cons_of_mem _ hw, heq⟩

theorem maxNumber_spec {vs : List Version} (h : vs ≠ []) :
    (∀ v ∈ vs, v.number ≤ maxNumber vs) ∧ ∃ v ∈ vs, v.number = maxNumber vs := by
  obtain ⟨-, hall, heq | hreach⟩ := foldl_max_spec vs 0
  · -- all numbers are zero, and there is one
    obtain ⟨v, hv⟩ := List.exists_mem_of_ne_nil vs h
    have hzero : v.number ≤ 0 := heq ▸ hall v hv
    exact ⟨hall, v, hv, (Nat.le_zero.1 hzero).trans heq.symm⟩
  · exact ⟨hall, hreach⟩

theorem sound_merged {inputs : List Version} {b : BlockId}
    (hv : phi? inputs b (p.headLine b) = some v) (hb : 2 ≤ (p.predecessors b).length)
    (hin : ∀ w ∈ inputs, Sound p w) : Sound p v := by
  obtain ⟨hlen, rfl⟩ := phi?_eq_some.1 hv
  have hne : inputs ≠ [] := by
    rintro rfl
    exact absurd hlen (by decide)
  obtain ⟨hall, w, hw, heq⟩ := maxNumber_spec hne
  refine sound_phi.2 ⟨⟨by omega, fun w hw => ?_, ⟨w, hw, by rw [heq]⟩, hb, rfl⟩, hin⟩
  have := hall w hw
  omega

end Version

/-! ## statements and merges -/

section

variable {p : Procedure} {s : Settings} {f f' f₁ : Facts} {b : BlockId} {t t' : Bindings}
  {stmt : Statement}

theorem Version.sound_made {v : Version} (hmem : stmt ∈ p.statementsOf b)
    (hv : Transfer.made? b t stmt = some v) :
    v.Sound p := by
  unfold Transfer.made? at hv
  split at hv
  · rename_i a hact
    split at hv
    · cases hv
      exact sound_written _ hmem hact
    · cases hv
      exact sound_written 0 hmem hact
  · rename_i base hact
    cases hv
    exact sound_created hmem hact
  · cases hv

theorem Transfer.statements_sound {stmts : List Statement} (h : f.All (Version.Sound p))
    (ht : t.All (Version.Sound p)) (hmem : ∀ stmt ∈ stmts, stmt ∈ p.statementsOf b)
    (hs : Transfer.statements s b stmts t f = .ok (t', f')) :
    t'.All (Version.Sound p) ∧ f'.All (Version.Sound p) := by
  induction stmts generalizing t f with
  | nil =>
    cases hs
    exact ⟨ht, h⟩
  | cons stmt rest ih =>
    rw [Transfer.statements_cons, bind_eq_ok] at hs
    obtain ⟨⟨t₁, f₁⟩, h₁, hs⟩ := hs
    have hstmt := hmem stmt (List.mem_cons_self ..)
    obtain ⟨ht₁, hf₁⟩ := h.statement (P := Version.Sound p) (fun _ => Version.Sound.markRead) ht
      (fun _ => Version.sound_made hstmt) h₁
    exact ih hf₁ ht₁ (fun stmt' hm => hmem stmt' (List.mem_cons_of_mem _ hm)) hs

theorem Transfer.process_sound (h : f.All (Version.Sound p)) (ht : t.All (Version.Sound p))
    (hs : Transfer.process s b p t f = .ok f₁) : f₁.All (Version.Sound p) := by
  obtain ⟨t', f', hstmts, rfl⟩ := Transfer.process_eq_ok.1 hs
  obtain ⟨ht', hf'⟩ := Transfer.statements_sound h ht (fun _ hm => hm) hstmts
  exact hf'.expose ht'

/-- What a merge leaves behind: where it makes versions, the block has at least two predecessors. -/
theorem Merge.predecessors_sound {preds : List BlockId} (hsub : preds.Sublist (p.predecessors b))
    (h : f.All (Version.Sound p))
    (hm : Merge.predecessors s f b (p.headLine b) preds = .ok (t, f')) :
    t.All (Version.Sound p) ∧ f'.All (Version.Sound p) := by
  refine h.predecessors (P := Version.Sound p) (fun _ => Version.Sound.markRead)
    (fun hlen n hn => ?_) hm
  obtain ⟨base, -, hn⟩ := List.mem_flatMap.1 hn
  refine Version.sound_merged (Merge.version_of_phiNode? hn)
    (Nat.le_trans hlen hsub.length_le) fun w hw => ?_
  obtain ⟨u, hu, hw⟩ := List.mem_filterMap.1 hw
  obtain ⟨c, hc, rfl⟩ := List.mem_map.1 hu
  have hready := (Merge.predecessors_eq_ok hm).1 c hc
  exact h.exposed c _ (Exposed.isReady_iff.1 hready) base w hw

end

/-! ## the run -/

namespace Machine

variable {p : Procedure} {s : Settings} {m : Machine} {b : BlockId} {t : Bindings} {f f₁ : Facts}

theorem Enters.sound (he : Enters p s m b t f) (h : m.facts.All (Version.Sound p))
    (hv : ∀ x ∈ m.visits, x.2.All (Version.Sound p)) :
    t.All (Version.Sound p) ∧ f.All (Version.Sound p) := by
  rcases he.source with ⟨hmem, rfl⟩ | ⟨preds, hsub, hm⟩
  · exact ⟨hv _ hmem, h⟩
  · exact Merge.predecessors_sound hsub h hm

/-- All versions that an analysis comes by are genuine, at every time. -/
theorem Reaches.sound (h : Reaches p s m) :
    m.facts.All (Version.Sound p) ∧ ∀ x ∈ m.visits, x.2.All (Version.Sound p) := by
  refine h.invariant (P := fun m => m.facts.All (Version.Sound p) ∧
    ∀ x ∈ m.visits, x.2.All (Version.Sound p)) ?_ ?_
  · refine ⟨.start s, fun x hx => ?_⟩
    rw [List.mem_singleton.1 hx]
    exact .empty
  · rintro m m' - ⟨hf, hv⟩ hstep
    refine hstep.all hf hv (fun _ => id) fun b t f f₁ he hp => ?_
    obtain ⟨ht, hf⟩ := he.sound hf hv
    exact Transfer.process_sound hf ht hp

end Machine

/-- Every version in a report, at every depth, was made by a write or a creation of its block, or by
a merge of at least two versions at the start of its block, and looks as its maker makes it. -/
theorem analyze_versions_genuine {p : Procedure} {s : Settings} {r : Report}
    (h : analyze p s = .ok r) {v w : Version} (hv : r.facts.Holds v)
    (hw : w.Inside v) : w.Genuine p := by
  obtain ⟨-, m, -, hm, rfl⟩ := analyze_eq_ok h
  have hsound : m.conclude.All (Version.Sound p) := by
    rw [Machine.conclude_eq]
    exact hm.sound.1.congr rfl rfl rfl
  exact hsound.holds hv w hw

/-- `a` is written in one of two branches, read at the join, renamed and written in a loop. -/
def renamedMerge : Draft where
  name := "renamed merge"
  blocks := [
    (⟨0⟩, [⟨⟨0⟩, 1, "a = new", .create "a"⟩]),
    (⟨1⟩, [⟨⟨1⟩, 2, "a[i] = x", .write ⟨"a", .expr "i"⟩⟩]),
    (⟨2⟩, [⟨⟨2⟩, 3, "skip", .other⟩]),
    (⟨3⟩, [⟨⟨3⟩, 4, "y = a[i]", .read ⟨"a", .expr "i"⟩⟩, ⟨⟨4⟩, 5, "b = a", .rename "a" "b"⟩]),
    (⟨4⟩, [⟨⟨5⟩, 6, "b[i] = x", .write ⟨"b", .expr "i"⟩⟩]),
    (⟨5⟩, [⟨⟨6⟩, 7, "while", .other⟩]),
    (⟨6⟩, [⟨⟨7⟩, 8, "b[j] = y", .write ⟨"b", .expr "j"⟩⟩]),
    (⟨7⟩, [⟨⟨8⟩, 9, "y = b[j]", .read ⟨"b", .expr "j"⟩⟩])]
  edges := [(⟨0⟩, ⟨1⟩), (⟨0⟩, ⟨2⟩), (⟨1⟩, ⟨3⟩), (⟨2⟩, ⟨3⟩), (⟨3⟩, ⟨4⟩), (⟨3⟩, ⟨7⟩), (⟨4⟩, ⟨5⟩),
    (⟨5⟩, ⟨6⟩), (⟨6⟩, ⟨5⟩), (⟨5⟩, ⟨7⟩)]
  loops := [.blocks ⟨5⟩ ⟨7⟩]

theorem analyze_versions_genuine_renamedMerge :
    ∃ (p : Procedure) (r : Report) (v w : Version), renamedMerge.build = .ok p ∧
      analyze p {} = .ok r ∧
      r.facts.Holds v ∧ w.Inside v ∧ v.number = 5 ∧ w.number = 2 ∧ v.Genuine p ∧ w.Genuine p := by
  let w : Version := .phi 2 [.single 1 ⟨1⟩ ⟨1⟩ 2 true false, .single 0 ⟨0⟩ ⟨0⟩ 1 false false] ⟨3⟩ 4
  let v : Version := .phi 5 [w, .single 4 ⟨6⟩ ⟨7⟩ 8 true false] ⟨7⟩ 9
  obtain ⟨p, r, hb, h, hP⟩ := Draft.check_eq_true (d := renamedMerge) (s := {})
    (P := fun _ r => (r.facts.exposed[(⟨7⟩ : BlockId)]?.bind fun t => t["b"]?) = some v)
      (by decide +kernel)
  obtain ⟨t, ht, hv⟩ := Option.bind_eq_some_iff.1 (of_decide_eq_true hP)
  have hholds : r.facts.Holds v := .exposed ht hv
  have hinside : w.Inside v := .input (List.mem_cons_self ..) .self
  exact ⟨p, r, v, w, hb, h, hholds, hinside, rfl, rfl, analyze_versions_genuine h hholds .self,
    analyze_versions_genuine h hholds hinside⟩

end ArrayFlow
