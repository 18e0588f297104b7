import ArrayFlow.Proofs.Bounds
import ArrayFlow.Proofs.Reaching

/-!
# Chains of versions

Every version that is made is entered into a chain. A creation, a write and a merge make the chain
of their array longer. A rename enters its version behind a copy of the chain of the array that it
renames, and this takes the place of the chain that the new name had.

* `History.Entry`, `History.replay` : what is entered, and the chains that many entries in a row
  lead to;
* `Transfer.entries`      : what statements in a row enter;
* `Machine.Logged`        : what a run enters, block by block;
* `Logged.history`        : the chains are those that the log leads to, by induction on the run;
* `History.mem_chain_of_own` : a record stays, unless its chain is replaced later on;
* `analyze_history`       : no creation, write or merge is missing in the log, chains keep its
  order, and the chain of an array is complete if no other array is renamed to it;
* `rename_drops_chain`    : an array is renamed on one branch to the name of an array on another.
-/

namespace ArrayFlow

/-! ## entries -/

/-- The record `record` is entered for `target`, behind the chain of `source`. -/
structure History.Entry where
  source : String
  target : String
  record : Record
  deriving DecidableEq, Repr

namespace History

def apply (h : History) (e : Entry) : History := h.inherit e.source e.target e.record

/-- The chains that entries lead to. -/
def replay (log : List Entry) : History := log.foldl apply ∅

variable {h : History} {x : String} {log pre post : List Entry} {e : Entry}

theorem chain_apply (h : History) (e : Entry) (x : String) :
    (h.apply e).chain x = if e.target = x then h.chain e.source ++ [e.record] else h.chain x := by
  simp only [apply, inherit, chain, Std.ExtTreeMap.getElem?_insert, Std.compare_eq_iff_eq]
  split
  · rfl
  · rfl

/-- As long as nothing else is entered for a name, its chain becomes longer by what is entered for
it. -/
theorem chain_foldl_of_own (h : History) (hown : ∀ e ∈ log, e.target = x → e.source = x) :
    (log.foldl apply h).chain x = h.chain x ++ (log.filter (·.target = x)).map (·.record) := by
  induction log generalizing h with
  | nil => simp
  | cons e log ih =>
    rw [List.foldl_cons, ih _ fun e' he' => hown e' (List.mem_cons_of_mem _ he'), chain_apply]
    by_cases hx : e.target = x
    · have hsource := hown e (List.mem_cons_self ..) hx
      simp [hx, hsource]
    · simp [hx]

/-- A record stays in its chain, unless the chain is replaced by that of another array. -/
theorem mem_chain_of_own (hown : ∀ e' ∈ post, e'.target = e.target → e'.source = e.target) :
    e.record ∈ (replay (pre ++ e :: post)).chain e.target := by
  rw [replay, List.foldl_append, List.foldl_cons, chain_foldl_of_own _ hown,
    chain_apply, if_pos rfl]
  simp

/-- Chains have their records in the order in which they were entered. -/
theorem chain_foldl_sublist {l : List Record} (hl : ∀ x, (h.chain x).Sublist l) (log : List Entry)
    (x : String) :
    ((log.foldl apply h).chain x).Sublist (l ++ log.map (·.record)) := by
  induction log generalizing h l with
  | nil => simpa using hl x
  | cons e log ih =>
    have hone : ∀ x, ((h.apply e).chain x).Sublist (l ++ [e.record]) := by
      intro x
      rw [chain_apply]
      split
      · exact (hl e.source).append (.refl _)
      · exact (hl x).trans (List.sublist_append_left _ _)
    simpa using ih hone

end History

open History

/-! ## what statements enter -/

/-- Does an action give the name of an array to another one? -/
def Action.renamesOnto (base : String) : Action → Bool
  | rename source target => target == base && source != base
  | _ => false

/-- Some statement of the block gives the name of an array to another one. -/
def Procedure.RenamesOnto (p : Procedure) (b : BlockId) (base : String) : Prop :=
  ∃ stmt ∈ p.statementsOf b, stmt.action.renamesOnto base = true

namespace Transfer

variable {s : Settings} {block : BlockId} {t t' : Bindings} {f f' : Facts} {stmt : Statement}
  {stmts : List Statement} {x : String} {e : Entry}

/-- What a statement enters. -/
def entered? (block : BlockId) (t : Bindings) (stmt : Statement) : Option Entry :=
  match stmt.action with
  | .write a => (rebind block t stmt)[a.base]?.map fun v =>
    ⟨a.base, a.base, .of v .write (some stmt.id)⟩
  | .create base => some ⟨base, base, .of (.created block stmt.id stmt.line) .create (some stmt.id)⟩
  | .rename source target => t[source]?.map fun v => ⟨source, target, .of v .rename (some stmt.id)⟩
  | _ => none

def entries (block : BlockId) : List Statement → Bindings → List Entry
  | [], _ => []
  | stmt :: rest, t => (entered? block t stmt).toList ++ entries block rest (rebind block t stmt)

theorem statement_history (h : statement s block t f stmt = .ok (t', f')) :
    f'.history = (entered? block t stmt).toList.foldl apply f.history := by
  have hbind := (statement_eq_ok h).1
  unfold entered?
  cases statement_effect h with
  | write hact =>
    rw [hact, ← hbind]
    simp [Facts.define, Facts.record, History.record, apply, inherit]
  | missed hact | used hact | dangling hact | create hact | other hact =>
    rw [hact]
    rfl
  | unmoved hact hv | moved hact hv | redefined hact hv =>
    simp only [hact, hv]
    rfl

theorem statements_history (h : statements s block stmts t f = .ok (t', f')) :
    f'.history = (entries block stmts t).foldl apply f.history := by
  induction stmts generalizing t f with
  | nil =>
    cases h
    rfl
  | cons stmt rest ih =>
    rw [statements_cons, bind_eq_ok] at h
    obtain ⟨⟨t₁, f₁⟩, h₁, h⟩ := h
    obtain ⟨rfl, -, -⟩ := statement_eq_ok h₁
    rw [ih h, statement_history h₁, entries, List.foldl_append]

theorem exists_entry (block : BlockId) (t : Bindings) (hdef : stmt.action.defines x = true) :
    ∃ rec, entered? block t stmt = some ⟨x, x, rec⟩ ∧ rec.stmt = some stmt.id ∧ rec.block = block ∧
      rec.line = stmt.line := by
  unfold entered?
  cases hact : stmt.action with
  | write a =>
    obtain rfl : a.base = x := by simpa [hact, Action.defines] using hdef
    simp only [rebind, hact]
    cases t[a.base]? with
    | none => exact ⟨.of (.firstWrite block stmt.id stmt.line) .write (some stmt.id), by simp,
        rfl, rfl, rfl⟩
    | some v => exact ⟨.of (v.next block stmt.id stmt.line) .write (some stmt.id), by simp,
        rfl, rfl, rfl⟩
  | create base =>
    obtain rfl : base = x := by simpa [hact, Action.defines] using hdef
    exact ⟨_, rfl, rfl, rfl, rfl⟩
  | read a => simp [hact, Action.defines] at hdef
  | rename source target => simp [hact, Action.defines] at hdef
  | other => simp [hact, Action.defines] at hdef

theorem exists_mem_entries (t : Bindings) (hstmt : stmt ∈ stmts)
    (hdef : stmt.action.defines x = true) :
    ∃ rec, ⟨x, x, rec⟩ ∈ entries block stmts t ∧ rec.stmt = some stmt.id ∧ rec.block = block ∧
      rec.line = stmt.line := by
  induction stmts generalizing t with
  | nil => cases hstmt
  | cons first rest ih =>
    rcases List.mem_cons.1 hstmt with rfl | hstmt
    · obtain ⟨rec, hentry, hrec⟩ := exists_entry block t hdef
      exact ⟨rec, by simp [entries, hentry], hrec⟩
    · obtain ⟨rec, hmem, hrec⟩ := ih (rebind block t first) hstmt
      exact ⟨rec, List.mem_append_right _ hmem, hrec⟩

theorem own_of_entry (he : entered? block t stmt = some e)
    (hno : stmt.action.renamesOnto e.target = false) :
    e.source = e.target := by
  unfold entered? at he
  cases hact : stmt.action with
  | write a =>
    simp only [hact, Option.map_eq_some_iff] at he
    obtain ⟨v, -, rfl⟩ := he
    rfl
  | create base =>
    simp only [hact] at he
    cases he
    rfl
  | rename source target =>
    simp only [hact, Option.map_eq_some_iff] at he
    obtain ⟨v, -, rfl⟩ := he
    simpa [hact, Action.renamesOnto] using hno
  | read a => simp [hact] at he
  | other => simp [hact] at he

/-- Only a rename enters a record behind the chain of another array. -/
theorem own_of_mem_entries (he : e ∈ entries block stmts t)
    (hno : ∀ stmt ∈ stmts, stmt.action.renamesOnto e.target = false) : e.source = e.target := by
  induction stmts generalizing t with
  | nil => cases he
  | cons stmt rest ih =>
    rcases List.mem_append.1 he with he | he
    · exact own_of_entry (Option.mem_toList.1 he) (hno stmt (List.mem_cons_self ..))
    · exact ih he fun stmt' hstmt => hno stmt' (List.mem_cons_of_mem _ hstmt)

end Transfer

/-! ## what merges enter -/

/-- What a merge enters that the node `n` stands for. -/
def History.Entry.ofPhi (n : DefUse.Node) : Entry := ⟨n.base, n.base, .of n.version .phi none⟩

/-- The facts `f'` are `f` with the nodes `made` added, which stand for merges, and with what these
enter. -/
structure Facts.Joins (f : Facts) (made : List DefUse.Node) (f' : Facts) : Prop where
  nodes : f'.graph.nodes.toList = f.graph.nodes.toList ++ made
  history : f'.history = (made.map Entry.ofPhi).foldl apply f.history

theorem Facts.Joins.refl (f : Facts) : f.Joins [] f := ⟨by simp, rfl⟩

namespace Merge

variable {s : Settings} {b : BlockId} {line : Nat} {preds : List BlockId} {t : Bindings}
  {f f' : Facts}

theorem names_joins (tables : List Bindings) (bases : List String) :
    ∃ made, f.Joins made
      (bases.foldl (fun (t, f) base => name s b line preds tables t f base) (t, f)).2 := by
  rw [names_absorb]
  refine ⟨_, by rw [Facts.absorb, Array.toList_append], ?_⟩
  rw [Facts.absorb, List.foldl_map]
  rfl

theorem predecessors_joins (h : predecessors s f b line preds = .ok (t, f')) :
    ∃ made, f.Joins made f' := by
  rcases predecessors_cases h with ⟨-, -, rfl⟩ | ⟨-, -, -, rfl⟩ | ⟨-, -, h⟩
  · exact ⟨[], .refl _⟩
  · exact ⟨[], .refl _⟩
  · rw [← show _ = f' from congrArg Prod.snd h]
    exact names_joins _ _

end Merge

/-! ## the log of a run -/

namespace Machine

variable {p : Procedure} {s : Settings} {m m' : Machine} {b : BlockId} {t : Bindings} {f f₁ : Facts}
  {log : List Entry} {e : Entry}

theorem Enters.joins (he : Enters p s m b t f) : ∃ made, m.facts.Joins made f := by
  rcases he.source with ⟨-, rfl⟩ | ⟨preds, -, hm⟩
  · exact ⟨[], .refl _⟩
  · exact Merge.predecessors_joins hm

/-- What was entered on the way to a state, in this order: for each block the merges that it was
entered with, which are the nodes that were added then, and what its statements enter. -/
inductive Logged (p : Procedure) (s : Settings) : Machine → List Entry → Prop
  | start : Logged p s (start p s) []
  | processed {m m' : Machine} {b : BlockId} {t : Bindings} {f : Facts} {made : List DefUse.Node}
      {log : List Entry} (h : Logged p s m log) (he : Enters p s m b t f)
      (hmade : f.graph.nodes.toList = m.facts.graph.nodes.toList ++ made)
      (hstep : step p s m = .ok m') :
      Logged p s m' (log ++ (made.map Entry.ofPhi ++ Transfer.entries b (p.statementsOf b) t))
  | idle {m m' : Machine} {log : List Entry} (h : Logged p s m log)
      (hno : ∀ b t f, ¬ Enters p s m b t f) (hstep : step p s m = .ok m') : Logged p s m' log

theorem Logged.reaches (h : Logged p s m log) : Reaches p s m := by
  induction h with
  | start => exact .refl
  | processed _ _ _ hstep ih => exact ih.tail hstep
  | idle _ _ hstep ih => exact ih.tail hstep

theorem Reaches.logged (hm : Reaches p s m) : ∃ log, Logged p s m log := by
  induction hm with
  | refl => exact ⟨[], .start⟩
  | tail hm hstep ih =>
    obtain ⟨log, hlog⟩ := ih
    rcases Reaches.claimed_step hm (step_cases hstep) with ⟨b, t, f, he, -⟩ | ⟨hno, -⟩
    · obtain ⟨made, hmade⟩ := he.joins
      exact ⟨_, .processed hlog he hmade.nodes hstep⟩
    · exact ⟨log, .idle hlog hno hstep⟩

theorem Step.history_of_enters (hstep : Step p s m m') (he : Enters p s m b t f)
    {made : List DefUse.Node} (hmade : f.graph.nodes.toList = m.facts.graph.nodes.toList ++ made) :
    m'.facts.history =
      (made.map Entry.ofPhi ++ Transfer.entries b (p.statementsOf b) t).foldl apply
        m.facts.history := by
  obtain ⟨made', hjoins⟩ := he.joins
  obtain rfl : made' = made := List.append_cancel_left (hjoins.nodes.symm.trans hmade)
  cases hstep.change with
  | processed he' hp hcore =>
    obtain ⟨rfl, rfl, rfl⟩ := he.deterministic he'
    obtain ⟨t', f', hstmts, rfl⟩ := Transfer.process_eq_ok.1 hp
    rw [Facts.history_of_core hcore, List.foldl_append, ← hjoins.history]
    have hhistory := Transfer.statements_history hstmts
    exact hhistory
  | ended hl he' _ _ => exact absurd he (he'.loops_ne hl)
  | none hno _ => exact absurd he (hno b t f)

theorem Step.history_of_not_enters (hstep : Step p s m m') (hno : ∀ b t f, ¬ Enters p s m b t f) :
    m'.facts.history = m.facts.history := by
  cases hstep.change with
  | processed he _ _ => exact absurd he (hno _ _ _)
  | @ended r outer f f₁ hl he hc hcore =>
    have hf : f.history = m.facts.history := by cases he <;> rfl
    rw [Facts.history_of_core hcore]
    rcases LoopRun.close_eq_ok hc with ⟨-, rfl⟩ | ⟨l, u, -, -, rfl⟩
    · exact hf
    · exact hf
  | none _ hcore => exact Facts.history_of_core hcore

/-- The chains are those that the log leads to. -/
theorem Logged.history (h : Logged p s m log) : m.facts.history = replay log := by
  induction h with
  | start => rfl
  | processed _ he hmade hstep ih =>
    rw [(step_cases hstep).history_of_enters he hmade, ih, replay, replay, ← List.foldl_append]
  | idle _ hno hstep ih => rw [(step_cases hstep).history_of_not_enters hno, ih]

/-- What a processed block enters is in the log. -/
theorem Logged.of_claimed (h : Logged p s m log) (hb : m.facts.claimed b = true) :
    ∃ m₀ t f made, Reaches p s m₀ ∧ Enters p s m₀ b t f ∧
      f.graph.nodes.toList = m₀.facts.graph.nodes.toList ++ made ∧
      ∀ e ∈ made.map Entry.ofPhi ++ Transfer.entries b (p.statementsOf b) t, e ∈ log := by
  induction h with
  | start => simp [Machine.start] at hb
  | @processed m m' c t f made log h he hmade hstep ih =>
    rcases h.reaches.claimed_step (step_cases hstep) with ⟨c', t', f', he', hcl⟩ | ⟨hno, -⟩
    · obtain ⟨rfl, -, -⟩ := he.deterministic he'
      rcases (hcl b).1 hb with rfl | hb
      · exact ⟨m, t, f, made, h.reaches, he, hmade, fun e he => List.mem_append_right _ he⟩
      · obtain ⟨m₀, t₀, f₀, made₀, hm₀, he₀, hmade₀, hlog⟩ := ih hb
        exact ⟨m₀, t₀, f₀, made₀, hm₀, he₀, hmade₀, fun e he => List.mem_append_left _ (hlog e he)⟩
    · exact absurd he (hno _ _ _)
  | idle h hno hstep ih =>
    rcases h.reaches.claimed_step (step_cases hstep) with ⟨c, t, f, he, -⟩ | ⟨-, hcl⟩
    · exact absurd he (hno _ _ _)
    · rw [hcl] at hb
      exact ih hb

/-- A record is entered behind the chain of another array only if a processed block renames that
one. -/
theorem Logged.own (h : Logged p s m log) (he : e ∈ log)
    (hno : ∀ b, m.facts.claimed b = true → ¬ p.RenamesOnto b e.target) : e.source = e.target := by
  induction h with
  | start => cases he
  | @processed m m' b t f made log h henters hmade hstep ih =>
    rcases List.mem_append.1 he with he | he
    · exact ih he fun c hc => hno c ((step_cases hstep).claimed_mono hc)
    · rcases List.mem_append.1 he with he | he
      · obtain ⟨n, -, rfl⟩ := List.mem_map.1 he
        rfl
      · have hb := hno b (h.reaches.claimed_of_enters (step_cases hstep) henters)
        refine Transfer.own_of_mem_entries he fun stmt hstmt => ?_
        by_contra hyes
        exact hb ⟨stmt, hstmt, by simpa using hyes⟩
  | idle h _ hstep ih => exact ih he fun c hc => hno c ((step_cases hstep).claimed_mono hc)

end Machine

/-- What was entered into the chains. No creation and no write of a processed block is missing, and
no merge that a processed block was entered with. A chain has its records in the order in which they
were entered. A record is lost only if another array is renamed to the name of its chain afterwards;
where no processed block does so, the chain of a name is all that was entered for it. -/
theorem analyze_history {p : Procedure} {s : Settings} {r : Report} (h : analyze p s = .ok r) :
    ∃ m log, Machine.Logged p s m log ∧ m.finished p = true ∧ r.facts.history = replay log ∧
      (∀ b stmt x, r.facts.claimed b = true → stmt ∈ p.statementsOf b →
        stmt.action.defines x = true →
        ∃ rec, ⟨x, x, rec⟩ ∈ log ∧ rec.stmt = some stmt.id ∧ rec.block = b ∧ rec.line = stmt.line) ∧
      (∀ b m₀ t f i n, r.facts.claimed b = true → Machine.Reaches p s m₀ →
        Machine.Enters p s m₀ b t f →
        m₀.facts.graph.nodes.size ≤ i → f.graph.nodes[i]? = some n →
        ⟨n.base, n.base, .of n.version .phi none⟩ ∈ log) ∧
      (∀ x, (r.facts.history.chain x).Sublist (log.map (·.record))) ∧
      (∀ pre e post, log = pre ++ e :: post → e.record ∉ r.facts.history.chain e.target →
        ∃ e' ∈ post, e'.target = e.target ∧ e'.source ≠ e.target) ∧
      ∀ x, (∀ b, r.facts.claimed b = true → ¬ p.RenamesOnto b x) →
        r.facts.history.chain x = (log.filter (·.target = x)).map (·.record) := by
  obtain ⟨-, m, hrun, hm, rfl⟩ := analyze_eq_ok h
  obtain ⟨log, hlog⟩ := hm.logged
  rw [Machine.conclude_eq]
  refine ⟨m, log, hlog, Machine.run_finished hrun, hlog.history, fun b stmt x hb hstmt hdef => ?_,
    fun b m₀ t f i n hb hm₀ he hi hn => ?_, fun x => ?_, fun pre e post heq hlost => ?_,
    fun x hnone => ?_⟩
  · obtain ⟨m₀, t, f, made, -, -, -, hin⟩ := hlog.of_claimed hb
    obtain ⟨rec, hmem, hrec⟩ := Transfer.exists_mem_entries t hstmt hdef
    exact ⟨rec, hin _ (List.mem_append_right _ hmem), hrec⟩
  · obtain ⟨m₁, t₁, f₁, made, hm₁, he₁, hmade, hin⟩ := hlog.of_claimed hb
    obtain rfl := hm₀.eq_of_enters hm₁ he he₁
    obtain ⟨-, -, rfl⟩ := he.deterministic he₁
    have hmem : n ∈ made := by
      rw [← Array.getElem?_toList, hmade, List.getElem?_append_right (by simpa using hi)] at hn
      exact List.mem_of_getElem? hn
    exact hin _ (List.mem_append_left _ (List.mem_map_of_mem hmem))
  · rw [hlog.history]
    simpa [replay] using chain_foldl_sublist (h := ∅) (l := []) (by simp [chain]) log x
  · by_contra hkept
    rw [hlog.history, heq] at hlost
    refine hlost (mem_chain_of_own fun e' he' htarget => ?_)
    by_contra hsource
    exact hkept ⟨e', he', htarget, hsource⟩
  · rw [hlog.history, replay, chain_foldl_of_own]
    · simp [chain]
    · rintro e he rfl
      exact hlog.own he hnone

/-- An array that is written on one branch is renamed where the branches merge, and written
again. -/
def renamedBehindMerge : Draft where
  name := "renamed behind a merge"
  blocks := [(⟨0⟩, [⟨⟨0⟩, 1, "a = new", .create "a"⟩]),
    (⟨1⟩, [⟨⟨1⟩, 2, "a[i] = x", .write ⟨"a", .expr "i"⟩⟩]), (⟨2⟩, [⟨⟨2⟩, 3, "skip", .other⟩]),
    (⟨3⟩, [⟨⟨3⟩, 4, "b = a", .rename "a" "b"⟩, ⟨⟨4⟩, 5, "b[i] = y", .write ⟨"b", .expr "i"⟩⟩])]
  edges := [(⟨0⟩, ⟨1⟩), (⟨0⟩, ⟨2⟩), (⟨1⟩, ⟨3⟩), (⟨2⟩, ⟨3⟩)]

theorem analyze_history_renamedBehindMerge :
    ∃ p r log, renamedBehindMerge.build = .ok p ∧ analyze p {} = .ok r ∧
      r.facts.history = replay log ∧
      (r.facts.history.chain "a").map (·.origin) = [.create, .write, .phi] ∧
      (r.facts.history.chain "b").map (·.origin) = [.create, .write, .phi, .rename, .write] ∧
      r.facts.history.chain "a" = (log.filter (·.target = "a")).map (·.record) ∧
      (∃ rec, ⟨"b", "b", rec⟩ ∈ log ∧ rec.stmt = some ⟨4⟩) ∧
      (r.facts.history.chain "b").Sublist (log.map (·.record)) := by
  obtain ⟨p, r, hb, h, hP⟩ := Draft.check_eq_true (d := renamedBehindMerge) (s := {})
    (P := fun p r => (r.facts.history.chain "a").map (·.origin) = [.create, .write, .phi] ∧
      (r.facts.history.chain "b").map (·.origin) = [.create, .write, .phi, .rename, .write] ∧
      r.facts.claimed ⟨3⟩ = true ∧
      p.statementsOf ⟨3⟩ = [⟨⟨3⟩, 4, "b = a", .rename "a" "b"⟩,
      ⟨⟨4⟩, 5, "b[i] = y", .write ⟨"b", .expr "i"⟩⟩] ∧
      ∀ k ∈ p.blocks, ∀ stmt ∈ k.statements, stmt.action.renamesOnto "a" =
      false) (by decide +kernel)
  obtain ⟨hchain, hchain', hthree, hstmts, hno⟩ := of_decide_eq_true hP
  obtain ⟨m, log, -, -, hreplay, hdefs, -, horder, -, hall⟩ := analyze_history h
  have honto : ∀ b, ¬ p.RenamesOnto b "a" := by
    rintro b ⟨stmt, hstmt, hyes⟩
    obtain ⟨k, hk, hstmt⟩ := Procedure.mem_statementsOf.1 hstmt
    rw [hno k (Procedure.block?_mem hk) stmt hstmt] at hyes
    cases hyes
  obtain ⟨rec, hmem, hrec, -⟩ := hdefs ⟨3⟩ ⟨⟨4⟩, 5, "b[i] = y", .write ⟨"b", .expr "i"⟩⟩ "b" hthree
    (by simp [hstmts])
    (by decide)
  exact ⟨p, r, log, hb, h, hreplay, hchain, hchain', hall "a" fun b _ => honto b,
    ⟨rec, hmem, hrec⟩, horder "b"⟩

/-- One branch makes an array `b` and writes it, and the other renames `a` to `b`. -/
def renamedAcross : Draft where
  name := "rename onto a name in use"
  blocks := [(⟨0⟩, [⟨⟨0⟩, 1, "a = new", .create "a"⟩]),
    (⟨1⟩, [⟨⟨1⟩, 2, "b = new", .create "b"⟩, ⟨⟨2⟩, 3, "b[i] = x", .write ⟨"b", .expr "i"⟩⟩]),
    (⟨2⟩, [⟨⟨3⟩, 4, "b = a", .rename "a" "b"⟩])]
  edges := [(⟨0⟩, ⟨1⟩), (⟨0⟩, ⟨2⟩)]

theorem rename_drops_chain :
    ∃ p r, renamedAcross.build = .ok p ∧ analyze p {} = .ok r ∧ r.facts.diagnostics = [] ∧
      r.facts.claimed ⟨1⟩ = true ∧
      ⟨⟨2⟩, 3, "b[i] = x", .write ⟨"b", .expr "i"⟩⟩ ∈ p.statementsOf ⟨1⟩ ∧
      (r.facts.history.chain "b").map (fun rec => (rec.origin, rec.stmt)) =
        [(.create, some ⟨0⟩), (.rename, some ⟨3⟩)] := by
  obtain ⟨p, r, hb, h, hP⟩ := Draft.check_eq_true (d := renamedAcross) (s := {})
    (P := fun p r => r.facts.diagnostics = [] ∧ r.facts.claimed ⟨1⟩ = true ∧
      ⟨⟨2⟩, 3, "b[i] = x", .write ⟨"b", .expr "i"⟩⟩ ∈ p.statementsOf ⟨1⟩ ∧
      (r.facts.history.chain "b").map (fun rec => (rec.origin, rec.stmt)) =
        [(.create, some ⟨0⟩), (.rename, some ⟨3⟩)]) (by decide +kernel)
  exact ⟨p, r, hb, h, of_decide_eq_true hP⟩

end ArrayFlow
