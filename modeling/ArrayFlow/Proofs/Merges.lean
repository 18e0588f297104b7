import ArrayFlow.Proofs.Origin
import ArrayFlow.Proofs.Provenance

/-!
# What a merge does

A merge reads the tables of all predecessors before it does anything else. Then each name is dealt
with apart from the others: what is found for it depends on the tables alone, and is appended to
what was found before, in the order of the names.

* `Merge.Carries` : the versions of a name, if all predecessors bind it;
* `Merge.Becomes` : what they become;
* `Merge.Merged`  : what a merge of several tables finds;
* `Merge.inPlace` : a merge that changes facts in place, and keeps what it did when it fails;
* `merge_exact`   : a merge fails before it changes anything, or does all this.
-/

namespace ArrayFlow

open DefUse (Node)

theorem Version.trivialMerge_iff {inputs : List Version} :
    trivialMerge inputs = true ↔ ∀ v ∈ inputs, ∀ w ∈ inputs, v.sameOrigin w = true := by
  simp only [sameOrigin_iff]
  cases inputs with
  | nil => simp [trivialMerge]
  | cons v vs =>
    simp only [trivialMerge, List.all_eq_true, sameOrigin_iff]
    constructor
    · intro h
      have hfirst : ∀ w ∈ v :: vs, w.stem = v.stem := List.forall_mem_cons.2 ⟨rfl, h⟩
      intro w hw w' hw'
      rw [hfirst w hw, hfirst w' hw']
    · intro h w hw
      exact h w (List.mem_cons_of_mem _ hw) v (List.mem_cons_self ..)

namespace Version

/-! ## numbers in 32 bits -/

/-- The number of a merge as it is computed in 32 bits, where additions wrap around. -/
def nextNumber32 (vs : List Version) : UInt32 := vs.foldl (fun m v => max m (.ofNat v.number)) 0 + 1

theorem max_ofNat {m n : Nat} (hm : m < UInt32.size) (hn : n < UInt32.size) :
    max (UInt32.ofNat m) (UInt32.ofNat n) = .ofNat (Nat.max m n) := by
  have hle : UInt32.ofNat m ≤ UInt32.ofNat n ↔ m ≤ n := by
    rw [UInt32.le_iff_toNat_le, UInt32.toNat_ofNat_of_lt' hm, UInt32.toNat_ofNat_of_lt' hn]
  change (if UInt32.ofNat m ≤ UInt32.ofNat n then UInt32.ofNat n else UInt32.ofNat m) = _
  by_cases h : m ≤ n
  · rw [if_pos (hle.2 h), show Nat.max m n = n from Nat.max_eq_right h]
  · rw [if_neg (mt hle.1 h), show Nat.max m n = m from Nat.max_eq_left (Nat.le_of_not_le h)]

theorem foldl_max_ofNat {vs : List Version} {k : Nat}
    (h : vs.foldl (fun m v => Nat.max m v.number) k < UInt32.size) :
    vs.foldl (fun m v => max m (UInt32.ofNat v.number)) (.ofNat k) =
      .ofNat (vs.foldl (fun m v => Nat.max m v.number) k) := by
  induction vs generalizing k with
  | nil => rfl
  | cons v vs ih =>
    have hlt : Nat.max k v.number < UInt32.size := Nat.lt_of_le_of_lt (foldl_max_spec vs _).1 h
    have hk := Nat.lt_of_le_of_lt (Nat.le_max_left k v.number) hlt
    have hv := Nat.lt_of_le_of_lt (Nat.le_max_right k v.number) hlt
    rw [List.foldl_cons, List.foldl_cons, max_ofNat hk hv]
    exact ih h

theorem toNat_ofNat_add_one {n : Nat} (h : n + 1 < UInt32.size) :
    (UInt32.ofNat n + 1).toNat = n + 1 := by
  rw [UInt32.toNat_add, UInt32.toNat_ofNat_of_lt' (Nat.lt_of_succ_lt h)]
  exact Nat.mod_eq_of_lt h

/-- Where the next number fits into 32 bits, the addition does not wrap around. -/
theorem toNat_nextNumber32 {vs : List Version} (h : maxNumber vs + 1 < UInt32.size) :
    (nextNumber32 vs).toNat = maxNumber vs + 1 := by
  have hmax := foldl_max_ofNat (k := 0) (Nat.lt_of_succ_lt h)
  rw [nextNumber32, show (0 : UInt32) = .ofNat 0 from rfl, hmax]
  exact toNat_ofNat_add_one h

end Version

namespace Merge

variable {s : Settings} {b : BlockId} {line : Nat} {preds : List BlockId} {t : Bindings}
  {f f' : Facts} {base : String} {inputs : List Version}

/-! ### in order -/

theorem names_ordered (tables : List Bindings) : (names tables).Pairwise (· < ·) := by
  have hsorted : (names tables).Pairwise fun x y => compare x y = .lt :=
    Std.ExtTreeSet.ordered_toList
  exact hsorted.imp fun h => compareOfLessAndEq_eq_lt.1 h

theorem ordered_flatMap {α : Type} {key : α → String} {g : String → List α} (tables : List Bindings)
    (hone : ∀ base, g base = [] ∨ ∃ x, g base = [x] ∧ key x = base) :
    ((names tables).flatMap g).Pairwise (key · < key ·) := by
  have hkey : ∀ base, ∀ x ∈ g base, key x = base := by
    intro base x hx
    rcases hone base with hg | ⟨y, hg, hy⟩
    · rw [hg] at hx
      cases hx
    · rw [hg] at hx
      rw [List.mem_singleton.1 hx, hy]
  rw [List.pairwise_flatMap]
  refine ⟨fun base _ => ?_, (names_ordered tables).imp fun hlt x hx y hy => ?_⟩
  · rcases hone base with hg | ⟨x, hg, -⟩
    · rw [hg]
      exact .nil
    · rw [hg]
      exact List.pairwise_singleton _ _
  · rw [hkey _ x hx, hkey _ y hy]
    exact hlt

/-! ### what is found for a name -/

/-- The versions of a name that the predecessors bind, all of them, in the order of the
predecessors. -/
def Carries (x : Exposed) (preds : List BlockId) (base : String) (inputs : List Version) : Prop :=
  inputs.map some = preds.map fun a => (x.table a)[base]?

/-- A new version is made of these, as pruning is off or they are not one version. -/
def Fresh (s : Settings) (inputs : List Version) : Prop :=
  ¬ (s.pruneTrivial = true ∧ ∀ v ∈ inputs, ∀ w ∈ inputs, v.sameOrigin w = true)

/-- What the versions of a name become at a merge. -/
inductive Becomes (s : Settings) (b : BlockId) (line : Nat) (inputs : List Version) : Version → Prop
  | fresh {n : Nat} (hfresh : Fresh s inputs) (above : ∀ w ∈ inputs, w.number < n)
      (next : ∃ w ∈ inputs, n = w.number + 1) :
      Becomes s b line inputs (.phi n inputs b line)
  | reused {first v : Version} (hone : ¬ Fresh s inputs) (hfirst : inputs.head? = some first)
      (same : v = first ∨ v = first.markRead)
      (latch : v.isRead = true ↔ ∃ w ∈ inputs, w.isRead = true) :
      Becomes s b line inputs v

theorem fresh_iff : Fresh s inputs ↔ ¬ (s.pruneTrivial && Version.trivialMerge inputs) = true := by
  rw [Fresh, Bool.and_eq_true, Version.trivialMerge_iff]

theorem carries_iff {x : Exposed} : Carries x preds base inputs ↔
    (∀ a ∈ preds, base ∈ x.table a) ∧ inputs = (preds.map x.table).filterMap fun u => u[base]? := by
  unfold Carries
  induction preds generalizing inputs with
  | nil => simp
  | cons a preds ih =>
    rw [List.map_cons, List.map_cons, List.filterMap_cons, List.forall_mem_cons,
      Std.ExtTreeMap.mem_iff_isSome_getElem?]
    cases hv : (x.table a)[base]? with
    | none => cases inputs <;> simp
    | some v =>
      cases inputs with
      | nil => simp
      | cons w inputs =>
        simp only [List.map_cons, List.cons.injEq, Option.some.injEq, ih,
          Option.isSome_some, true_and]
        tauto

theorem length_lt_iff {x : Exposed} :
    ((preds.map x.table).filterMap fun u => u[base]?).length < (preds.map x.table).length ↔
      ∃ a ∈ preds, base ∉ x.table a := by
  have hle := inputs_length_le (preds.map x.table) base
  have heq : ((preds.map x.table).filterMap fun u => u[base]?).length = (preds.map x.table).length ↔
      ∀ a ∈ preds, base ∈ x.table a := by
    simp only [List.filterMap_length_eq_length, List.forall_mem_map,
      Std.ExtTreeMap.mem_iff_isSome_getElem?]
  rw [Nat.lt_iff_le_and_ne, ne_eq, heq]
  push Not
  exact and_iff_right hle

/-- Versions that are one version are all merges, which do not keep track of reads, or none is. -/
theorem isRead_shared {first : Version} {rest : List Version}
    (h : Version.trivialMerge (first :: rest) = true) :
    (shared first (first :: rest)).isRead = true ↔ ∃ w ∈ first :: rest, w.isRead = true := by
  unfold shared
  by_cases hany : (first :: rest).any Version.isRead = true
  · rw [if_pos hany]
    obtain ⟨w, hw, hread⟩ := List.any_eq_true.1 hany
    refine ⟨fun _ => ⟨w, hw, hread⟩, fun _ => ?_⟩
    have hstem := (Version.sameOrigin_iff _ _).1
      (Version.trivialMerge_iff.1 h first (List.mem_cons_self ..) w hw)
    cases first with
    | single => rfl
    | phi =>
      cases w with
      | single => simp [Version.stem] at hstem
      | phi => cases hread
  · rw [if_neg hany]
    have hnone : ∀ w ∈ first :: rest, ¬ w.isRead = true := by
      intro w hw hread
      exact hany (List.any_eq_true.2 ⟨w, hw, hread⟩)
    exact ⟨fun hread => absurd hread (hnone first (List.mem_cons_self ..)),
      fun ⟨w, hw, hread⟩ => absurd hread (hnone w hw)⟩

theorem Carries.length_eq {x : Exposed} (hc : Carries x preds base inputs) :
    inputs.length = preds.length := by
  simpa using congrArg List.length hc

theorem Carries.spec {x : Exposed} (s : Settings) (b : BlockId) (line : Nat)
    (hc : Carries x preds base inputs) :
    version? s b line (preds.map x.table) base =
        (if s.pruneTrivial && Version.trivialMerge inputs then inputs.head?.map (shared · inputs)
          else Version.phi? inputs b line) ∧
      phiNode? s b line (preds.map x.table) base =
        (if s.pruneTrivial && Version.trivialMerge inputs then []
          else ((Version.phi? inputs b line).map (Node.ofPhi base · b)).toList) := by
  have hlen : ¬ inputs.length < (preds.map x.table).length := by
    rw [List.length_map, hc.length_eq]
    exact Nat.lt_irrefl _
  unfold version? phiNode?
  dsimp only
  rw [← (carries_iff.1 hc).2, if_neg hlen, decide_eq_false hlen, Bool.false_or]
  exact ⟨rfl, rfl⟩

/-- A name that all predecessors bind has a version, which its versions there become. -/
theorem Carries.becomes {x : Exposed} (s : Settings) (b : BlockId) (line : Nat)
    (h2 : 2 ≤ preds.length) (hc : Carries x preds base inputs) :
    ∃ v, version? s b line (preds.map x.table) base = some v ∧ Becomes s b line inputs v := by
  have hlen := hc.length_eq
  rw [(hc.spec s b line).1]
  by_cases hprune : (s.pruneTrivial && Version.trivialMerge inputs) = true
  · rw [if_pos hprune]
    have hone : ¬ Fresh s inputs := fun hf => fresh_iff.1 hf hprune
    cases inputs with
    | nil =>
      rw [List.length_nil] at hlen
      omega
    | cons first rest =>
      refine ⟨shared first (first :: rest), rfl,
        .reused hone rfl ?_ (isRead_shared (Bool.and_eq_true_iff.1 hprune).2)⟩
      unfold shared
      split
      · exact .inr rfl
      · exact .inl rfl
  · rw [if_neg hprune]
    have hne : inputs ≠ [] := List.length_pos_iff.1 (by omega)
    obtain ⟨hmax, w, hw, heq⟩ := Version.maxNumber_spec hne
    refine ⟨_, if_neg (by omega), .fresh (fresh_iff.2 hprune) ?_ ⟨w, hw, by rw [heq]⟩⟩
    intro w hw
    exact Nat.lt_succ_of_le (hmax w hw)

theorem contributors_map (x : Exposed) (preds : List BlockId) (base : String) :
    contributors preds (preds.map x.table) base = preds.filter fun a =>
      (x.table a).contains base := by
  unfold contributors
  induction preds with
  | nil => rfl
  | cons a preds ih =>
    simp only [List.map_cons, List.zip_cons_cons, List.filter_cons]
    split
    · rw [List.map_cons, ih]
    · exact ih

theorem mem_falsePhi? {x : Exposed} {φ : FalsePhi} :
    φ ∈ (names (preds.map x.table)).flatMap (falsePhi? b preds (preds.map x.table)) ↔
      φ.block = b ∧ (∃ a ∈ preds, φ.base ∈ x.table a) ∧ (∃ a ∈ preds, φ.base ∉ x.table a) ∧
        φ.contributors = preds.filter fun a => (x.table a).contains φ.base := by
  have hbound : ∀ base, (∃ u ∈ preds.map x.table, base ∈ u) ↔
    ∃ a ∈ preds, base ∈ x.table a := by simp
  simp only [List.mem_flatMap, mem_names, falsePhi?, length_lt_iff, hbound, contributors_map]
  constructor
  · rintro ⟨base, hbound, hφ⟩
    split at hφ
    · rename_i hunbound
      obtain rfl := List.mem_singleton.1 hφ
      exact ⟨rfl, hbound, hunbound, rfl⟩
    · cases hφ
  · rintro ⟨hblock, hbound, hunbound, hcontributors⟩
    refine ⟨φ.base, hbound, ?_⟩
    rw [if_pos hunbound, List.mem_singleton, ← hblock, ← hcontributors]

theorem mem_phiNode? {x : Exposed} (h2 : 2 ≤ preds.length) {n : Node} :
    n ∈ (names (preds.map x.table)).flatMap (phiNode? s b line (preds.map x.table)) ↔
      ∃ base v inputs, version? s b line (preds.map x.table) base = some v ∧
        Carries x preds base inputs ∧
        Fresh s inputs ∧ n = .ofPhi base v b := by
  constructor
  · intro hn
    obtain ⟨base, -, hn⟩ := List.mem_flatMap.1 hn
    by_cases hall : ∀ a ∈ preds, base ∈ x.table a
    · have hc : Carries x preds base _ := carries_iff.2 ⟨hall, rfl⟩
      obtain ⟨hversion, hnode⟩ := hc.spec s b line
      rw [hnode] at hn
      split at hn
      · cases hn
      · rename_i hfresh
        obtain ⟨v, hv, rfl⟩ := Option.map_eq_some_iff.1 (Option.mem_toList.1 hn)
        exact ⟨base, v, _, by rw [hversion, if_neg hfresh, hv], hc, fresh_iff.2 hfresh, rfl⟩
    · -- it is bound in some of the tables only
      have hlt : ((preds.map x.table).filterMap fun u => u[base]?).length <
          (preds.map x.table).length := by
        rw [length_lt_iff]
        push Not at hall
        exact hall
      unfold phiNode? at hn
      dsimp only at hn
      rw [decide_eq_true hlt, Bool.true_or, if_pos rfl] at hn
      cases hn
  · rintro ⟨base, v, inputs, hv, hc, hfresh, rfl⟩
    obtain ⟨hversion, hnode⟩ := hc.spec s b line
    refine List.mem_flatMap.2 ⟨base, ?_, ?_⟩
    · obtain ⟨a, ha⟩ := List.exists_mem_of_length_pos (l := preds) (by omega)
      exact mem_names.2 ⟨x.table a, List.mem_map_of_mem ha, (carries_iff.1 hc).1 a ha⟩
    · rw [hversion, if_neg (fresh_iff.1 hfresh)] at hv
      rw [hnode, if_neg (fresh_iff.1 hfresh), hv]
      exact List.mem_singleton_self _

/-! ## merges in place -/

/-- What a merge of several tables finds: it binds the names that all predecessors bind, makes a
definition and a record of each new version, and notes the names that only some of them bind, both
in the order of the names. -/
structure Merged (s : Settings) (b : BlockId) (line : Nat) (preds : List BlockId) (f : Facts)
    (t : Bindings) (made : List Node) (lost : List FalsePhi) : Prop where
  bound : ∀ base : String, base ∈ t ↔ ∀ a ∈ preds, base ∈ f.exposed.table a
  becomes : ∀ (base : String) v, t[base]? = some v → ∃ inputs, Carries f.exposed preds base inputs ∧
    Becomes s b line inputs v
  made_ordered : made.Pairwise (·.base < ·.base)
  mem_made : ∀ n, n ∈ made ↔ ∃ base v inputs, t[base]? = some v ∧
    Carries f.exposed preds base inputs ∧ Fresh s inputs ∧
    n = .ofPhi base v b
  lost_ordered : lost.Pairwise (·.base < ·.base)
  mem_lost : ∀ φ, φ ∈ lost ↔ φ.block = b ∧ (∃ a ∈ preds, φ.base ∈ f.exposed.table a) ∧
    (∃ a ∈ preds, φ.base ∉ f.exposed.table a) ∧ φ.contributors = preds.filter fun a =>
    (f.exposed.table a).contains φ.base

theorem exists_carries {x : Exposed} {v : Version}
    (hv : version? s b line (preds.map x.table) base = some v) :
    ∃ inputs, Carries x preds base inputs := by
  refine ⟨_, carries_iff.2 ⟨?_, rfl⟩⟩
  by_contra hno
  push Not at hno
  unfold version? at hv
  dsimp only at hv
  rw [if_pos (length_lt_iff.2 hno)] at hv
  cases hv

theorem phiNode?_cases (s : Settings) (b : BlockId) (line : Nat) (tables : List Bindings)
    (base : String) :
    phiNode? s b line tables base = [] ∨ ∃ n, phiNode? s b line tables base = [n] ∧
      n.base = base := by
  unfold phiNode?
  dsimp only
  split
  · exact .inl rfl
  · cases Version.phi? (tables.filterMap fun u => u[base]?) b line with
    | none => exact .inl rfl
    | some v => exact .inr ⟨.ofPhi base v b, rfl, rfl⟩

theorem falsePhi?_cases (b : BlockId) (preds : List BlockId) (tables : List Bindings)
    (base : String) :
    falsePhi? b preds tables base = [] ∨ ∃ φ, falsePhi? b preds tables base = [φ] ∧
      φ.base = base := by
  unfold falsePhi?
  split
  · exact .inr ⟨_, rfl, rfl⟩
  · exact .inl rfl

theorem predecessors_merged (h2 : 2 ≤ preds.length)
    (h : predecessors s f b line preds = .ok (t, f')) :
    ∃ made lost, f' = f.absorb made lost ∧ Merged s b line preds f t made lost ∧
      ∀ n ∈ made, ∃ inputs, n.version = .phi (Version.maxNumber inputs + 1) inputs b line := by
  obtain ⟨hready, rfl, -⟩ := predecessors_eq_ok h
  have hversion : ∀ base : String, (joined s b line (preds.map f.exposed.table))[base]? =
      version? s b line (preds.map f.exposed.table) base :=
      getElem?_joined (by rwa [List.length_map])
  rcases predecessors_cases h with ⟨rfl, -, -⟩ | ⟨a, rfl, -, -⟩ | ⟨-, -, h⟩
  · simp at h2
  · simp at h2
  · refine ⟨_, _, (congrArg Prod.snd h).symm.trans (names_absorb ..),
      ⟨?_, ?_, ordered_flatMap _ (phiNode?_cases s b line _), ?_,
        ordered_flatMap _ (falsePhi?_cases b preds _), fun φ => mem_falsePhi?⟩, ?_⟩
    · intro base
      rw [Std.ExtTreeMap.mem_iff_isSome_getElem?, hversion]
      constructor
      · intro hv
        obtain ⟨inputs, hc⟩ := exists_carries (Option.eq_some_of_isSome hv)
        exact (carries_iff.1 hc).1
      · intro hall
        have hc : Carries f.exposed preds base _ := carries_iff.2 ⟨hall, rfl⟩
        obtain ⟨v, hv, -⟩ := hc.becomes s b line h2
        rw [hv]
        rfl
    · intro base v hv
      rw [hversion] at hv
      obtain ⟨inputs, hc⟩ := exists_carries hv
      obtain ⟨w, hw, hbecomes⟩ := hc.becomes s b line h2
      obtain rfl := Option.some.inj (hv.symm.trans hw)
      exact ⟨inputs, hc, hbecomes⟩
    · intro n
      simp only [hversion]
      exact mem_phiNode? h2
    · intro n hn
      obtain ⟨base, -, hn⟩ := List.mem_flatMap.1 hn
      exact ⟨_, (Version.phi?_eq_some.1 (version_of_phiNode? hn)).2⟩

/-- A merge that changes facts in place. What it did before a fault stays. -/
def inPlace (s : Settings) (b : BlockId) (line : Nat) (preds : List BlockId) :
    ExceptT Fault (StateM Facts) Bindings := do
  let tables ← preds.mapM fun a => do liftExcept ((← get).exposed.get a)
  if tables.length < 2 then return tables.headD ∅
  (names tables).foldlM (fun t base => modifyGet fun f => name s b line preds tables t f base) ∅

theorem run_bind {α β : Type} (x : ExceptT Fault (StateM Facts) α)
    (k : α → ExceptT Fault (StateM Facts) β) (f : Facts) :
    (x >>= k).run.run f =
      match x.run.run f with
      | (.ok a, g) => (k a).run.run g
      | (.error fault, g) => (.error fault, g) := by
  rw [ExceptT.run_bind, StateT.run_bind]
  rcases x.run.run f with ⟨a | a, g⟩ <;> rfl

theorem run_tables (preds : List BlockId) (f : Facts) :
    (preds.mapM fun a => do liftExcept ((← get).exposed.get a) :
    ExceptT Fault (StateM Facts) (List Bindings)).run.run f =
      (preds.mapM f.exposed.get, f) := by
  induction preds with
  | nil => rfl
  | cons a preds ih =>
    have hlook : (do liftExcept ((← get).exposed.get a) :
      ExceptT Fault (StateM Facts) Bindings).run.run f =
        (f.exposed.get a, f) := by
      change (liftExcept (f.exposed.get a) : ExceptT Fault (StateM Facts) Bindings).run.run f = _
      cases f.exposed.get a <;> rfl
    rw [List.mapM_cons, List.mapM_cons, run_bind, hlook]
    cases f.exposed.get a with
    | error fault => rfl
    | ok u =>
      simp only
      rw [run_bind, ih]
      cases preds.mapM f.exposed.get <;> rfl

theorem run_names (bases : List String) (t : Bindings) (f : Facts) :
    (bases.foldlM (fun t base => modifyGet fun f => name s b line preds tables t f base) t :
      ExceptT Fault (StateM Facts) Bindings).run.run f =
      (.ok (bases.foldl (fun (t, f) base => name s b line preds tables t f base) (t, f)).1,
        (bases.foldl (fun (t, f) base => name s b line preds tables t f base) (t, f)).2) := by
  induction bases generalizing t f with
  | nil => rfl
  | cons base bases ih =>
    rw [List.foldlM_cons, List.foldl_cons, ← ih]
    rfl

theorem run_inPlace (s : Settings) (b : BlockId) (line : Nat) (preds : List BlockId) (f : Facts) :
    (inPlace s b line preds).run.run f =
      match predecessors s f b line preds with
      | .ok (t, f') => (.ok t, f')
      | .error fault => (.error fault, f) := by
  unfold inPlace predecessors
  rw [run_bind, run_tables]
  cases preds.mapM f.exposed.get with
  | error fault => rfl
  | ok tables =>
    match tables with
    | [] => rfl
    | [t] => rfl
    | t :: u :: rest =>
      simp only
      rw [if_neg (by simp)]
      exact run_names ..

theorem predecessors_eq_error {a : BlockId} (h : preds.find? (fun c => !f.claimed c) = some a) :
    predecessors s f b line preds = .error (.blockNotProcessed a) := by
  have hget : preds.mapM f.exposed.get = .error (.blockNotProcessed a) := by
    induction preds with
    | nil => cases h
    | cons c preds ih =>
      rw [List.mapM_cons, Exposed.get]
      rw [List.find?_cons, Facts.claimed, Exposed.isReady,
        Std.ExtTreeMap.contains_eq_isSome_getElem?] at h
      cases hc : f.exposed[c]? with
      | none =>
        rw [hc] at h
        obtain rfl := Option.some.inj h
        rfl
      | some t =>
        rw [hc] at h
        change (preds.mapM f.exposed.get >>= fun ts => pure (t :: ts)) = _
        rw [ih h]
        rfl
  unfold predecessors
  rw [hget]
  rfl

end Merge

open Merge in
/-- A merge fails exactly if a predecessor was not processed, namely for the first such one, and
then everything is as before. Otherwise it succeeds. Without predecessors nothing is bound, and a
sole predecessor is copied, and everything else is as before too. Of several ones the names are
merged that all of them bind, as `Merged` says, and apart from the definitions, records and false
phis that it appends everything is as before. A new version whose number fits into 32 bits, which it
does as long as there were few writes and merges (`Passes.merge_fits`), has the number that is
computed in 32 bits. -/
theorem merge_exact (s : Settings) (b : BlockId) (line : Nat) (preds : List BlockId) (f : Facts) :
    (∀ a, preds.find? (fun c => !f.claimed c) = some a →
      predecessors s f b line preds = .error (.blockNotProcessed a) ∧
      (inPlace s b line preds).run.run f = (.error (.blockNotProcessed a), f)) ∧
    (preds.find? (fun c => !f.claimed c) = none → ∃ t f',
      predecessors s f b line preds = .ok (t, f') ∧
      (inPlace s b line preds).run.run f = (.ok t, f') ∧
      (preds = [] → t = ∅ ∧ f' = f) ∧
      (∀ a, preds = [a] → f.exposed[a]? = some t ∧ f' = f) ∧
      (2 ≤ preds.length → ∃ made lost, f' = f.absorb made lost ∧
        Merged s b line preds f t made lost ∧
        ∀ n ∈ made, n.version.number < UInt32.size →
          (Version.nextNumber32 n.version.inputs).toNat = n.version.number)) := by
  constructor
  · intro a ha
    have herror : predecessors s f b line preds = .error (.blockNotProcessed a) :=
      predecessors_eq_error ha
    exact ⟨herror, by rw [run_inPlace, herror]⟩
  · intro hnone
    have hready : ∀ a ∈ preds, f.claimed a = true := by
      intro a ha
      simpa using List.find?_eq_none.1 hnone a ha
    obtain ⟨t, f', hok⟩ : ∃ t f', predecessors s f b line preds = .ok (t, f') :=
      predecessors_isOk hready
    refine ⟨t, f', hok, by rw [run_inPlace, hok], ?_, ?_, fun h2 => ?_⟩
    · rintro rfl
      rcases predecessors_cases hok with ⟨-, ht, hf⟩ | ⟨a, ha, -⟩ | ⟨h2, -⟩
      · exact ⟨ht, hf⟩
      · cases ha
      · simp at h2
    · rintro a rfl
      rcases predecessors_cases hok with ⟨ha, -⟩ | ⟨c, hc, ht, hf⟩ | ⟨h2, -⟩
      · cases ha
      · obtain rfl := (List.cons.inj hc).1
        exact ⟨ht, hf⟩
      · simp at h2
    · obtain ⟨made, lost, hf', hmerged, hnumber⟩ := predecessors_merged h2 hok
      refine ⟨made, lost, hf', hmerged, fun n hn hfits => ?_⟩
      obtain ⟨inputs, hv⟩ := hnumber n hn
      rw [hv] at hfits ⊢
      exact Version.toNat_nextNumber32 hfits

/-- Two processed blocks that agree on `a`, which one of them read, but not on `b`, and of which
only one binds `c`. -/
def twoTables : Facts :=
  let first : List (String × Version) :=
    [("a", .created ⟨0⟩ ⟨0⟩ 1), ("b", .created ⟨1⟩ ⟨1⟩ 2), ("c", .created ⟨1⟩ ⟨2⟩ 3)]
  let second : List (String × Version) :=
    [("a", (Version.created ⟨0⟩ ⟨0⟩ 1).markRead), ("b", .firstWrite ⟨2⟩ ⟨3⟩ 4)]
  ((Facts.start {}).expose ⟨1⟩ (.ofList first)).expose ⟨2⟩ (.ofList second)

open Merge in
theorem merge_exact_twoTables :
    (inPlace {} ⟨3⟩ 7 [⟨1⟩, ⟨9⟩, ⟨8⟩]).run.run twoTables =
    (.error (.blockNotProcessed ⟨9⟩), twoTables) ∧
    ∃ t f' made lost, predecessors { pruneTrivial := true } twoTables ⟨3⟩ 7 [⟨1⟩, ⟨2⟩, ⟨1⟩] =
      .ok (t, f') ∧
      f' = twoTables.absorb made lost ∧
      Merged { pruneTrivial := true } ⟨3⟩ 7 [⟨1⟩, ⟨2⟩, ⟨1⟩] twoTables t made lost ∧
      (∀ n ∈ made, (Version.nextNumber32 n.version.inputs).toNat = n.version.number) ∧
      t["a"]? = some (Version.created ⟨0⟩ ⟨0⟩ 1).markRead ∧
      f'.falsePhis = [⟨⟨3⟩, "c", [⟨1⟩, ⟨1⟩]⟩] ∧
      (f'.history.chain "b").map (·.version) =
          [.phi 1 [.created ⟨1⟩ ⟨1⟩ 2, .firstWrite ⟨2⟩ ⟨3⟩ 4, .created ⟨1⟩ ⟨1⟩ 2] ⟨3⟩ 7] := by
  constructor
  · exact ((merge_exact {} ⟨3⟩ 7 [⟨1⟩, ⟨9⟩, ⟨8⟩] twoTables).1 ⟨9⟩ (by decide +kernel)).2
  · obtain ⟨t, f', hok, -, -, -, hmerged⟩ :=
      (merge_exact { pruneTrivial := true } ⟨3⟩ 7 [⟨1⟩, ⟨2⟩, ⟨1⟩] twoTables).2 (by decide +kernel)
    obtain ⟨made, lost, hf, hmerged, hnumber⟩ := hmerged (by decide)
    obtain ⟨⟨u, g⟩, hcheck, hP⟩ :=
      checkOk_eq_true (x := predecessors { pruneTrivial := true } twoTables ⟨3⟩ 7 [⟨1⟩, ⟨2⟩, ⟨1⟩])
      (P := fun (t, f') => (∀ n ∈ f'.graph.nodes.toList, n.version.number < UInt32.size) ∧
        t["a"]? = some (Version.created ⟨0⟩ ⟨0⟩ 1).markRead ∧
        f'.falsePhis = [⟨⟨3⟩, "c", [⟨1⟩, ⟨1⟩]⟩] ∧ (f'.history.chain "b").map (·.version) =
        [.phi 1 [.created ⟨1⟩ ⟨1⟩ 2, .firstWrite ⟨2⟩ ⟨3⟩ 4, .created ⟨1⟩ ⟨1⟩ 2] ⟨3⟩ 7])
      (by decide +kernel)
    rw [hok] at hcheck
    cases hcheck
    obtain ⟨hsmall, hP⟩ := of_decide_eq_true hP
    refine ⟨t, f', made, lost, hok, hf, hmerged, fun n hn => hnumber n hn (hsmall n ?_), hP⟩
    rw [hf, Facts.absorb, Array.toList_append]
    exact List.mem_append_right _ (by simpa using hn)

end ArrayFlow
