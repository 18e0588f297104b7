import ArrayFlow.Settings.Document
import Mathlib.Data.List.Nodup

/-!
# Which settings are read, and which fault is reported

A settings document can have several faults at once. They are looked for in turn, and the first one
is reported.

* `Yaml.Has`, `Yaml.FirstOther`, `Yaml.Knows` : what a mapping says about a text as a key;
* `Settings.Fits`      : the values that a knob can take;
* `Settings.Shaped`    : the form that a document must have, its version and unknown keys apart;
* `Settings.Taken`     : settings have each knob from the document, or as it is by default;
* `Settings.Outcome`   : what becomes of a document, one rule for each fault and one for none;
* `Settings.ofYaml_eq_iff` : a document comes out as the rules say;
* `Settings.ofYaml_outcome` : the same for texts, and for settings that are written.
-/

namespace ArrayFlow

namespace Yaml

variable {y k v : Yaml} {key name : String} {valid : List String}

/-! ## mappings -/

/-- The entries of a mapping; other values have none. -/
def entries (y : Yaml) : List (Yaml × Yaml) := y.map?.getD []

/-- A mapping has the value under a text as its key. -/
def Has (y : Yaml) (key : String) (value : Yaml) : Prop := (.str key, value) ∈ y.entries

def DistinctKeys (y : Yaml) : Prop := (y.entries.map (·.1)).Nodup

/-- All keys of a mapping that are texts are valid ones. -/
def Knows (y : Yaml) (valid : List String) : Prop := ∀ key value, y.Has key value → key ∈ valid

/-- The first key of a mapping that is a text and not a valid one. -/
def FirstOther (y : Yaml) (valid : List String) (key : String) : Prop :=
  ∃ before value after, y.entries = before ++ (.str key, value) :: after ∧ key ∉ valid ∧
    ∀ name x, (.str name, x) ∈ before → name ∈ valid

theorem str?_eq_some_iff : k.str? = some name ↔ k = .str name := by cases k <;> simp [str?]

theorem bool?_eq_some_iff {b : Bool} : v.bool? = some b ↔ v = .bool b := by cases v <;> simp [bool?]

theorem nat?_eq_some_iff {n : Nat} : v.nat? = some n ↔ v = .int n := by
  cases v <;> simp [nat?]
  omega

theorem get?_eq (y : Yaml) (key : String) :
    y.get? key = (y.entries.find? fun e => e.1.str? == some key).map (·.2) := by cases y <;> rfl

theorem textKeys_eq (y : Yaml) : y.textKeys = y.entries.filterMap (·.1.str?) := by cases y <;> rfl

theorem DistinctKeys.unique {v' : Yaml} (h : y.DistinctKeys) (hv : y.Has key v)
    (hv' : y.Has key v') : v = v' :=
  (Prod.ext_iff.1 (List.inj_on_of_nodup_map h hv hv' rfl)).2

theorem has_of_get? (h : y.get? key = some v) : y.Has key v := by
  rw [get?_eq, Option.map_eq_some_iff] at h
  obtain ⟨⟨k, x⟩, hfind, rfl⟩ := h
  have hkey := List.find?_some hfind
  rw [beq_iff_eq, str?_eq_some_iff] at hkey
  obtain rfl : k = .str key := hkey
  exact List.mem_of_find?_eq_some hfind

theorem get?_eq_none_iff : y.get? key = none ↔ ∀ v, ¬ y.Has key v := by
  rw [get?_eq, Option.map_eq_none_iff, List.find?_eq_none]
  constructor
  · intro h v hv
    exact h _ hv (by simp [str?])
  · rintro h ⟨k, v⟩ hmem hkey
    rw [beq_iff_eq, str?_eq_some_iff] at hkey
    obtain rfl : k = .str key := hkey
    exact h v hmem

theorem DistinctKeys.get?_eq_some_iff (h : y.DistinctKeys) : y.get? key = some v ↔ y.Has key v := by
  refine ⟨has_of_get?, fun hv => ?_⟩
  cases hget : y.get? key with
  | none => exact absurd hv (get?_eq_none_iff.1 hget v)
  | some x => rw [h.unique (has_of_get? hget) hv]

/-! ## keys -/

theorem FirstOther.find?_textKeys (h : y.FirstOther valid key) :
    y.textKeys.find? (· ∉ valid) = some key := by
  obtain ⟨before, value, after, hentries, hkey, hbefore⟩ := h
  have hnone : (before.filterMap (·.1.str?)).find? (· ∉ valid) = none := by
    refine List.find?_eq_none.2 fun name hname => ?_
    obtain ⟨⟨k, x⟩, hmem, hk⟩ := List.mem_filterMap.1 hname
    obtain rfl : k = .str name := str?_eq_some_iff.1 hk
    simpa using hbefore name x hmem
  rw [textKeys_eq, hentries, List.filterMap_append, List.find?_append, hnone, Option.none_or]
  simp [str?, hkey]

theorem Knows.find?_textKeys (h : y.Knows valid) : y.textKeys.find? (· ∉ valid) = none := by
  refine List.find?_eq_none.2 fun name hname => ?_
  rw [textKeys_eq] at hname
  obtain ⟨⟨k, x⟩, hmem, hk⟩ := List.mem_filterMap.1 hname
  obtain rfl : k = .str name := str?_eq_some_iff.1 hk
  simpa using h name x hmem

/-- All texts among the keys are valid, or there is a first one that is not. -/
theorem knows_or_firstOther (y : Yaml) (valid : List String) :
    y.Knows valid ∨ ∃ key, y.FirstOther valid key := by
  cases hfind : y.entries.find? fun e => e.1.str?.any (· ∉ valid) with
  | none =>
    refine .inl fun key value hhas => ?_
    simpa [str?] using List.find?_eq_none.1 hfind _ hhas
  | some e =>
    obtain ⟨hother, before, after, hentries, hbefore⟩ := List.find?_eq_some_iff_append.1 hfind
    obtain ⟨key, hkey, hvalid⟩ := (Option.any_eq_true ..).1 hother
    obtain ⟨k, value⟩ := e
    obtain rfl : k = .str key := str?_eq_some_iff.1 hkey
    refine .inr ⟨key, before, value, after, hentries, by simpa using hvalid, fun name x hmem => ?_⟩
    simpa [str?] using hbefore _ hmem

end Yaml

namespace Settings

open Yaml

variable {s s' : Settings} {y v : Yaml} {name : String} {es : List (Yaml × Yaml)}
  {valid : List String} {place key : String}

/-! ## knobs -/

/-- The knobs that are truth values. -/
def flags : List String :=
  ["strict_dangling_uses", "prune_trivial_phis", "record_flow_graph", "record_rejected_edges"]

/-- A knob can take a value. -/
inductive Fits : String → Yaml → Prop where
  | limit (n : Nat) : Fits "worklist_max_iterations" (.int n)
  | flag {name : String} (b : Bool) (h : name ∈ flags) : Fits name (.bool b)

theorem entries_unique {v v' : Yaml} (h : (name, v) ∈ s.entries) (h' : (name, v') ∈ s.entries) :
    v = v' := by
  have hnames : (s.entries.map (·.1)).Nodup := (by decide : fields.Nodup)
  exact (Prod.ext_iff.1 (List.inj_on_of_nodup_map hnames h h' rfl)).2

/-- Settings are told apart by their entries. -/
theorem eq_of_entries (h : ∀ name v, (name, v) ∈ s.entries → (name, v) ∈ s'.entries) : s = s' := by
  have hknob : ∀ name v v', (name, v) ∈ s.entries → (name, v') ∈ s'.entries →
      v = v' := fun name v v' hv hv' =>
    entries_unique (h name v hv) hv'
  have hlimit := hknob "worklist_max_iterations" (.int s.maxIterations) (.int s'.maxIterations)
    (by simp [entries]) (by simp [entries])
  have hstrict := hknob "strict_dangling_uses" (.bool s.strictUses) (.bool s'.strictUses)
    (by simp [entries]) (by simp [entries])
  have hprune := hknob "prune_trivial_phis" (.bool s.pruneTrivial) (.bool s'.pruneTrivial)
    (by simp [entries]) (by simp [entries])
  have hflow := hknob "record_flow_graph" (.bool s.recordFlow) (.bool s'.recordFlow)
    (by simp [entries]) (by simp [entries])
  have hrejected := hknob "record_rejected_edges" (.bool s.recordRejected) (.bool s'.recordRejected)
    (by simp [entries]) (by simp [entries])
  cases s
  cases s'
  rw [Settings.mk.injEq]
  exact ⟨Int.ofNat.inj (Yaml.int.inj hlimit), Yaml.bool.inj hstrict, Yaml.bool.inj hprune,
    Yaml.bool.inj hflow, Yaml.bool.inj hrejected⟩

/-- A value that a knob can take is set, and the other knobs stay as they are. -/
theorem Fits.set? (h : Fits name v) (s : Settings) :
    ∃ s', s.set? name v = some s' ∧ (name, v) ∈ s'.entries ∧
      ∀ other x, other ≠ name → (other, x) ∈ s'.entries → (other, x) ∈ s.entries := by
  cases h with
  | limit n => exact ⟨_, rfl, by simp [entries], fun other x hne hmem => by simp_all [entries]⟩
  | flag b h =>
    simp only [flags, List.mem_cons, List.not_mem_nil, or_false] at h
    rcases h with rfl | rfl | rfl | rfl <;>
      exact ⟨_, rfl, by simp [entries], fun other x hne hmem => by simp_all [entries]⟩

theorem fits_of_set? (h : s.set? name v = some s') : Fits name v := by
  unfold Settings.set? at h
  split_ifs at h with hlimit hstrict hprune hflow hrejected
  · obtain ⟨n, hn, -⟩ := Option.map_eq_some_iff.1 h
    rw [hlimit, nat?_eq_some_iff.1 hn]
    exact .limit n
  all_goals
    obtain ⟨b, hb, -⟩ := Option.map_eq_some_iff.1 h
    rw [bool?_eq_some_iff.1 hb]
    exact .flag b (by simp [flags, *])

/-! ## sections -/

/-- An entry of a section: its key is a text, and a knob can take its value. -/
def EntryFits (e : Yaml × Yaml) : Prop := ∃ name, e.1 = .str name ∧ Fits name e.2

theorem setAll?_cons (e : Yaml × Yaml) :
    s.setAll? (e :: es) = (e.1.str?.bind (s.set? · e.2)).bind (setAll? · es) := rfl

theorem entryFits_of_setAll? (h : s.setAll? es = some s') : ∀ e ∈ es, EntryFits e := by
  induction es generalizing s with
  | nil => simp
  | cons e es ih =>
    rw [setAll?_cons, Option.bind_eq_some_iff] at h
    obtain ⟨s₁, hset, hrest⟩ := h
    obtain ⟨name, hname, hset⟩ := Option.bind_eq_some_iff.1 hset
    exact List.forall_mem_cons.2 ⟨⟨name, str?_eq_some_iff.1 hname, fits_of_set? hset⟩, ih hrest⟩

/-- A knob has the value of its entry, or stays as it is if there is none. -/
theorem exists_setAll? (hfits : ∀ e ∈ es, EntryFits e) (hdistinct : (es.map (·.1)).Nodup)
    (s : Settings) :
    ∃ s', s.setAll? es = some s' ∧ ∀ name x, (name, x) ∈ s'.entries →
      (.str name, x) ∈ es ∨ (∀ given, (.str name, given) ∉ es) ∧ (name, x) ∈ s.entries := by
  induction es generalizing s with
  | nil => exact ⟨s, rfl, fun name x hmem => .inr ⟨by simp, hmem⟩⟩
  | cons e es ih =>
    obtain ⟨⟨name, hname, hfit⟩, hfits⟩ := List.forall_mem_cons.1 hfits
    obtain ⟨s₁, hset, hgiven, hothers⟩ := hfit.set? s
    obtain ⟨s', hall, htaken⟩ := ih hfits (List.nodup_cons.1 hdistinct).2 s₁
    obtain ⟨k, v⟩ := e
    obtain rfl : k = .str name := hname
    refine ⟨s', by rw [setAll?_cons]; simp [str?, hset, hall], fun other x hmem => ?_⟩
    rcases htaken other x hmem with hin | ⟨hnone, hbefore⟩
    · exact .inl (List.mem_cons_of_mem _ hin)
    · by_cases heq : other = name
      · rw [heq] at hbefore ⊢
        exact .inl (by simp [entries_unique hbefore hgiven])
      · exact .inr ⟨fun given => by simp [heq, hnone given], hothers other x heq hbefore⟩

/-! ## documents -/

/-- The keys of a document are distinct, and so are those of its section. -/
structure Orderly (y : Yaml) : Prop where
  root : y.DistinctKeys
  part : ∀ part, y.Has "analysis" part → part.DistinctKeys

/-- The form of a document: its keys are texts, and its section is null or a mapping of knobs to
values they can take. -/
structure Shaped (y : Yaml) : Prop where
  keys : ∀ e ∈ y.entries, ∃ name, e.1 = .str name
  part : ∀ part, y.Has "analysis" part → part = .null ∨ ∃ es, part = .map es ∧ ∀ e ∈ es, EntryFits e

def Given (y : Yaml) (name : String) (value : Yaml) : Prop :=
  ∃ part, y.Has "analysis" part ∧ part.Has name value

/-- The settings have each knob as the document gives it, and those that it does not give as they
are by default. -/
def Taken (y : Yaml) (s : Settings) : Prop :=
  ∀ name value, (name, value) ∈ s.entries →
    Given y name value ∨ (∀ other, ¬ Given y name other) ∧ (name, value) ∈ ({} : Settings).entries

/-- The fault of a number of iterations that is out of range. -/
def rangeFault (found : Nat) : SettingsFault :=
  .outOfRange "worklist_max_iterations" found 1 10000000
    "The loop worklist needs at least one iteration; very large caps hide non-terminating loops"

/-- What becomes of a document. Each rule says that none of the rules before it applies. -/
inductive Outcome (y : Yaml) : Except SettingsFault Settings → Prop where
  /-- There is no version, or it is no natural number. -/
  | missingVersion (version : ∀ n : Nat, ¬ y.Has "version" (.int n)) :
      Outcome y (.error .missingVersion)
  /-- The version is not 1. -/
  | unsupportedVersion {n : Nat} (version : y.Has "version" (.int n)) (other : n ≠ 1) :
      Outcome y (.error (.unsupportedVersion (min n 4294967295) [1]))
  /-- A key of the document is unknown. -/
  | unknownRoot {key : String} (version : y.Has "version" (.int 1))
      (first : y.FirstOther ["version", "analysis"] key) :
      Outcome y (.error (.unknownField key "root" ["version", "analysis"]))
  /-- A key of the section is unknown. -/
  | unknownKnob {part : Yaml} {key : String} (version : y.Has "version" (.int 1))
      (root : y.Knows ["version", "analysis"])
      (has : y.Has "analysis" part) (first : part.FirstOther fields key) :
      Outcome y (.error (.unknownField key "analysis" fields))
  /-- Something does not have the form that it must have. -/
  | malformed (version : y.Has "version" (.int 1)) (root : y.Knows ["version", "analysis"])
      (part : ∀ part, y.Has "analysis" part → part.Knows fields) (shape : ¬ Shaped y) :
      Outcome y (.error .malformed)
  /-- The number of iterations is out of range. -/
  | outOfRange {s : Settings} (version : y.Has "version" (.int 1))
      (root : y.Knows ["version", "analysis"])
      (part : ∀ part, y.Has "analysis" part → part.Knows fields) (shape : Shaped y)
      (taken : Taken y s)
      (range : ¬ (1 ≤ s.maxIterations ∧ s.maxIterations ≤ 10000000)) :
      Outcome y (.error (rangeFault s.maxIterations))
  /-- Nothing is wrong. -/
  | ok {s : Settings} (version : y.Has "version" (.int 1)) (root : y.Knows ["version", "analysis"])
      (part : ∀ part, y.Has "analysis" part → part.Knows fields) (shape : Shaped y)
      (taken : Taken y s)
      (range : 1 ≤ s.maxIterations ∧ s.maxIterations ≤ 10000000) : Outcome y (.ok s)

/-! ### the form of documents -/

theorem Orderly.given_unique (h : Orderly y) {v v' : Yaml} (hv : Given y name v)
    (hv' : Given y name v') : v = v' := by
  obtain ⟨part, hpart, hhas⟩ := hv
  obtain ⟨part', hpart', hhas'⟩ := hv'
  obtain rfl := h.root.unique hpart hpart'
  exact (h.part part hpart).unique hhas hhas'

/-- A document leaves no choice for the settings. -/
theorem Taken.unique (hd : Orderly y) (h : Taken y s) (h' : Taken y s') : s = s' := by
  refine eq_of_entries fun name v hmem => ?_
  have hname : name ∈ s'.entries.map (·.1) := List.mem_map_of_mem (f := (·.1)) hmem
  obtain ⟨⟨_, v'⟩, hmem', rfl⟩ := List.mem_map.1 hname
  rcases h _ v hmem with hgiven | ⟨hnone, hdefault⟩
  · rcases h' _ v' hmem' with hgiven' | ⟨hnone', -⟩
    · rwa [hd.given_unique hgiven hgiven']
    · exact absurd hgiven (hnone' v)
  · rcases h' _ v' hmem' with hgiven' | ⟨-, hdefault'⟩
    · exact absurd hgiven' (hnone v')
    · rwa [entries_unique hdefault hdefault']

theorem ofChecked?_map (es : List (Yaml × Yaml)) (hkeys : ∀ e ∈ es, ∃ name, e.1 = .str name) :
    ofChecked? (.map es) = ofSection? ((Yaml.map es).get? "analysis") := by
  have hall : (es.all fun e => e.1.str?.isSome) = true := by
    refine List.all_eq_true.2 fun e he => ?_
    obtain ⟨name, hname⟩ := hkeys e he
    simp [hname, str?]
  simp [ofChecked?, map?, hall]

theorem Shaped.exists_taken (h : Shaped y) (hd : Orderly y) (hversion : y.Has "version" v) :
    ∃ s, ofChecked? y = some s ∧ Taken y s := by
  cases y with
  | map es =>
    rw [ofChecked?_map es h.keys]
    cases hget : (Yaml.map es).get? "analysis" with
    | none =>
      have hnone : ∀ name x, ¬ Given (.map es) name x := fun name x ⟨part, hpart, _⟩ =>
        get?_eq_none_iff.1 hget part hpart
      exact ⟨{}, rfl, fun name x hmem => .inr ⟨hnone name, hmem⟩⟩
    | some part =>
      have hpart := has_of_get? hget
      have hgiven : ∀ name x, Given (.map es) name x ↔ part.Has name x := fun name x =>
        ⟨fun ⟨part', hpart', hhas⟩ => hd.root.unique hpart hpart' ▸ hhas,
          fun hhas => ⟨part, hpart, hhas⟩⟩
      simp only [Taken, hgiven]
      rcases h.part part hpart with rfl | ⟨knobs, rfl, hfits⟩
      · exact ⟨{}, rfl, fun name x hmem => .inr ⟨by simp [Has, Yaml.entries, map?], hmem⟩⟩
      · exact exists_setAll? hfits (hd.part _ hpart) {}
  | _ => cases hversion

theorem shaped_of_ofChecked? (hd : Orderly y) (h : ofChecked? y = some s) : Shaped y := by
  cases y with
  | map es =>
    have hall : (es.all fun e => e.1.str?.isSome) = true := by
      by_contra hno
      simp [ofChecked?, map?, hno] at h
    have hkeys : ∀ e ∈ es, ∃ name, e.1 = .str name := fun e he =>
      (Option.isSome_iff_exists.1 (List.all_eq_true.1 hall e he)).imp fun _ => str?_eq_some_iff.1
    rw [ofChecked?_map es hkeys] at h
    refine ⟨hkeys, fun part hpart => ?_⟩
    rw [hd.root.get?_eq_some_iff.2 hpart] at h
    cases part with
    | null => exact .inl rfl
    | map knobs => exact .inr ⟨knobs, rfl, entryFits_of_setAll? h⟩
    | _ => cases h
  | _ => cases h

/-! ### the checks in turn -/

theorem checkKeys_eq_ok (h : y.Knows valid) (place : String) :
    checkKeys y place valid = .ok () := by
  rw [checkKeys, h.find?_textKeys]

theorem checkKeys_eq_error (h : y.FirstOther valid key) (place : String) :
    checkKeys y place valid = .error (.unknownField key place valid) := by
  rw [checkKeys, h.find?_textKeys]

theorem checkVersion_of_has (hd : Orderly y) {n : Nat} (h : y.Has "version" (.int n)) :
    checkVersion y = if n = 1 then .ok ()
      else .error (.unsupportedVersion (min n 4294967295) [1]) := by
  have hnat : (Yaml.int n).nat? = some n := nat?_eq_some_iff.2 rfl
  rw [checkVersion, hd.root.get?_eq_some_iff.2 h, Option.bind_some, hnat]
  by_cases hone : n = 1
  · subst hone
    rfl
  · have hfound : Nat.min n greatestVersion ∉ supportedVersions := by
      simp only [supportedVersions, List.mem_singleton, greatestVersion, Nat.min_def]
      split <;> omega
    simp only [if_neg hfound, if_neg hone]
    rfl

theorem checkVersion_of_not_has (h : ∀ n : Nat, ¬ y.Has "version" (.int n)) :
    checkVersion y = .error .missingVersion := by
  have hnone : (y.get? "version").bind nat? = none := by
    refine Option.eq_none_iff_forall_ne_some.2 fun n hn => ?_
    obtain ⟨v, hget, hnat⟩ := Option.bind_eq_some_iff.1 hn
    exact h n (nat?_eq_some_iff.1 hnat ▸ has_of_get? hget)
  rw [checkVersion, hnone]

theorem validated_eq_ok (h : 1 ≤ s.maxIterations ∧ s.maxIterations ≤ 10000000) :
    s.validated = .ok s := by
  have hvalid : s.validate = .ok () := if_pos h
  rw [validated, hvalid]
  rfl

theorem validated_eq_error (h : ¬ (1 ≤ s.maxIterations ∧ s.maxIterations ≤ 10000000)) :
    s.validated = .error (rangeFault s.maxIterations) := by
  have hinvalid : s.validate = .error (rangeFault s.maxIterations) := if_neg h
  rw [validated, hinvalid]
  rfl

theorem ofYaml_of_known (hd : Orderly y) (hversion : y.Has "version" (.int 1))
    (hroot : y.Knows rootFields) (hpart : ∀ part, y.Has "analysis" part → part.Knows fields) :
    ofYaml y = match ofChecked? y with
      | some s => s.validated
      | none => .error .malformed := by
  have hone : checkVersion y = .ok () := by rw [checkVersion_of_has hd hversion, if_pos rfl]
  rw [ofYaml, hone, checkKeys_eq_ok hroot]
  cases hget : y.get? "analysis" with
  | none => rfl
  | some part =>
    have hknows := checkKeys_eq_ok (hpart part (has_of_get? hget)) "analysis"
    simp only [hknows]
    rfl

theorem ofYaml_of_outcome (hd : Orderly y) {r : Except SettingsFault Settings} (h : Outcome y r) :
    ofYaml y = r := by
  cases h with
  | missingVersion version => rw [ofYaml, checkVersion_of_not_has version]; rfl
  | unsupportedVersion version other => rw [ofYaml, checkVersion_of_has hd version, if_neg other]; rfl
  | unknownRoot version first =>
    rw [ofYaml, checkVersion_of_has hd version, if_pos rfl, rootFields, checkKeys_eq_error first]
    rfl
  | unknownKnob version root has first =>
    rw [ofYaml, checkVersion_of_has hd version, if_pos rfl, rootFields, checkKeys_eq_ok root,
      hd.root.get?_eq_some_iff.2 has]
    simp only [checkKeys_eq_error first]
    rfl
  | malformed version root part shape =>
    have hnone : ofChecked? y = none :=
      Option.eq_none_iff_forall_ne_some.2 fun s hs => shape (shaped_of_ofChecked? hd hs)
    rw [ofYaml_of_known hd version root part, hnone]
  | @outOfRange s version root part shape taken range =>
    obtain ⟨s', hs', htaken⟩ := shape.exists_taken hd version
    obtain rfl := taken.unique hd htaken
    rw [ofYaml_of_known hd version root part, hs']
    exact validated_eq_error range
  | @ok s version root part shape taken range =>
    obtain ⟨s', hs', htaken⟩ := shape.exists_taken hd version
    obtain rfl := taken.unique hd htaken
    rw [ofYaml_of_known hd version root part, hs']
    exact validated_eq_ok range

theorem exists_outcome (hd : Orderly y) : ∃ r, Outcome y r := by
  by_cases hversion : ∃ n : Nat, y.Has "version" (.int n)
  · obtain ⟨n, hn⟩ := hversion
    by_cases hone : n = 1
    · subst hone
      rcases knows_or_firstOther y ["version", "analysis"] with hroot | ⟨key, hfirst⟩
      · by_cases hpart : ∀ part, y.Has "analysis" part → part.Knows fields
        · by_cases hshape : Shaped y
          · obtain ⟨s, -, htaken⟩ := hshape.exists_taken hd hn
            by_cases hrange : 1 ≤ s.maxIterations ∧ s.maxIterations ≤ 10000000
            · exact ⟨_, .ok hn hroot hpart hshape htaken hrange⟩
            · exact ⟨_, .outOfRange hn hroot hpart hshape htaken hrange⟩
          · exact ⟨_, .malformed hn hroot hpart hshape⟩
        · push Not at hpart
          obtain ⟨part, hhas, hother⟩ := hpart
          obtain ⟨key, hfirst⟩ := (knows_or_firstOther part fields).resolve_left hother
          exact ⟨_, .unknownKnob hn hroot hhas hfirst⟩
      · exact ⟨_, .unknownRoot hn hfirst⟩
    · exact ⟨_, .unsupportedVersion hn hone⟩
  · exact ⟨_, .missingVersion (not_exists.1 hversion)⟩

/-- A document comes out as the rules say. -/
theorem ofYaml_eq_iff (hd : Orderly y) (r : Except SettingsFault Settings) :
    ofYaml y = r ↔ Outcome y r := by
  refine ⟨fun h => ?_, ofYaml_of_outcome hd⟩
  obtain ⟨r', hr'⟩ := exists_outcome hd
  rwa [← h, ofYaml_of_outcome hd hr']

/-! ## settings that are written -/

/-- What is written for settings is read as their document. -/
def ReadsBack (parse : String → Option Yaml) (print : Yaml → String) (s : Settings) : Prop :=
  parse (print s.toYaml) = some s.toYaml

theorem ofYaml_toYaml (s : Settings) : ofYaml s.toYaml = s.validated := rfl

theorem ReadsBack.readText_writeText {parse : String → Option Yaml} {print : Yaml → String}
    (h : ReadsBack parse print s) : readText parse (writeText print s) = s.validated := by
  rw [readText, writeText, h]
  exact ofYaml_toYaml s

theorem validated_of_validate (h : s.validate = .ok ()) : s.validated = .ok s := by
  rw [validated, h]
  rfl

theorem validated_of_not_validate (h : s.validate ≠ .ok ()) :
    s.validated = .error (rangeFault s.maxIterations) :=
  validated_eq_error fun hrange => h (if_pos hrange)

/-- A document comes out as the rules say, and a text as the document that it is read as; a text
that is not read is malformed. The document of settings gives the settings back if they are in
range, and the fault of their range if not, and so does their text if what is written is read
back. -/
theorem ofYaml_outcome :
    (∀ y : Yaml, Orderly y → ∀ r, ofYaml y = r ↔ Outcome y r) ∧
      (∀ (parse : String → Option Yaml) (text : String),
        (∀ y, parse text = some y → Orderly y → ∀ r, readText parse text = r ↔ Outcome y r) ∧
        (parse text = none → readText parse text = .error .malformed)) ∧
      (∀ s : Settings,
        (s.validate = .ok () → ofYaml s.toYaml = .ok s) ∧
        (s.validate ≠ .ok () → ofYaml s.toYaml = .error (rangeFault s.maxIterations))) ∧
      ∀ (parse : String → Option Yaml) (print : Yaml → String) (s : Settings),
        ReadsBack parse print s →
        (s.validate = .ok () → readText parse (writeText print s) = .ok s) ∧
        (s.validate ≠ .ok () →
          readText parse (writeText print s) = .error (rangeFault s.maxIterations)) := by
  refine ⟨fun y hd r => ofYaml_eq_iff hd r,
    fun parse text => ⟨fun y hy hd r => ?_, fun hnone => ?_⟩,
    fun s => ⟨fun hvalid => ?_, fun hinvalid => ?_⟩, fun parse print s hback =>
    ⟨fun hvalid => ?_, fun hinvalid => ?_⟩⟩
  · rw [readText, hy]
    exact ofYaml_eq_iff hd r
  · rw [readText, hnone]
  · rw [ofYaml_toYaml, validated_of_validate hvalid]
  · rw [ofYaml_toYaml, validated_of_not_validate hinvalid]
  · rw [hback.readText_writeText, validated_of_validate hvalid]
  · rw [hback.readText_writeText, validated_of_not_validate hinvalid]

/-- A document with an unknown knob, a key that is no text, a flag that is a number and a limit
that is too large. -/
def faultyDocument : Yaml :=
  .map [(.str "version", .int 1), (.bool true, .null),
    (.str "analysis", .map [(.str "strict_dangling_uses", .int 3), (.str "prune", .null),
      (.str "worklist_max_iterations", .int 10000001)])]

/-- Settings that can be written but not read. -/
def unlimited : Settings := { maxIterations := 0, strictUses := true }

/-- A format with three texts. -/
def threeTexts : String → Option Yaml
  | "faulty" => some faultyDocument
  | "default" => some ({} : Settings).toYaml
  | "unlimited" => some unlimited.toYaml
  | _ => none

/-- Of several faults it is the unknown knob that is reported, and a limit of zero is refused when
its text is read back. -/
theorem ofYaml_outcome_faulty :
    Orderly faultyDocument ∧
      Outcome faultyDocument (.error (.unknownField "prune" "analysis" fields)) ∧
      readText threeTexts "faulty" = .error (.unknownField "prune" "analysis" fields) ∧
      readText threeTexts "" = .error .malformed ∧
      ReadsBack threeTexts (fun _ => "unlimited") unlimited ∧
      unlimited.validate ≠ .ok () ∧
      ofYaml unlimited.toYaml = .error (rangeFault 0) ∧
      readText threeTexts (writeText (fun _ => "unlimited") unlimited) = .error (rangeFault 0) ∧
      ReadsBack threeTexts (fun _ => "default") {} ∧
      ({} : Settings).validate = .ok () ∧
      ofYaml ({} : Settings).toYaml = .ok {} ∧
      readText threeTexts (writeText (fun _ => "default") {}) = .ok {} := by
  obtain ⟨hvalue, htext, hdocument, hwritten⟩ := ofYaml_outcome
  have horderly : Orderly faultyDocument := by
    refine ⟨?_, fun part hpart => ?_⟩
    · simp [DistinctKeys, faultyDocument, Yaml.entries, map?]
    · simp only [Has, faultyDocument, Yaml.entries, map?, Option.getD_some, List.mem_cons,
        Prod.mk.injEq, str.injEq, List.not_mem_nil, or_false, reduceCtorEq, false_and,
        false_or] at hpart
      obtain ⟨hname, -⟩ | ⟨-, rfl⟩ := hpart
      · exact absurd hname (by decide)
      · simp [DistinctKeys, Yaml.entries, map?]
  have hfault := (hvalue faultyDocument horderly _).1 rfl
  exact ⟨horderly, hfault, ((htext threeTexts "faulty").1 _ rfl horderly _).2 hfault,
    (htext threeTexts "").2 rfl, rfl, by decide, (hdocument unlimited).2 (by decide),
    (hwritten threeTexts (fun _ => "unlimited") unlimited rfl).2 (by decide), rfl, rfl,
    (hdocument {}).1 rfl, (hwritten threeTexts (fun _ => "default") {} rfl).1 rfl⟩

end Settings

end ArrayFlow
