import ArrayFlow.Text.Identifier
import Mathlib.Data.List.SplitBy

/-!
# Identifiers are replaced as a whole

The replacement looks for a name as a piece of text, from left to right, and goes on behind what it
found. It never gets out of step with the identifiers of the text: a piece that is found lies inside
of one of them, and so does the place where the search goes on, unless the identifier ends there.

* `Runs`                : a text cut where identifiers begin and end;
* `replaceFrom_found`, `replaceFrom_cons` : what a step does where the name is found, and where it
  is not;
* `replaceFrom_inside`  : nothing is replaced behind the first character of an identifier;
* `replaceFrom_word`, `replaceFrom_gap` : an identifier is replaced if it is the name, and what is
  between them is not;
* `replaceFrom_runs`    : so it is with all runs of a text, by induction on the runs;
* `replaceIdentifier_runs` : the replacement of an identifier, by the runs of the text.
-/

namespace ArrayFlow.Text

/-! ## runs -/

/-- The text cut into runs: no run is empty, the characters of a run are all of identifiers or all
of no identifier, and runs that follow each other differ in this. So the runs of identifier
characters are the maximal ones. -/
structure Runs (text : List Char) (runs : List (List Char)) : Prop where
  flatten : runs.flatten = text
  nonempty : ∀ run ∈ runs, run ≠ []
  uniform : ∀ run ∈ runs, ∀ c ∈ run, ∀ d ∈ run, isIdentifierChar c = isIdentifierChar d
  maximal : runs.IsChain fun run next => ∀ c ∈ run, ∀ d ∈ next, isIdentifierChar c ≠
    isIdentifierChar d

instance (text : List Char) (runs : List (List Char)) : Decidable (Runs text runs) :=
  decidable_of_iff
    (runs.flatten = text ∧ runs.all (!·.isEmpty) = true ∧
      (runs.all fun run => run.all fun c => run.all fun d =>
        isIdentifierChar c == isIdentifierChar d) = true ∧
      runs.IsChain fun run next =>
      (run.all fun c => next.all fun d => isIdentifierChar c != isIdentifierChar d) = true)
    (by
      simp only [List.all_eq_true, beq_iff_eq, bne_iff_ne,
      Bool.not_eq_true', List.isEmpty_eq_false_iff]
      exact ⟨fun ⟨h₁, h₂, h₃, h₄⟩ => ⟨h₁, h₂, h₃, h₄⟩,
      fun h => ⟨h.flatten, h.nonempty, h.uniform, h.maximal⟩⟩)

theorem exists_runs (text : List Char) : ∃ runs, Runs text runs := by
  let alike (c d : Char) : Bool := isIdentifierChar c == isIdentifierChar d
  have huniform : ∀ run ∈ text.splitBy alike, ∀ c ∈ run, ∀ d ∈ run, isIdentifierChar c =
      isIdentifierChar d := by
    intro run hrun c hc d hd
    have hchain : (run.map isIdentifierChar).IsChain Eq :=
      (List.isChain_map _).2
        ((List.isChain_of_mem_splitBy hrun).imp fun c d h => by simpa [alike] using h)
    have hpair : (run.map isIdentifierChar).Pairwise Eq := List.isChain_iff_pairwise.1 hchain
    by_contra hne
    exact hne (hpair.forall (List.mem_map_of_mem hc) (List.mem_map_of_mem hd) hne)
  refine ⟨text.splitBy alike, List.flatten_splitBy ..,
    fun run hrun => List.ne_nil_of_mem_splitBy hrun, huniform, ?_⟩
  refine (List.isChain_getLast_head_splitBy alike text).imp_of_mem_imp ?_
  rintro run next hrun hnext ⟨hne, hne', hdiffer⟩ c hc d hd heq
  rw [huniform run hrun c hc _ (List.getLast_mem hne),
    huniform next hnext d hd _ (List.head_mem hne')] at heq
  simp [alike, heq] at hdiffer

/-! ## steps of the search -/

variable {name replacement run rest : List Char} {before : Option Char}

theorem replaceFrom_skip (run rest : List Char) (before : Option Char) :
    replaceFrom name replacement before run.length (run ++ rest) =
      replaceFrom name replacement (run.getLast?.or before) 0 rest := by
  induction run generalizing before with
  | nil => rfl
  | cons c run ih =>
    rw [List.length_cons, List.cons_append, replaceFrom, ih, List.getLast?_cons, Option.or_some,
      Option.some_or]

theorem replaceFrom_found (hne : name ≠ []) (before : Option Char) (rest : List Char) :
    replaceFrom name replacement before 0 (name ++ rest) =
      (if isBoundary before && isBoundary rest.head? then replacement else name) ++
        replaceFrom name replacement name.getLast? 0 rest := by
  obtain ⟨c, tail, rfl⟩ := List.exists_cons_of_ne_nil hne
  have hat : (c :: tail).isPrefixOf (c :: (tail ++ rest)) = true :=
    List.isPrefixOf_iff_prefix.2 ⟨rest, by simp⟩
  have hnext : (c :: (tail ++ rest))[tail.length + 1]? = rest.head? := by
    rw [← List.cons_append, List.getElem?_append_right (by simp), List.head?_eq_getElem?]
    simp
  rw [List.cons_append, replaceFrom, List.getLast?_cons, ← Option.or_some]
  simp only [hat, if_true, List.length_cons, hnext, Nat.add_sub_cancel, replaceFrom_skip]

theorem replaceFrom_cons {c : Char} (hno : ¬ name <+: c :: rest) (before : Option Char) :
    replaceFrom name replacement before 0 (c :: rest) = c :: replaceFrom name replacement
      (some c) 0 rest := by
  rw [replaceFrom]
  have hat : name.isPrefixOf (c :: rest) = false := by
    rw [← Bool.not_eq_true, List.isPrefixOf_iff_prefix]
    exact hno
  simp [hat]

/-! ## runs of a text -/

section Word

variable (hne : name ≠ []) (hid : ∀ c ∈ name, isIdentifierChar c = true)
  (hend : isBoundary rest.head? = true)
include hid hend

/-- A name that is found at a place in an identifier lies inside of the identifier. -/
theorem exists_append_of_found (h : name <+: run ++ rest) : ∃ tail, run = name ++ tail := by
  obtain ⟨more, hmore⟩ := h
  rcases List.append_eq_append_iff.1 hmore with ⟨tail, heq, -⟩ | ⟨tail, heq, hrest⟩
  · exact ⟨tail, heq⟩
  · cases tail with
    | nil => exact ⟨[], by simpa using heq.symm⟩
    | cons c tail =>
      have hc := hid c (by simp [heq])
      simp [hrest, isBoundary, hc] at hend

include hne

/-- Behind a character of an identifier nothing is replaced until the identifier ends. -/
theorem replaceFrom_inside {c : Char} (hc : isIdentifierChar c = true)
    (hrun : ∀ d ∈ run, isIdentifierChar d = true) :
    replaceFrom name replacement (some c) 0 (run ++ rest) =
      run ++ replaceFrom name replacement (run.getLast?.or (some c)) 0 rest := by
  -- a step takes one character or a whole name, so the induction is on the length of what is left
  induction hlen : run.length using Nat.strong_induction_on generalizing c run with
  | _ n ih =>
    subst hlen
    cases run with
    | nil => rfl
    | cons d run =>
      by_cases hat : name <+: d :: run ++ rest
      · obtain ⟨tail, heq⟩ := exists_append_of_found hid hend hat
        have hlast := hid _ (List.getLast_mem hne)
        have hshort : tail.length < (d :: run).length := by
          rw [heq, List.length_append]
          exact Nat.lt_add_of_pos_left (List.length_pos_iff.2 hne)
        have htail := ih tail.length hshort hlast (fun d hd => hrun d (by simp [heq, hd])) rfl
        rw [heq, List.append_assoc, replaceFrom_found hne, List.getLast?_eq_some_getLast hne, htail]
        simp [isBoundary, hc, List.getLast?_append, List.getLast?_eq_some_getLast hne]
      · have hd := hrun d (List.mem_cons_self ..)
        have htail := ih run.length (Nat.lt_succ_self _) hd
          (fun d hd => hrun d (List.mem_cons_of_mem _ hd)) rfl
        rw [List.cons_append, replaceFrom_cons (by simpa using hat), htail, List.getLast?_cons,
          Option.or_some]
        rfl

/-- An identifier is replaced if it is the name. -/
theorem replaceFrom_word (hbefore : isBoundary before = true)
    (hrun : ∀ d ∈ run, isIdentifierChar d = true) (hrunne : run ≠ []) :
    replaceFrom name replacement before 0 (run ++ rest) =
      (if run = name then replacement else run) ++
        replaceFrom name replacement run.getLast? 0 rest := by
  by_cases hat : name <+: run ++ rest
  · obtain ⟨tail, rfl⟩ := exists_append_of_found hid hend hat
    rw [List.append_assoc, replaceFrom_found hne]
    cases tail with
    | nil => simp [hbefore, hend]
    | cons d tail =>
      -- the name goes on with `d`, so it does not stand alone
      have hd := hrun d (by simp)
      have hlast := hid _ (List.getLast_mem hne)
      rw [List.getLast?_eq_some_getLast hne,
        replaceFrom_inside hne hid hend hlast fun e he => hrun e (List.mem_append_right _ he)]
      simp [isBoundary, hd, List.getLast?_append, List.getLast?_eq_some_getLast hne]
  · obtain ⟨d, run, rfl⟩ := List.exists_cons_of_ne_nil hrunne
    have hother : d :: run ≠ name := by
      rintro rfl
      exact hat (List.prefix_append ..)
    rw [if_neg hother, List.cons_append, replaceFrom_cons (by simpa using hat),
      replaceFrom_inside hne hid hend (hrun d (List.mem_cons_self ..)) fun e he =>
      hrun e (List.mem_cons_of_mem _ he), List.getLast?_cons, Option.or_some]
    rfl

end Word

theorem replaceFrom_gap (hne : name ≠ []) (hid : ∀ c ∈ name, isIdentifierChar c = true)
    (hrun : ∀ d ∈ run, isIdentifierChar d = false) (before : Option Char) :
    replaceFrom name replacement before 0 (run ++ rest) =
      run ++ replaceFrom name replacement (run.getLast?.or before) 0 rest := by
  induction run generalizing before with
  | nil => rfl
  | cons d run ih =>
    have hno : ¬ name <+: d :: (run ++ rest) := by
      obtain ⟨c, tail, rfl⟩ := List.exists_cons_of_ne_nil hne
      intro hat
      obtain ⟨rfl, -⟩ := List.cons_prefix_cons.1 hat
      have hc := hid c (List.mem_cons_self ..)
      rw [hrun c (List.mem_cons_self ..)] at hc
      cases hc
    rw [List.cons_append, replaceFrom_cons hno, ih (fun d hd => hrun d (List.mem_cons_of_mem _ hd)),
      List.getLast?_cons, Option.or_some]
    rfl

theorem Runs.tail {text : List Char} {runs : List (List Char)} (h : Runs text (run :: runs)) :
    Runs runs.flatten runs where
  flatten := rfl
  nonempty next hnext := h.nonempty next (List.mem_cons_of_mem _ hnext)
  uniform next hnext := h.uniform next (List.mem_cons_of_mem _ hnext)
  maximal := h.maximal.tail

/-- The runs of a text are replaced if they are the name. In front of the text an identifier has to
end, unless the text does not begin with one. -/
theorem replaceFrom_runs (hne : name ≠ []) (hid : ∀ c ∈ name, isIdentifierChar c = true)
    {text : List Char} {runs : List (List Char)} (h : Runs text runs)
    (hbefore : isBoundary before = true ∨
      ∀ run ∈ runs.head?, ∀ c ∈ run, isIdentifierChar c = false) :
    replaceFrom name replacement before 0 text = runs.flatMap fun run => if run = name then
      replacement else run := by
  induction runs generalizing text before with
  | nil =>
    rw [← h.flatten]
    rfl
  | cons run runs ih =>
    have hrunne := h.nonempty run (List.mem_cons_self ..)
    have hkind : ∀ d ∈ run, isIdentifierChar d = isIdentifierChar (run.getLast hrunne) :=
        fun d hd =>
      h.uniform run (List.mem_cons_self ..) d hd _ (List.getLast_mem hrunne)
    have hnext : ∀ next ∈ runs.head?, ∀ d ∈ next, isIdentifierChar (run.getLast hrunne) ≠
      isIdentifierChar d :=
      fun next hnext => (List.isChain_cons.1 h.maximal).1 next hnext _ (List.getLast_mem hrunne)
    rw [← h.flatten, List.flatten_cons, List.flatMap_cons]
    cases hlast : isIdentifierChar (run.getLast hrunne) with
    | true =>
      simp only [hlast] at hkind hnext
      have hgap : ∀ next ∈ runs.head?, ∀ d ∈ next, isIdentifierChar d = false :=
          fun next hin d hd =>
        (Bool.eq_false_or_eq_true _).resolve_left fun htrue => hnext next hin d hd htrue.symm
      have hfront : isBoundary before = true := by
        refine hbefore.resolve_right fun hno => ?_
        rw [hno run rfl _ (List.getLast_mem hrunne)] at hlast
        cases hlast
      have hend : isBoundary runs.flatten.head? = true := by
        cases runs with
        | nil => rfl
        | cons next runs =>
          obtain ⟨d, tail, rfl⟩ :=
            List.exists_cons_of_ne_nil (h.tail.nonempty next (List.mem_cons_self ..))
          simp [isBoundary, hgap (d :: tail) rfl d (List.mem_cons_self ..)]
      rw [replaceFrom_word hne hid hend hfront hkind hrunne, ih h.tail (.inr hgap)]
    | false =>
      simp only [hlast] at hkind
      have hother : run ≠ name := by
        rintro rfl
        rw [hid _ (List.getLast_mem hrunne)] at hlast
        cases hlast
      have hfront : isBoundary (run.getLast?.or before) = true := by
        simp [List.getLast?_eq_some_getLast hrunne, isBoundary, hlast]
      rw [if_neg hother, replaceFrom_gap hne hid hkind, ih h.tail (.inl hfront)]

/-- A text has its identifiers replaced, each of them if it is the name as a whole, and nothing
else: whatever runs the text is cut into, which can be done, those that are the name are
replaced. -/
theorem replaceIdentifier_runs (text name replacement : String) (hne : name ≠ "")
    (hid : ∀ c ∈ name.toList, isIdentifierChar c = true) :
    (∃ runs, Runs text.toList runs) ∧ ∀ runs, Runs text.toList runs →
      replaceIdentifier text name replacement =
        String.ofList (runs.flatMap fun run => if run = name.toList then replacement.toList
          else run) := by
  refine ⟨exists_runs _, fun runs h => ?_⟩
  have hempty : name.isEmpty = false := by
    rw [← Bool.not_eq_true, String.isEmpty_iff]
    exact hne
  have hlist : name.toList ≠ [] := by simpa using hne
  rw [replaceIdentifier, hempty, if_neg Bool.false_ne_true, replaceFrom_runs hlist hid h (.inl rfl)]

/-- A name that overlaps itself, beside longer identifiers in which it is found twice or that end
with it. -/
theorem replaceIdentifier_runs_overlapping :
    Runs "aaaa[aa]=éaa+aa".toList
        ["aaaa".toList, "[".toList, "aa".toList, "]=".toList, "éaa".toList, "+".toList,
          "aa".toList] ∧
      replaceIdentifier "aaaa[aa]=éaa+aa" "aa" "aa_1" = "aaaa[aa_1]=éaa+aa_1" := by
  have hruns : Runs "aaaa[aa]=éaa+aa".toList
      ["aaaa".toList, "[".toList, "aa".toList, "]=".toList, "éaa".toList, "+".toList,
        "aa".toList] := by decide +kernel
  have hid : ∀ c ∈ "aa".toList, isIdentifierChar c = true := List.all_eq_true.1 (by decide +kernel)
  refine ⟨hruns, ?_⟩
  rw [(replaceIdentifier_runs "aaaa[aa]=éaa+aa" "aa" "aa_1" (by decide) hid).2 _ hruns]
  decide

end ArrayFlow.Text
