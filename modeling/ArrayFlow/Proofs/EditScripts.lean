import ArrayFlow.Settings.Basic
import Mathlib.Order.Bounds.Basic

/-!
# Edits between two words

An edit inserts, deletes or replaces one character anywhere in a word. The rows of the edit distance
compare prefixes with prefixes, so the distance is found again by recursion on the words read
backwards; edits do not mind in which direction a word is read.

* `Edit`, `Edits`      : one edit, and a number of edits one after another;
* `distance`           : the recursion behind the rows, on the first characters of both words;
* `Edits.distance_le`  : no number of edits below the distance is enough, since one edit changes a
  distance by one at most;
* `edits_distance`     : the distance itself is enough;
* `tableRow`           : the row of a prefix, and `fillRow_tableRow`: the step from a row to the
  next one;
* `editDistance_eq`    : the last entry of the last row is the distance of the reversed words;
* `exists_closest`     : the first of the candidates at the least distance;
* `suggestion_closest` : what is suggested for an unknown field.
-/

namespace ArrayFlow.Text

/-! ## edits -/

/-- A single character is inserted, deleted or replaced. -/
inductive Edit : List Char → List Char → Prop where
  | insert (u v : List Char) (c : Char) : Edit (u ++ v) (u ++ c :: v)
  | delete (u v : List Char) (c : Char) : Edit (u ++ c :: v) (u ++ v)
  | replace (u v : List Char) (c d : Char) : Edit (u ++ c :: v) (u ++ d :: v)

/-- A word is turned into another by so many edits. -/
inductive Edits : Nat → List Char → List Char → Prop where
  | refl (s : List Char) : Edits 0 s s
  | step {n : Nat} {s t u : List Char} (first : Edit s t) (rest : Edits n t u) : Edits (n + 1) s u

variable {n : Nat} {s t : List Char}

theorem Edit.cons (c : Char) (h : Edit s t) : Edit (c :: s) (c :: t) := by
  cases h with
  | insert u v d => exact .insert (c :: u) v d
  | delete u v d => exact .delete (c :: u) v d
  | replace u v d e => exact .replace (c :: u) v d e

theorem Edit.reverse (h : Edit s t) : Edit s.reverse t.reverse := by
  cases h with
  | insert u v c => simpa using Edit.insert v.reverse u.reverse c
  | delete u v c => simpa using Edit.delete v.reverse u.reverse c
  | replace u v c d => simpa using Edit.replace v.reverse u.reverse c d

theorem Edits.cons (c : Char) (h : Edits n s t) : Edits n (c :: s) (c :: t) := by
  induction h with
  | refl s => exact .refl _
  | step first _ ih => exact .step (first.cons c) ih

theorem Edits.reverse (h : Edits n s t) : Edits n s.reverse t.reverse := by
  induction h with
  | refl s => exact .refl _
  | step first _ ih => exact .step first.reverse ih

theorem Edits.min {m : Nat} (h : Edits m s t) (h' : Edits n s t) : Edits (Nat.min m n) s t := by
  rcases Nat.le_total m n with hle | hle
  · rwa [show Nat.min m n = m from Nat.min_eq_left hle]
  · rwa [show Nat.min m n = n from Nat.min_eq_right hle]

theorem edits_reverse_iff : Edits n s.reverse t.reverse ↔ Edits n s t :=
  ⟨fun h => by simpa using h.reverse, Edits.reverse⟩

/-! ## the recursion behind the rows -/

/-- The distance of two words by their first characters: one of them is left out, or both are
matched. -/
def distance : List Char → List Char → Nat
  | [], t => t.length
  | c :: s, [] => (c :: s).length
  | c :: s, d :: t =>
    Nat.min (Nat.min (distance s (d :: t) + 1) (distance (c :: s) t + 1))
      (distance s t + if c = d then 0 else 1)
termination_by s t => s.length + t.length

@[simp] theorem distance_nil_left (t : List Char) : distance [] t = t.length := by rw [distance]

@[simp] theorem distance_nil_right (s : List Char) :
    distance s [] = s.length := by cases s <;> simp [distance]

theorem distance_cons_cons (c d : Char) (s t : List Char) :
    distance (c :: s) (d :: t) =
      min (min (distance s (d :: t) + 1) (distance (c :: s) t + 1))
        (distance s t + if c = d then 0 else 1) := by
  rw [distance]

theorem distance_cons_left_le (c : Char) (s t : List Char) :
    distance (c :: s) t ≤ distance s t + 1 := by
  cases t with
  | nil => simp
  | cons d t =>
    rw [distance_cons_cons]
    omega

theorem distance_cons_right_le (d : Char) (s t : List Char) :
    distance s (d :: t) ≤ distance s t + 1 := by
  cases s with
  | nil => simp
  | cons c s =>
    rw [distance_cons_cons]
    omega

/-- A character more in front of a word brings it closer to another by one at most. -/
theorem distance_le_cons_left (c : Char) (s t : List Char) :
    distance s t ≤ distance (c :: s) t + 1 := by
  induction t with
  | nil =>
    simp only [distance_nil_right, List.length_cons]
    omega
  | cons d t ih =>
    have hright := distance_cons_right_le d s t
    rw [distance_cons_cons]
    omega

theorem distance_cons_le_cons (c d : Char) (s t : List Char) :
    distance (c :: s) t ≤ distance (d :: s) t + 1 := by
  induction t with
  | nil => simp
  | cons e t ih =>
    have hcost : (if c = e then 0 else 1) ≤ 1 := by split <;> simp
    rw [distance_cons_cons, distance_cons_cons]
    omega

/-- Whatever stands in front of two words, one of them is not much further away from a word than the
other. -/
theorem distance_append_le (u : List Char) (h : ∀ w, distance s w ≤ distance t w + 1)
    (w : List Char) :
    distance (u ++ s) w ≤ distance (u ++ t) w + 1 := by
  induction u generalizing w with
  | nil => exact h w
  | cons c u ih =>
    -- both words begin with `c`, so it is matched with the same character of `w`, or left out, in
    -- both
    induction w with
    | nil => simpa using ih []
    | cons d w ihw =>
      have hskip := ih (d :: w)
      have hmatch := ih w
      simp only [List.cons_append] at ihw ⊢
      rw [distance_cons_cons, distance_cons_cons]
      omega

/-- One edit changes the distance from a word by one at most. -/
theorem Edit.distance_le (h : Edit s t) (w : List Char) : distance s w ≤ distance t w + 1 := by
  cases h with
  | insert u v c => exact distance_append_le u (distance_le_cons_left c v) w
  | delete u v c => exact distance_append_le u (distance_cons_left_le c v) w
  | replace u v c d => exact distance_append_le u (distance_cons_le_cons c d v) w

theorem distance_self (s : List Char) : distance s s = 0 := by
  induction s with
  | nil => simp
  | cons c s ih =>
    rw [distance_cons_cons, ih, if_pos rfl]
    simp

/-! ## the distance is the least number of edits -/

/-- Fewer edits than the distance are not enough. -/
theorem Edits.distance_le (h : Edits n s t) : distance s t ≤ n := by
  induction h with
  | refl s => exact (distance_self s).le
  | step first _ ih => exact (first.distance_le _).trans (Nat.add_le_add_right ih 1)

theorem edits_nil_left (t : List Char) : Edits t.length [] t := by
  induction t with
  | nil => exact .refl []
  | cons d t ih => exact .step (.insert [] [] d) (ih.cons d)

theorem edits_nil_right (s : List Char) : Edits s.length s [] := by
  induction s with
  | nil => exact .refl []
  | cons c s ih => exact .step (.delete [] s c) ih

/-- As many edits as the distance are enough. -/
theorem edits_distance (s t : List Char) : Edits (distance s t) s t := by
  fun_induction distance s t with
  | case1 t => exact edits_nil_left t
  | case2 c s => exact edits_nil_right (c :: s)
  | case3 c s d t hdelete hinsert hmatch =>
    have hdeleted : Edits (distance s (d :: t) + 1) (c :: s) (d :: t) :=
      .step (.delete [] s c) hdelete
    have hinserted : Edits (distance (c :: s) t + 1) (c :: s) (d :: t) :=
      .step (.insert [] (c :: s) d) (hinsert.cons d)
    have hmatched : Edits (distance s t + if c = d then 0 else 1) (c :: s) (d :: t) := by
      split
      · rename_i heq
        rw [← heq]
        exact hmatch.cons c
      · exact .step (.replace [] s c d) (hmatch.cons d)
    exact (hdeleted.min hinserted).min hmatched

theorem isLeast_distance (s t : List Char) : IsLeast {n | Edits n s t} (distance s t) :=
  ⟨edits_distance s t, fun _ h => h.distance_le⟩

/-! ## rows -/

namespace EditDistance

/-- The distances of a word from another one, and from this one with the characters of a target put
in front of it, one after the other. Both words are read backwards. -/
def tableRow (source before : List Char) : List Char → List Nat
  | [] => [distance source before]
  | d :: target => distance source before :: tableRow source (d :: before) target

theorem tableRow_eq_cons (source before target : List Char) :
    ∃ row, tableRow source before target = distance source before :: row := by
  cases target with
  | nil => exact ⟨[], rfl⟩
  | cons d target => exact ⟨_, rfl⟩

theorem tableRow_nil (before target : List Char) :
    tableRow [] before target = List.range' before.length (target.length + 1) := by
  induction target generalizing before with
  | nil => simp [tableRow]
  | cons d target ih => rw [tableRow, distance_nil_left, List.length_cons, List.range'_succ, ih,
      List.length_cons]

/-- The entries of a row are found from the entry before them and the row above. -/
theorem fillRow_tableRow (c : Char) (source before target : List Char) :
    distance (c :: source) before :: fillRow c (distance (c :: source) before) target
      (tableRow source before target) =
      tableRow (c :: source) before target := by
  induction target generalizing before with
  | nil => rfl
  | cons d target ih =>
    obtain ⟨row, hrow⟩ := tableRow_eq_cons source (d :: before) target
    rw [tableRow, tableRow, ← ih, hrow, fillRow, ← distance]

theorem nextRow_tableRow (c : Char) (source target : List Char) :
    nextRow target (tableRow source [] target) c = tableRow (c :: source) [] target := by
  obtain ⟨row, hrow⟩ := tableRow_eq_cons source [] target
  have hfirst : (tableRow source [] target).headD 0 + 1 = distance (c :: source) [] := by
    simp [hrow]
  rw [nextRow, hfirst, fillRow_tableRow]

theorem foldl_nextRow (source target word : List Char) :
    word.foldl (nextRow target) (tableRow source [] target) =
      tableRow (word.reverse ++ source) [] target := by
  induction word generalizing source with
  | nil => rfl
  | cons c word ih => rw [List.foldl_cons, nextRow_tableRow, ih, List.reverse_cons,
      List.append_assoc, List.singleton_append]

theorem getLastD_tableRow (source before target : List Char) (a : Nat) :
    (tableRow source before target).getLastD a = distance source (target.reverse ++ before) := by
  induction target generalizing before a with
  | nil => rfl
  | cons d target ih => rw [tableRow, List.getLastD_cons, ih, List.reverse_cons, List.append_assoc,
      List.singleton_append]

end EditDistance

theorem editDistance_eq (source target : String) :
    editDistance source target = distance source.toList.reverse target.toList.reverse := by
  have hfirst : EditDistance.firstRow target.toList =
      EditDistance.tableRow [] [] target.toList := by
    rw [EditDistance.firstRow, EditDistance.tableRow_nil, List.range_eq_range', List.length_nil]
  rw [editDistance, hfirst, EditDistance.foldl_nextRow, EditDistance.getLastD_tableRow,
    List.append_nil, List.append_nil]

/-- The edit distance is the least number of edits that turn one word into the other. -/
theorem isLeast_editDistance (source target : String) :
    IsLeast {n | Edits n source.toList target.toList} (editDistance source target) := by
  have hleast := isLeast_distance source.toList.reverse target.toList.reverse
  simp only [edits_reverse_iff] at hleast
  rwa [editDistance_eq]

/-! ## the closest candidate -/

/-- The candidate is the first at the least distance from the word: those before it are further
away, and those after it are not closer. -/
def FirstClosest (word : String) (candidates : List String) (best : String) : Prop :=
  ∃ before after, candidates = before ++ best :: after ∧
    (∀ other ∈ before, editDistance word best < editDistance word other) ∧
    ∀ other ∈ after, editDistance word best ≤ editDistance word other

theorem FirstClosest.le {word best : String} {candidates : List String}
    (h : FirstClosest word candidates best) :
    ∀ other ∈ candidates, editDistance word best ≤ editDistance word other := by
  obtain ⟨before, after, rfl, hbefore, hafter⟩ := h
  intro other hother
  rcases List.mem_append.1 hother with hin | hin
  · exact (hbefore other hin).le
  · rcases List.mem_cons.1 hin with rfl | hin
    · exact Nat.le_refl _
    · exact hafter other hin

theorem FirstClosest.cons {word best c d : String} {rest : List String}
    (h : FirstClosest word (d :: rest) best) (hlt : editDistance word d < editDistance word c) :
    FirstClosest word (c :: d :: rest) best := by
  have hbest := h.le d (List.mem_cons_self ..)
  obtain ⟨before, after, heq, hbefore, hafter⟩ := h
  refine ⟨c :: before, after, by rw [heq, List.cons_append], ?_, hafter⟩
  exact List.forall_mem_cons.2 ⟨by omega, hbefore⟩

theorem FirstClosest.insert {word best c d : String} {rest : List String}
    (h : FirstClosest word (c :: rest) best) (hle : editDistance word c ≤ editDistance word d) :
    FirstClosest word (c :: d :: rest) best := by
  obtain ⟨before, after, heq, hbefore, hafter⟩ := h
  cases before with
  | nil =>
    obtain ⟨rfl, rfl⟩ := List.cons.inj heq
    exact ⟨[], d :: rest, rfl, by simp, List.forall_mem_cons.2 ⟨hle, hafter⟩⟩
  | cons c' before =>
    obtain ⟨rfl, rfl⟩ := List.cons.inj heq
    obtain ⟨hc, hbefore⟩ := List.forall_mem_cons.1 hbefore
    refine ⟨c :: d :: before, after, rfl, ?_, hafter⟩
    exact List.forall_mem_cons.2 ⟨hc, List.forall_mem_cons.2 ⟨by omega, hbefore⟩⟩

theorem exists_closest (word : String) {candidates : List String} (h : candidates ≠ []) :
    ∃ best, closest? word candidates = some best ∧ FirstClosest word candidates best := by
  obtain ⟨c, rest, rfl⟩ := List.exists_cons_of_ne_nil h
  refine ⟨_, rfl, ?_⟩
  clear h
  induction rest generalizing c with
  | nil => exact ⟨[], [], rfl, by simp, by simp⟩
  | cons d rest ih =>
    rw [List.foldl_cons]
    split
    · rename_i hlt
      exact (ih d).cons hlt
    · rename_i hle
      exact (ih c).insert (Nat.le_of_not_lt hle)

end ArrayFlow.Text

namespace ArrayFlow.SettingsFault

open Text

/-- The distance by which fields are compared is the least number of edits. For an unknown field,
the first of the valid ones at the least distance from it is suggested, and the message ends with
the suggestion. -/
theorem suggestion_closest :
    (∀ source target : String,
      IsLeast {n | Edits n source.toList target.toList} (editDistance source target)) ∧
      ∀ (field place : String) (valid : List String), valid ≠ [] →
        ∃ best, FirstClosest field valid best ∧ suggestion field valid = "Did you mean '" ++
          best ++ "'?" ∧
          (unknownField field place valid).message? =
            some ("Unknown field '" ++ field ++ "' in section '" ++ place ++ "'. " ++
              ("Did you mean '" ++ best ++ "'?")) := by
  refine ⟨isLeast_editDistance, fun field place valid hne => ?_⟩
  obtain ⟨best, hbest, hfirst⟩ := exists_closest field hne
  have hsuggestion : suggestion field valid = "Did you mean '" ++ best ++
    "'?" := by rw [suggestion, hbest]
  exact ⟨best, hfirst, hsuggestion, by rw [message?, hsuggestion]⟩

/-- Two candidates are one edit away from a word, and the first of them is suggested. -/
theorem suggestion_closest_tie :
    IsLeast {n | Edits n "kitten".toList "sitting".toList} 3 ∧
      ["version", "verse", "verb"] ≠ [] ∧ FirstClosest "vers" ["version", "verse", "verb"] "verse" ∧
      (unknownField "vers" "root" ["version", "verse", "verb"]).message? =
        some "Unknown field 'vers' in section 'root'. Did you mean 'verse'?" := by
  have hkitten : editDistance "kitten" "sitting" = 3 := by decide +kernel
  have hsuggested : suggestion "vers" ["version", "verse", "verb"] = "Did you mean '" ++
      "verse" ++ "'?" := by
    decide +kernel
  have hne : ["version", "verse", "verb"] ≠ [] := by simp
  obtain ⟨best, hfirst, hbest, hmessage⟩ :=
    suggestion_closest.2 "vers" "root" ["version", "verse", "verb"] hne
  have heq : best = "verse" :=
    (String.append_right_inj _).1 ((String.append_left_inj _).1 (hbest.symm.trans hsuggested))
  exact ⟨hkitten ▸ suggestion_closest.1 "kitten" "sitting", hne,
    heq ▸ hfirst, by rw [hmessage, heq]; rfl⟩

end ArrayFlow.SettingsFault
