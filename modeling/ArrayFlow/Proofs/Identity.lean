import ArrayFlow.DefUse.Graph
import ArrayFlow.Proofs.Merges
import Mathlib.Logic.Relation

/-!
# Being one version

Two versions are one when they were made at one place. The comparison goes down into merges, and
everything that is looked up by version rests on it: the definition of a use, the node that a rename
hands over, and what a merge has to join.

* `Version.Marks`           : one mark is set inside a version, at any depth;
* `Version.stem_of_marked`  : marks are no part of the stem, however many are set;
* `Version.signature_of_sameOrigin` : one version has one signature;
* `Graph.originated`        : the nodes of an array with a role that carry a version, whatever key
  they are under;
* `Graph.find?_carries`     : under the key of the version all of them are found, and under other
  keys none;
* `sameOrigin_identity`     : being one version is an equivalence that does not look at marks and
  respects keys.
-/

namespace ArrayFlow

open Relation (ReflTransGen)

namespace Version

variable {v v' w w' : Version}

/-! ## marks at any depth -/

/-- The second version is the first one with the mark of one single version inside of it set. -/
inductive Marks : Version → Version → Prop where
  | here (number : Nat) (block : BlockId) (stmt : StmtId) (line : Nat) (written read : Bool) :
      Marks (single number block stmt line written read)
        (single number block stmt line written true)
  | inside (number : Nat) (before after : List Version) (block : BlockId) (line : Nat)
      {v v' : Version} (input : Marks v v') :
      Marks (phi number (before ++ v :: after) block line)
      (phi number (before ++ v' :: after) block line)

/-- Reading a version sets its own mark, or none if it is a merge. -/
theorem marks_markRead (v : Version) : ReflTransGen Marks v v.markRead := by
  cases v with
  | single n b s l wr rd => exact .single (.here n b s l wr rd)
  | phi n vs b l => exact .refl

theorem Marks.stem_eq (h : Marks v v') : v'.stem = v.stem := by
  induction h with
  | here => rfl
  | inside n before after b l _ ih => simp only [stem, stems_eq_map, List.map_append,
      List.map_cons, ih]

theorem stem_of_marked (h : ReflTransGen Marks v v') : v'.stem = v.stem := by
  induction h with
  | refl => rfl
  | tail _ hlast ih => rw [hlast.stem_eq, ih]

/-! ## what one version shares -/

theorem sameOrigin_equivalence : Equivalence fun v w : Version => v.sameOrigin w = true := by
  simp only [sameOrigin_iff]
  exact ⟨fun _ => rfl, Eq.symm, Eq.trans⟩

theorem sameOrigin_of_marked (hv : ReflTransGen Marks v v') (hw : ReflTransGen Marks w w') :
    v'.sameOrigin w' = v.sameOrigin w := by
  rw [Bool.eq_iff_iff, sameOrigin_iff, sameOrigin_iff, stem_of_marked hv, stem_of_marked hw]

theorem number_of_sameOrigin (h : v.sameOrigin w = true) : v.number = w.number := by
  rw [← number_stem, (sameOrigin_iff v w).1 h, number_stem]

theorem signature_of_sameOrigin (h : v.sameOrigin w = true) : v.signature = w.signature := by
  rw [← signature_stem, (sameOrigin_iff v w).1 h, signature_stem]

end Version

/-! ## looking up by version -/

namespace DefUse

/-- Nodes of one array with one role that carry one version are under one key. -/
theorem Node.key_of_sameOrigin {m n : Node} (hbase : m.base = n.base) (hrole : m.role = n.role)
    (hsame : m.version.sameOrigin n.version = true) : m.key = n.key := by
  rw [key, key, hbase, hrole, Version.signature_of_sameOrigin hsame]

namespace Graph

/-- Does the node at a position have the role for the array at the version? Its key does not
count. -/
def originated (g : Graph) (base : String) (role : Role) (v : Version) (i : Nat) : Bool :=
  g.nodes[i]?.any fun n => n.base == base && n.role == role && n.version.sameOrigin v

/-- A node under a key carries a version if its array and role are those of the key and its version
is the one, unless the signature of the key is another one. -/
theorem hasKey_and_carries_iff (g : Graph) (k : Key) (v : Version) (i : Nat) :
    g.hasKey k i = true ∧ g.carries v i = true ↔
      k.signature = v.signature ∧ g.originated k.base k.role v i = true := by
  obtain ⟨base, signature, role⟩ := k
  rw [hasKey, carries, originated]
  cases g.nodes[i]? with
  | none => simp
  | some n =>
    simp only [Option.any_some, Node.key, Bool.and_eq_true, beq_iff_eq, Key.mk.injEq]
    constructor
    · rintro ⟨⟨hbase, rfl, hrole⟩, hsame⟩
      exact ⟨Version.signature_of_sameOrigin hsame, ⟨hbase, hrole⟩, hsame⟩
    · rintro ⟨rfl, ⟨hbase, hrole⟩, hsame⟩
      exact ⟨⟨hbase, Version.signature_of_sameOrigin hsame, hrole⟩, hsame⟩

/-- Under the key of a version the newest node is found that carries it, of all nodes of the array
with the role; under other keys none is found. -/
theorem find?_carries (g : Graph) (k : Key) (v : Version) :
    (g.slot k).reverse.find? (g.carries v) =
      if k.signature = v.signature then g.order.reverse.find? (g.originated k.base k.role v)
        else none := by
  rw [slot, ← List.filter_reverse, List.find?_filter]
  simp only [hasKey_and_carries_iff]
  split
  · rename_i h
    simp [h]
  · rename_i h
    simp [h]

theorem resolve_signature (g : Graph) (base : String) (role : Role) (v : Version) :
    g.resolve ⟨base, v.signature, role⟩ v =
      (g.order.reverse.find? (g.originated base role v)).or
      (g.slot ⟨base, v.signature, role⟩).getLast? := by
  rw [resolve, find?_carries, if_pos rfl]
  cases g.order.reverse.find? (g.originated base role v) <;> rfl

theorem resolve_of_ne_signature (g : Graph) {k : Key} {v : Version}
    (h : k.signature ≠ v.signature) :
    g.resolve k v = (g.slot k).getLast? := by
  rw [resolve, find?_carries, if_neg h]

end Graph

end DefUse

open DefUse

/-- Being one version is an equivalence. It does not change when marks are set inside of either
version, as they are when a version is read. One version has one number and one signature, so that
nodes of an array with one role that carry it are under one key: a lookup by the key of the version
finds the newest of them all, and a lookup by another key none. A merge is trivial exactly if all
its inputs are one version. -/
theorem sameOrigin_identity :
    (Equivalence fun v w : Version => v.sameOrigin w = true) ∧
      (∀ v v' w w' : Version, ReflTransGen Version.Marks v v' → ReflTransGen Version.Marks w w' →
        v'.sameOrigin w' = v.sameOrigin w) ∧
      (∀ v : Version, ReflTransGen Version.Marks v v.markRead) ∧
      (∀ v w : Version, v.sameOrigin w = true → v.number = w.number ∧ v.signature = w.signature) ∧
      (∀ m n : Node, m.base = n.base → m.role = n.role → m.version.sameOrigin n.version = true →
        m.key = n.key) ∧
      (∀ (g : Graph) (base : String) (role : Role) (v : Version),
        g.resolve ⟨base, v.signature, role⟩ v =
          (g.order.reverse.find? (g.originated base role v)).or
          (g.slot ⟨base, v.signature, role⟩).getLast?) ∧
      (∀ (g : Graph) (k : Key) (v : Version), k.signature ≠ v.signature →
        g.resolve k v = (g.slot k).getLast?) ∧
      ∀ inputs : List Version,
        Version.trivialMerge inputs = true ↔ ∀ v ∈ inputs, ∀ w ∈ inputs, v.sameOrigin w = true :=
  ⟨Version.sameOrigin_equivalence, fun _ _ _ _ => Version.sameOrigin_of_marked,
    Version.marks_markRead,
    fun _ _ h => ⟨Version.number_of_sameOrigin h, Version.signature_of_sameOrigin h⟩,
    fun _ _ => Node.key_of_sameOrigin, Graph.resolve_signature,
    fun g _ _ => g.resolve_of_ne_signature, fun _ => Version.trivialMerge_iff⟩

/-- Two branches write `a` at one number, in blocks 1 and 2. -/
def branchWrite (block : Nat) (read : Bool) : Version := .single 1 ⟨block⟩ ⟨block⟩ 0 true read

/-- The writes are merged twice, and the second one may have been read inside of the inner merge. -/
def mergedTwice (read : Bool) : Version :=
  .phi 3 [.phi 2 [branchWrite 1 false, branchWrite 2 read] ⟨3⟩ 0, branchWrite 1 false] ⟨4⟩ 0

def branchNode (block : Nat) : Node :=
  .ofStatement .defines ⟨⟨block⟩, 0, "a[i] = x", .write ⟨"a", .expr "i"⟩⟩ "a"
    (branchWrite block false) (.expr "i") ⟨block⟩

/-- The definitions of both branches are under one key. -/
def branchDefinitions : Graph := ((Graph.empty true).push (branchNode 1)).push (branchNode 2)

/-- A mark inside of an inner merge makes another version, which counts as the same. The write of
the first branch is found, read or not, though the second one is newer under its key, and is not
found under the key of a merge. -/
theorem sameOrigin_identity_branches :
    Version.Marks (mergedTwice false) (mergedTwice true) ∧ mergedTwice true ≠ mergedTwice false ∧
      (mergedTwice true).sameOrigin (mergedTwice false) = true ∧
      (mergedTwice true).signature = (mergedTwice false).signature ∧
      (branchNode 1).key = { branchNode 1 with version := branchWrite 1 true }.key ∧
      (branchWrite 1 false).markRead.sameOrigin (branchWrite 1 false) = true ∧
      branchDefinitions.resolve ⟨"a", .single 1, .defines⟩ (branchWrite 1 true) = some 0 ∧
      (branchDefinitions.slot ⟨"a", .single 1, .defines⟩).getLast? = some 1 ∧
      branchDefinitions.resolve ⟨"a", .phi [1], .defines⟩ (branchWrite 1 true) = none ∧
      Version.trivialMerge [mergedTwice false, mergedTwice true] = true ∧
      Version.trivialMerge [branchWrite 1 false, branchWrite 2 false] = false := by
  obtain ⟨hequivalence, hmarks, hread, hshared, hkey, hlookup, hother, htrivial⟩ :=
    sameOrigin_identity
  have hinner : Version.Marks (mergedTwice false) (mergedTwice true) :=
    .inside 3 [] _ ⟨4⟩ 0 (.inside 2 [_] [] ⟨3⟩ 0 (.here 1 ⟨2⟩ ⟨2⟩ 0 true false))
  have hsame : (mergedTwice true).sameOrigin (mergedTwice false) = true :=
    (hmarks _ _ _ _ (.single hinner) .refl).trans (hequivalence.refl _)
  refine ⟨hinner, by decide, hsame, (hshared _ _ hsame).2, ?_, ?_, ?_, by decide, ?_, ?_, ?_⟩
  · exact hkey _ _ rfl rfl (by decide)
  · exact (hmarks _ _ _ _ (hread _) .refl).trans (hequivalence.refl _)
  · exact (hlookup branchDefinitions "a" .defines (branchWrite 1 true)).trans (by decide)
  · exact (hother branchDefinitions ⟨"a", .phi [1],
      .defines⟩ (branchWrite 1 true) (by decide)).trans (by decide)
  · refine (htrivial _).2 ?_
    simp only [List.forall_mem_cons, List.not_mem_nil, false_imp_iff, implies_true, and_true]
    exact ⟨⟨hequivalence.refl _, hequivalence.symm hsame⟩, hsame, hequivalence.refl _⟩
  · rw [← Bool.not_eq_true, htrivial]
    intro h
    have hcollision := h (branchWrite 1 false) (by simp) (branchWrite 2 false) (by simp)
    revert hcollision
    decide

end ArrayFlow
