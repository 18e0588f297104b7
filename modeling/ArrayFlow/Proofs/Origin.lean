import ArrayFlow.Version

/-!
# One version or another

Versions are told apart by number and place, and not by their marks.

* `Version.stem`           : a version without its line and its marks, at all depths;
* `Version.sameOrigin_iff` : two versions are one when their stems are equal, so being one is an
  equivalence;
* `Version.leaves`         : the statements that made the single versions inside a version.

Number, signature and leaves can be read off the stem.
-/

namespace ArrayFlow.Version

/-! ## stems -/

mutual

/-- A version without its line and its marks. -/
def stem : Version → Version
  | single n b s _ _ _ => single n b s 0 false false
  | phi n vs b _ => phi n (stems vs) b 0

def stems : List Version → List Version
  | [] => []
  | v :: vs => stem v :: stems vs

end

theorem stems_eq_map (vs : List Version) : stems vs = vs.map stem := by
  induction vs with
  | nil => rfl
  | cons v vs ih => simp [stems, ih]

mutual

/-- Two versions are one when their stems are equal. -/
theorem sameOrigin_iff : ∀ v w : Version, v.sameOrigin w = true ↔ v.stem = w.stem
  | single n b s _ _ _, single n' b' s' _ _ _ => by simp [sameOrigin, stem, and_assoc]
  | phi n vs b _, phi n' ws b' _ => by
    simp only [sameOrigin, stem, Bool.and_eq_true, beq_iff_eq, sameOrigins_iff vs ws,
      phi.injEq, and_true]
    exact ⟨fun ⟨⟨hn, hb⟩, hv⟩ => ⟨hn, hv, hb⟩, fun ⟨hn, hv, hb⟩ => ⟨⟨hn, hb⟩, hv⟩⟩
  | single .., phi .. => by simp [sameOrigin, stem]
  | phi .., single .. => by simp [sameOrigin, stem]

theorem sameOrigins_iff : ∀ vs ws : List Version, sameOrigins vs ws = true ↔ stems vs = stems ws
  | [], [] => by simp [sameOrigins]
  | v :: vs, w :: ws => by
    simp only [sameOrigins, stems, Bool.and_eq_true, sameOrigin_iff v w, sameOrigins_iff vs ws,
      List.cons.injEq]
  | [], _ :: _ => by simp [sameOrigins, stems]
  | _ :: _, [] => by simp [sameOrigins, stems]

end

@[simp] theorem sameOrigin_refl (v : Version) : v.sameOrigin v = true := (sameOrigin_iff v v).2 rfl

@[simp] theorem stem_markRead (v : Version) :
    v.markRead.stem = v.stem := by cases v <;> simp [markRead, stem]

/-! ## what the stem knows -/

theorem number_stem (v : Version) : v.stem.number = v.number := by cases v <;> simp [stem, number]

theorem block_stem (v : Version) : v.stem.block = v.block := by cases v <;> simp [stem, block]

theorem stmt?_stem (v : Version) : v.stem.stmt? = v.stmt? := by cases v <;> simp [stem, stmt?]

theorem stmt?_of_sameOrigin {v w : Version} (h : v.sameOrigin w = true) : v.stmt? = w.stmt? := by
  rw [← stmt?_stem, (sameOrigin_iff v w).1 h, stmt?_stem]

theorem signature_stem (v : Version) : v.stem.signature = v.signature := by
  cases v with
  | single => simp [stem, signature]
  | phi n vs b l =>
    simp only [stem, signature, stems_eq_map, List.map_map, Signature.phi.injEq]
    exact List.map_congr_left fun v _ => number_stem v

theorem signature_markRead (v : Version) : v.markRead.signature = v.signature := by
  rw [← signature_stem, stem_markRead, signature_stem]

/-! ## leaves -/

mutual

/-- The block and statement of each single version inside a version. -/
def leaves : Version → List (BlockId × StmtId)
  | single _ b s _ _ _ => [(b, s)]
  | phi _ vs _ _ => leavesAll vs

def leavesAll : List Version → List (BlockId × StmtId)
  | [] => []
  | v :: vs => leaves v ++ leavesAll vs

end

theorem leavesAll_eq (vs : List Version) : leavesAll vs = vs.flatMap leaves := by
  induction vs with
  | nil => rfl
  | cons v vs ih => simp [leavesAll, ih]

theorem leaves_phi (n : Nat) (vs : List Version) (b : BlockId) (l : Nat) :
    (phi n vs b l).leaves = vs.flatMap leaves := by rw [leaves, leavesAll_eq]

mutual

theorem leaves_stem : ∀ v : Version, v.stem.leaves = v.leaves
  | single .. => by simp [stem, leaves]
  | phi n vs b l => by simp only [stem, leaves, leavesAll_stems vs]

theorem leavesAll_stems : ∀ vs : List Version, leavesAll (stems vs) = leavesAll vs
  | [] => rfl
  | v :: vs => by simp only [stems, leavesAll, leaves_stem v, leavesAll_stems vs]

end

@[simp] theorem leaves_markRead (v : Version) : v.markRead.leaves = v.leaves := by
  rw [← leaves_stem, stem_markRead, leaves_stem]

theorem leaves_of_sameOrigin {v w : Version} (h : v.sameOrigin w = true) : v.leaves = w.leaves := by
  rw [← leaves_stem, (sameOrigin_iff v w).1 h, leaves_stem]

end ArrayFlow.Version
