import ArrayFlow.Statement

/-!
# Array versions

A version is a value: the state of one array between two of its definitions.

* `Version`            : `single`, made by one statement, or `phi`, made where control flow merges;
* `Version.next`       : the version after a write;
* `Version.phi?`       : the merge of two or more versions, numbered one past the largest;
* `Version.markRead`   : the same version, once it has been read;
* `Version.sameOrigin` : the two are one version of the array, whatever was read meanwhile;
* `Signature`          : the part of a version that keys of the def-use graph carry.
-/

namespace ArrayFlow

/-- A version of an array. -/
inductive Version where
  /-- Made by the statement `stmt` of `block`; `written` if that is a write, `read` once it was
  read. -/
  | single (number : Nat) (block : BlockId) (stmt : StmtId) (line : Nat) (written read : Bool)
  /-- Made at the start of `block` from the versions that its predecessors expose. -/
  | phi (number : Nat) (inputs : List Version) (block : BlockId) (line : Nat)
  deriving Inhabited, Repr

/-- How a version shows in a key: its number, or the numbers that it merges. -/
inductive Signature where
  | single (number : Nat)
  | phi (numbers : List Nat)
  deriving DecidableEq, Inhabited, Repr

/-! ## equality of versions -/

namespace Version

mutual

def decEq : (v w : Version) → Decidable (v = w)
  | single n b s l wr rd, single n' b' s' l' wr' rd' =>
    decidable_of_iff (n = n' ∧ b = b' ∧ s = s' ∧ l = l' ∧ wr = wr' ∧ rd = rd') (by simp)
  | phi n vs b l, phi n' ws b' l' =>
    have := decEqList vs ws
    decidable_of_iff (n = n' ∧ vs = ws ∧ b = b' ∧ l = l') (by simp)
  | single .., phi .. => isFalse (by simp)
  | phi .., single .. => isFalse (by simp)

def decEqList : (vs ws : List Version) → Decidable (vs = ws)
  | [], [] => isTrue rfl
  | v :: vs, w :: ws =>
    have := decEq v w
    have := decEqList vs ws
    decidable_of_iff (v = w ∧ vs = ws) (by simp)
  | [], _ :: _ => isFalse (by simp)
  | _ :: _, [] => isFalse (by simp)

end

instance : DecidableEq Version := decEq

/-! ## what a version is -/

def number : Version → Nat
  | single n .. => n
  | phi n .. => n

def isPhi : Version → Bool
  | single .. => false
  | phi .. => true

def block : Version → BlockId
  | single _ b .. => b
  | phi _ _ b _ => b

/-- The statement that makes the version; a merge has none. -/
def stmt? : Version → Option StmtId
  | single _ _ s .. => some s
  | phi .. => none

def line : Version → Nat
  | single _ _ _ l .. => l
  | phi _ _ _ l => l

/-- The versions that a merge joins, in predecessor order. -/
def inputs : Version → List Version
  | single .. => []
  | phi _ vs .. => vs

def isWritten : Version → Bool
  | single _ _ _ _ w _ => w
  | phi .. => false

/-- Has the version been read? Merges do not keep track. -/
def isRead : Version → Bool
  | single _ _ _ _ _ r => r
  | phi .. => false

def signature : Version → Signature
  | single n .. => .single n
  | phi _ vs .. => .phi (vs.map number)

/-! ## making versions -/

/-- The first version of an array created by a statement. -/
def created (block : BlockId) (stmt : StmtId) (line : Nat) : Version :=
  single 0 block stmt line false false

def firstWrite (block : BlockId) (stmt : StmtId) (line : Nat) : Version :=
  single 0 block stmt line true false

/-- The version after `v`, made by a write. -/
def next (v : Version) (block : BlockId) (stmt : StmtId) (line : Nat) : Version :=
  single (v.number + 1) block stmt line true false

/-- The largest number among versions, and zero for none. -/
def maxNumber (vs : List Version) : Nat := vs.foldl (fun m v => Nat.max m v.number) 0

/-- The merge of two or more versions; fewer do not merge. -/
def phi? (inputs : List Version) (block : BlockId) (line : Nat) : Option Version :=
  if inputs.length < 2 then none else some (phi (maxNumber inputs + 1) inputs block line)

/-- The version once it has been read; merges do not keep track. -/
def markRead : Version → Version
  | single n b s l w _ => single n b s l w true
  | phi n vs b l => phi n vs b l

/-! ## identity of versions -/

mutual

/-- Two versions are one when they carry one number and were made at one place: by one statement, or
in one block from inputs that are pairwise one. -/
def sameOrigin : Version → Version → Bool
  | single n b s .., single n' b' s' .. => n == n' && b == b' && s == s'
  | phi n vs b _, phi n' ws b' _ => n == n' && b == b' && sameOrigins vs ws
  | single .., phi .. => false
  | phi .., single .. => false

/-- Two lists of versions agree in length and, place by place, in origin. -/
def sameOrigins : List Version → List Version → Bool
  | [], [] => true
  | v :: vs, w :: ws => sameOrigin v w && sameOrigins vs ws
  | [], _ :: _ => false
  | _ :: _, [] => false

end

/-- A merge is trivial when all its inputs are one version. -/
def trivialMerge : List Version → Bool
  | [] => true
  | v :: vs => vs.all (sameOrigin · v)

/-! ## names in source text -/

/-- The name of an array at a version: `a` at version 3 is `a_3`. -/
def nameAt (base : String) (number : Nat) : String := base ++ "_" ++ number.repr

def name (v : Version) (base : String) : String := nameAt base v.number

/-- The text of a merge, `a_3 = phi(a_1, a);`, where version 0 shows as the bare name. -/
def phiText? (base : String) : Version → Option String
  | single .. => none
  | phi n vs .. =>
    let argument (v : Version) := if v.number = 0 then base else v.name base
    some (nameAt base n ++ " = phi(" ++ ", ".intercalate (vs.map argument) ++ ");")

end Version

/-- The numbers of a signature joined by `_`. -/
def Signature.text : Signature → String
  | single n => n.repr
  | phi ns => "_".intercalate (ns.map Nat.repr)

/-! ## order of signatures -/

namespace Signature

/-- Signatures in order: single versions by number, then merges by the list of their numbers. -/
def rank : Signature → List Nat
  | single n => [0, n]
  | phi ns => 1 :: ns

theorem rank_injective {a b : Signature} (h : a.rank = b.rank) : a = b := by
  cases a <;> cases b <;> simp_all [rank]

instance : Ord Signature := ⟨compareOn rank⟩

instance : Std.TransOrd Signature := inferInstanceAs (Std.TransCmp (compareOn rank))

instance : Std.LawfulEqOrd Signature where
  eq_of_compare h := rank_injective (eq_of_compareOn h)

end Signature

end ArrayFlow
