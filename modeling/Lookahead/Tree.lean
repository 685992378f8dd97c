import Lookahead.Json
import Lookahead.Table

/-!
# Trees of requested fields

What was requested of a field: the field alone, or fields beneath it. The fields of one level keep
the order in which they were first requested; two trees are the same whatever that order
(`Tree.same`).
-/

namespace Lookahead

/-- A requested field, without its name: alone, or with the fields requested beneath it. -/
inductive Tree where
  | leaf
  | branch (fields : List (String × Tree))

/-- The requested fields of one level, in order of first request. -/
abbrev Fields := List (String × Tree)

namespace Tree

/-- The fields beneath a requested field. -/
def fields : Tree → Fields
  | leaf => []
  | branch fs => fs

/-- The fields beneath a branch. -/
def branch? : Tree → Option Fields
  | leaf => none
  | branch fs => some fs

mutual

/-- The number of requested fields at and beneath a node. -/
def size : Tree → Nat
  | leaf => 1
  | branch fs => 1 + sizeAll fs

def sizeAll : List (String × Tree) → Nat
  | [] => 0
  | (_, t) :: fs => t.size + sizeAll fs

end

mutual

/-- Equality up to the order of the fields at each level. -/
def same : Tree → Tree → Bool
  | leaf, leaf => true
  | branch fs, branch gs => fs.length == gs.length && sameIn gs fs
  | _, _ => false

/-- Whether each of the fields is in `gs`, with the same tree beneath it. -/
def sameIn (gs : List (String × Tree)) : List (String × Tree) → Bool
  | [] => true
  | (name, t) :: fs => (gs.lookup name).any (same t) && sameIn gs fs

end

mutual

/-- A tree as a value: an object for a branch, `false` for a leaf. -/
def toJson : Tree → Json
  | leaf => .bool false
  | branch fs => .obj (members fs)

def members : List (String × Tree) → List (String × Json)
  | [] => []
  | (name, t) :: fs => (name, t.toJson) :: members fs

end

theorem lookup_members (name : String) (fs : Fields) :
    (members fs).lookup name = (fs.lookup name).map toJson := by
  induction fs with
  | nil => rfl
  | cons f fs ih =>
    rw [members, Table.lookup_cons, Table.lookup_cons, ih]
    split <;> rfl

end Tree

end Lookahead
