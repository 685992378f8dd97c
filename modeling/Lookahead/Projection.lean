import Lookahead.Segments
import Lookahead.Tree

/-!
# Projections

A projection names each requested field by its dotted path from the root. `breadthFirst` lists the
fields of a tree level by level with a queue of branches; of these the leaves are entered under
their replacements, and the branches under their own paths if they are asked for. A key that comes
up again keeps its first place.
-/

namespace Lookahead

/-- What a name is replaced by: its entry in the table, unless that is missing or does not hold. -/
def renamed (transform : Table Json) (name : String) : Json :=
  match transform.lookup name with
  | some value => if value.truthy then value else .str name
  | none => .str name

/-- A key of a projection: text, or what a replacement put in its place. -/
inductive Key where
  | text (text : String)
  | number (value : Number)
  | truth

namespace Key

/-- The key that a value is used as. Lists and objects are none. -/
def ofJson? : Json → Option Key
  | .str s => some (text s)
  | .num n => some (number n)
  | .bool true => some truth
  | _ => none

/-- The number that a key counts as: truth counts as one. -/
def number? : Key → Option Number
  | text _ => none
  | number n => some n
  | truth => some (.whole 1)

/-- Whether two keys name the same entry. -/
def same : Key → Key → Bool
  | text s, text t => s == t
  | k, l => (k.number?).any fun m => (l.number?).any m.same

end Key

/-- The keys of a projection, in order of first entry. -/
abbrev Projection := List Key

/-- The entry of a projection cannot be named by the replacement of its path. -/
structure UnusableKey where
  path : String

namespace Projection

def insert (keys : Projection) (key : Key) : Projection :=
  if keys.any key.same then keys else keys ++ [key]

end Projection

namespace Fields

/-- The fields of one level with their paths. -/
def children (parent : String) (fields : Fields) : List (String × Tree) :=
  fields.map fun (name, child) => (dotted parent name, child)

/-- The branches among fields. -/
def branches (fields : List (String × Tree)) : List (String × Fields) :=
  fields.filterMap fun (path, child) => child.branch?.map (path, ·)

/-- The number of branches in a queue and of fields beneath them. -/
def queued : List (String × Fields) → Nat
  | [] => 0
  | (_, fields) :: queue => 1 + Tree.sizeAll fields + queued queue

theorem queued_append (q q' : List (String × Fields)) :
    queued (q ++ q') = queued q + queued q' := by
  induction q with
  | nil => simp [queued]
  | cons b q ih => simp [queued, ih, Nat.add_assoc]

theorem queued_branches_children (parent : String) (fields : Fields) :
    queued (branches (children parent fields)) ≤ Tree.sizeAll fields := by
  induction fields with
  | nil => simp [children, branches, queued]
  | cons f fs ih =>
    obtain ⟨name, t⟩ := f
    cases t with
    | leaf => simp_all [children, branches, Tree.branch?, Tree.sizeAll]; omega
    | branch inner => simp_all [children, branches, queued, Tree.branch?, Tree.sizeAll, Tree.size]

/-- All fields beneath the queued branches with their paths, a branch's own children before those
of the branches behind it and of the branches beneath it. -/
def breadthFirst : List (String × Fields) → List (String × Tree)
  | [] => []
  | (parent, fields) :: queue =>
    let found := children parent fields
    found ++ breadthFirst (queue ++ branches found)
termination_by queue => queued queue
decreasing_by
  have := queued_branches_children parent fields
  rw [queued_append, queued]
  omega

/-- Enters a field of a tree in a projection. -/
def enter (transform : Table Json) (keepParentField : Bool) (keys : Projection) :
    String × Tree → Except UnusableKey Projection
  | (path, .branch _) => .ok (if keepParentField then keys.insert (.text path) else keys)
  | (path, .leaf) =>
    match Key.ofJson? (renamed transform path) with
    | some key => .ok (keys.insert key)
    | none => .error ⟨path⟩

/-- The projection of a tree. -/
def projection (fields : Fields) (transform : Table Json) (keepParentField : Bool) :
    Except UnusableKey Projection :=
  (breadthFirst [("", fields)]).foldlM (enter transform keepParentField) []

end Fields

end Lookahead
