import Lookahead.Log
import Lookahead.Segments
import Lookahead.Tree

/-!
# The fields at a path

`Fields.beneath` follows a dotted path down a tree of requested fields. Where the path leaves the
tree or meets a leaf there are no fields, which is reported with the whole path.
-/

namespace Lookahead.Fields

/-- The fields beneath the fields `path`, one inside the other, if all of them are branches. -/
def descend? (fields : Fields) : List String → Option Fields
  | [] => some fields
  | name :: path => ((fields.lookup name).bind Tree.branch?).bind (descend? · path)

/-- The fields beneath a dotted path. The empty path leads nowhere but to the fields themselves. -/
def beneath (fields : Fields) (path : String) : Logged Fields :=
  if path.isEmpty then ⟨fields, []⟩
  else match descend? fields (segments path) with
    | some found => ⟨found, []⟩
    | none => ⟨[], [.branchNotFound path]⟩

theorem descend?_append (fields : Fields) (p q : List String) :
    descend? fields (p ++ q) = (descend? fields p).bind (descend? · q) := by
  induction p generalizing fields with
  | nil => rfl
  | cons name p ih =>
    rw [List.cons_append, descend?, descend?]
    cases (fields.lookup name).bind Tree.branch? with
    | none => rfl
    | some inner => exact ih inner

end Lookahead.Fields
