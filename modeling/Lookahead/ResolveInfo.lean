import Lookahead.Document
import Lookahead.Json
import Lookahead.Log

/-!
# The field being resolved

What a resolver is told about the field that it resolves, in the shapes that executors give it, and
what the look-ahead needs of it (`Context`): the nodes of the field in the document, the fragments
and the values of the variables.
-/

namespace Lookahead

/-- A node of the document that requests the field being resolved. -/
structure FieldNode where
  name : Option String
  selections : List Selection

/-- The values of the variables: as they are, or wrapped together with what was sent. -/
inductive VariableValues where
  | plain (values : Table Json)
  | wrapped (coerced : Option (Table Json))

def VariableValues.values : VariableValues → Table Json
  | plain values => values
  | wrapped coerced => coerced.getD []

/-- What a resolver is told. Any part may be missing. -/
structure ResolveInfo where
  fieldName : Option String
  fieldNodes : Option (List (Option FieldNode))
  /-- The nodes under an older name. -/
  fieldAsts : Option (List (Option FieldNode))
  fragments : Option FragmentTable
  vars : Option VariableValues

/-- What the look-ahead needs. -/
structure Context where
  fieldName : Option String
  nodes : List (Option FieldNode)
  fragments : FragmentTable
  vars : Table Json

/-- What there is to look at, if there are any nodes. -/
def ResolveInfo.context? (info : ResolveInfo) : Option Context :=
  let nodes := match info.fieldNodes.getD [] with
    | [] => info.fieldAsts.getD []
    | nodes => nodes
  if nodes.isEmpty then none
  else some {
    nodes
    fieldName := info.fieldName
    fragments := info.fragments.getD []
    vars := info.vars.elim [] VariableValues.values }

namespace Context

/-- Whether a node is one of the field being resolved. -/
def isCurrent (context : Context) (node : Option FieldNode) : Bool :=
  (node.bind FieldNode.name).any (context.fieldName == some ·)

/-- The place of the node that is looked at: the first of the field being resolved, if it has
sub-selections. -/
def index? (context : Context) : Option Nat :=
  (context.nodes.findIdx? context.isCurrent).filter fun i =>
    (context.nodes[i]?.join).any fun node => !node.selections.isEmpty

/-- The node that is looked at. -/
def node? (context : Context) : Option FieldNode :=
  context.index?.bind fun i => context.nodes[i]?.join

/-- Why no node is looked at. -/
def missing : Option Context → List LogRecord
  | none => [.noFieldNodes]
  | some context =>
    if context.index?.isSome then [] else [.noFieldsRequested context.fieldName]

end Context

end Lookahead
