import Lookahead.Collect
import Lookahead.Options
import Lookahead.Projection
import Lookahead.ResolveInfo
import Lookahead.Subtree

/-!
# Requested fields

The questions a resolver asks: which fields were requested beneath the field that it resolves, as a
tree, as an object, by name, or as a projection.
-/

namespace Lookahead

/-- Why a question has no answer. -/
inductive Failure where
  | options (error : OptionError)
  | unsupportedSelection
  | endless
  | unusableKey

def Failure.ofHalt : Halt → Failure
  | .unsupported => unsupportedSelection
  | .endless => endless

namespace Options

/-- How the selections of a field are read under the options. -/
def collector (options : Options) (context : Context) : Collector where
  fragments := context.fragments
  vars := context.vars
  withDirectives := options.withDirectives

/-- The requested fields of a node, at the path of the options. -/
def fieldsOf (options : Options) (context : Context) (node : FieldNode) :
    Except Halt (Logged Fields) := do
  let all ← (options.collector context).collect (Rules.ofPatterns options.skip) node.selections []
  let found := all.value.beneath options.path
  return ⟨found.value, all.records ++ found.records⟩

/-- The requested fields. -/
def requested (options : Options) (info : Option ResolveInfo) : Except Halt (Logged Fields) :=
  let context := info.bind ResolveInfo.context?
  match context.bind fun c => c.node?.map (c, ·) with
  | some (c, node) => options.fieldsOf c node
  | none => .ok ⟨[], Context.missing context⟩

end Options

/-- Reads the options and asks for the requested fields. -/
def withOptions {α : Type} (info : Option ResolveInfo) (value : Json)
    (answer : Options → Fields → Except Failure α) : Except Failure (Logged α) := do
  let options ← (Options.ofJson value).mapError .options
  let fields ← (options.requested info).mapError .ofHalt
  let result ← answer options fields.value
  return ⟨result, fields.records⟩

/-- The requested fields as a tree. -/
def requestedTree (info : Option ResolveInfo) (options : Json) : Except Failure (Logged Fields) :=
  withOptions info options fun _ fields => .ok fields

/-- The requested fields as an object, in which a leaf is `false`. -/
def requestedObject (info : Option ResolveInfo) (options : Json) : Except Failure (Logged Json) :=
  withOptions info options fun _ fields => .ok (Tree.branch fields).toJson

/-- The names of the fields requested directly beneath, each replaced as the options say. -/
def requestedNames (info : Option ResolveInfo) (options : Json) :
    Except Failure (Logged (List Json)) :=
  withOptions info options fun options fields =>
    .ok ((Table.keys fields).map (renamed options.transform))

/-- The requested fields as a projection. -/
def requestedProjection (info : Option ResolveInfo) (options : Json) :
    Except Failure (Logged Projection) :=
  withOptions info options fun options fields =>
    (fields.projection options.transform options.keepParentField).mapError fun _ => .unusableKey

end Lookahead
