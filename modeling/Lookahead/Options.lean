import Lookahead.Json
import Lookahead.Table

/-!
# Request options

The options of a request arrive as a dynamic value. `Options.ofJson` fills in what is not given and
says which part has the wrong shape: the names are looked at first, then the path, the renamings and
the skip patterns. `Options.toJson` writes options out in full.
-/

namespace Lookahead

structure Options where
  /-- The dotted path beneath which fields are asked for; empty for all of them. -/
  path : String := ""
  /-- Replacements for field names, or for dotted paths in a projection. -/
  transform : Table Json := []
  /-- Whether `@skip` and `@include` are looked at. -/
  withDirectives : Bool := true
  /-- Whether a projection lists the fields that have sub-selections. -/
  keepParentField : Bool := false
  /-- The patterns of the fields to leave out. -/
  skip : List String := []

/-- What is wrong with options. -/
inductive OptionError where
  /-- The value has no members to look at. -/
  | notAnObject
  | unknown (names : List String)
  | pathNotText
  | transformNotAnObject
  | skipIsText
  /-- The value of `skip` has no items to look at. -/
  | skipNotAList
  | skipPatternNotText

/-- What is said about wrong options. Values that could not even be looked into go without. -/
def OptionError.message? : OptionError → Option String
  | notAnObject => none
  | unknown names => some ("Unknown options: " ++ String.intercalate ", " names)
  | pathNotText => some "`path` must be a dot-notation string"
  | transformNotAnObject => some "`transform` must be a mapping of field names"
  | skipIsText => some "`skip` must be a list of patterns, not a string"
  | skipNotAList => none
  | skipPatternNotText => some "`skip` patterns must be strings"

namespace Options

def names : List String := ["path", "transform", "with_directives", "keep_parent_field", "skip"]

/-- The given names that are not options, in the order of their code points. -/
def unknownNames (given : List String) : List String :=
  (given.filter fun name => !names.contains name).mergeSort

def pathOf : Json → Except OptionError String
  | .null => .ok ""
  | .str path => .ok path
  | _ => .error .pathNotText

def transformOf (value : Json) : Except OptionError (Table Json) :=
  if value.truthy then
    match value with
    | .obj members => .ok members
    | _ => .error .transformNotAnObject
  else .ok []

/-- The skip patterns of a request: the items of a list or the names in an object. -/
def skipOf (value : Json) : Except OptionError (List String) :=
  if value.truthy then
    match value with
    | .arr items =>
      match items.mapM Json.str? with
      | some patterns => .ok patterns
      | none => .error .skipPatternNotText
    | .obj members => .ok (Table.keys members)
    | .str _ => .error .skipIsText
    | _ => .error .skipNotAList
  else .ok []

def withDirectivesOf : Json → Bool
  | .null => true
  | value => value.truthy

/-- Options given by the members of an object. A member that is missing counts as null. -/
def ofMembers (members : Table Json) : Except OptionError Options := do
  let value := fun name => (members.lookup name).getD .null
  match unknownNames (Table.keys members) with
  | [] =>
    let path ← pathOf (value "path")
    let transform ← transformOf (value "transform")
    let skip ← skipOf (value "skip")
    return {
      path, transform, skip
      withDirectives := withDirectivesOf (value "with_directives")
      keepParentField := (value "keep_parent_field").truthy }
  | unknown => .error (.unknown unknown)

/-- What is wrong with a list of names in the place of an object. -/
def refuse (given : List String) : OptionError :=
  match unknownNames given with
  | [] => .notAnObject
  | unknown => .unknown unknown

/-- Reads options. A list of texts, or a text as the list of its characters, is taken for the names
of options, to be refused as unknown if it can be. -/
def ofJson (value : Json) : Except OptionError Options :=
  if value.truthy then
    match value with
    | .obj members => ofMembers members
    | .arr items =>
      match items.mapM Json.str? with
      | some given => .error (refuse given)
      | none => .error .notAnObject
    | .str text => .error (refuse (text.toList.map String.singleton))
    | _ => .error .notAnObject
  else .ok {}

/-- Options as an object with all its members. -/
def toJson (options : Options) : Json :=
  .obj [
    ("path", .str options.path),
    ("transform", .obj options.transform),
    ("with_directives", .bool options.withDirectives),
    ("keep_parent_field", .bool options.keepParentField),
    ("skip", .arr (options.skip.map .str))]

end Options

end Lookahead
