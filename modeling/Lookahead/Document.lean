import Lookahead.Table

/-!
# Selections of a query document

The part of a GraphQL document that says which fields are requested: selections with their
directives, and the fragments that they spread.
-/

namespace Lookahead

inductive Value where
  | boolean (value : Bool)
  | var (name : String)
  | int (text : String)
  | float (text : String)
  | string (text : String)
  | enum (name : String)
  | null
  | list (items : List Value)
  | object (members : List (String × Value))

structure Argument where
  name : String
  value : Value

structure Directive where
  name : String
  arguments : List Argument

/-- One item of a selection set. A field without a selection set has no selections. -/
inductive Selection where
  | field (name : String) (responseKey : Option String) (directives : List Directive)
      (selections : List Selection)
  | inlineFragment (typeCondition : Option String) (directives : List Directive)
      (selections : List Selection)
  | fragmentSpread (name : String) (directives : List Directive)
  /-- A selection of a kind that is not known. -/
  | unsupported (directives : List Directive)

structure Fragment where
  typeCondition : Option String
  directives : List Directive
  selections : List Selection

/-- The fragments of a document by name. An entry may be without a definition. -/
abbrev FragmentTable := Table (Option Fragment)

def FragmentTable.find? (fragments : FragmentTable) (name : String) : Option Fragment :=
  (fragments.lookup name).join

namespace Selection

def directives : Selection → List Directive
  | field _ _ ds _ => ds
  | inlineFragment _ ds _ => ds
  | fragmentSpread _ ds => ds
  | unsupported ds => ds

mutual

/-- The number of selections at and beneath a selection. -/
def size : Selection → Nat
  | field _ _ _ inside => 1 + sizeAll inside
  | inlineFragment _ _ inside => 1 + sizeAll inside
  | fragmentSpread _ _ => 1
  | unsupported _ => 1

def sizeAll : List Selection → Nat
  | [] => 0
  | s :: rest => s.size + sizeAll rest

end

end Selection

/-- The number of selections in the fragments of a table, each fragment counting as one more. -/
def FragmentTable.size : FragmentTable → Nat
  | [] => 0
  | (_, none) :: rest => 1 + size rest
  | (_, some fragment) :: rest => 1 + Selection.sizeAll fragment.selections + size rest

end Lookahead
