import Lookahead.Inclusion
import Lookahead.Log
import Lookahead.Occurrence
import Lookahead.Rules

/-!
# Collecting fields

`Collector.occurrences` reads off a selection set the occurrences of fields. Selections that their
directives reject are left out, and inline fragments and spreads are replaced by what is in them. A
field that is skipped contributes nothing; the sub-selections of any other are read under the skip
rules for its children.

Fragments may spread each other in a circle, and a circle may be cut off by directives or by skip
rules, so the reading goes by the depth of the calls. From one selection set only so many pairs of a
selection list and of rules can be reached (`Collector.depth`), so a chain of calls longer than that
meets one pair twice and never ends. `Collector.collect` merges what was found into the fields
requested so far.
-/

namespace Lookahead

/-- Why a selection set cannot be read to its end. -/
inductive Halt where
  /-- A selection of an unknown kind was met. -/
  | unsupported
  /-- Fragments lead back to themselves. -/
  | endless

/-- What the reading of a selection set refers to. -/
structure Collector where
  fragments : FragmentTable
  vars : Table Json
  /-- Whether directives are looked at. -/
  withDirectives : Bool

namespace Collector

variable (c : Collector)

/-- Whether a selection takes part. -/
def admits (selection : Selection) : Bool :=
  !c.withDirectives || admitted c.vars selection.directives

/-- What a selection that takes part contributes, given how a selection list is read. -/
def occurrencesOf (read : Rules → List Selection → Except Halt (List Occurrence))
    (rules : Rules) : Selection → Except Halt (List Occurrence)
  | .field name _ _ inside =>
    match rules.lookup name with
    | some .whole => .ok []
    | rule =>
      if inside.isEmpty then .ok [.leaf name]
      else (read (Rule.inner rule) inside).map fun found => [.branch name found]
  | .inlineFragment _ _ inside => read rules inside
  | .fragmentSpread name _ =>
    match c.fragments.find? name with
    | some fragment => read rules fragment.selections
    | none => .ok [.unknownFragment name]
  | .unsupported _ => .error .unsupported

/-- The occurrences in a selection list, unless the calls go deeper than given. -/
def occurrencesWithin : Nat → Rules → List Selection → Except Halt (List Occurrence)
  | 0, _, _ => .error .endless
  | depth + 1, rules, selections => do
    let found ← (selections.filter c.admits).mapM
      (c.occurrencesOf (occurrencesWithin depth) rules)
    return found.flatten

/-- As many pairs of a selection list and of rules as can be reached. -/
def depth (rules : Rules) (selections : List Selection) : Nat :=
  (1 + Selection.sizeAll selections + c.fragments.size) * (2 + Rule.sizeAll rules)

/-- The occurrences in a selection list, in order. -/
def occurrences (rules : Rules) (selections : List Selection) : Except Halt (List Occurrence) :=
  c.occurrencesWithin (c.depth rules selections) rules selections

/-- Merges the fields of a selection list into the fields requested so far and reports each spread
of a fragment without a definition. -/
def collect (rules : Rules) (selections : List Selection) (fields : Fields) :
    Except Halt (Logged Fields) := do
  let found ← c.occurrences rules selections
  return ⟨fields.absorb found, (Occurrence.unknownFragments found).map .unknownFragment⟩

end Collector

end Lookahead
