import Lookahead.Tree

/-!
# Occurrences of fields

Fragments add no level to what is requested, so a selection set amounts to a list of field
occurrences, in which a name may come up any number of times, together with the spreads that lead
nowhere. `Fields.absorb` merges such a list into the fields requested so far: a name keeps the place
of its first occurrence and is a branch as soon as one occurrence is.
-/

namespace Lookahead

/-- What one selection contributes to the level that it stands on. -/
inductive Occurrence where
  /-- A field requested without sub-selections. -/
  | leaf (name : String)
  /-- A field requested with sub-selections. -/
  | branch (name : String) (inside : List Occurrence)
  /-- A spread of a fragment that has no definition. -/
  | unknownFragment (name : String)

namespace Occurrence

mutual

/-- The fragments without a definition that are spread by an occurrence or beneath it, in order. -/
def unknown : Occurrence → List String
  | leaf _ => []
  | branch _ inside => unknownFragments inside
  | unknownFragment name => [name]

/-- The fragments without a definition that are spread among the occurrences and beneath them, in
order. -/
def unknownFragments : List Occurrence → List String
  | [] => []
  | o :: os => o.unknown ++ unknownFragments os

end

theorem unknownFragments_append (os os' : List Occurrence) :
    unknownFragments (os ++ os') = unknownFragments os ++ unknownFragments os' := by
  induction os with
  | nil => rfl
  | cons o os ih => simp [unknownFragments, ih]

end Occurrence

mutual

/-- Merges one occurrence into the requested fields of a level. -/
def Occurrence.mergeInto (fields : Fields) : Occurrence → Fields
  | .leaf name => Table.update name (·.getD .leaf) fields
  | .branch name inside =>
    Table.update name (fun old => .branch (Fields.absorb (old.elim [] Tree.fields) inside)) fields
  | .unknownFragment _ => fields

/-- Merges occurrences into the requested fields of a level, one after another. -/
def Fields.absorb (fields : Fields) : List Occurrence → Fields
  | [] => fields
  | o :: os => Fields.absorb (o.mergeInto fields) os

end

theorem Fields.absorb_append (fields : Fields) (os os' : List Occurrence) :
    absorb fields (os ++ os') = absorb (absorb fields os) os' := by
  induction os generalizing fields with
  | nil => rfl
  | cons o os ih => simp [absorb, ih]

end Lookahead
