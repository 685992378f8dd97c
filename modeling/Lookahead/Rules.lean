import Lookahead.Segments
import Lookahead.Table
import Lookahead.Wildcard

/-!
# Skip rules

The patterns of a request, compiled into a tree. A pattern is a dotted path, in which a star of its
own stands for everything beneath; a rule says of one field that it is skipped (`Rule.whole`) or
which of its children are (`Rule.within`).

`Rules.add` never touches what earlier patterns left: a pattern ends where an earlier one already
skips, and one that runs into the middle of a longer one adds nothing. `Rules.lookup` lets a
literal name win over every wildcard; among the wildcards a skip wins at once, and otherwise the
last one decides. Down a path each rule is looked up among those in force beneath the one before,
up to the first field that is skipped (`Rules.trail_append`, `Rules.trail_append_of_whole`).
-/

namespace Lookahead

/-- What is skipped of a field: the whole field, or some of what is beneath it. -/
inductive Rule where
  | whole
  | within (rules : List (String × Rule))

/-- The rules for the fields of one level, in the order in which they came up. -/
abbrev Rules := List (String × Rule)

namespace Rule

/-- The rules for the children of a field to which a rule does or does not apply. -/
def inner : Option Rule → Rules
  | some (within rules) => rules
  | _ => []

mutual

/-- The number of rules at and beneath a rule. -/
def size : Rule → Nat
  | whole => 1
  | within rules => 1 + sizeAll rules

def sizeAll : List (String × Rule) → Nat
  | [] => 0
  | (_, rule) :: rules => rule.size + sizeAll rules

end

end Rule

namespace Rules

/-- Adds the pattern with the given segments. A name that has no rule yet gets the rest of the
pattern, except that a star right behind it means the name itself. -/
def addSegments : List String → Rules → Rules
  | [], rules => rules
  | name :: rest, rules =>
    Table.update name (fun
      | none =>
        if rest = [] ∨ rest.head? = some "*" then .whole else .within (addSegments rest [])
      | some .whole => .whole
      | some (.within inner) => .within (addSegments rest inner)) rules

def add (rules : Rules) (pattern : String) : Rules := addSegments (segments pattern) rules

def ofPatterns (patterns : List String) : Rules := patterns.foldl add []

/-- The wildcard rule for `name`: the first that skips, otherwise the last that accepts the name,
otherwise what was `found` before. -/
def scan (name : String) (found : Option Rule) : Rules → Option Rule
  | [] => found
  | (key, rule) :: rules =>
    if Wildcard.hasStar key && Wildcard.accepts key name then
      match rule with
      | .whole => some .whole
      | .within _ => scan name (some rule) rules
    else scan name found rules

/-- The rule that applies to a field. -/
def lookup (rules : Rules) (name : String) : Option Rule :=
  match List.lookup name rules with
  | some rule => some rule
  | none => scan name none rules

/-- The rules in force beneath the fields `path`, one inside the other. -/
def descend (rules : Rules) (path : List String) : Rules :=
  path.foldl (fun rules name => Rule.inner (lookup rules name)) rules

/-- What applies to each field of a path in turn, up to the first that is skipped. -/
def trail : Rules → List String → List (Option Rule)
  | _, [] => []
  | rules, name :: names =>
    match lookup rules name with
    | some .whole => [some .whole]
    | found => found :: trail (Rule.inner found) names

theorem ofPatterns_append (ps qs : List String) :
    ofPatterns (ps ++ qs) = qs.foldl add (ofPatterns ps) := List.foldl_append

variable {rules : Rules} {name : String}

theorem lookup_of_key {rule : Rule} (h : List.lookup name rules = some rule) :
    lookup rules name = some rule := by
  simp [lookup, h]

/-! ### Along a path -/

theorem trail_skipped (h : rules.lookup name = some .whole) (path : List String) :
    trail rules (name :: path) = [some .whole] := by
  simp only [trail, h]

theorem trail_kept (h : rules.lookup name ≠ some .whole) (path : List String) :
    trail rules (name :: path) =
      rules.lookup name :: trail (Rule.inner (rules.lookup name)) path := by
  simp only [trail]

theorem descend_cons (rules : Rules) (name : String) (path : List String) :
    descend rules (name :: path) = descend (Rule.inner (rules.lookup name)) path := rfl

/-- Nothing is looked up beneath a field that is skipped. -/
theorem trail_append_of_whole {front : List String} (h : some .whole ∈ trail rules front)
    (back : List String) : trail rules (front ++ back) = trail rules front := by
  induction front generalizing rules with
  | nil => cases h
  | cons name front ih =>
    rw [List.cons_append]
    by_cases hs : rules.lookup name = some .whole
    · rw [trail_skipped hs, trail_skipped hs]
    · rw [trail_kept hs] at h
      have hrest := (List.mem_cons.1 h).resolve_left (Ne.symm hs)
      rw [trail_kept hs, trail_kept hs, ih hrest]

/-- Beneath fields of which none is skipped, the rules in force there apply. -/
theorem trail_append {front : List String} (h : some .whole ∉ trail rules front)
    (back : List String) :
    trail rules (front ++ back) = trail rules front ++ trail (descend rules front) back := by
  induction front generalizing rules with
  | nil => rfl
  | cons name front ih =>
    have hs : rules.lookup name ≠ some .whole := fun hs => h (by simp [trail_skipped hs])
    rw [trail_kept hs, List.mem_cons, not_or] at h
    rw [List.cons_append, trail_kept hs, trail_kept hs, ih h.2, descend_cons, List.cons_append]

end Rules

end Lookahead
