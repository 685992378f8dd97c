/-!
# Wildcard patterns

A pattern is literal text with stars in it. A star stands for any text without a line feed, and
what surrounds the match is free: `user*` accepts `superuser` and `*` accepts every name.

The parts between the stars are placed one after another, each at its first occurrence that can be
reached without passing a line feed. No later occurrence could do better: between two candidates
for a part there is no line feed, so whatever follows the later one can be reached from the
earlier one. Only the first part may have to be tried at several places.
-/

namespace Lookahead.Wildcard

def hasStar (text : String) : Bool := text.toList.contains '*'

/-- What remains of `text` behind the first occurrence of `part` that starts before the first line
feed or right at it. -/
def afterNext (part : List Char) : List Char → Option (List Char)
  | [] => part.isPrefixOf? []
  | c :: cs =>
    match part.isPrefixOf? (c :: cs) with
    | some rest => some rest
    | none => if c = '\n' then none else afterNext part cs

/-- Whether the parts occur in `text` one after another, each behind a gap without a line feed. -/
def follow : List (List Char) → List Char → Bool
  | [], _ => true
  | part :: parts, text =>
    match afterNext part text with
    | some rest => follow parts rest
    | none => false

/-- Whether the parts occur in `text` one after another, the first of them right at the start. -/
def placed : List (List Char) → List Char → Bool
  | [], _ => true
  | part :: parts, text =>
    match part.isPrefixOf? text with
    | some rest => follow parts rest
    | none => false

/-- Whether `p` holds of some end of the text. -/
def anywhere (p : List Char → Bool) : List Char → Bool
  | [] => p []
  | c :: cs => p (c :: cs) || anywhere p cs

/-- Whether `name` contains a match of `pattern`. -/
def accepts (pattern name : String) : Bool :=
  anywhere (placed (pattern.toList.splitOn '*')) name.toList

theorem anywhere_iff {p : List Char → Bool} {text : List Char} :
    anywhere p text = true ↔ ∃ x y, text = x ++ y ∧ p y = true := by
  induction text with
  | nil =>
    refine ⟨fun h => ⟨[], [], rfl, h⟩, ?_⟩
    rintro ⟨x, y, h, hp⟩
    obtain ⟨-, rfl⟩ := List.nil_eq_append_iff.mp h
    exact hp
  | cons c cs ih =>
    rw [anywhere, Bool.or_eq_true, ih]
    constructor
    · rintro (h | ⟨x, y, rfl, hp⟩)
      · exact ⟨[], c :: cs, rfl, h⟩
      · exact ⟨c :: x, y, rfl, hp⟩
    · rintro ⟨x, y, h, hp⟩
      cases x with
      | nil => left; rw [h]; exact hp
      | cons d x =>
        obtain ⟨-, rfl⟩ := List.cons.inj h
        exact Or.inr ⟨x, y, rfl, hp⟩

end Lookahead.Wildcard
