import Lookahead.Rules

/-!
# Literal skip patterns

What a list of patterns without a star skips. A path stands in one of three ways to the rules that
were compiled so far (`Rules.standing`), and a further pattern changes nothing for a path that is
skipped or opened already (`standing_addSegments`). Hence a pattern has no effect if an earlier one
goes on beneath it, and apart from that each pattern skips its field and everything beneath it
(`whole_mem_trail_ofPatterns_iff`).
-/

namespace Lookahead

/-- How a path stands to rules: it is skipped, it has rules for fields beneath it, or neither. -/
inductive Standing where
  | skipped
  | opened
  | free
deriving DecidableEq

namespace Rules

/-- How a path stands to rules that are taken literally. -/
def standing : Rules → List String → Standing
  | _, [] => .opened
  | rules, name :: path =>
    match List.lookup name rules with
    | some .whole => .skipped
    | some (.within inner) => standing inner path
    | none => .free

variable {rules : Rules} {name : String}

theorem standing_absent (h : List.lookup name rules = none) (path : List String) :
    standing rules (name :: path) = .free := by
  simp only [standing, h]

theorem standing_whole (h : List.lookup name rules = some .whole) (path : List String) :
    standing rules (name :: path) = .skipped := by
  simp only [standing, h]

theorem standing_within {inner : Rules} (h : List.lookup name rules = some (.within inner))
    (path : List String) : standing rules (name :: path) = standing inner path := by
  simp only [standing, h]

theorem standing_nil_rules {path : List String} (h : path ≠ []) : standing [] path = .free := by
  cases path with
  | nil => exact absurd rfl h
  | cons name path => rfl

/-! ### One more pattern -/

theorem lookup_addSegments_of_ne {key : String} (h : key ≠ name) (rest : List String) :
    List.lookup key (addSegments (name :: rest) rules) = List.lookup key rules := by
  rw [addSegments, Table.lookup_update, if_neg h]

theorem lookup_addSegments_absent (h : List.lookup name rules = none) (rest : List String) :
    List.lookup name (addSegments (name :: rest) rules) =
      some (if rest = [] ∨ rest.head? = some "*" then .whole else .within (addSegments rest [])) := by
  rw [addSegments, Table.lookup_update, if_pos rfl, h]

theorem lookup_addSegments_whole (h : List.lookup name rules = some .whole) (rest : List String) :
    List.lookup name (addSegments (name :: rest) rules) = some .whole := by
  rw [addSegments, Table.lookup_update, if_pos rfl, h]

theorem lookup_addSegments_within {inner : Rules}
    (h : List.lookup name rules = some (.within inner)) (rest : List String) :
    List.lookup name (addSegments (name :: rest) rules) =
      some (.within (addSegments rest inner)) := by
  rw [addSegments, Table.lookup_update, if_pos rfl, h]

/-- What is skipped or opened already stays so. -/
theorem standing_addSegments_of_ne_free (pattern : List String) {path : List String}
    (h : standing rules path ≠ .free) :
    standing (addSegments pattern rules) path = standing rules path := by
  induction pattern generalizing rules path with
  | nil => rw [addSegments]
  | cons name rest ih =>
    cases path with
    | nil => rfl
    | cons key path =>
      by_cases hk : key = name
      · subst hk
        rcases hl : List.lookup key rules with _ | _ | inner
        · exact absurd (standing_absent hl path) h
        · rw [standing_whole (lookup_addSegments_whole hl rest), standing_whole hl]
        · rw [standing_within hl] at h ⊢
          rw [standing_within (lookup_addSegments_within hl rest), ih h]
      · rw [standing, standing, lookup_addSegments_of_ne hk]

/-- A pattern changes the standing of free paths only. -/
theorem standing_addSegments {pattern : List String} (hs : "*" ∉ pattern) (rules : Rules)
    (path : List String) :
    standing (addSegments pattern rules) path =
      match standing rules path with
      | .skipped => .skipped
      | .opened => .opened
      | .free =>
        if pattern <+: path then if standing rules pattern = .opened then .free else .skipped
        else if path <+: pattern then .opened
        else .free := by
  -- pattern and path go down the rules side by side, up to the first name in which they differ
  induction pattern generalizing rules path with
  | nil =>
    rw [addSegments]
    cases standing rules path <;> simp [standing]
  | cons name rest ih =>
    have hstar : rest.head? ≠ some "*" := fun he => hs (List.mem_cons_of_mem _ (List.mem_of_head? he))
    have ih := ih fun h => hs (List.mem_cons_of_mem _ h)
    cases path with
    | nil => rfl
    | cons key path =>
      by_cases hk : key = name
      · subst hk
        rcases hl : List.lookup key rules with _ | _ | inner
        · rw [standing_absent hl, standing_absent hl]
          have hnew := lookup_addSegments_absent hl rest
          by_cases hr : rest = []
          · subst hr
            rw [standing_whole hnew]
            simp
          · rw [if_neg (by simp [hr, hstar])] at hnew
            rw [standing_within hnew, ih]
            by_cases hp : path = []
            · subst hp
              simp [standing, hr]
            · simp [standing_nil_rules hr, standing_nil_rules hp]
        · rw [standing_whole (lookup_addSegments_whole hl rest), standing_whole hl]
        · rw [standing_within (lookup_addSegments_within hl rest), standing_within hl,
            standing_within hl, ih]
          simp
      · have hsame : standing (addSegments (name :: rest) rules) (key :: path) =
            standing rules (key :: path) := by
          rw [standing, standing, lookup_addSegments_of_ne hk]
        rw [hsame]
        cases standing rules (key :: path) <;> simp [hk, Ne.symm hk]

/-! ### Rules without stars -/

/-- Rules that have no star in any key, at any level. -/
inductive Literal : Rules → Prop
  | mk {rules : Rules} (key : ∀ entry ∈ rules, Wildcard.hasStar entry.1 = false)
    (inner : ∀ name inner, (name, Rule.within inner) ∈ rules → Literal inner) : Literal rules

namespace Literal

theorem nil : Literal [] := ⟨nofun, nofun⟩

theorem addSegments {pattern : List String} (hp : ∀ s ∈ pattern, Wildcard.hasStar s = false)
    {rules : Rules} (h : Literal rules) : Literal (addSegments pattern rules) := by
  induction pattern generalizing rules with
  | nil => rwa [Rules.addSegments]
  | cons name rest ih =>
    have ih := @ih fun s hs => hp s (List.mem_cons_of_mem _ hs)
    obtain ⟨key, inner⟩ := h
    rw [Rules.addSegments]
    constructor
    · rintro ⟨k, rule⟩ he
      rcases Table.mem_update he with he | ⟨rfl, -⟩
      · exact key _ he
      · exact hp _ (List.mem_cons_self ..)
    · intro k found he
      rcases Table.mem_update he with he | ⟨-, hnew | ⟨old, ho, hnew⟩⟩
      · exact inner _ _ he
      · dsimp only at hnew
        split at hnew
        · cases hnew
        · cases hnew
          exact ih nil
      · cases old with
        | whole => cases hnew
        | within rules =>
          cases hnew
          exact ih (inner _ _ ho)

theorem scan_eq {rules : Rules} (h : ∀ entry ∈ rules, Wildcard.hasStar entry.1 = false)
    (name : String) (found : Option Rule) : scan name found rules = found := by
  induction rules with
  | nil => rfl
  | cons entry rules ih =>
    obtain ⟨key, rule⟩ := entry
    have hk : Wildcard.hasStar key = false := h _ (List.mem_cons_self ..)
    have hrest := ih fun entry he => h entry (List.mem_cons_of_mem _ he)
    simp [scan, hk, hrest]

theorem lookup_eq {rules : Rules} (h : Literal rules) (name : String) :
    lookup rules name = List.lookup name rules := by
  obtain ⟨key, -⟩ := h
  rw [lookup, scan_eq key]
  cases List.lookup name rules <;> rfl

/-- Literal rules skip the paths whose standing says so. -/
theorem whole_mem_trail {rules : Rules} (h : Literal rules) (path : List String) :
    some Rule.whole ∈ trail rules path ↔ standing rules path = .skipped := by
  induction path generalizing rules with
  | nil => simp [trail, standing]
  | cons name path ih =>
    have hlookup := h.lookup_eq name
    rcases hl : List.lookup name rules with _ | _ | inner
    · have hfree : standing [] path ≠ .skipped := by cases path <;> simp [standing]
      have hnot : some Rule.whole ∉ trail [] path := fun hm => hfree ((ih nil).1 hm)
      simp [trail, hlookup, hl, standing, Rule.inner, hnot]
    · simp [trail, hlookup, hl, standing]
    · obtain ⟨-, hi⟩ := h
      have hinner := ih (hi _ _ (Table.mem_of_lookup hl))
      simp [trail, hlookup, hl, standing, Rule.inner, hinner]

end Literal

/-! ### All patterns -/

/-- One of the patterns goes on beneath the path. The root always has something beneath it. -/
def Opens (patterns : List String) (path : List String) : Prop :=
  path = [] ∨ ∃ p ∈ patterns, path <+: segments p ∧ path ≠ segments p

/-- One of the patterns ends on the path, and no pattern before it goes on beneath its end. -/
def Skips (patterns : List String) (path : List String) : Prop :=
  ∃ front p back, patterns = front ++ p :: back ∧ segments p <+: path ∧ ¬Opens front (segments p)

/-- What the rules for a list of patterns say of every path. -/
structure Describes (patterns : List String) (rules : Rules) : Prop where
  skipped : ∀ path, standing rules path = .skipped ↔ Skips patterns path
  opened : ∀ path, standing rules path = .opened ↔ ¬Skips patterns path ∧ Opens patterns path

section

variable {patterns : List String} {p : String} {path : List String}

theorem opens_segments_iff : Opens patterns (segments p) ↔
    ∃ q ∈ patterns, segments p <+: segments q ∧ segments p ≠ segments q :=
  or_iff_right (segments_ne_nil p)

theorem Opens.of_prefix (h : Opens patterns path) {shorter : List String} (hp : shorter <+: path) :
    Opens patterns shorter := by
  rcases h with rfl | ⟨q, hq, hpq, hne⟩
  · exact .inl (List.prefix_nil.1 hp)
  · refine .inr ⟨q, hq, hp.trans hpq, fun he => hne ?_⟩
    exact hpq.eq_of_length_le (he ▸ hp.length_le)

theorem opens_concat : Opens (patterns ++ [p]) path ↔
    Opens patterns path ∨ path <+: segments p ∧ path ≠ segments p := by
  simp [Opens, or_and_right, exists_or, or_assoc]

theorem Skips.of_prefix {shorter : List String} (h : Skips patterns shorter)
    (hp : shorter <+: path) : Skips patterns path := by
  obtain ⟨front, p, back, he, hpath, hnone⟩ := h
  exact ⟨front, p, back, he, hpath.trans hp, hnone⟩

theorem skips_concat : Skips (patterns ++ [p]) path ↔
    Skips patterns path ∨ segments p <+: path ∧ ¬Opens patterns (segments p) := by
  constructor
  · rintro ⟨front, q, back, he, hpath, hnone⟩
    rcases List.eq_nil_or_concat back with rfl | ⟨back, last, rfl⟩
    · obtain ⟨rfl, hq⟩ := List.append_inj' he rfl
      obtain rfl := List.singleton_inj.1 hq
      exact .inr ⟨hpath, hnone⟩
    · have he : patterns ++ [p] = (front ++ q :: back) ++ [last] := by simpa using he
      exact .inl ⟨front, q, back, (List.append_inj' he rfl).1, hpath, hnone⟩
  · rintro (⟨front, q, back, rfl, hpath, hnone⟩ | ⟨hpath, hnone⟩)
    · exact ⟨front, q, back ++ [p], by simp, hpath, hnone⟩
    · exact ⟨patterns, p, [], rfl, hpath, hnone⟩

theorem hasStar_of_mem_segments (hp : '*' ∉ p.toList) : ∀ s ∈ segments p,
    Wildcard.hasStar s = false := by
  intro s hs
  have hnot : '*' ∉ s.toList := fun h => hp (subset_of_mem_segments hs h)
  simpa [Wildcard.hasStar] using hnot

theorem star_notMem_segments (hp : '*' ∉ p.toList) : "*" ∉ segments p := by
  intro hs
  have hstar := hasStar_of_mem_segments hp _ hs
  exact absurd hstar (by decide)

namespace Describes

variable {rules : Rules}

theorem nil : Describes [] [] := by
  have hskips : ∀ path, ¬Skips [] path := by
    rintro path ⟨front, p, back, he, -⟩
    simp at he
  constructor <;> intro path <;> cases path <;> simp [standing, hskips, Opens]

theorem free_iff (h : Describes patterns rules) (path : List String) :
    standing rules path = .free ↔ ¬Skips patterns path ∧ ¬Opens patterns path := by
  have hs := h.skipped path
  have ho := h.opened path
  cases hst : standing rules path <;> simp_all

theorem skipped_concat (h : Describes patterns rules) (hp : '*' ∉ p.toList) (path : List String) :
    standing (add rules p) path = .skipped ↔ Skips (patterns ++ [p]) path := by
  rw [skips_concat, add, standing_addSegments (star_notMem_segments hp)]
  cases hst : standing rules path with
  | skipped => simp [(h.skipped path).1 hst]
  | opened =>
    obtain ⟨hskips, hopens⟩ := (h.opened path).1 hst
    have hend : segments p <+: path → Opens patterns (segments p) := hopens.of_prefix
    simpa [hskips] using hend
  | free =>
    obtain ⟨hskips, -⟩ := (h.free_iff path).1 hst
    by_cases hpath : segments p <+: path
    · -- the new pattern decides, unless an earlier one goes on beneath its end
      have hend : ¬Skips patterns (segments p) := fun hs => hskips (hs.of_prefix hpath)
      by_cases hopens : Opens patterns (segments p)
      · have hopened := (h.opened _).2 ⟨hend, hopens⟩
        simp [hpath, hopened, hskips, hopens]
      · have hopened : standing rules (segments p) ≠ .opened :=
          fun ho => hopens ((h.opened _).1 ho).2
        simp [hpath, hopened, hopens]
    · simp only [hpath, if_false, hskips, false_or, false_and, iff_false]
      split <;> simp

theorem opened_concat (h : Describes patterns rules) (hp : '*' ∉ p.toList) (path : List String) :
    standing (add rules p) path = .opened ↔
      ¬Skips (patterns ++ [p]) path ∧ Opens (patterns ++ [p]) path := by
  rw [← h.skipped_concat hp, opens_concat, add, standing_addSegments (star_notMem_segments hp)]
  cases hst : standing rules path with
  | skipped => simp
  | opened => simp [((h.opened path).1 hst).2]
  | free =>
    have hopens := ((h.free_iff path).1 hst).2
    by_cases hpath : segments p <+: path
    · have hnot : ¬(path <+: segments p ∧ path ≠ segments p) :=
        fun hstrict => hstrict.2 (hstrict.1.eq_of_length_le hpath.length_le)
      simp only [hpath, if_true, hopens, hnot, or_self, and_false, iff_false]
      split <;> simp
    · have hne : path ≠ segments p := fun he => hpath (he ▸ List.prefix_rfl)
      simp only [hpath, if_false, hopens, false_or, hne, ne_eq, not_false_eq_true, and_true]
      split <;> simp_all

theorem concat (h : Describes patterns rules) (hp : '*' ∉ p.toList) :
    Describes (patterns ++ [p]) (add rules p) :=
  ⟨h.skipped_concat hp, h.opened_concat hp⟩

theorem foldl {front : List String} (h : Describes front rules) {patterns : List String}
    (hp : ∀ p ∈ patterns, '*' ∉ p.toList) :
    Describes (front ++ patterns) (patterns.foldl add rules) := by
  induction patterns generalizing front rules with
  | nil => rwa [List.append_nil]
  | cons p patterns ih =>
    have hstep := h.concat (hp p (List.mem_cons_self ..))
    have hrest := ih hstep fun q hq => hp q (List.mem_cons_of_mem _ hq)
    rwa [List.append_assoc] at hrest

end Describes

theorem Literal.foldl {rules : Rules} (h : Literal rules) {patterns : List String}
    (hp : ∀ p ∈ patterns, '*' ∉ p.toList) : Literal (patterns.foldl add rules) := by
  induction patterns generalizing rules with
  | nil => exact h
  | cons p patterns ih =>
    have hsegments := hasStar_of_mem_segments (hp p (List.mem_cons_self ..))
    exact ih (h.addSegments hsegments) fun q hq => hp q (List.mem_cons_of_mem _ hq)

/-- A path is skipped if one of the patterns ends on it and no pattern before that one goes on
beneath its end. -/
theorem whole_mem_trail_ofPatterns_iff (h : ∀ p ∈ patterns, '*' ∉ p.toList) (path : List String) :
    some Rule.whole ∈ trail (ofPatterns patterns) path ↔
      ∃ front p back, patterns = front ++ p :: back ∧ segments p <+: path ∧
        ∀ q ∈ front, ¬(segments p <+: segments q ∧ segments p ≠ segments q) := by
  have hliteral : Literal (ofPatterns patterns) := Literal.nil.foldl h
  have hdescribes : Describes patterns (ofPatterns patterns) := Describes.nil.foldl h
  rw [hliteral.whole_mem_trail, hdescribes.skipped, Skips]
  simp only [opens_segments_iff, not_exists, not_and]

end

theorem skipped_behind_longer_pattern :
    (∀ p ∈ ["a.b", "a", "c"], '*' ∉ p.toList) ∧
      some Rule.whole ∈ trail (ofPatterns ["a.b", "a", "c"]) ["c", "d"] ∧
      some Rule.whole ∉ trail (ofPatterns ["a.b", "a", "c"]) ["a", "d"] := by
  have h : ∀ p ∈ ["a.b", "a", "c"], '*' ∉ p.toList := by decide
  have htrail : trail (ofPatterns ["a.b", "a", "c"]) ["a", "d"] =
      [some (.within [("b", .whole)]), none] := rfl
  refine ⟨h, (whole_mem_trail_ofPatterns_iff h _).2 ?_, ?_⟩
  · exact ⟨["a.b", "a"], "c", [], rfl, by decide, by decide⟩
  · simp [htrail]

end Rules

end Lookahead
