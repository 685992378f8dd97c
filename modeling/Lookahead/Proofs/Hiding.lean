import Lookahead.Proofs.LiteralPatterns
import Lookahead.Proofs.Matching
import Lookahead.Proofs.Precedence
import Lookahead.Proofs.Pruning

/-!
# What a pattern hides

A pattern `p` or `p.*` is meant to hide whatever is beneath `p`. It does, whatever patterns come
behind it, unless one before it goes on beneath `p` (`Rules.GoesOn`). In that case `p.*` still hides
each field beneath `p` but those for which a pattern of the list goes on beneath them, since a rule
for the name itself wins over the star (`not_hasPath_beneath`).

What is collected is its own pruning (`prune_eq_of_collect`), so it contains no path on which the
rules skip a field. On which paths they do is followed through the patterns with `Rules.standing`,
one pattern at a time.
-/

namespace Lookahead

/-! ### Paths of a tree -/

namespace Fields

/-- Whether the fields of a path were requested, one inside the other. -/
def hasPath : Fields → List String → Bool
  | _, [] => true
  | fields, name :: path => (fields.lookup name).any fun t => hasPath t.fields path

variable {rules : Rules} {name : String}

theorem lookup_prune_skipped (h : rules.lookup name = some .whole) (fields : Fields) :
    (prune rules fields).lookup name = none := by
  induction fields with
  | nil => rw [prune_nil]; rfl
  | cons entry fields ih =>
    obtain ⟨key, t⟩ := entry
    by_cases hs : rules.lookup key = some .whole
    · rw [prune_cons_skipped hs, ih]
    · have hne : name ≠ key := fun he => hs (he ▸ h)
      rw [prune_cons_kept hs, Table.lookup_cons, if_neg hne, ih]

theorem lookup_prune_kept (h : rules.lookup name ≠ some .whole) (fields : Fields) :
    (prune rules fields).lookup name =
      (fields.lookup name).map (Tree.prune (Rule.inner (rules.lookup name))) := by
  induction fields with
  | nil => rw [prune_nil]; rfl
  | cons entry fields ih =>
    obtain ⟨key, t⟩ := entry
    by_cases hs : rules.lookup key = some .whole
    · have hne : name ≠ key := fun he => h (he ▸ hs)
      rw [prune_cons_skipped hs, Table.lookup_cons, if_neg hne, ih]
    · rw [prune_cons_kept hs, Table.lookup_cons, Table.lookup_cons, ih]
      by_cases he : name = key
      · subst he
        simp
      · rw [if_neg he, if_neg he]

theorem hasPath_of_append {fields : Fields} {p q : List String}
    (h : fields.hasPath (p ++ q) = true) : fields.hasPath p = true := by
  induction p generalizing fields with
  | nil => rfl
  | cons name p ih =>
    obtain ⟨t, ht, hrest⟩ := (Option.any_eq_true _ _).1 h
    exact (Option.any_eq_true _ _).2 ⟨t, ht, ih hrest⟩

theorem fields_prune (rules : Rules) (t : Tree) : (t.prune rules).fields = prune rules t.fields := by
  cases t with
  | leaf => rw [Tree.prune]; exact (prune_nil rules).symm
  | branch fields => rw [Tree.prune]; rfl

end Fields

/-! ### Rules along a path -/

namespace Rules

variable {rules : Rules} {name : String} {path : List String}

/-- What pruning leaves has no path on which the rules skip a field. -/
theorem whole_notMem_trail_of_hasPath {fields : Fields}
    (h : (Fields.prune rules fields).hasPath path = true) : some .whole ∉ trail rules path := by
  induction path generalizing rules fields with
  | nil => simp [trail]
  | cons name path ih =>
    obtain ⟨t, ht, hpath⟩ := (Option.any_eq_true _ _).1 h
    by_cases hs : rules.lookup name = some .whole
    · rw [Fields.lookup_prune_skipped hs] at ht
      cases ht
    · rw [Fields.lookup_prune_kept hs] at ht
      obtain ⟨t', -, rfl⟩ := Option.map_eq_some_iff.1 ht
      rw [Fields.fields_prune] at hpath
      rw [trail_kept hs, List.mem_cons, not_or]
      exact ⟨fun he => hs he.symm, ih hpath⟩

/-- A path with rules of its own leads to the rules in force beneath it. -/
theorem standing_append (rules : Rules) (p q : List String) :
    standing rules (p ++ q) =
      match standing rules p with
      | .opened => standing (descend rules p) q
      | decided => decided := by
  induction p generalizing rules with
  | nil => rfl
  | cons name p ih =>
    rw [List.cons_append]
    rcases hl : List.lookup name rules with _ | _ | inner
    · rw [standing_absent hl, standing_absent hl]
    · rw [standing_whole hl, standing_whole hl]
    · rw [standing_within hl, standing_within hl, descend_cons, lookup_of_key hl]
      exact ih inner

/-- A rule for the name itself decides, so what is skipped literally is skipped. -/
theorem whole_mem_trail_of_standing (h : standing rules path = .skipped) :
    some .whole ∈ trail rules path := by
  induction path generalizing rules with
  | nil => cases h
  | cons name path ih =>
    rcases hl : List.lookup name rules with _ | _ | inner
    · rw [standing_absent hl] at h
      cases h
    · rw [trail_skipped (lookup_of_key hl)]
      exact List.mem_singleton_self _
    · have hlookup : rules.lookup name = some (.within inner) := lookup_of_key hl
      rw [standing_within hl] at h
      rw [trail_kept (by simp [hlookup]), hlookup]
      exact List.mem_cons_of_mem _ (ih h)

theorem whole_notMem_trail_of_opened (h : standing rules path = .opened) :
    some .whole ∉ trail rules path := by
  induction path generalizing rules with
  | nil => exact List.not_mem_nil
  | cons name path ih =>
    rcases hl : List.lookup name rules with _ | _ | inner
    · rw [standing_absent hl] at h
      cases h
    · rw [standing_whole hl] at h
      cases h
    · have hlookup : rules.lookup name = some (.within inner) := lookup_of_key hl
      rw [standing_within hl] at h
      rw [trail_kept (by simp [hlookup]), hlookup, List.mem_cons, not_or]
      exact ⟨nofun, ih h⟩

theorem lookup_of_star (h : standing rules ["*"] = .skipped)
    (hopened : standing rules [name] ≠ .opened) : rules.lookup name = some .whole := by
  have hmem : ("*", .whole) ∈ rules := by
    rcases hl : List.lookup "*" rules with _ | _ | inner
    · rw [standing_absent hl] at h
      cases h
    · exact Table.mem_of_lookup hl
    · rw [standing_within hl] at h
      cases h
  rcases hl : List.lookup name rules with _ | _ | inner
  · rw [lookup, hl]
    refine scan_of_whole_mem (List.mem_filter.2 ⟨hmem, ?_⟩) none
    rw [Wildcard.accepts_star]
    rfl
  · exact lookup_of_key hl
  · rw [standing_within hl] at hopened
    exact absurd rfl hopened

/-- Where a star is skipped literally, only a name with rules of its own is not skipped. -/
theorem whole_mem_trail_of_star {p : List String} (h : standing rules (p ++ ["*"]) = .skipped)
    (hopened : standing rules (p ++ [name]) ≠ .opened) : some .whole ∈ trail rules (p ++ [name]) := by
  rw [standing_append] at h hopened
  cases hp : standing rules p with
  | skipped =>
    have hwhole := whole_mem_trail_of_standing hp
    rwa [trail_append_of_whole hwhole]
  | opened =>
    rw [hp] at h hopened
    rw [trail_append (whole_notMem_trail_of_opened hp), trail_skipped (lookup_of_star h hopened)]
    exact List.mem_append_right _ (List.mem_singleton_self _)
  | free =>
    rw [hp] at h
    cases h

/-! ### One more pattern, with stars -/

theorem standing_addSegments_of_skipped (pattern : List String)
    (h : standing rules path = .skipped) : standing (addSegments pattern rules) path = .skipped := by
  have hne : standing rules path ≠ .free := by simp [h]
  rw [standing_addSegments_of_ne_free pattern hne, h]

/-- A path is opened by the patterns that go on beneath it with anything but a star. -/
theorem opened_or_of_opened_addSegments {pattern : List String}
    (h : standing (addSegments pattern rules) path = .opened) :
    standing rules path = .opened ∨ ∃ y, y ≠ "*" ∧ path ++ [y] <+: pattern := by
  induction pattern generalizing rules path with
  | nil =>
    rw [addSegments] at h
    exact .inl h
  | cons name rest ih =>
    cases path with
    | nil => exact .inl rfl
    | cons key path =>
      by_cases hk : key = name
      · subst hk
        rcases hl : List.lookup key rules with _ | _ | inner
        · have hnew := lookup_addSegments_absent hl rest
          by_cases hrest : rest = [] ∨ rest.head? = some "*"
          · rw [if_pos hrest] at hnew
            rw [standing_whole hnew] at h
            cases h
          · rw [if_neg hrest] at hnew
            rw [standing_within hnew] at h
            rw [not_or] at hrest
            rcases ih h with hpath | ⟨y, hy, hprefix⟩
            · cases path with
              | cons key' path =>
                rw [standing_nil_rules (by simp)] at hpath
                cases hpath
              | nil =>
                cases rest with
                | nil => exact absurd rfl hrest.1
                | cons y rest =>
                  have hy : y ≠ "*" := fun he => hrest.2 (by rw [he]; rfl)
                  exact .inr ⟨y, hy, by simp⟩
            · exact .inr ⟨y, hy, by simpa using hprefix⟩
        · rw [standing_whole (lookup_addSegments_whole hl rest)] at h
          cases h
        · rw [standing_within (lookup_addSegments_within hl rest)] at h
          rw [standing_within hl]
          rcases ih h with hpath | ⟨y, hy, hprefix⟩
          · exact .inl hpath
          · exact .inr ⟨y, hy, by simpa using hprefix⟩
      · rw [standing, lookup_addSegments_of_ne hk] at h
        exact .inl h

/-- A pattern hides what it names before its end or before a star, unless that is opened. -/
theorem standing_addSegments_self {p tail : List String} (hp : p ≠ [])
    (htail : tail = [] ∨ tail.head? = some "*") (h : standing rules p ≠ .opened) :
    standing (addSegments (p ++ tail) rules) p = .skipped := by
  induction p generalizing rules with
  | nil => exact absurd rfl hp
  | cons name p ih =>
    rw [List.cons_append]
    rcases hl : List.lookup name rules with _ | _ | inner
    · have hnew := lookup_addSegments_absent hl (p ++ tail)
      by_cases hrest : p ++ tail = [] ∨ (p ++ tail).head? = some "*"
      · rw [if_pos hrest] at hnew
        exact standing_whole hnew p
      · rw [if_neg hrest] at hnew
        rw [standing_within hnew]
        have hne : p ≠ [] := by
          rintro rfl
          exact hrest htail
        exact ih hne (by rw [standing_nil_rules hne]; decide)
    · exact standing_whole (lookup_addSegments_whole hl _) p
    · rw [standing_within hl] at h
      rw [standing_within (lookup_addSegments_within hl _)]
      have hne : p ≠ [] := by
        rintro rfl
        exact h rfl
      exact ih hne h

/-! ### All patterns -/

/-- One of the patterns goes on beneath the path, with anything but a star. -/
def GoesOn (patterns : List String) (path : List String) : Prop :=
  ∃ q ∈ patterns, ∃ y, y ≠ "*" ∧ path ++ [y] <+: segments q

theorem standing_foldl_of_skipped (patterns : List String) (h : standing rules path = .skipped) :
    standing (patterns.foldl add rules) path = .skipped := by
  induction patterns generalizing rules with
  | nil => exact h
  | cons q patterns ih => exact ih (standing_addSegments_of_skipped (segments q) h)

theorem opened_or_goesOn_of_opened_foldl {patterns : List String}
    (h : standing (patterns.foldl add rules) path = .opened) :
    standing rules path = .opened ∨ GoesOn patterns path := by
  induction patterns generalizing rules with
  | nil => exact .inl h
  | cons q patterns ih =>
    rcases ih h with hopened | ⟨q', hq', hy⟩
    · rcases opened_or_of_opened_addSegments hopened with hopened | hy
      · exact .inl hopened
      · exact .inr ⟨q, List.mem_cons_self .., hy⟩
    · exact .inr ⟨q', List.mem_cons_of_mem _ hq', hy⟩

theorem goesOn_of_opened {patterns : List String} (hpath : path ≠ [])
    (h : standing (ofPatterns patterns) path = .opened) : GoesOn patterns path := by
  rcases opened_or_goesOn_of_opened_foldl h with hopened | hgoes
  · rw [standing_nil_rules hpath] at hopened
    cases hopened
  · exact hgoes

theorem segments_star (p : String) : segments (p ++ ".*") = segments p ++ ["*"] := by
  have htext : p ++ ".*" = p ++ "." ++ "*" := by rw [String.append_assoc]; rfl
  rw [htext, segments_append_dot]
  rfl

section

variable {front back : List String} {pattern p : String}

/-- A pattern that names a path, up to its end or to a star, hides it if none before goes on
beneath it. -/
theorem standing_ofPatterns_of_not_goesOn (back : List String) {path tail : List String}
    (hpattern : segments pattern = path ++ tail) (hpath : path ≠ [])
    (htail : tail = [] ∨ tail.head? = some "*") (h : ¬ GoesOn front path) :
    standing (ofPatterns (front ++ pattern :: back)) path = .skipped := by
  rw [ofPatterns_append, List.foldl_cons]
  refine standing_foldl_of_skipped back ?_
  rw [add, hpattern]
  exact standing_addSegments_self hpath htail fun hopened => h (goesOn_of_opened hpath hopened)

theorem whole_mem_trail_beneath (hpattern : pattern = p ∨ pattern = p ++ ".*")
    (h : ¬ GoesOn front (segments p)) (path : List String) :
    some .whole ∈ trail (ofPatterns (front ++ pattern :: back)) (segments p ++ path) := by
  have hsegments : ∃ tail, segments pattern = segments p ++ tail ∧
      (tail = [] ∨ tail.head? = some "*") := by
    rcases hpattern with rfl | rfl
    · exact ⟨[], (List.append_nil _).symm, .inl rfl⟩
    · exact ⟨["*"], segments_star p, .inr rfl⟩
  obtain ⟨tail, hsegments, htail⟩ := hsegments
  have hskipped := standing_ofPatterns_of_not_goesOn back hsegments (segments_ne_nil p) htail h
  have hwhole := whole_mem_trail_of_standing hskipped
  rwa [trail_append_of_whole hwhole]

/-- Beneath `p` the pattern `p.*` skips each name without rules of its own. -/
theorem whole_mem_trail_of_not_goesOn {x : String} (h : ¬ GoesOn front (segments p ++ ["*"]))
    (hown : ¬ GoesOn (front ++ back) (segments p ++ [x])) :
    some .whole ∈ trail (ofPatterns (front ++ (p ++ ".*") :: back)) (segments p ++ [x]) := by
  have hsegments : segments (p ++ ".*") = segments p ++ ["*"] ++ [] := by
    rw [segments_star, List.append_nil]
  have hskipped := standing_ofPatterns_of_not_goesOn back hsegments (by simp) (.inl rfl) h
  refine whole_mem_trail_of_star hskipped fun hopened => ?_
  obtain ⟨q, hq, y, hy, hprefix⟩ := goesOn_of_opened (by simp) hopened
  rcases List.mem_append.1 hq with hq | hq
  · exact hown ⟨q, List.mem_append_left _ hq, y, hy, hprefix⟩
  · rcases List.mem_cons.1 hq with rfl | hq
    · have hlength := hprefix.length_le
      rw [segments_star] at hlength
      simp at hlength
    · exact hown ⟨q, List.mem_append_right _ hq, y, hy, hprefix⟩

end

end Rules

/-! ### What is collected -/

namespace Collector

open Occurrence Rules

variable {c : Collector} {rules : Rules} {selections : List Selection}

/-- A reading under rules holds nothing that they skip. -/
theorem Reads.pruneAll_eq {found : List Occurrence} (h : c.Reads rules selections found) :
    pruneAll rules found = found := by
  induction h with
  | nil => rw [pruneAll]
  | rejected _ _ ih | skipped _ _ _ ih => exact ih
  | leaf _ hl _ ih => rw [pruneAll_cons, prune_leaf_kept hl, ih]; rfl
  | branch _ hl _ _ _ ih₁ ih₂ => rw [pruneAll_cons, prune_branch_kept hl, ih₁, ih₂]; rfl
  | inlineFragment _ _ _ ih₁ ih₂ | fragment _ _ _ _ ih₁ ih₂ => rw [pruneAll_append, ih₁, ih₂]
  | unknownFragment _ _ _ ih => rw [pruneAll_cons, Occurrence.prune, ih]; rfl

theorem prune_eq_of_collect {result : Logged Fields}
    (h : c.collect rules selections [] = .ok result) :
    Fields.prune rules result.value = result.value := by
  obtain ⟨found, hr, rfl⟩ := exists_reads_of_collect h
  rw [Fields.prune_absorb, Fields.prune_nil, hr.pruneAll_eq]

theorem whole_notMem_trail_of_collect {result : Logged Fields}
    (h : c.collect rules selections [] = .ok result) {path : List String}
    (hpath : result.value.hasPath path = true) : some .whole ∉ trail rules path :=
  whole_notMem_trail_of_hasPath (by rwa [prune_eq_of_collect h])

/-- A pattern `p` or `p.*` hides everything beneath `p`, unless one before it goes on beneath `p`.
Even then `p.*` hides what has no pattern of its own that goes on beneath it, unless one before it
goes on beneath the star. -/
theorem not_hasPath_beneath (front back : List String) {pattern p : String}
    (hpattern : pattern = p ∨ pattern = p ++ ".*") {result : Logged Fields}
    (h : c.collect (ofPatterns (front ++ pattern :: back)) selections [] = .ok result)
    (x : String) (rest : List String) :
    (¬ GoesOn front (segments p) → result.value.hasPath (segments p ++ x :: rest) = false) ∧
    (pattern = p ++ ".*" → ¬ GoesOn front (segments p ++ ["*"]) →
      result.value.hasPath (segments p ++ x :: rest) = true →
      GoesOn (front ++ back) (segments p ++ [x])) := by
  constructor
  · intro hnot
    by_contra hpath
    exact whole_notMem_trail_of_collect h (Bool.not_eq_false _ ▸ hpath)
      (whole_mem_trail_beneath hpattern hnot _)
  · rintro rfl hnot hpath
    have hshort : result.value.hasPath (segments p ++ [x]) = true := by
      rw [List.append_cons] at hpath
      exact Fields.hasPath_of_append hpath
    by_contra hown
    exact whole_notMem_trail_of_collect h hshort (whole_mem_trail_of_not_goesOn hnot hown)

theorem star_hides_all_but_own_rules :
    (Collector.mk [] [] true).collect (ofPatterns ["a.b.c", "a.*", "a.d.e"])
        [.field "a" none [] [.field "b" none [] [.field "x" none [] []], .field "f" none [] [],
          .field "d" none [] [.field "g" none [] []]]] [] =
      .ok ⟨[("a", .branch [("b", .branch [("x", .leaf)]), ("d", .branch [("g", .leaf)])])], []⟩ ∧
    ¬ GoesOn ["a.b.c"] ["a", "*"] ∧ GoesOn ["a.b.c", "a.d.e"] ["a", "d"] ∧
    ¬ GoesOn ["b.c"] ["a"] ∧
    (Collector.mk [] [] true).collect (ofPatterns ["b.c", "a", "a.d.e"])
        [.field "a" none [] [.field "d" none [] []], .field "b" none [] []] [] =
      .ok ⟨[("b", .leaf)], []⟩ ∧
    Fields.hasPath [("b", .leaf)] ["a", "d"] = false := by
  have hopened : (Collector.mk [] [] true).collect (ofPatterns ["a.b.c", "a.*", "a.d.e"])
      [.field "a" none [] [.field "b" none [] [.field "x" none [] []], .field "f" none [] [],
        .field "d" none [] [.field "g" none [] []]]] [] =
      .ok ⟨[("a", .branch [("b", .branch [("x", .leaf)]), ("d", .branch [("g", .leaf)])])], []⟩ := rfl
  have hstar : ¬ GoesOn ["a.b.c"] ["a", "*"] := by
    rintro ⟨q, hq, y, -, hprefix⟩
    obtain rfl := List.mem_singleton.1 hq
    have hsegments : segments "a.b.c" = ["a", "b", "c"] := rfl
    simp [hsegments] at hprefix
  have hfree : ¬ GoesOn ["b.c"] ["a"] := by
    rintro ⟨q, hq, y, -, hprefix⟩
    obtain rfl := List.mem_singleton.1 hq
    have hsegments : segments "b.c" = ["b", "c"] := rfl
    simp [hsegments] at hprefix
  have hhidden : (Collector.mk [] [] true).collect (ofPatterns ["b.c", "a", "a.d.e"])
      [.field "a" none [] [.field "d" none [] []], .field "b" none [] []] [] =
      .ok ⟨[("b", .leaf)], []⟩ := rfl
  refine ⟨hopened, hstar, ?_, hfree, hhidden, ?_⟩
  · exact (not_hasPath_beneath ["a.b.c"] ["a.d.e"] (p := "a") (.inr rfl) hopened "d" ["g"]).2 rfl
      hstar rfl
  · exact (not_hasPath_beneath ["b.c"] ["a.d.e"] (p := "a") (.inl rfl) hhidden "d" []).1 hfree

/-- A rule for a name wins over a star, so not every pattern hides what is beneath it. -/
theorem own_rule_wins_over_star :
    ¬ ∀ (patterns : List String) (p : String), '*' ∉ p.toList →
      p ∈ patterns ∨ p ++ ".*" ∈ patterns →
      ∀ (c : Collector) (selections : List Selection) (result : Logged Fields),
        c.collect (ofPatterns patterns) selections [] = .ok result →
        ∀ (x : String) (rest : List String),
          result.value.hasPath (segments p ++ x :: rest) = false := by
  intro hall
  have hhidden := hall ["a.b.c", "a.*"] "a" (by decide) (.inr (by decide)) ⟨[], [], true⟩
    [.field "a" none [] [.field "b" none [] [.field "d" none [] []]]]
    ⟨[("a", .branch [("b", .branch [("d", .leaf)])])], []⟩ rfl "b" ["d"]
  have hrequested : Fields.hasPath [("a", .branch [("b", .branch [("d", .leaf)])])]
      ["a", "b", "d"] = true := rfl
  exact Bool.false_ne_true (hhidden.symm.trans hrequested)

end Collector

end Lookahead
