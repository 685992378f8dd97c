import Lookahead.Proofs.LiteralPatterns

/-!
# How rules grow

A further pattern leaves every rule as it is and where it is. It adds something exactly if it is free
so far (`Rules.standing`), and then one branch: the part of the pattern that is new, up to its next
star, as rules one inside the other of which the last one skips (`Rules.chain`), at the end of the
rules of one level (`Rules.Hung`). So what was compiled from patterns ends in a skip everywhere
(`Rules.Filled`), and a pattern that comes again adds nothing, whatever came in between
(`add_foldl_eq_self`).
-/

namespace Lookahead.Rules

/-! ### One branch more -/

/-- A rule for each name of a path, one inside the other, and a skip at the end. -/
def chain : List String → Rule
  | [] => .whole
  | name :: path => .within [(name, chain path)]

/-- The second rules are the first ones with one entry more, at the end of those beneath a path. -/
inductive Hung (entry : String × Rule) : List String → Rules → Rules → Prop
  | here {rules} (h : entry.1 ∉ Table.keys rules) : Hung entry [] rules (rules ++ [entry])
  | beneath {name path front back inner later} (h : name ∉ Table.keys front)
    (tail : Hung entry path inner later) :
    Hung entry (name :: path) (front ++ (name, .within inner) :: back)
      (front ++ (name, .within later) :: back)

variable {rules later : Rules} {pattern path : List String} {entry : String × Rule}

/-- Where there are no rules yet, a pattern is compiled up to its first star. -/
theorem created_eq_chain (rest : List String) :
    (if rest = [] ∨ rest.head? = some "*" then Rule.whole else .within (addSegments rest [])) =
      chain (rest.takeWhile (· != "*")) := by
  induction rest with
  | nil => rfl
  | cons next rest ih =>
    by_cases hstar : next = "*"
    · simp [hstar, chain]
    · have hcreated : addSegments (next :: rest) [] = [(next, chain (rest.takeWhile (· != "*")))] := by
        rw [← ih]
        rfl
      simp [hstar, hcreated, chain]

theorem hung_addSegments (h : standing rules pattern = .free) :
    ∃ path name rest, pattern = path ++ name :: rest ∧
      Hung (name, chain (rest.takeWhile (· != "*"))) path rules (addSegments pattern rules) := by
  -- down the path that is there, to the first name that is not
  induction pattern generalizing rules with
  | nil => cases h
  | cons name rest ih =>
    rcases hl : List.lookup name rules with _ | _ | inner
    · have hname : name ∉ Table.keys rules := by simp [← Table.lookup_isSome_iff, hl]
      refine ⟨[], name, rest, rfl, ?_⟩
      rw [addSegments, Table.update_of_notMem hname, ← created_eq_chain]
      exact .here hname
    · rw [standing_whole hl] at h
      cases h
    · rw [standing_within hl] at h
      obtain ⟨path, key, tail, rfl, hhung⟩ := ih h
      obtain ⟨front, back, rfl, hname⟩ := Table.exists_append_of_lookup hl
      refine ⟨name :: path, key, tail, rfl, ?_⟩
      rw [addSegments, Table.update_append hname]
      exact .beneath hname hhung

theorem addSegments_eq_self (h : standing rules pattern ≠ .free) :
    addSegments pattern rules = rules := by
  induction pattern generalizing rules with
  | nil => rw [addSegments]
  | cons name rest ih =>
    rw [addSegments]
    rcases hl : List.lookup name rules with _ | _ | inner
    · exact absurd (standing_absent hl rest) h
    · exact Table.update_eq_self hl rfl
    · rw [standing_within hl] at h
      exact Table.update_eq_self hl (congrArg Rule.within (ih h))

/-! ### Skips at every end -/

/-- What stands at a path of the rules. -/
inductive At : Rules → List String → Rule → Prop
  | here {rules : Rules} {name rule} (h : (name, rule) ∈ rules) : At rules [name] rule
  | beneath {rules : Rules} {name inner} {path : List String} {rule}
    (h : (name, Rule.within inner) ∈ rules) (tail : At inner path rule) :
    At rules (name :: path) rule

/-- No rules are empty, unless those for the root are. -/
inductive Filled : Rules → Prop
  | mk {rules : Rules} (filled : ∀ name inner, (name, Rule.within inner) ∈ rules → inner ≠ [])
    (inner : ∀ name inner, (name, Rule.within inner) ∈ rules → Filled inner) : Filled rules

theorem At.concat {inner : Rules} {name : String} {rule : Rule} (h : At rules path (.within inner))
    (hmem : (name, rule) ∈ inner) : At rules (path ++ [name]) rule := by
  generalize hr : Rule.within inner = top at h
  induction h with
  | here h =>
    subst hr
    exact .beneath h (.here hmem)
  | beneath h _ ih => exact .beneath h (ih hr)

theorem Hung.ne_nil (h : Hung entry path rules later) : later ≠ [] := by
  cases h <;> simp

namespace Filled

theorem of_forall (h : ∀ name inner, (name, Rule.within inner) ∈ rules → inner ≠ [] ∧ Filled inner) :
    Filled rules :=
  ⟨fun _ _ hmem => (h _ _ hmem).1, fun _ _ hmem => (h _ _ hmem).2⟩

theorem of_mem {name : String} {inner : Rules} (h : Filled rules)
    (hmem : (name, Rule.within inner) ∈ rules) : inner ≠ [] ∧ Filled inner := by
  obtain ⟨filled, inner⟩ := h
  exact ⟨filled _ _ hmem, inner _ _ hmem⟩

theorem nil : Filled [] := of_forall nofun

theorem chain (name : String) (path : List String) : Filled [(name, chain path)] := by
  induction path generalizing name with
  | nil => exact of_forall (by simp [Rules.chain])
  | cons next path ih =>
    refine of_forall fun key inner hmem => ?_
    cases List.mem_singleton.1 hmem
    exact ⟨List.cons_ne_nil _ _, ih next⟩

theorem hung (hrules : Filled rules) (hentry : Filled [entry]) (h : Hung entry path rules later) :
    Filled later := by
  induction h with
  | here =>
    refine of_forall fun name inner hmem => ?_
    rcases List.mem_append.1 hmem with hmem | hmem
    · exact hrules.of_mem hmem
    · exact hentry.of_mem hmem
  | beneath _ tail ih =>
    have hgrown := ih (hrules.of_mem (List.mem_append_right _ (List.mem_cons_self ..))).2
    refine of_forall fun name inner hmem => ?_
    -- an entry is the one that has grown, or was there before
    rcases List.mem_append.1 hmem with hfront | hmem
    · exact hrules.of_mem (List.mem_append_left _ hfront)
    rcases List.mem_cons.1 hmem with he | hback
    · cases he
      exact ⟨tail.ne_nil, hgrown⟩
    · exact hrules.of_mem (List.mem_append_right _ (List.mem_cons_of_mem _ hback))

theorem addSegments (hrules : Filled rules) (pattern : List String) :
    Filled (addSegments pattern rules) := by
  by_cases h : standing rules pattern = .free
  · obtain ⟨path, name, rest, -, hhung⟩ := hung_addSegments h
    exact hrules.hung (Filled.chain name _) hhung
  · rwa [addSegments_eq_self h]

theorem foldl (hrules : Filled rules) (patterns : List String) :
    Filled (patterns.foldl add rules) := by
  induction patterns generalizing rules with
  | nil => exact hrules
  | cons p patterns ih => exact ih (hrules.addSegments (segments p))

theorem ne_nil {inner : Rules} (hrules : Filled rules) (h : At rules path (.within inner)) :
    inner ≠ [] := by
  generalize hr : Rule.within inner = rule at h
  induction h with
  | here h =>
    subst hr
    exact (hrules.of_mem h).1
  | beneath h _ ih => exact ih (hrules.of_mem h).2 hr

/-- A path that cannot be followed further ends in a skip. -/
theorem eq_whole {rule : Rule} (hrules : Filled rules) (h : At rules path rule)
    (hend : ∀ name below, ¬ At rules (path ++ [name]) below) : rule = .whole := by
  cases rule with
  | whole => rfl
  | within inner =>
    obtain ⟨⟨name, below⟩, inner, rfl⟩ := List.exists_cons_of_ne_nil (hrules.ne_nil h)
    exact absurd (h.concat (List.mem_cons_self ..)) (hend name below)

end Filled

/-! ### Patterns that come again -/

theorem standing_addSegments_pattern (pattern : List String) (rules : Rules) :
    standing (addSegments pattern rules) pattern ≠ .free := by
  induction pattern generalizing rules with
  | nil => nofun
  | cons name rest ih =>
    rcases hl : List.lookup name rules with _ | _ | inner
    · have hnew := lookup_addSegments_absent hl rest
      split at hnew
      · rw [standing_whole hnew]
        nofun
      · rw [standing_within hnew]
        exact ih []
    · rw [standing_whole (lookup_addSegments_whole hl rest)]
      nofun
    · rw [standing_within (lookup_addSegments_within hl rest)]
      exact ih inner

theorem standing_foldl_ne_free (patterns : List String) (h : standing rules path ≠ .free) :
    standing (patterns.foldl add rules) path ≠ .free := by
  induction patterns generalizing rules with
  | nil => exact h
  | cons q patterns ih => exact ih (by rwa [add, standing_addSegments_of_ne_free _ h])

variable {p : String} {patterns : List String}

/-- A pattern that comes again adds nothing, whatever came in between. -/
theorem add_foldl_eq_self (rules : Rules) (p : String) (others : List String) :
    add (others.foldl add (add rules p)) p = others.foldl add (add rules p) :=
  addSegments_eq_self (standing_foldl_ne_free others (standing_addSegments_pattern _ rules))

theorem ofPatterns_repeated (h : p ∈ patterns) (back : List String) :
    ofPatterns (patterns ++ p :: back) = ofPatterns (patterns ++ back) := by
  obtain ⟨front, others, rfl⟩ := List.append_of_mem h
  have hagain : add (ofPatterns (front ++ p :: others)) p = ofPatterns (front ++ p :: others) := by
    rw [ofPatterns_append]
    exact add_foldl_eq_self (ofPatterns front) p others
  rw [ofPatterns_append _ (p :: back), List.foldl_cons, hagain, ofPatterns_append _ back]

theorem foldl_add_filter (h : standing rules (segments p) ≠ .free) (patterns : List String) :
    (patterns.filter fun q => !q == p).foldl add rules = patterns.foldl add rules := by
  induction patterns generalizing rules with
  | nil => rfl
  | cons q patterns ih =>
    have hadd : standing (add rules q) (segments p) ≠ .free := standing_foldl_ne_free [q] h
    by_cases hq : q = p
    · subst hq
      rw [List.filter_cons_of_neg (by simp), List.foldl_cons, ih h, add, addSegments_eq_self h]
    · rw [List.filter_cons_of_pos (by simp [hq]), List.foldl_cons, List.foldl_cons, ih hadd]

theorem foldl_add_eraseDups (patterns : List String) (rules : Rules) :
    patterns.eraseDups.foldl add rules = patterns.foldl add rules := by
  cases patterns with
  | nil => rfl
  | cons p patterns =>
    have hp : standing (add rules p) (segments p) ≠ .free := standing_addSegments_pattern _ rules
    rw [List.eraseDups_cons, List.foldl_cons, List.foldl_cons, foldl_add_eraseDups,
      foldl_add_filter hp]
termination_by patterns.length
decreasing_by exact Nat.lt_succ_of_le (List.length_filter_le ..)

/-- A further pattern keeps all rules and hangs one chain into them if it is free, and otherwise adds
nothing; so no rules beneath the root are empty and every end is a skip. A pattern adds nothing when it
comes again, so repetitions in a list of patterns make no difference. -/
theorem ofPatterns_grow (patterns : List String) (p : String) :
    (standing (ofPatterns patterns) (segments p) = .free →
      ∃ path name rest, segments p = path ++ name :: rest ∧
        Hung (name, chain (rest.takeWhile (· != "*"))) path (ofPatterns patterns)
          (add (ofPatterns patterns) p)) ∧
    (standing (ofPatterns patterns) (segments p) ≠ .free →
      add (ofPatterns patterns) p = ofPatterns patterns) ∧
    (∀ path inner, At (ofPatterns patterns) path (.within inner) → inner ≠ []) ∧
    (∀ path rule, At (ofPatterns patterns) path rule →
      (∀ name below, ¬ At (ofPatterns patterns) (path ++ [name]) below) → rule = .whole) ∧
    (∀ others : List String, add (others.foldl add (add (ofPatterns patterns) p)) p =
      others.foldl add (add (ofPatterns patterns) p)) ∧
    (p ∈ patterns → ∀ back : List String,
      ofPatterns (patterns ++ p :: back) = ofPatterns (patterns ++ back)) ∧
    ofPatterns patterns.eraseDups = ofPatterns patterns := by
  have hfilled : Filled (ofPatterns patterns) := Filled.nil.foldl patterns
  refine ⟨hung_addSegments, addSegments_eq_self, fun path inner h => hfilled.ne_nil h,
    fun path rule h => hfilled.eq_whole h, add_foldl_eq_self _ p, ofPatterns_repeated, ?_⟩
  exact foldl_add_eraseDups patterns []

/-- Patterns that lead to a star with rules of its own. -/
def starPatterns : List String := ["users.id", "users.*.name", "users.id"]

theorem starPatterns_grow :
    standing (ofPatterns starPatterns) (segments "users.*.email.*.x") = .free ∧
    (∃ path name rest, segments "users.*.email.*.x" = path ++ name :: rest ∧
      Hung (name, chain (rest.takeWhile (· != "*"))) path (ofPatterns starPatterns)
        (add (ofPatterns starPatterns) "users.*.email.*.x")) ∧
    standing (ofPatterns starPatterns) (segments "users.*") ≠ .free ∧
    add (ofPatterns starPatterns) "users.*" = ofPatterns starPatterns ∧
    At (ofPatterns starPatterns) ["users", "*"] (.within [("name", .whole)]) ∧
    ofPatterns (starPatterns ++ "users.id" :: ["a.b"]) = ofPatterns (starPatterns ++ ["a.b"]) ∧
    starPatterns.eraseDups = ["users.id", "users.*.name"] ∧
    ofPatterns ["users.id", "users.*.name"] = ofPatterns starPatterns := by
  have hfree : standing (ofPatterns starPatterns) (segments "users.*.email.*.x") = .free := rfl
  have hopened : standing (ofPatterns starPatterns) (segments "users.*") ≠ .free := nofun
  have hat : At (ofPatterns starPatterns) ["users", "*"] (.within [("name", .whole)]) :=
    .beneath (.head _) (.here (.tail _ (.head _)))
  obtain ⟨hnew, -⟩ := ofPatterns_grow starPatterns "users.*.email.*.x"
  obtain ⟨-, hsame, -⟩ := ofPatterns_grow starPatterns "users.*"
  obtain ⟨-, -, -, -, -, hrepeated, honce⟩ := ofPatterns_grow starPatterns "users.id"
  have herased : starPatterns.eraseDups = ["users.id", "users.*.name"] := by decide
  rw [herased] at honce
  exact ⟨hfree, hnew hfree, hopened, hsame hopened, hat, hrepeated (by decide) ["a.b"], herased, honce⟩

end Lookahead.Rules
