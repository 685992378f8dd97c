import Lookahead.Rules
import Mathlib.Data.List.Perm.Basic

/-!
# Which rule decides

For one name several rules of a level may be meant. A rule for the name itself decides alone. Of the
wildcards that accept the name (`Rules.matching`), one that skips decides, wherever it stands, and
otherwise the last one does. So in whatever order the rules stand, the same names are skipped and the
same names are left without a rule; only which children of a field are skipped may depend on the order
(`lookup_decides`).
-/

namespace Lookahead.Rules

/-- The wildcard rules that accept a name, in order. -/
def matching (name : String) (rules : Rules) : Rules :=
  rules.filter fun entry => Wildcard.hasStar entry.1 && Wildcard.accepts entry.1 name

variable {rules : Rules} {name key : String} {rule : Rule}

theorem matching_cons (name : String) (entry : String × Rule) (rules : Rules) :
    matching name (entry :: rules) =
      if Wildcard.hasStar entry.1 && Wildcard.accepts entry.1 name then
        entry :: matching name rules
      else matching name rules := List.filter_cons

/-! ### One rule after another -/

theorem scan_cons_other (h : ¬ (Wildcard.hasStar key && Wildcard.accepts key name) = true)
    (found : Option Rule) : scan name found ((key, rule) :: rules) = scan name found rules := by
  rw [scan.eq_def]
  exact if_neg h

theorem scan_cons_whole (h : (Wildcard.hasStar key && Wildcard.accepts key name) = true)
    (found : Option Rule) : scan name found ((key, .whole) :: rules) = some .whole := by
  rw [scan.eq_def]
  exact if_pos h

theorem scan_cons_within (h : (Wildcard.hasStar key && Wildcard.accepts key name) = true)
    (found : Option Rule) (inner : Rules) :
    scan name found ((key, .within inner) :: rules) = scan name (some (.within inner)) rules := by
  rw [scan.eq_def]
  exact if_pos h

theorem scan_of_whole_mem (h : (key, .whole) ∈ matching name rules) (found : Option Rule) :
    scan name found rules = some .whole := by
  induction rules generalizing found with
  | nil => cases h
  | cons entry rules ih =>
    obtain ⟨k, rule⟩ := entry
    rw [matching_cons] at h
    split at h
    · next hm =>
      cases rule with
      | whole => exact scan_cons_whole hm found
      | within inner =>
        rw [scan_cons_within hm]
        rcases List.mem_cons.1 h with he | hrest
        · cases he
        · exact ih hrest _
    · next hm =>
      rw [scan_cons_other hm]
      exact ih h found

theorem scan_of_whole_notMem (h : ∀ key, (key, .whole) ∉ matching name rules)
    (found : Option Rule) :
    scan name found rules = ((matching name rules).getLast?.map Prod.snd).or found := by
  induction rules generalizing found with
  | nil => rfl
  | cons entry rules ih =>
    obtain ⟨k, rule⟩ := entry
    rw [matching_cons] at h ⊢
    split at h
    · next hm =>
      rw [if_pos hm]
      cases rule with
      | whole => exact absurd (List.mem_cons_self ..) (h k)
      | within inner =>
        have hrest := ih fun key hkey => h key (List.mem_cons_of_mem _ hkey)
        rw [scan_cons_within hm, hrest, List.getLast?_cons]
        cases (matching name rules).getLast? <;> rfl
    · next hm =>
      rw [scan_cons_other hm, if_neg hm]
      exact ih h found

/-! ### The rule for a name -/

theorem lookup_of_notMem_keys (hk : name ∉ Table.keys rules) :
    lookup rules name = scan name none rules := by
  rw [← Table.lookup_isSome_iff, Option.not_isSome_iff_eq_none] at hk
  rw [lookup, hk]

theorem lookup_of_mem (hn : (Table.keys rules).Nodup) (h : (name, rule) ∈ rules) :
    lookup rules name = some rule := lookup_of_key (Table.lookup_of_mem hn h)

theorem lookup_eq_whole_iff (hk : name ∉ Table.keys rules) :
    lookup rules name = some .whole ↔ ∃ key, (key, .whole) ∈ matching name rules := by
  rw [lookup_of_notMem_keys hk]
  constructor
  · intro h
    by_contra hnone
    rw [scan_of_whole_notMem (not_exists.1 hnone), Option.or_none] at h
    obtain ⟨⟨key, _⟩, hlast, rfl⟩ := Option.map_eq_some_iff.1 h
    exact hnone ⟨key, List.mem_of_getLast? hlast⟩
  · rintro ⟨key, h⟩
    exact scan_of_whole_mem h none

theorem lookup_eq_none_iff (hk : name ∉ Table.keys rules) :
    lookup rules name = none ↔ matching name rules = [] := by
  by_cases hwhole : ∃ key, (key, .whole) ∈ matching name rules
  · rw [(lookup_eq_whole_iff hk).2 hwhole]
    obtain ⟨key, h⟩ := hwhole
    exact ⟨nofun, fun he => by rw [he] at h; cases h⟩
  · rw [lookup_of_notMem_keys hk, scan_of_whole_notMem (not_exists.1 hwhole), Option.or_none,
      Option.map_eq_none_iff, List.getLast?_eq_none_iff]

/-- In another order the rules skip the same names and leave the same names without a rule. -/
theorem lookup_perm {rules' : Rules} (hn : (Table.keys rules).Nodup) (hp : rules.Perm rules')
    (name : String) :
    (lookup rules' name = some .whole ↔ lookup rules name = some .whole) ∧
      (lookup rules' name = none ↔ lookup rules name = none) := by
  have hkeys : (Table.keys rules).Perm (Table.keys rules') := hp.map Prod.fst
  by_cases hk : name ∈ Table.keys rules
  · obtain ⟨⟨_, rule⟩, hmem, rfl⟩ := List.mem_map.1 hk
    rw [lookup_of_mem hn hmem, lookup_of_mem (hkeys.nodup_iff.1 hn) (hp.mem_iff.1 hmem)]
    exact ⟨Iff.rfl, Iff.rfl⟩
  · have hk' : name ∉ Table.keys rules' := fun h => hk (hkeys.mem_iff.2 h)
    have hmatching : (matching name rules).Perm (matching name rules') := hp.filter _
    rw [lookup_eq_whole_iff hk, lookup_eq_whole_iff hk', lookup_eq_none_iff hk,
      lookup_eq_none_iff hk']
    constructor
    · simp only [hmatching.mem_iff]
    · constructor
      · intro h
        exact (h ▸ hmatching).eq_nil
      · intro h
        exact (h ▸ hmatching).symm.eq_nil

/-- A rule for another name does not matter to a name that has its own. -/
theorem lookup_insert {front back : Rules} (hk : name ∈ Table.keys (front ++ back))
    (hne : name ≠ key) (rule : Rule) :
    lookup (front ++ (key, rule) :: back) name = lookup (front ++ back) name := by
  obtain ⟨own, hown⟩ := Option.isSome_iff_exists.1 (Table.lookup_isSome_iff.2 hk)
  rw [lookup_of_key hown]
  refine lookup_of_key ?_
  rw [List.lookup_append] at hown ⊢
  rw [Table.lookup_cons, if_neg hne, hown]

/-- The rule for the name itself decides; without one, a wildcard that skips, and without that the last
wildcard that accepts the name. The order of the rules has no say in what is skipped or without a rule,
and a further rule for another key none in what applies to a name that has a rule of its own. -/
theorem lookup_decides {rules : Rules} (hn : (Table.keys rules).Nodup) (name : String) :
    (∀ rule, (name, rule) ∈ rules → lookup rules name = some rule) ∧
    (name ∉ Table.keys rules →
      ((∃ key, (key, .whole) ∈ matching name rules) → lookup rules name = some .whole) ∧
      ((∀ key, (key, .whole) ∉ matching name rules) →
        lookup rules name = (matching name rules).getLast?.map Prod.snd)) ∧
    (∀ rules', rules.Perm rules' →
      (lookup rules' name = some .whole ↔ lookup rules name = some .whole) ∧
      (lookup rules' name = none ↔ lookup rules name = none)) ∧
    ∀ front back, rules = front ++ back → name ∈ Table.keys rules → ∀ key, key ∉ Table.keys rules →
      ∀ rule, lookup (front ++ (key, rule) :: back) name = lookup rules name := by
  refine ⟨fun rule h => lookup_of_mem hn h, fun hk => ⟨(lookup_eq_whole_iff hk).2, fun h => ?_⟩,
    fun rules' hp => lookup_perm hn hp name, ?_⟩
  · rw [lookup_of_notMem_keys hk, scan_of_whole_notMem h, Option.or_none]
  · rintro front back rfl hk key hkey rule
    exact lookup_insert hk (fun he => hkey (by rwa [← he])) rule

/-- Two wildcards for user names, and rules for `id`. -/
def userRules : Rules :=
  [("user*", .within [("a", .whole)]), ("id", .within [("b", .whole)]),
    ("*name", .within [("c", .whole)])]

theorem lookup_userRules :
    (Table.keys userRules).Nodup ∧ "username" ∉ Table.keys userRules ∧
    (∀ key, (key, .whole) ∉ matching "username" userRules) ∧
    lookup userRules "username" = some (.within [("c", .whole)]) ∧
    lookup userRules.reverse "username" ≠ none ∧
    lookup userRules.reverse "username" ≠ some .whole ∧
    lookup (userRules ++ [("*d", .whole)]) "id" = some (.within [("b", .whole)]) := by
  have hn : (Table.keys userRules).Nodup := by decide
  have hk : "username" ∉ Table.keys userRules := by decide
  have hmatching : matching "username" userRules =
      [("user*", .within [("a", .whole)]), ("*name", .within [("c", .whole)])] := rfl
  have hwhole : ∀ key, (key, .whole) ∉ matching "username" userRules := by
    rw [hmatching]
    simp
  obtain ⟨-, hwildcards, hordered, -⟩ := lookup_decides hn "username"
  have hlookup : lookup userRules "username" = some (.within [("c", .whole)]) := by
    rw [(hwildcards hk).2 hwhole, hmatching]
    rfl
  obtain ⟨hskipped, hfree⟩ := hordered userRules.reverse (List.reverse_perm _).symm
  rw [hlookup] at hskipped hfree
  obtain ⟨hown, -, -, hinserted⟩ := lookup_decides hn "id"
  have hid : lookup userRules "id" = some (.within [("b", .whole)]) :=
    hown _ (.tail _ (List.mem_cons_self ..))
  refine ⟨hn, hk, hwhole, hlookup, by simp [hfree], by simp [hskipped], ?_⟩
  rw [hinserted userRules [] (List.append_nil _).symm (by decide) "*d" (by decide) .whole, hid]

end Lookahead.Rules
