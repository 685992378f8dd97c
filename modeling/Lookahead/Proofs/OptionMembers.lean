import Lookahead.Except
import Lookahead.Options

/-!
# The members of options

An object is accepted as options exactly if all its names are known and each member that is checked
passes its check (`Options.ofMembers_eq_ok_iff`); else it is refused for the first of them that does
not (`Options.ofMembers_eq_error_iff`). A member can be exchanged for another that passes
(`Options.ofMembers_of_skip`).
-/

namespace Lookahead

namespace Options

theorem unknownNames_eq_nil_iff {given : List String} :
    unknownNames given = [] ↔ ∀ name ∈ given, name ∈ names := by
  rw [unknownNames, ← List.length_eq_zero_iff, List.length_mergeSort, List.length_eq_zero_iff,
    List.filter_eq_nil_iff]
  simp

theorem mapM_str? (patterns : List String) :
    (patterns.map Json.str).mapM Json.str? = some patterns := by
  induction patterns with
  | nil => rfl
  | cons p patterns ih =>
    rw [List.map_cons, List.mapM_cons, ih]
    rfl

theorem skipOf_patterns (patterns : List String) :
    skipOf (.arr (patterns.map .str)) = .ok patterns := by
  cases patterns with
  | nil => rfl
  | cons p patterns =>
    have htruthy : (Json.arr ((p :: patterns).map .str)).truthy = true := rfl
    rw [skipOf, if_pos htruthy]
    simp only [mapM_str?]

theorem ofMembers_eq_ok_iff {members : Table Json} {options : Options} :
    ofMembers members = .ok options ↔
      unknownNames (Table.keys members) = [] ∧
      pathOf ((members.lookup "path").getD .null) = .ok options.path ∧
      transformOf ((members.lookup "transform").getD .null) = .ok options.transform ∧
      skipOf ((members.lookup "skip").getD .null) = .ok options.skip ∧
      withDirectivesOf ((members.lookup "with_directives").getD .null) = options.withDirectives ∧
      ((members.lookup "keep_parent_field").getD .null).truthy = options.keepParentField := by
  unfold ofMembers
  cases hu : unknownNames (Table.keys members) with
  | cons name names => simp
  | nil =>
    simp only [true_and]
    constructor
    · intro h
      obtain ⟨path, hpath, h⟩ := bind_eq_ok_iff.1 h
      obtain ⟨transform, htransform, h⟩ := bind_eq_ok_iff.1 h
      obtain ⟨skip, hskip, h⟩ := bind_eq_ok_iff.1 h
      cases h
      exact ⟨hpath, htransform, hskip, rfl, rfl⟩
    · rintro ⟨hpath, htransform, hskip, hd, hk⟩
      rw [hpath, htransform, hskip, hd, hk]
      rfl

/-- Of several faults the first is told, in the order of names, path, renamings and skip patterns. -/
theorem ofMembers_eq_error_iff {members : Table Json} {e : OptionError} :
    ofMembers members = .error e ↔
      (unknownNames (Table.keys members) ≠ [] ∧ e = .unknown (unknownNames (Table.keys members))) ∨
      unknownNames (Table.keys members) = [] ∧
        (pathOf ((members.lookup "path").getD .null) = .error e ∨
        (∃ path, pathOf ((members.lookup "path").getD .null) = .ok path) ∧
          (transformOf ((members.lookup "transform").getD .null) = .error e ∨
          (∃ renamings, transformOf ((members.lookup "transform").getD .null) = .ok renamings) ∧
            skipOf ((members.lookup "skip").getD .null) = .error e)) := by
  unfold ofMembers
  cases hu : unknownNames (Table.keys members) with
  | cons name names => simp [eq_comm]
  | nil =>
    simp only [ne_eq, not_true_eq_false, false_and, false_or, true_and]
    rw [bind_eq_error_iff]
    refine or_congr_right ?_
    rw [← exists_and_right]
    refine exists_congr fun path => and_congr_right fun _ => ?_
    rw [bind_eq_error_iff]
    refine or_congr_right ?_
    rw [← exists_and_right]
    refine exists_congr fun renamings => and_congr_right fun _ => ?_
    rw [bind_eq_error_iff]
    exact or_iff_left nofun

/-- An object without members counts as one. -/
theorem ofJson_obj (members : Table Json) : ofJson (.obj members) = ofMembers members := by
  cases members with
  | nil =>
    have hempty : ofMembers [] = .ok {} :=
      ofMembers_eq_ok_iff.2 ⟨unknownNames_eq_nil_iff.2 nofun, rfl, rfl, rfl, rfl, rfl⟩
    exact hempty.symm
  | cons member members => rfl

/-- Two objects that are alike but for their skip patterns are alike as options. -/
theorem ofMembers_of_skip {members members' : Table Json} {options : Options}
    {patterns : List String} (h : ofMembers members = .ok options)
    (hs : members'.lookup "skip" = some (.arr (patterns.map .str)))
    (hothers : ∀ name, name ≠ "skip" → members'.lookup name = members.lookup name) :
    ofMembers members' = .ok { options with skip := patterns } := by
  obtain ⟨hu, hpath, htransform, -, hd, hk⟩ := ofMembers_eq_ok_iff.1 h
  have hu' : unknownNames (Table.keys members') = [] := by
    rw [unknownNames_eq_nil_iff] at hu ⊢
    intro name hname
    by_cases hskip : name = "skip"
    · subst hskip
      decide
    · rw [← Table.lookup_isSome_iff, hothers name hskip, Table.lookup_isSome_iff] at hname
      exact hu name hname
  have hskip : skipOf ((members'.lookup "skip").getD .null) = .ok patterns := by
    rw [hs]
    exact skipOf_patterns patterns
  rw [ofMembers_eq_ok_iff, hothers "path" (by decide), hothers "transform" (by decide),
    hothers "with_directives" (by decide), hothers "keep_parent_field" (by decide)]
  exact ⟨hu', hpath, htransform, hskip, hd, hk⟩

end Options

end Lookahead
