import Lookahead.Proofs.OptionMembers
import Lookahead.Requested

/-!
# Refused options

An object is accepted as options exactly if all its names are known and the path, the renamings and
the skip patterns have their shapes (`Options.WellShaped`). Any other object is refused, and with it
every question that is asked under it. It is refused with a message, unless there is nothing wrong
with it but skip patterns that are `true` or a number (`Options.OnlySkipBare`): these are neither told
from a list nor from a text before they are looked into, and then nothing is said about them.
-/

namespace Lookahead

/-- Whether a value holds without having anything in it: `true`, or a number other than zero. -/
def Json.isBare : Json → Bool
  | .bool b => b
  | .num n => !n.isZero
  | _ => false

namespace Options

/-- What is given as an option. A member that is missing counts as null. -/
def given (members : Table Json) (name : String) : Json := (members.lookup name).getD .null

/-- Nothing is wrong with the names, the path and the renamings. -/
structure ShapedButSkip (members : Table Json) : Prop where
  known : ∀ name ∈ Table.keys members, name ∈ names
  path : given members "path" = .null ∨ ∃ text, given members "path" = .str text
  transform : (given members "transform").truthy = true →
    ∃ renamings, given members "transform" = .obj renamings

/-- Nothing is wrong with the members. -/
structure WellShaped (members : Table Json) : Prop extends ShapedButSkip members where
  skip : (given members "skip").truthy = true →
    (∃ patterns : List String, given members "skip" = .arr (patterns.map .str)) ∨
    ∃ named, given members "skip" = .obj named

/-- Nothing is wrong with the members but skip patterns with nothing in them. -/
structure OnlySkipBare (members : Table Json) : Prop extends ShapedButSkip members where
  skip : (given members "skip").isBare = true

variable {members : Table Json} {value : Json} {e : OptionError}

/-! ### One check after another -/

theorem exists_pathOf_iff :
    (∃ path, pathOf value = .ok path) ↔ value = .null ∨ ∃ text, value = .str text := by
  cases value <;> simp [pathOf]

theorem exists_transformOf_iff : (∃ renamings, transformOf value = .ok renamings) ↔
    (value.truthy = true → ∃ renamings, value = .obj renamings) := by
  unfold transformOf
  by_cases h : value.truthy = true
  · rw [if_pos h]
    cases value <;> simp [h]
  · simp [h]

theorem mapM_str?_eq_some_iff {items : List Json} {patterns : List String} :
    items.mapM Json.str? = some patterns ↔ items = patterns.map .str := by
  constructor
  · intro h
    induction items generalizing patterns with
    | nil =>
      cases h
      rfl
    | cons item items ih =>
      rw [List.mapM_cons] at h
      obtain ⟨p, hp, h⟩ := Option.bind_eq_some_iff.1 h
      obtain ⟨ps, hps, h⟩ := Option.bind_eq_some_iff.1 h
      cases h
      cases item with
      | str text =>
        cases hp
        rw [List.map_cons, ih hps]
      | _ => cases hp
  · rintro rfl
    exact mapM_str? patterns

theorem exists_skipOf_iff : (∃ patterns, skipOf value = .ok patterns) ↔
    (value.truthy = true → (∃ patterns : List String, value = .arr (patterns.map .str)) ∨
      ∃ named, value = .obj named) := by
  unfold skipOf
  by_cases h : value.truthy = true
  · rw [if_pos h]
    cases value with
    | arr items =>
      have hitems : (∃ patterns : List String, items = patterns.map .str) ↔
          ∃ patterns, items.mapM Json.str? = some patterns := by
        simp only [mapM_str?_eq_some_iff]
      cases hm : items.mapM Json.str? <;> simp [h, hm, hitems]
    | _ => simp [h]
  · simp [h]

/-- A path that is refused is refused with a message, and so are renamings. -/
theorem message?_of_pathOf (h : pathOf value = .error e) : e.message? ≠ none := by
  cases value <;> cases h <;> nofun

theorem message?_of_transformOf (h : transformOf value = .error e) : e.message? ≠ none := by
  unfold transformOf at h
  split at h
  · cases value <;> cases h <;> nofun
  · cases h

theorem truthy_of_isBare (h : value.isBare = true) : value.truthy = true := by
  cases value with
  | bool b => exact h
  | num n => exact h
  | _ => cases h

/-- Skip patterns are refused with a message unless they have nothing in them. -/
theorem silent_skipOf_iff :
    (∃ e, skipOf value = .error e ∧ e.message? = none) ↔ value.isBare = true := by
  unfold skipOf
  by_cases h : value.truthy = true
  · rw [if_pos h]
    cases value with
    | null => cases h
    | bool b => exact iff_of_true ⟨_, rfl, rfl⟩ h
    | num n => exact iff_of_true ⟨_, rfl, rfl⟩ h
    | str text => simp [OptionError.message?, Json.isBare]
    | arr items => cases hm : items.mapM Json.str? <;> simp [hm, OptionError.message?, Json.isBare]
    | obj named => simp [Json.isBare]
  · rw [if_neg h]
    exact iff_of_false (by simp) fun hbare => h (truthy_of_isBare hbare)

/-! ### All checks -/

theorem ofMembers_ok_iff : (∃ options, ofMembers members = .ok options) ↔ WellShaped members := by
  constructor
  · rintro ⟨options, h⟩
    obtain ⟨hknown, hpath, htransform, hskip, -⟩ := ofMembers_eq_ok_iff.1 h
    exact ⟨⟨unknownNames_eq_nil_iff.1 hknown, exists_pathOf_iff.1 ⟨_, hpath⟩,
      exists_transformOf_iff.1 ⟨_, htransform⟩⟩, exists_skipOf_iff.1 ⟨_, hskip⟩⟩
  · rintro ⟨⟨hknown, hpath, htransform⟩, hskip⟩
    obtain ⟨path, hpath⟩ := exists_pathOf_iff.2 hpath
    obtain ⟨transform, htransform⟩ := exists_transformOf_iff.2 htransform
    obtain ⟨skip, hskip⟩ := exists_skipOf_iff.2 hskip
    exact ⟨⟨path, transform, _, _, skip⟩, ofMembers_eq_ok_iff.2
      ⟨unknownNames_eq_nil_iff.2 hknown, hpath, htransform, hskip, rfl, rfl⟩⟩

theorem silent_ofMembers_iff :
    (∃ e, ofMembers members = .error e ∧ e.message? = none) ↔ OnlySkipBare members := by
  constructor
  · rintro ⟨e, h, hsilent⟩
    rcases ofMembers_eq_error_iff.1 h with
      ⟨-, rfl⟩ | ⟨hknown, hpath | ⟨hpath, htransform | ⟨htransform, hskip⟩⟩⟩
    · cases hsilent
    · exact absurd hsilent (message?_of_pathOf hpath)
    · exact absurd hsilent (message?_of_transformOf htransform)
    · exact ⟨⟨unknownNames_eq_nil_iff.1 hknown, exists_pathOf_iff.1 hpath,
        exists_transformOf_iff.1 htransform⟩, silent_skipOf_iff.1 ⟨e, hskip, hsilent⟩⟩
  · rintro ⟨⟨hknown, hpath, htransform⟩, hskip⟩
    obtain ⟨e, hskip, hsilent⟩ := silent_skipOf_iff.2 hskip
    exact ⟨e, ofMembers_eq_error_iff.2 (.inr ⟨unknownNames_eq_nil_iff.2 hknown,
      .inr ⟨exists_pathOf_iff.2 hpath, .inr ⟨exists_transformOf_iff.2 htransform, hskip⟩⟩⟩), hsilent⟩

end Options

/-! ### Questions -/

/-- A question fails because of its options exactly if these are refused. -/
theorem withOptions_eq_options_iff {α : Type} {answer : Options → Fields → Except Failure α}
    (hanswer : ∀ options fields e, answer options fields ≠ .error (.options e))
    {info : Option ResolveInfo} {value : Json} {e : OptionError} :
    withOptions info value answer = .error (.options e) ↔ Options.ofJson value = .error e := by
  unfold withOptions
  constructor
  · intro h
    rcases bind_eq_error_iff.1 h with h | ⟨options, -, h⟩
    · obtain ⟨e', h, he⟩ := mapError_eq_error_iff.1 h
      cases he
      exact h
    rcases bind_eq_error_iff.1 h with h | ⟨fields, -, h⟩
    · obtain ⟨halt, -, he⟩ := mapError_eq_error_iff.1 h
      cases halt <;> cases he
    rcases bind_eq_error_iff.1 h with h | ⟨result, -, h⟩
    · exact absurd h (hanswer options fields.value e)
    · cases h
  · intro h
    exact bind_eq_error_iff.2 (.inl (mapError_eq_error_iff.2 ⟨e, h, rfl⟩))

/-- An object is accepted as options exactly if its members have their shapes. It is refused without a
message exactly if nothing is wrong with it but skip patterns with nothing in them. Every question
passes on exactly what is found wrong. -/
theorem refused_silently_iff (members : Table Json) :
    ((∃ options, Options.ofJson (.obj members) = .ok options) ↔ Options.WellShaped members) ∧
    ((∃ e, Options.ofJson (.obj members) = .error e ∧ e.message? = none) ↔
      Options.OnlySkipBare members) ∧
    ∀ info e,
      (requestedTree info (.obj members) = .error (.options e) ↔
        Options.ofJson (.obj members) = .error e) ∧
      (requestedObject info (.obj members) = .error (.options e) ↔
        Options.ofJson (.obj members) = .error e) ∧
      (requestedNames info (.obj members) = .error (.options e) ↔
        Options.ofJson (.obj members) = .error e) ∧
      (requestedProjection info (.obj members) = .error (.options e) ↔
        Options.ofJson (.obj members) = .error e) := by
  rw [Options.ofJson_obj]
  refine ⟨Options.ofMembers_ok_iff, Options.silent_ofMembers_iff, fun info e => ?_⟩
  rw [← Options.ofJson_obj]
  refine ⟨withOptions_eq_options_iff ?_, withOptions_eq_options_iff ?_,
    withOptions_eq_options_iff ?_, withOptions_eq_options_iff ?_⟩
  · exact fun _ _ _ h => nomatch h
  · exact fun _ _ _ h => nomatch h
  · exact fun _ _ _ h => nomatch h
  · intro options fields e h
    obtain ⟨_, -, he⟩ := mapError_eq_error_iff.1 h
    cases he

/-- Skip patterns that are a number are refused without a message. -/
theorem bare_skip_refused_silently :
    Options.ofJson (.obj [("skip", .num (.whole 1))]) = .error .skipNotAList ∧
    OptionError.skipNotAList.message? = none ∧
    requestedTree none (.obj [("skip", .num (.whole 1))]) = .error (.options .skipNotAList) := by
  have hrefused : Options.ofJson (.obj [("skip", .num (.whole 1))]) = .error .skipNotAList := by
    rw [Options.ofJson_obj, Options.ofMembers_eq_error_iff]
    exact .inr ⟨Options.unknownNames_eq_nil_iff.2 (by decide), .inr ⟨⟨"", rfl⟩, .inr ⟨⟨[], rfl⟩, rfl⟩⟩⟩
  refine ⟨hrefused, rfl, (withOptions_eq_options_iff ?_).2 hrefused⟩
  exact fun _ _ _ h => nomatch h

end Lookahead
