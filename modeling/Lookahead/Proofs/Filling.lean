import Lookahead.Proofs.Depth
import Lookahead.Proofs.Merging

/-!
# Filling in fields as they are met

`Collector.collect` reads a selection set to its end and merges what was found afterwards. The same
can be done in one go, from selection to selection: a field is entered as soon as it is met, its
branch is filled in before the next selection is looked at, and each record is made on the way
(`Collector.fillWithin`). At every depth the two come to the same fields, the same records and the
same failure, whatever was requested and reported before (`fillWithin_eq`), so collecting is filling
in until nothing is left (`collect_eq_fillWithin`).
-/

namespace Lookahead

/-- The fields with one called `name` that is a branch, as it is if it is one already. -/
def Fields.withBranch (fields : Fields) (name : String) : Fields :=
  Table.update name (fun old => .branch (old.elim [] Tree.fields)) fields

/-! ### What was found so far -/

/-- The fields requested and the records made so far, with those of further occurrences. -/
def Logged.extend (soFar : Logged Fields) (found : List Occurrence) : Logged Fields :=
  ⟨soFar.value.absorb found,
    soFar.records ++ (Occurrence.unknownFragments found).map .unknownFragment⟩

namespace Logged

variable (soFar : Logged Fields)

theorem extend_nil : soFar.extend [] = soFar := by
  rw [extend, Fields.absorb_nil, Occurrence.unknownFragments, List.map_nil, List.append_nil]

theorem extend_append (found others : List Occurrence) :
    soFar.extend (found ++ others) = (soFar.extend found).extend others := by
  simp only [extend, Fields.absorb_append, Occurrence.unknownFragments_append, List.map_append,
    List.append_assoc]

theorem extend_leaf (name : String) : soFar.extend [.leaf name] =
    ⟨Table.update name (·.getD .leaf) soFar.value, soFar.records⟩ := by
  rw [extend, Fields.absorb_cons, Fields.absorb_nil, Fields.mergeInto_leaf]
  exact congrArg (Logged.mk _) (List.append_nil _)

theorem extend_branch (name : String) (found : List Occurrence) :
    soFar.extend [.branch name found] =
      ⟨(Occurrence.branch name found).mergeInto soFar.value,
        soFar.records ++ (Occurrence.unknownFragments found).map .unknownFragment⟩ := by
  rw [extend, Fields.absorb_cons, Fields.absorb_nil, Occurrence.unknownFragments,
    Occurrence.unknown, Occurrence.unknownFragments, List.append_nil]

end Logged

namespace Collector

/-- How the fields of a selection list are filled in. -/
abbrev Filler := Rules → List Selection → Logged Fields → Except Halt (Logged Fields)

/-- Fills in what a selection that takes part requests. A branch is there before it is filled in. -/
def fillOf (c : Collector) (fill : Filler) (rules : Rules) :
    Selection → Logged Fields → Except Halt (Logged Fields)
  | .field name _ _ inside, ⟨fields, records⟩ =>
    match rules.lookup name with
    | some .whole => .ok ⟨fields, records⟩
    | rule =>
      if inside.isEmpty then .ok ⟨Table.update name (·.getD .leaf) fields, records⟩
      else do
        let entered := fields.withBranch name
        let filled ← fill (Rule.inner rule) inside ⟨entered.below name, records⟩
        return ⟨Table.update name (fun _ => .branch filled.value) entered, filled.records⟩
  | .inlineFragment _ _ inside, soFar => fill rules inside soFar
  | .fragmentSpread name _, soFar =>
    match c.fragments.find? name with
    | some fragment => fill rules fragment.selections soFar
    | none => .ok ⟨soFar.value, soFar.records ++ [.unknownFragment name]⟩
  | .unsupported _, _ => .error .unsupported

/-- Fills in one selection after another, unless the calls go deeper than given. -/
def fillWithin (c : Collector) : Nat → Filler
  | 0, _, _, _ => .error .endless
  | depth + 1, rules, selections, soFar =>
    selections.foldlM (fun soFar s =>
      if c.admits s then c.fillOf (c.fillWithin depth) rules s soFar else .ok soFar) soFar

variable {c : Collector}

/-- One way to fill in fields comes to what another way to read them finds. -/
def Agree (fill : Filler) (read : Reader) : Prop :=
  ∀ rules selections soFar, fill rules selections soFar = (read rules selections).map soFar.extend

/-! ### One selection -/

section

variable {fill : Filler} {read : Reader} {rules : Rules} {name : String} {key : Option String}
  {ds : List Directive} {inside : List Selection}

theorem fillOf_skipped (h : rules.lookup name = some .whole) (soFar : Logged Fields) :
    c.fillOf fill rules (.field name key ds inside) soFar = .ok soFar := by
  simp only [fillOf, h]

theorem fillOf_leaf (h : rules.lookup name ≠ some .whole) (soFar : Logged Fields) :
    c.fillOf fill rules (.field name key ds []) soFar =
      .ok ⟨Table.update name (·.getD .leaf) soFar.value, soFar.records⟩ := by
  simp only [fillOf]
  rfl

theorem fillOf_branch (h : rules.lookup name ≠ some .whole) (hi : inside ≠ [])
    (soFar : Logged Fields) :
    c.fillOf fill rules (.field name key ds inside) soFar =
      (fill (Rule.inner (rules.lookup name)) inside
        ⟨(soFar.value.withBranch name).below name, soFar.records⟩).map fun filled =>
          ⟨Table.update name (fun _ => .branch filled.value) (soFar.value.withBranch name),
            filled.records⟩ := by
  have hfull : ¬ inside.isEmpty = true := fun he => hi (List.isEmpty_iff.1 he)
  simp only [fillOf]
  rw [if_neg hfull]
  cases fill (Rule.inner (rules.lookup name)) inside
    ⟨(soFar.value.withBranch name).below name, soFar.records⟩ <;> rfl

theorem below_withBranch (fields : Fields) (name : String) :
    (fields.withBranch name).below name = fields.below name := by
  rw [Fields.below, Fields.withBranch, Table.lookup_update, if_pos rfl]
  rfl

/-- To enter a branch and then to put there what is filled in is to merge it. -/
theorem update_withBranch (fields : Fields) (name : String) (found : List Occurrence) :
    Table.update name (fun _ => .branch ((fields.below name).absorb found))
        (fields.withBranch name) =
      (Occurrence.branch name found).mergeInto fields := by
  rw [Fields.withBranch, Table.update_update, Fields.mergeInto_branch]
  exact Table.update_congr rfl

theorem Agree.fillOf_field (h : Agree fill read) (soFar : Logged Fields) :
    c.fillOf fill rules (.field name key ds inside) soFar =
      (c.occurrencesOf read rules (.field name key ds inside)).map soFar.extend := by
  by_cases hl : rules.lookup name = some .whole
  · rw [fillOf_skipped hl, occurrencesOf_skipped hl, Except.map, soFar.extend_nil]
  rw [occurrencesOf_kept hl]
  by_cases hi : inside = []
  · subst hi
    rw [fillOf_leaf hl, if_pos List.isEmpty_nil, Except.map, soFar.extend_leaf]
  · have hfull : ¬ inside.isEmpty = true := fun he => hi (List.isEmpty_iff.1 he)
    rw [fillOf_branch hl hi, h, if_neg hfull, below_withBranch]
    cases read (Rule.inner (rules.lookup name)) inside with
    | error e => rfl
    | ok found =>
      simp only [Except.map, soFar.extend_branch, ← update_withBranch]
      rfl

theorem Agree.fillOf_eq (h : Agree fill read) (rules : Rules) (s : Selection)
    (soFar : Logged Fields) :
    c.fillOf fill rules s soFar = (c.occurrencesOf read rules s).map soFar.extend := by
  cases s with
  | field name key ds inside => exact h.fillOf_field soFar
  | inlineFragment tc ds inside => exact h rules inside soFar
  | fragmentSpread name ds =>
    cases hf : c.fragments.find? name with
    | some fragment =>
      simp only [fillOf, occurrencesOf, hf]
      exact h rules fragment.selections soFar
    | none =>
      simp only [fillOf, occurrencesOf, hf]
      rfl
  | unsupported ds => rfl

end

/-! ### A whole selection list -/

theorem fillWithin_cons (n : Nat) (rules : Rules) (s : Selection) (rest : List Selection)
    (soFar : Logged Fields) :
    c.fillWithin (n + 1) rules (s :: rest) soFar =
      if c.admits s then do
        let next ← c.fillOf (c.fillWithin n) rules s soFar
        c.fillWithin (n + 1) rules rest next
      else c.fillWithin (n + 1) rules rest soFar := by
  simp only [fillWithin, List.foldlM_cons]
  split <;> rfl

theorem fillWithin_eq (n : Nat) : Agree (c.fillWithin n) (c.occurrencesWithin n) := by
  induction n with
  | zero => exact fun _ _ _ => rfl
  | succ n ih =>
    intro rules selections soFar
    induction selections generalizing soFar with
    | nil => exact congrArg Except.ok soFar.extend_nil.symm
    | cons s rest ihs =>
      rw [fillWithin_cons, occurrencesWithin_cons, ih.fillOf_eq]
      by_cases ha : c.admits s = true
      · rw [if_pos ha, if_pos ha]
        cases c.occurrencesOf (c.occurrencesWithin n) rules s with
        | error e => rfl
        | ok found =>
          show c.fillWithin (n + 1) rules rest (soFar.extend found) = _
          rw [ihs]
          cases c.occurrencesWithin (n + 1) rules rest with
          | error e => rfl
          | ok others => exact congrArg Except.ok (soFar.extend_append found others).symm
      · rw [if_neg ha, if_neg ha, ihs]

variable {rules : Rules} {selections : List Selection} {fields : Fields}

/-- Collecting is filling in, as deep as there are calls. -/
theorem collect_eq_fillWithin : c.collect rules selections fields =
    c.fillWithin (c.depth rules selections) rules selections ⟨fields, []⟩ := by
  rw [fillWithin_eq, collect, occurrences]
  cases c.occurrencesWithin (c.depth rules selections) rules selections <;> rfl

theorem fillWithin_eq_collect {n : Nat}
    (h : c.fillWithin n rules selections ⟨fields, []⟩ ≠ .error .endless) :
    c.fillWithin n rules selections ⟨fields, []⟩ = c.collect rules selections fields := by
  rw [fillWithin_eq, ne_eq, map_eq_error_iff] at h
  have hread := occurrences_eq_of_ne_endless h
  rw [collect_eq_fillWithin, fillWithin_eq, fillWithin_eq, ← hread, occurrences]

/-- What comes of filling in at any depth comes of collecting, and the other way round. -/
theorem collect_eq_iff_exists_fillWithin {outcome : Except Halt (Logged Fields)}
    (h : outcome ≠ .error .endless) :
    c.collect rules selections fields = outcome ↔
      ∃ n, c.fillWithin n rules selections ⟨fields, []⟩ = outcome := by
  constructor
  · rintro rfl
    exact ⟨_, collect_eq_fillWithin.symm⟩
  · rintro ⟨n, rfl⟩
    exact (fillWithin_eq_collect h).symm

/-- Collecting has no end exactly if filling in comes to none at any depth. -/
theorem collect_eq_endless_iff : c.collect rules selections fields = .error .endless ↔
    ∀ n, c.fillWithin n rules selections ⟨fields, []⟩ = .error .endless := by
  constructor
  · intro he n
    by_contra h
    exact h ((fillWithin_eq_collect h).trans he)
  · intro h
    rw [collect_eq_fillWithin, h]

end Collector

end Lookahead
