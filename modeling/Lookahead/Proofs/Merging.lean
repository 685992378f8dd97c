import Lookahead.Occurrence

/-!
# Merging occurrences

What `Fields.absorb` makes of the fields of a level. Its keys are those that were there and then
the new names in order of first occurrence (`keys_absorb`); the entry of a name depends on the
occurrences of that name alone (`lookup_absorb`): what they request beneath it is merged as one
list, into what was beneath it before.
-/

namespace Lookahead

namespace Occurrence

/-- The name of a field that is requested. -/
def fieldName? : Occurrence → Option String
  | leaf name => some name
  | branch name _ => some name
  | unknownFragment _ => none

/-- Whether a field called `name` is requested with sub-selections. -/
def isBranch (name : String) : Occurrence → Bool
  | branch n _ => n = name
  | _ => false

/-- What an occurrence requests beneath the field called `name`. -/
def insideOf (name : String) : Occurrence → List Occurrence
  | branch n inside => if n = name then inside else []
  | _ => []

/-- What is requested beneath the fields called `name`, one after another. -/
def beneath (name : String) (os : List Occurrence) : List Occurrence := os.flatMap (insideOf name)

/-- The names of the requested fields, with repetitions. -/
def names (os : List Occurrence) : List String := os.filterMap fieldName?

theorem names_append (os os' : List Occurrence) : names (os ++ os') = names os ++ names os' :=
  List.filterMap_append

theorem mem_names_cons {name : String} {o : Occurrence} {os : List Occurrence} :
    name ∈ names (o :: os) ↔ o.fieldName? = some name ∨ name ∈ names os := by
  simp [names]

theorem beneath_cons (name : String) (o : Occurrence) (os : List Occurrence) :
    beneath name (o :: os) = o.insideOf name ++ beneath name os := List.flatMap_cons

theorem beneath_append (name : String) (os os' : List Occurrence) :
    beneath name (os ++ os') = beneath name os ++ beneath name os' := List.flatMap_append

theorem insideOf_eq_nil {name : String} {o : Occurrence} (h : o.isBranch name = false) :
    o.insideOf name = [] := by
  cases o with
  | branch n inside =>
    have hn : n ≠ name := by simpa [isBranch] using h
    rw [insideOf, if_neg hn]
  | leaf n => rfl
  | unknownFragment n => rfl

theorem beneath_eq_nil {name : String} {os : List Occurrence} (h : os.any (isBranch name) = false) :
    beneath name os = [] := by
  rw [beneath, List.flatMap_eq_nil_iff]
  intro o ho
  exact insideOf_eq_nil (Bool.eq_false_iff.2 (List.any_eq_false.1 h o ho))

end Occurrence

namespace Fields

open Occurrence

/-- The fields beneath the field called `name`. -/
def below (fields : Fields) (name : String) : Fields := (fields.lookup name).elim [] Tree.fields

@[simp] theorem absorb_nil (fields : Fields) : absorb fields [] = fields := by rw [absorb]

theorem absorb_cons (fields : Fields) (o : Occurrence) (os : List Occurrence) :
    absorb fields (o :: os) = absorb (o.mergeInto fields) os := by rw [absorb]

theorem mergeInto_leaf (fields : Fields) (name : String) :
    (leaf name).mergeInto fields = Table.update name (·.getD .leaf) fields := by rw [mergeInto]

theorem mergeInto_branch (fields : Fields) (name : String) (inside : List Occurrence) :
    (branch name inside).mergeInto fields =
      Table.update name (fun old => .branch (absorb (old.elim [] Tree.fields) inside)) fields := by
  rw [mergeInto]

theorem mergeInto_unknownFragment (fields : Fields) (name : String) :
    (unknownFragment name).mergeInto fields = fields := by rw [mergeInto]

theorem keys_mergeInto (fields : Fields) (o : Occurrence) :
    Table.keys (o.mergeInto fields) =
      match o.fieldName? with
      | some name =>
        if name ∈ Table.keys fields then Table.keys fields else Table.keys fields ++ [name]
      | none => Table.keys fields := by
  cases o with
  | leaf name => rw [mergeInto_leaf, Table.keys_update]; rfl
  | branch name inside => rw [mergeInto_branch, Table.keys_update]; rfl
  | unknownFragment name => rw [mergeInto_unknownFragment]; rfl

theorem keys_absorb (fields : Fields) (os : List Occurrence) :
    Table.keys (absorb fields os) =
      Table.keys fields ++ ((names os).removeAll (Table.keys fields)).eraseDups := by
  induction os generalizing fields with
  | nil => simp [names]
  | cons o os ih =>
    rw [absorb_cons, ih, keys_mergeInto]
    cases ho : o.fieldName? with
    | none => simp [names, ho]
    | some name =>
      have hcons : names (o :: os) = name :: names os := by simp [names, ho]
      by_cases hk : name ∈ Table.keys fields
      · simp [hcons, hk, List.cons_removeAll]
      · have hrest : (names os).removeAll (Table.keys fields ++ [name]) =
            ((names os).removeAll (Table.keys fields)).filter fun n => !n == name := by
          rw [List.removeAll, List.removeAll, List.filter_filter]
          refine List.filter_congr fun n _ => ?_
          by_cases hn : n = name <;> simp [hn]
        simp [hcons, hk, List.cons_removeAll, List.eraseDups_cons, hrest]

theorem nodup_keys_absorb {fields : Fields} (h : (Table.keys fields).Nodup) (os : List Occurrence) :
    (Table.keys (absorb fields os)).Nodup := by
  induction os generalizing fields with
  | nil => rwa [absorb_nil]
  | cons o os ih =>
    rw [absorb_cons]
    refine ih ?_
    rw [keys_mergeInto]
    split
    · split
      · exact h
      · next hk => exact List.nodup_append.2 ⟨h, by simp, by simp; exact fun a ha he => hk (he ▸ ha)⟩
    · exact h

theorem lookup_mergeInto (fields : Fields) (o : Occurrence) (name : String) :
    (o.mergeInto fields).lookup name =
      if o.isBranch name then some (.branch (absorb (below fields name) (o.insideOf name)))
      else if o.fieldName? = some name then some ((fields.lookup name).getD .leaf)
      else fields.lookup name := by
  cases o with
  | leaf n =>
    rw [mergeInto_leaf, Table.lookup_update]
    by_cases hn : n = name
    · subst hn
      simp [isBranch, fieldName?]
    · simp [isBranch, fieldName?, hn, Ne.symm hn]
  | branch n inside =>
    rw [mergeInto_branch, Table.lookup_update]
    by_cases hn : n = name
    · subst hn
      simp [isBranch, insideOf, below]
    · simp [isBranch, fieldName?, hn, Ne.symm hn]
  | unknownFragment n =>
    rw [mergeInto_unknownFragment]
    simp [isBranch, fieldName?]

theorem below_mergeInto (fields : Fields) (o : Occurrence) (name : String) :
    below (o.mergeInto fields) name = absorb (below fields name) (o.insideOf name) := by
  rw [below, lookup_mergeInto]
  split
  · rfl
  · next hb =>
    rw [insideOf_eq_nil (Bool.not_eq_true _ ▸ hb), absorb_nil]
    split
    · cases h : fields.lookup name <;> simp [below, h, Tree.fields]
    · rfl

theorem lookup_absorb (fields : Fields) (os : List Occurrence) (name : String) :
    (absorb fields os).lookup name =
      if os.any (isBranch name) then some (.branch (absorb (below fields name) (beneath name os)))
      else if name ∈ names os then some ((fields.lookup name).getD .leaf)
      else fields.lookup name := by
  induction os generalizing fields with
  | nil => simp [names]
  | cons o os ih =>
    rw [absorb_cons, ih, below_mergeInto, lookup_mergeInto, ← absorb_append, ← beneath_cons,
      List.any_cons]
    by_cases hos : os.any (isBranch name) = true
    · simp [hos]
    · have hnil := beneath_eq_nil (Bool.not_eq_true _ ▸ hos)
      by_cases ho : o.isBranch name = true
      · simp [hos, ho, beneath_cons, hnil]
      · by_cases hn : o.fieldName? = some name
        · simp [hos, ho, hn, mem_names_cons]
        · simp [hos, ho, hn, mem_names_cons]

end Fields

end Lookahead
