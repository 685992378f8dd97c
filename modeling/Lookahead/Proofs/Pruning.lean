import Lookahead.Proofs.Depth
import Lookahead.Proofs.Merging

/-!
# Skipping as pruning

Skip rules act while the selections are read: a field that is skipped is left out wherever it comes
up, and its sub-selections are not looked at. `Fields.prune` cuts the same fields off a tree that is
there already. The two agree (`collect_eq_prune`): which rules apply to a field depends on its path
alone, whatever fragment or repetition it came from, and leaving out an occurrence early changes
neither the place nor the kind of the fields that stay.
-/

namespace Lookahead

mutual

/-- What skip rules leave of a requested field that is not skipped itself. -/
def Tree.prune : Rules → Tree → Tree
  | _, .leaf => .leaf
  | rules, .branch fields => .branch (Fields.prune rules fields)

/-- What skip rules leave of the requested fields of a level. -/
def Fields.prune : Rules → List (String × Tree) → Fields
  | _, [] => []
  | rules, (name, t) :: fields =>
    match rules.lookup name with
    | some .whole => Fields.prune rules fields
    | rule => (name, t.prune (Rule.inner rule)) :: Fields.prune rules fields

end

namespace Occurrence

mutual

/-- What skip rules leave of an occurrence. -/
def prune : Rules → Occurrence → List Occurrence
  | rules, leaf name =>
    match rules.lookup name with
    | some .whole => []
    | _ => [leaf name]
  | rules, branch name inside =>
    match rules.lookup name with
    | some .whole => []
    | rule => [branch name (pruneAll (Rule.inner rule) inside)]
  | _, unknownFragment name => [unknownFragment name]

def pruneAll : Rules → List Occurrence → List Occurrence
  | _, [] => []
  | rules, o :: os => o.prune rules ++ pruneAll rules os

end

variable {rules : Rules} {name : String}

theorem prune_leaf_skipped (h : rules.lookup name = some .whole) : (leaf name).prune rules = [] := by
  simp only [prune, h]

theorem prune_leaf_kept (h : rules.lookup name ≠ some .whole) :
    (leaf name).prune rules = [leaf name] := by
  simp only [prune]

theorem prune_branch_skipped (h : rules.lookup name = some .whole) (inside : List Occurrence) :
    (branch name inside).prune rules = [] := by
  simp only [prune, h]

theorem prune_branch_kept (h : rules.lookup name ≠ some .whole) (inside : List Occurrence) :
    (branch name inside).prune rules =
      [branch name (pruneAll (Rule.inner (rules.lookup name)) inside)] := by
  simp only [prune]

theorem pruneAll_cons (rules : Rules) (o : Occurrence) (os : List Occurrence) :
    pruneAll rules (o :: os) = o.prune rules ++ pruneAll rules os := by rw [pruneAll]

theorem pruneAll_append (rules : Rules) (os os' : List Occurrence) :
    pruneAll rules (os ++ os') = pruneAll rules os ++ pruneAll rules os' := by
  induction os with
  | nil => rw [List.nil_append, pruneAll, List.nil_append]
  | cons o os ih => rw [List.cons_append, pruneAll_cons, pruneAll_cons, ih, List.append_assoc]

end Occurrence

/-! ### Pruning and merging -/

namespace Fields

open Occurrence

variable {rules : Rules} {name : String}

@[simp] theorem prune_nil (rules : Rules) : prune rules [] = [] := by rw [prune]

theorem prune_cons_skipped (h : rules.lookup name = some .whole) (t : Tree) (fields : Fields) :
    prune rules ((name, t) :: fields) = prune rules fields := by
  simp only [prune, h]

theorem prune_cons_kept (h : rules.lookup name ≠ some .whole) (t : Tree) (fields : Fields) :
    prune rules ((name, t) :: fields) =
      (name, t.prune (Rule.inner (rules.lookup name))) :: prune rules fields := by
  simp only [prune]

theorem prune_update_skipped (h : rules.lookup name = some .whole) (f : Option Tree → Tree)
    (fields : Fields) : prune rules (Table.update name f fields) = prune rules fields := by
  induction fields with
  | nil => rw [Table.update, prune_cons_skipped h]
  | cons entry fields ih =>
    obtain ⟨key, t⟩ := entry
    rw [Table.update]
    split
    · next hk =>
      subst hk
      rw [prune_cons_skipped h, prune_cons_skipped h]
    · by_cases hs : rules.lookup key = some .whole
      · rw [prune_cons_skipped hs, prune_cons_skipped hs, ih]
      · rw [prune_cons_kept hs, prune_cons_kept hs, ih]

theorem prune_update_kept (h : rules.lookup name ≠ some .whole) {f g : Option Tree → Tree}
    (hfg : ∀ old, (f old).prune (Rule.inner (rules.lookup name)) =
      g (old.map (Tree.prune (Rule.inner (rules.lookup name))))) (fields : Fields) :
    prune rules (Table.update name f fields) = Table.update name g (prune rules fields) := by
  induction fields with
  | nil => rw [Table.update, prune_cons_kept h, hfg, prune_nil]; rfl
  | cons entry fields ih =>
    obtain ⟨key, t⟩ := entry
    rw [Table.update]
    split
    · next hk =>
      subst hk
      rw [prune_cons_kept h, prune_cons_kept h, hfg, Table.update, if_pos rfl]; rfl
    · next hk =>
      by_cases hs : rules.lookup key = some .whole
      · rw [prune_cons_skipped hs, prune_cons_skipped hs, ih]
      · rw [prune_cons_kept hs, prune_cons_kept hs, ih, Table.update, if_neg hk]

theorem prune_fields (rules : Rules) (old : Option Tree) :
    prune rules (old.elim [] Tree.fields) = (old.map (Tree.prune rules)).elim [] Tree.fields := by
  rcases old with _ | _ | fields
  · exact prune_nil rules
  · exact prune_nil rules
  · rw [Option.map_some, Tree.prune]; rfl

mutual

theorem prune_mergeInto : ∀ (o : Occurrence) (rules : Rules) (fields : Fields),
    prune rules (o.mergeInto fields) = absorb (prune rules fields) (o.prune rules)
  | .leaf name, rules, fields => by
    rw [mergeInto_leaf]
    by_cases hs : rules.lookup name = some .whole
    · rw [prune_update_skipped hs, prune_leaf_skipped hs, absorb_nil]
    · rw [prune_leaf_kept hs, absorb_cons, absorb_nil, mergeInto_leaf]
      refine prune_update_kept hs (fun old => ?_) fields
      cases old with
      | none => rw [Option.map_none, Option.getD_none, Tree.prune]
      | some t => rfl
  | .branch name inside, rules, fields => by
    rw [mergeInto_branch]
    by_cases hs : rules.lookup name = some .whole
    · rw [prune_update_skipped hs, prune_branch_skipped hs, absorb_nil]
    · rw [prune_branch_kept hs, absorb_cons, absorb_nil, mergeInto_branch]
      refine prune_update_kept hs (fun old => ?_) fields
      rw [Tree.prune, prune_absorb inside, prune_fields]
  | .unknownFragment name, rules, fields => by
    rw [mergeInto_unknownFragment, Occurrence.prune, absorb_cons, absorb_nil,
      mergeInto_unknownFragment]

/-- Pruning what was merged is merging what was pruned. -/
theorem prune_absorb : ∀ (os : List Occurrence) (rules : Rules) (fields : Fields),
    prune rules (absorb fields os) = absorb (prune rules fields) (pruneAll rules os)
  | [], rules, fields => by rw [absorb_nil, pruneAll, absorb_nil]
  | o :: os, rules, fields => by
    rw [absorb_cons, prune_absorb os, prune_mergeInto o, pruneAll_cons, absorb_append]

end

end Fields

/-! ### Pruning and reading -/

namespace Collector

open Occurrence

variable {c : Collector}

/-- Where nothing is skipped, rules leave of a reading what they leave of its occurrences. -/
theorem Reads.prune {selections : List Selection} {found : List Occurrence}
    (h : c.Reads [] selections found) (rules : Rules) :
    c.Reads rules selections (pruneAll rules found) := by
  generalize hn : ([] : Rules) = scope at h
  induction h generalizing rules with
  | nil => rw [pruneAll]; exact .nil
  | rejected ha _ ih => exact .rejected ha (ih rules hn)
  | skipped ha hl _ ih => subst hn; cases hl
  | @leaf _ name key ds rest found ha _ _ ih =>
    rw [pruneAll_cons]
    by_cases hs : rules.lookup name = some .whole
    · rw [prune_leaf_skipped hs]
      exact .skipped ha hs (ih rules hn)
    · rw [prune_leaf_kept hs]
      exact .leaf ha hs (ih rules hn)
  | @branch _ name key ds inside rest beneath found ha _ hi _ _ ih₁ ih₂ =>
    subst hn
    rw [pruneAll_cons]
    by_cases hs : rules.lookup name = some .whole
    · rw [prune_branch_skipped hs]
      exact .skipped ha hs (ih₂ rules rfl)
    · rw [prune_branch_kept hs]
      exact .branch ha hs hi (ih₁ _ rfl) (ih₂ rules rfl)
  | inlineFragment ha _ _ ih₁ ih₂ =>
    rw [pruneAll_append]
    exact .inlineFragment ha (ih₁ rules hn) (ih₂ rules hn)
  | fragment ha hf _ _ ih₁ ih₂ =>
    rw [pruneAll_append]
    exact .fragment ha hf (ih₁ rules hn) (ih₂ rules hn)
  | unknownFragment ha hf _ ih =>
    rw [pruneAll_cons, Occurrence.prune]
    exact .unknownFragment ha hf (ih rules hn)

/-- Collecting under skip rules gives what the rules leave of everything that is requested, and it
comes to an end wherever collecting everything does. -/
theorem collect_eq_prune {selections : List Selection} {all : Logged Fields}
    (h : c.collect [] selections [] = .ok all) (rules : Rules) :
    ∃ records, c.collect rules selections [] = .ok ⟨Fields.prune rules all.value, records⟩ := by
  obtain ⟨found, hr, rfl⟩ := exists_reads_of_collect h
  have hpruned : Fields.prune rules (Fields.absorb [] found) =
      Fields.absorb [] (pruneAll rules found) := by
    rw [Fields.prune_absorb, Fields.prune_nil]
  rw [hpruned]
  exact ⟨_, (hr.prune rules).collect_eq []⟩

theorem collect_eq_prune_two_users :
    (Collector.mk [] [] true).collect []
        [.field "user" none [] [.field "id" none [] [], .field "password" none [] []],
          .field "ownerId" none [] [], .field "user" none [] [.field "name" none [] []]] [] =
      .ok ⟨[("user", .branch [("id", .leaf), ("password", .leaf), ("name", .leaf)]),
        ("ownerId", .leaf)], []⟩ ∧
    ∃ records, (Collector.mk [] [] true).collect (Rules.ofPatterns ["user.password", "*Id"])
        [.field "user" none [] [.field "id" none [] [], .field "password" none [] []],
          .field "ownerId" none [] [], .field "user" none [] [.field "name" none [] []]] [] =
      .ok ⟨[("user", .branch [("id", .leaf), ("name", .leaf)])], records⟩ := by
  have hall : (Collector.mk [] [] true).collect []
      [.field "user" none [] [.field "id" none [] [], .field "password" none [] []],
        .field "ownerId" none [] [], .field "user" none [] [.field "name" none [] []]] [] =
      .ok ⟨[("user", .branch [("id", .leaf), ("password", .leaf), ("name", .leaf)]),
        ("ownerId", .leaf)], []⟩ := rfl
  have hrules : Rules.ofPatterns ["user.password", "*Id"] =
      [("user", .within [("password", .whole)]), ("*Id", .whole)] := rfl
  have hleft : Fields.prune [("user", .within [("password", .whole)]), ("*Id", .whole)]
      [("user", .branch [("id", .leaf), ("password", .leaf), ("name", .leaf)]),
        ("ownerId", .leaf)] = [("user", .branch [("id", .leaf), ("name", .leaf)])] := rfl
  have hpruned := collect_eq_prune hall (Rules.ofPatterns ["user.password", "*Id"])
  rw [hrules, hleft] at hpruned
  rw [hrules]
  exact ⟨hall, hpruned⟩

end Collector

end Lookahead
