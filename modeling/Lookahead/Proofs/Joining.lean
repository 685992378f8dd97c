import Lookahead.Proofs.Absorption
import Lookahead.Proofs.Grouping

/-!
# Collecting into fields that are there

`Fields.join` puts two trees of requested fields together: the fields of the first keep their
places, what only the second has follows, and a field is a branch as soon as it is one in either.
Collecting selections into fields that were requested before is collecting them into none and
joining the two trees (`collect_eq_join`).
-/

namespace Lookahead

mutual

/-- What was requested of a field, joined with what else is requested of it. -/
def Tree.join : Tree → Tree → Tree
  | .leaf, other => other
  | .branch fields, .leaf => .branch fields
  | .branch fields, .branch others =>
    .branch (Fields.joinEach fields others ++
      others.filter fun entry => !(Table.keys fields).contains entry.1)

/-- The fields of a level, each joined with the other field of its name. -/
def Fields.joinEach : List (String × Tree) → Fields → Fields
  | [], _ => []
  | (name, t) :: fields, others =>
    (name, (others.lookup name).elim t t.join) :: Fields.joinEach fields others

end

/-- The fields of a level joined with others, of which the new ones follow. -/
def Fields.join (fields others : Fields) : Fields :=
  joinEach fields others ++ others.filter fun entry => !(Table.keys fields).contains entry.1

theorem Tree.join_leaf (t : Tree) : t.join .leaf = t := by
  cases t <;> rw [join]

theorem Tree.join_branch (fields others : Fields) :
    (branch fields).join (branch others) = branch (fields.join others) := by
  rw [join, Fields.join]

/-- Leaving out repetitions and leaving out some names, in either order. -/
theorem eraseDups_filter (p : String → Bool) (names : List String) :
    (names.filter p).eraseDups = names.eraseDups.filter p := by
  -- leaving out the repetitions of the first name shortens the rest
  induction hn : names.length using Nat.strong_induction_on generalizing names with
  | _ n ih =>
    cases names with
    | nil => rfl
    | cons name names =>
      have hlt : (names.filter fun other => !other == name).length < n := by
        have := List.length_filter_le (fun other => !other == name) names
        rw [List.length_cons] at hn
        omega
      have hrest := ih _ hlt _ rfl
      rw [List.filter_filter] at hrest
      rw [List.eraseDups_cons, List.filter_cons, List.filter_cons]
      by_cases hp : p name = true
      · rw [if_pos hp, if_pos hp, List.eraseDups_cons, List.filter_filter, ← hrest]
        simp only [Bool.and_comm]
      · rw [if_neg hp, if_neg hp, ← hrest]
        refine congrArg List.eraseDups (List.filter_congr fun other _ => ?_)
        by_cases he : other = name <;> simp [he, hp]

namespace Fields

open Occurrence

theorem keys_joinEach (fields others : Fields) :
    Table.keys (joinEach fields others) = Table.keys fields := by
  induction fields with
  | nil => rw [joinEach]
  | cons entry fields ih => rw [joinEach, Table.keys_cons, Table.keys_cons, ih]

theorem keys_join (fields others : Fields) :
    Table.keys (join fields others) =
      Table.keys fields ++ (Table.keys others).removeAll (Table.keys fields) := by
  have hnew := Table.keys_filter (fun name => !(Table.keys fields).contains name) others
  rw [join, Table.keys, List.map_append, ← Table.keys, ← Table.keys, keys_joinEach, hnew]
  rfl

theorem lookup_joinEach (fields others : Fields) (name : String) :
    (joinEach fields others).lookup name =
      (fields.lookup name).map fun t => (others.lookup name).elim t t.join := by
  induction fields with
  | nil => rw [joinEach]; rfl
  | cons entry fields ih =>
    obtain ⟨key, t⟩ := entry
    rw [joinEach, Table.lookup_cons, Table.lookup_cons, ih]
    split
    · next hk => subst hk; rfl
    · rfl

theorem lookup_join (fields others : Fields) (name : String) :
    (join fields others).lookup name =
      match fields.lookup name with
      | some t => some ((others.lookup name).elim t t.join)
      | none => others.lookup name := by
  rw [join, List.lookup_append, lookup_joinEach,
    Table.lookup_filter fun name => !(Table.keys fields).contains name]
  cases h : fields.lookup name with
  | some t => rfl
  | none =>
    have hnew : name ∉ Table.keys fields := by simp [← Table.lookup_isSome_iff, h]
    simp [hnew]

/-- Merging into fields without repetitions is merging into none and joining. -/
theorem absorb_eq_join {fields : Fields} (h : Distinct fields) (os : List Occurrence) :
    absorb fields os = join fields (absorb [] os) := by
  -- what is beneath one name comes from fewer occurrences, of all that request the name
  induction hn : sizeAll os using Nat.strong_induction_on generalizing fields os with
  | _ n ih =>
    refine Table.eq_of_lookup (nodup_keys_absorb h.nodup os) ?_ fun name => ?_
    · have hdups : ((names os).removeAll (Table.keys fields)).eraseDups =
          (names os).eraseDups.removeAll (Table.keys fields) := eraseDups_filter _ _
      rw [keys_join, keys_absorb, keys_absorb, hdups]
      simp
    · rw [lookup_join, lookup_absorb, lookup_absorb]
      by_cases hb : os.any (isBranch name) = true
      · have hlt : sizeAll (Occurrence.beneath name os) < n := hn ▸ sizeAll_beneath_lt hb
        rw [if_pos hb, if_pos hb]
        rcases hl : fields.lookup name with _ | _ | inside
        · simp [below, hl]
        · simp [below, hl, Tree.fields, Tree.join]
        · have hinside := ih _ hlt (h.inside hl) (Occurrence.beneath name os) rfl
          simp [below, hl, Tree.fields, Tree.join_branch, hinside]
      · by_cases hm : name ∈ names os
        · cases fields.lookup name <;> simp [hb, hm, Tree.join_leaf]
        · cases fields.lookup name <;> simp [hb, hm]

end Fields

namespace Collector

/-- Collecting into fields that are there ends as collecting into none does, with the same reports,
and joins what is collected to these fields. Nothing of them is lost, moved or made a leaf. -/
theorem collect_eq_join {fields : Fields} (h : fields.Distinct) (c : Collector) (rules : Rules)
    (selections : List Selection) :
    c.collect rules selections fields =
      (c.collect rules selections []).map (fun result =>
        ⟨fields.join result.value, result.records⟩) ∧
    ∀ result, c.collect rules selections fields = .ok result → result.value.Retains fields := by
  constructor
  · rw [collect, collect]
    cases c.occurrences rules selections with
    | error e => rfl
    | ok found =>
      show Except.ok _ = Except.ok _
      rw [Fields.absorb_eq_join h found]
  · intro result hc
    obtain ⟨found, -, rfl⟩ := exists_reads_of_collect hc
    exact Fields.retains_absorb fields found

/-- `{ c b { z x { w } } a { q } d ...F }` -/
def overlapping : List Selection :=
  [.field "c" none [] [],
    .field "b" none [] [.field "z" none [] [], .field "x" none [] [.field "w" none [] []]],
    .field "a" none [] [.field "q" none [] []], .field "d" none [] [], .fragmentSpread "F" []]

theorem collect_eq_join_overlapping :
    Fields.Distinct [("a", .leaf), ("b", .branch [("x", .leaf), ("y", .leaf)]), ("c", .branch [])] ∧
    (Collector.mk [] [] true).collect [] overlapping [] =
      .ok ⟨[("c", .leaf), ("b", .branch [("z", .leaf), ("x", .branch [("w", .leaf)])]),
        ("a", .branch [("q", .leaf)]), ("d", .leaf)], [.unknownFragment "F"]⟩ ∧
    (Collector.mk [] [] true).collect [] overlapping
        [("a", .leaf), ("b", .branch [("x", .leaf), ("y", .leaf)]), ("c", .branch [])] =
      .ok ⟨[("a", .branch [("q", .leaf)]),
        ("b", .branch [("x", .branch [("w", .leaf)]), ("y", .leaf), ("z", .leaf)]),
        ("c", .branch []), ("d", .leaf)], [.unknownFragment "F"]⟩ := by
  have hd : Fields.Distinct
      [("a", .leaf), ("b", .branch [("x", .leaf), ("y", .leaf)]), ("c", .branch [])] :=
    Fields.distinct_absorb [.leaf "a", .branch "b" [.leaf "x", .leaf "y"], .branch "c" []]
  exact ⟨hd, rfl, (collect_eq_join hd ⟨[], [], true⟩ [] overlapping).1⟩

end Collector

end Lookahead
