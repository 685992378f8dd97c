import Lookahead.Proofs.Restricting
import Lookahead.Proofs.Sameness

/-!
# The way down a dotted path

To go down a dotted path is to go down its front and from there down its back, whatever the names on
the way (`Fields.beneath_append_dot`). What is found is the branch at the path, with all that stands
beneath it (`Fields.mem_nodes_of_descend?`). Nothing is found exactly if the way breaks, at a name
that is not requested or at a leaf (`Tree.Breaks`, `Fields.descend?_eq_none_iff`); a branch without
fields is found like any other, and only the record tells the one from the other.
-/

namespace Lookahead

namespace Tree

/-- On the way down a path there is a place with nothing, or with a leaf. -/
def Breaks (t : Tree) (path : List String) : Prop :=
  ∃ front, front <+: path ∧ ((∀ k, (front, k) ∉ t.nodes) ∨ (front, Kind.leaf) ∈ t.nodes)

/-- At a path there is a branch that nothing is requested beneath. -/
def EmptyAt (t : Tree) (path : List String) : Prop :=
  (path, Kind.branch) ∈ t.nodes ∧ ∀ name k, (path ++ [name], k) ∉ t.nodes

end Tree

namespace Fields

open Lookahead.Tree

variable {fields inside : Fields} {path rest : List String} {k : Kind} {p q : String}

/-- What stands beneath the branch at a path stands behind that path in the whole tree. -/
theorem mem_nodes_of_descend? (h : Distinct fields) (hd : descend? fields path = some inside) :
    (path ++ rest, k) ∈ (branch fields).nodes ↔ (rest, k) ∈ (branch inside).nodes := by
  induction path generalizing fields with
  | nil =>
    cases hd
    exact Iff.rfl
  | cons name path ih =>
    obtain ⟨level, hl, hd⟩ := exists_branch_of_descend? hd
    rw [List.cons_append, mem_nodes_cons_of_mem (t := .branch fields) h (Table.mem_of_lookup hl)]
    exact ih (h.inside hl) hd

/-- A path leads somewhere exactly if there is a branch at it. -/
theorem descend?_isSome_iff (h : Distinct fields) :
    (descend? fields path).isSome ↔ (path, Kind.branch) ∈ (branch fields).nodes := by
  induction path generalizing fields with
  | nil => exact iff_of_true rfl (mem_nodes_nil.2 rfl)
  | cons name path ih =>
    rcases hl : fields.lookup name with _ | _ | level
    · have hname : name ∉ Table.keys fields := fun hname => by
        rw [← Table.lookup_isSome_iff, hl] at hname
        cases hname
      refine iff_of_false (by simp [descend?_cons, hl]) fun hn => ?_
      obtain ⟨child, hc, -⟩ := mem_nodes_cons.1 hn
      exact hname (List.mem_map_of_mem hc)
    · refine iff_of_false (by simp [descend?_cons, hl, Tree.branch?]) fun hn => ?_
      rw [mem_nodes_cons_of_mem (t := .branch fields) h (Table.mem_of_lookup hl)] at hn
      cases path with
      | nil => cases mem_nodes_nil.1 hn
      | cons next path =>
        obtain ⟨child, hc, -⟩ := mem_nodes_cons.1 hn
        cases hc
    · rw [descend?_branch hl, ih (h.inside hl),
        mem_nodes_cons_of_mem (t := .branch fields) h (Table.mem_of_lookup hl)]

/-- Nothing is found exactly if the way breaks. -/
theorem descend?_eq_none_iff (h : Distinct fields) :
    descend? fields path = none ↔ (branch fields).Breaks path := by
  rw [← Option.not_isSome_iff_eq_none]
  constructor
  · intro hnone
    rw [descend?_isSome_iff h] at hnone
    refine ⟨path, List.prefix_rfl, or_iff_not_imp_right.2 fun hleaf k => ?_⟩
    cases k with
    | leaf => exact hleaf
    | branch => exact hnone
  · rintro ⟨front, ⟨back, rfl⟩, hbreak⟩ hsome
    rw [descend?_append] at hsome
    have hfront := (descend?_isSome_iff h).1 (Option.isSome_of_isSome_bind hsome)
    rcases hbreak with hnone | hleaf
    · exact hnone _ hfront
    · cases kind_unique (t := .branch fields) h hleaf hfront

/-- A branch that is found is empty exactly if nothing stands beneath its path. -/
theorem eq_nil_iff_emptyAt (h : Distinct fields) (hd : descend? fields path = some inside) :
    inside = [] ↔ (branch fields).EmptyAt path := by
  have hbranch := (descend?_isSome_iff h).1 (Option.isSome_of_eq_some hd)
  have hkeys : (∀ name k, (path ++ [name], k) ∉ (branch fields).nodes) ↔
      ∀ name, name ∉ Table.keys inside := by
    refine forall_congr' fun name => ?_
    rw [show Table.keys inside = Table.keys (branch inside).fields from rfl, mem_keys_fields]
    simp only [mem_nodes_of_descend? h hd, not_exists]
  rw [EmptyAt, and_iff_right hbranch, hkeys, ← List.eq_nil_iff_forall_not_mem, Table.keys,
    List.map_eq_nil_iff]

/-! ### Dotted paths -/

theorem beneath_of_none (h : p ≠ "") (hd : descend? fields (segments p) = none) :
    fields.beneath p = ⟨[], [.branchNotFound p]⟩ := by
  rw [beneath, if_neg fun he => h (String.isEmpty_iff.1 he), hd]

theorem beneath_of_some (h : p ≠ "") (hd : descend? fields (segments p) = some inside) :
    fields.beneath p = ⟨inside, []⟩ := by
  rw [beneath, if_neg fun he => h (String.isEmpty_iff.1 he), hd]

/-- From nowhere, no path leads on. -/
theorem value_beneath_nil (p : String) : (beneath [] p).value = [] := by
  rw [beneath]
  split
  · rfl
  · cases hs : segments p with
    | nil => exact absurd hs (segments_ne_nil p)
    | cons name path => rfl

theorem value_beneath_append_dot (hp : p ≠ "") (hq : q ≠ "") (fields : Fields) :
    (fields.beneath (p ++ "." ++ q)).value = ((fields.beneath p).value.beneath q).value := by
  have hwhole : p ++ "." ++ q ≠ "" := by simp
  rw [value_beneath hwhole, segments_append_dot, descend?_append]
  cases hd : descend? fields (segments p) with
  | none => rw [beneath_of_none hp hd, value_beneath_nil, Option.bind_none, Option.getD_none]
  | some inside => rw [beneath_of_some hp hd, value_beneath hq, Option.bind_some]

theorem value_beneath_eq_nil_iff (h : Distinct fields) (hp : p ≠ "") :
    (fields.beneath p).value = [] ↔
      (branch fields).Breaks (segments p) ∨ (branch fields).EmptyAt (segments p) := by
  rw [← descend?_eq_none_iff h]
  cases hd : descend? fields (segments p) with
  | none =>
    rw [beneath_of_none hp hd]
    exact iff_of_true rfl (.inl rfl)
  | some inside =>
    rw [beneath_of_some hp hd, eq_nil_iff_emptyAt h hd]
    exact (or_iff_right nofun).symm

theorem records_beneath (h : Distinct fields) (hp : p ≠ "") :
    ((fields.beneath p).records = [.branchNotFound p] ↔ (branch fields).Breaks (segments p)) ∧
    ((fields.beneath p).records = [] ↔ ¬ (branch fields).Breaks (segments p)) := by
  rw [← descend?_eq_none_iff h]
  cases hd : descend? fields (segments p) with
  | none =>
    rw [beneath_of_none hp hd]
    exact ⟨iff_of_true rfl rfl, iff_of_false nofun fun hne => hne rfl⟩
  | some inside =>
    rw [beneath_of_some hp hd]
    exact ⟨iff_of_false nofun nofun, iff_of_true rfl nofun⟩

/-- The fields at a dotted path are found front first. There are none exactly if the way breaks or
the branch at its end is empty, and it is reported exactly if the way breaks, once and with the whole
path. -/
theorem beneath_append_dot (h : Distinct fields) (hp : p ≠ "") (hq : q ≠ "") :
    (fields.beneath (p ++ "." ++ q)).value = ((fields.beneath p).value.beneath q).value ∧
    ((fields.beneath (p ++ "." ++ q)).value = [] ↔
      (branch fields).Breaks (segments (p ++ "." ++ q)) ∨
      (branch fields).EmptyAt (segments (p ++ "." ++ q))) ∧
    ((fields.beneath (p ++ "." ++ q)).records = [.branchNotFound (p ++ "." ++ q)] ↔
      (branch fields).Breaks (segments (p ++ "." ++ q))) ∧
    ((fields.beneath (p ++ "." ++ q)).records = [] ↔
      ¬ (branch fields).Breaks (segments (p ++ "." ++ q))) ∧
    ∀ record ∈ (fields.beneath (p ++ "." ++ q)).records,
      record.message = "Requested fields branch not found" := by
  have hwhole : p ++ "." ++ q ≠ "" := by simp
  obtain ⟨hbreaks, hfound⟩ := records_beneath h hwhole
  refine ⟨value_beneath_append_dot hp hq fields, value_beneath_eq_nil_iff h hwhole, hbreaks, hfound,
    fun record hr => ?_⟩
  by_cases hb : (branch fields).Breaks (segments (p ++ "." ++ q))
  · rw [hbreaks.2 hb] at hr
    obtain rfl := List.mem_singleton.1 hr
    rfl
  · rw [hfound.2 hb] at hr
    cases hr

/-- `{ a { "" { b { c } id } e { } } }` -/
def unnamed : Fields :=
  [("a", .branch [("", .branch [("b", .branch [("c", .leaf)]), ("id", .leaf)]), ("e", .branch [])])]

theorem beneath_unnamed :
    Distinct unnamed ∧
    (beneath (unnamed.beneath "a.").value "b").value = [("c", .leaf)] ∧
    ((branch unnamed).EmptyAt ["a", "e"] ∧ (unnamed.beneath "a.e").records = []) ∧
    (branch unnamed).Breaks ["a", "", "id", "", ""] ∧
    (beneath (unnamed.beneath "a..id").value ".").value = [] := by
  have hd : Distinct unnamed :=
    distinct_absorb [.branch "a" [.branch "" [.branch "b" [.leaf "c"], .leaf "id"], .branch "e" []]]
  obtain ⟨hfound, -⟩ := beneath_append_dot (p := "a.") (q := "b") hd (by decide) (by decide)
  obtain ⟨-, hnone, -, hsilent, -⟩ :=
    beneath_append_dot (p := "a") (q := "e") hd (by decide) (by decide)
  obtain ⟨hleaf, -, hreported, -⟩ :=
    beneath_append_dot (p := "a..id") (q := ".") hd (by decide) (by decide)
  have hway : ¬ (branch unnamed).Breaks ["a", "e"] := hsilent.1 rfl
  exact ⟨hd, hfound.symm, ⟨(hnone.1 rfl).resolve_left hway, rfl⟩, hreported.1 rfl, hleaf.symm⟩

end Fields

end Lookahead
