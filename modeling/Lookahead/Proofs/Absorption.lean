import Lookahead.Proofs.Covering
import Lookahead.Proofs.Depth

/-!
# Merging into fields that are there

`Fields.absorb` merges occurrences into fields that were requested before. Nothing of these is lost
or moved (`retains_absorb`), the occurrences are all there afterwards (`covers_absorb`), and whatever
covers both covers the outcome (`covers_absorb_root_iff`). Fields that cover occurrences already are
left as they are, down to the order of the names (`absorb_eq_self`). So what was collected once can
be collected again at any later time without any effect (`collect_again`).
-/

namespace Lookahead

namespace Fields

open Occurrence

variable {fs fields inside : Fields} {name : String} {os : List Occurrence}

/-- Wherever there are fields in `gs`, there are fields in `fs` that start with the same names, in
the same order. -/
def Retains (fs gs : Fields) : Prop :=
  ∀ path level, descend? gs path = some level →
    ∃ level', descend? fs path = some level' ∧ Table.keys level <+: Table.keys level'

theorem Retains.covers {gs : Fields} (h : Retains fs gs) : Covers fs gs := by
  intro path level hd
  obtain ⟨level', hd', hk⟩ := h path level hd
  exact ⟨level', hd', hk.subset⟩

theorem Covers.below {gs : Fields} (h : Covers fs gs) (hl : fs.lookup name = some (.branch inside)) :
    Covers inside (Fields.below gs name) := by
  rw [Fields.below]
  rcases hg : gs.lookup name with _ | _ | inside'
  · exact .nil inside
  · exact .nil inside
  · obtain ⟨inside'', hl', hcovers⟩ := h.exists_branch hg
    rw [hl] at hl'
    cases hl'
    exact hcovers

theorem Distinct.below (h : Distinct fields) (name : String) : Distinct (Fields.below fields name) := by
  rw [Fields.below]
  rcases hl : fields.lookup name with _ | _ | inside
  · exact distinct_absorb []
  · exact distinct_absorb []
  · exact h.inside hl

/-! ### Branches of what is merged -/

theorem lookup_absorb_branch (fields : Fields) (hb : os.any (isBranch name) = true) :
    (absorb fields os).lookup name =
      some (.branch (absorb (below fields name) (Occurrence.beneath name os))) := by
  rw [lookup_absorb, if_pos hb]

theorem lookup_absorb_single (name : String) (os : List Occurrence) :
    (absorb [] [.branch name os]).lookup name = some (.branch (absorb [] os)) := by
  simp [lookup_absorb, isBranch, Occurrence.beneath, insideOf, below]

/-- A branch was requested by the occurrences, or it was there and is as before. -/
theorem lookup_absorb_eq_branch (h : (absorb fields os).lookup name = some (.branch inside)) :
    os.any (isBranch name) = true ∧
        inside = absorb (below fields name) (Occurrence.beneath name os) ∨
      fields.lookup name = some (.branch inside) := by
  rw [lookup_absorb] at h
  split at h
  · next hb =>
    cases h
    exact .inl ⟨hb, rfl⟩
  · refine .inr ?_
    split at h
    · cases hl : fields.lookup name with
      | none => rw [hl] at h; cases h
      | some t => rw [hl] at h; exact h
    · exact h

theorem mem_keys_absorb_root : name ∈ Table.keys (absorb fields os) ↔
    name ∈ Table.keys fields ∨ name ∈ names os := by
  by_cases h : name ∈ Table.keys fields <;> simp [keys_absorb, List.removeAll, h]

theorem retains_absorb (fields : Fields) (os : List Occurrence) : Retains (absorb fields os) fields := by
  intro path
  induction path generalizing fields os with
  | nil =>
    rintro level ⟨⟩
    refine ⟨absorb fields os, rfl, ?_⟩
    rw [keys_absorb]
    exact List.prefix_append _ _
  | cons name path ih =>
    intro level hd
    obtain ⟨inside, hl, hd⟩ := exists_branch_of_descend? hd
    by_cases hb : os.any (isBranch name) = true
    · have hbelow : below fields name = inside := by rw [below, hl]; rfl
      have hl' := lookup_absorb_branch fields hb
      rw [hbelow] at hl'
      obtain ⟨level', hd', hk⟩ := ih inside (Occurrence.beneath name os) level hd
      exact ⟨level', by rwa [descend?_branch hl'], hk⟩
    · have hl' : (absorb fields os).lookup name = some (.branch inside) := by
        rw [lookup_absorb, if_neg hb, hl]
        simp
      exact ⟨level, by rwa [descend?_branch hl'], List.prefix_rfl⟩

/-- Wherever occurrences are merged into, all that they request is there. -/
theorem covers_absorb (fields : Fields) (os : List Occurrence) :
    Covers (absorb fields os) (absorb [] os) := by
  rw [covers_absorb_iff]
  intro path
  induction path generalizing fields os with
  | nil =>
    rintro inside ⟨⟩
    exact ⟨absorb fields os, rfl, fun name hn => mem_keys_absorb_root.2 (.inr hn)⟩
  | cons name path ih =>
    intro inside hi
    rw [within?] at hi
    split at hi
    · next hb =>
      obtain ⟨level, hd, hk⟩ := ih (below fields name) (Occurrence.beneath name os) inside hi
      exact ⟨level, by rwa [descend?_branch (lookup_absorb_branch fields hb)], hk⟩
    · cases hi

/-- Fields cover the outcome of a merge if they cover both what was there and what was merged. -/
theorem covers_absorb_root_iff :
    Covers fs (absorb fields os) ↔ Covers fs fields ∧ Covers fs (absorb [] os) := by
  constructor
  · intro h
    exact ⟨h.trans (retains_absorb fields os).covers, h.trans (covers_absorb fields os)⟩
  · rintro ⟨h, h'⟩ path
    induction path generalizing fs fields os with
    | nil =>
      rintro level ⟨⟩
      refine ⟨fs, rfl, fun name hn => ?_⟩
      rcases mem_keys_absorb_root.1 hn with hn | hn
      · exact h.keys_subset hn
      · exact h'.keys_subset (mem_keys_absorb.2 hn)
    | cons name path ih =>
      intro level hd
      obtain ⟨inside, hl, hd⟩ := exists_branch_of_descend? hd
      rcases lookup_absorb_eq_branch hl with ⟨hb, rfl⟩ | hl
      · obtain ⟨inside, hl', hnew⟩ := h'.exists_branch (lookup_absorb_branch [] hb)
        obtain ⟨level', hd', hk⟩ := ih (h.below hl') hnew level hd
        exact ⟨level', by rwa [descend?_branch hl'], hk⟩
      · obtain ⟨inside', hl', hold⟩ := h.exists_branch hl
        obtain ⟨level', hd', hk⟩ := hold path level hd
        exact ⟨level', by rwa [descend?_branch hl'], hk⟩

theorem Distinct.absorb_root (h : Distinct fields) (os : List Occurrence) :
    Distinct (absorb fields os) := by
  intro path
  induction path generalizing fields os with
  | nil =>
    rintro level ⟨⟩
    exact nodup_keys_absorb h.nodup os
  | cons name path ih =>
    intro level hd
    obtain ⟨inside, hl, hd⟩ := exists_branch_of_descend? hd
    rcases lookup_absorb_eq_branch hl with ⟨-, rfl⟩ | hl
    · exact ih (h.below name) (Occurrence.beneath name os) level hd
    · exact h.inside hl path level hd

/-! ### What is there already -/

mutual

theorem mergeInto_eq_self : ∀ (o : Occurrence) {fields : Fields},
    Covers fields (absorb [] [o]) → o.mergeInto fields = fields
  | .leaf name, fields, h => by
    have hname : name ∈ Table.keys fields :=
      h.keys_subset (mem_keys_absorb.2 (by simp [names, fieldName?]))
    obtain ⟨t, ht⟩ := Option.isSome_iff_exists.1 (Table.lookup_isSome_iff.2 hname)
    rw [mergeInto_leaf]
    exact Table.update_eq_self ht rfl
  | .branch name inside, fields, h => by
    obtain ⟨level, hlevel, hcovers⟩ := h.exists_branch (lookup_absorb_single name inside)
    have hinside : absorb level inside = level := absorb_eq_self inside hcovers
    rw [mergeInto_branch]
    exact Table.update_eq_self hlevel (congrArg Tree.branch hinside)
  | .unknownFragment name, fields, _ => mergeInto_unknownFragment fields name

/-- Fields are not changed by occurrences that they cover. -/
theorem absorb_eq_self : ∀ (os : List Occurrence) {fields : Fields},
    Covers fields (absorb [] os) → absorb fields os = fields
  | [], fields, _ => absorb_nil fields
  | o :: os, fields, h => by
    have hboth : Covers fields (absorb [] ([o] ++ os)) := h
    obtain ⟨hfirst, hrest⟩ := covers_absorb_append.1 hboth
    rw [absorb_cons, mergeInto_eq_self o hfirst, absorb_eq_self os hrest]

end

end Fields

/-! ### One selection set after another -/

/-- A selection list that is to be collected, and how. -/
structure Walk where
  collector : Collector
  rules : Rules
  selections : List Selection

namespace Walk

/-- Collects into the fields requested so far. -/
def into (walk : Walk) (fields : Fields) : Except Halt Fields := do
  let result ← walk.collector.collect walk.rules walk.selections fields
  return result.value

theorem covers_of_into {walk : Walk} {fields next : Fields} (h : walk.into fields = .ok next) :
    next.Covers fields := by
  obtain ⟨result, hc, he⟩ := bind_eq_ok_iff.1 h
  obtain ⟨found, -, rfl⟩ := Collector.exists_reads_of_collect hc
  cases he
  exact (Fields.retains_absorb fields found).covers

theorem covers_of_foldlM {walks : List Walk} {fields last : Fields}
    (h : walks.foldlM (fun fields walk => walk.into fields) fields = .ok last) :
    last.Covers fields := by
  induction walks generalizing fields with
  | nil =>
    cases h
    exact .refl _
  | cons walk walks ih =>
    rw [List.foldlM_cons] at h
    obtain ⟨next, hnext, hrest⟩ := bind_eq_ok_iff.1 h
    exact (ih hrest).trans (covers_of_into hnext)

end Walk

namespace Collector

/-- What was collected once and is collected again, whatever was collected in between, leaves the
fields as they are, and reports what it reported. -/
theorem collect_again {c : Collector} {rules : Rules} {selections : List Selection}
    {fields : Fields} {first : Logged Fields} (h : c.collect rules selections fields = .ok first)
    {walks : List Walk} {last : Fields}
    (hw : walks.foldlM (fun fields walk => walk.into fields) first.value = .ok last) :
    c.collect rules selections last = .ok ⟨last, first.records⟩ := by
  obtain ⟨found, hr, rfl⟩ := exists_reads_of_collect h
  have hcovers : last.Covers (Fields.absorb [] found) :=
    (Walk.covers_of_foldlM hw).trans (Fields.covers_absorb fields found)
  rw [hr.collect_eq, Fields.absorb_eq_self found hcovers]

/-- `{ a b { x } }` -/
def shallow : List Selection := [.field "a" none [] [], .field "b" none [] [.field "x" none [] []]]

/-- `{ c a { p q } }` without any `q` beneath another field, then `{ b { y x { w } } }`. -/
def deeper : List Walk :=
  [⟨⟨[], [], true⟩, Rules.ofPatterns ["*.q"], [.field "c" none [] [],
      .field "a" none [] [.field "p" none [] [], .field "q" none [] []]]⟩,
    ⟨⟨[], [], false⟩, [], [.field "b" none [] [.field "y" none [] [],
      .field "x" none [] [.field "w" none [] []]]]⟩]

theorem collect_again_after_upgrade :
    (Collector.mk [] [] true).collect [] shallow [("z", .leaf)] =
      .ok ⟨[("z", .leaf), ("a", .leaf), ("b", .branch [("x", .leaf)])], []⟩ ∧
    deeper.foldlM (fun fields walk => walk.into fields)
        [("z", .leaf), ("a", .leaf), ("b", .branch [("x", .leaf)])] =
      .ok [("z", .leaf), ("a", .branch [("p", .leaf)]),
        ("b", .branch [("x", .branch [("w", .leaf)]), ("y", .leaf)]), ("c", .leaf)] ∧
    (Collector.mk [] [] true).collect [] shallow
        [("z", .leaf), ("a", .branch [("p", .leaf)]),
          ("b", .branch [("x", .branch [("w", .leaf)]), ("y", .leaf)]), ("c", .leaf)] =
      .ok ⟨[("z", .leaf), ("a", .branch [("p", .leaf)]),
        ("b", .branch [("x", .branch [("w", .leaf)]), ("y", .leaf)]), ("c", .leaf)], []⟩ := by
  have hfirst : (Collector.mk [] [] true).collect [] shallow [("z", .leaf)] =
      .ok ⟨[("z", .leaf), ("a", .leaf), ("b", .branch [("x", .leaf)])], []⟩ := rfl
  have hlater : deeper.foldlM (fun fields walk => walk.into fields)
      [("z", .leaf), ("a", .leaf), ("b", .branch [("x", .leaf)])] =
    .ok [("z", .leaf), ("a", .branch [("p", .leaf)]),
      ("b", .branch [("x", .branch [("w", .leaf)]), ("y", .leaf)]), ("c", .leaf)] := rfl
  exact ⟨hfirst, hlater, collect_again hfirst hlater⟩

end Collector

end Lookahead
