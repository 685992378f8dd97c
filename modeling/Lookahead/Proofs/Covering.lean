import Lookahead.Proofs.Merging
import Lookahead.Subtree
import Mathlib.Data.List.Perm.Basic

/-!
# Covering

Fields cover others if they have every field of the others, level by level (`Fields.Covers`). Trees
that are the same cover each other (`covers_of_same`), and two without repeated names that cover each
other are the same (`same_of_covers`). Of fields that were merged from occurrences, each level
consists of what the occurrences request there (`descend?_absorb`), so to cover what was merged from
several lists is to cover what comes from each of them (`covers_absorb_append`).
-/

namespace Lookahead

namespace Fields

/-- No name is repeated on any level. -/
def Distinct (fields : Fields) : Prop :=
  ∀ path level, descend? fields path = some level → (Table.keys level).Nodup

/-- Wherever there are fields in `gs`, there are fields of at least the same names in `fs`. -/
def Covers (fs gs : Fields) : Prop :=
  ∀ path level, descend? gs path = some level →
    ∃ level', descend? fs path = some level' ∧ Table.keys level ⊆ Table.keys level'

variable {fs gs : Fields} {name : String}

theorem descend?_cons (fields : Fields) (name : String) (path : List String) :
    descend? fields (name :: path) =
      ((fields.lookup name).bind Tree.branch?).bind (descend? · path) := by rw [descend?]

theorem descend?_branch {inside : Fields} (h : fs.lookup name = some (.branch inside))
    (path : List String) : descend? fs (name :: path) = descend? inside path := by
  rw [descend?_cons, h]
  rfl

theorem exists_branch_of_descend? {path : List String} {level : Fields}
    (h : descend? fs (name :: path) = some level) :
    ∃ inside, fs.lookup name = some (.branch inside) ∧ descend? inside path = some level := by
  rw [descend?_cons] at h
  obtain ⟨inside, hb, hd⟩ := Option.bind_eq_some_iff.1 h
  obtain ⟨t, hl, ht⟩ := Option.bind_eq_some_iff.1 hb
  cases t with
  | leaf => cases ht
  | branch fields =>
    cases ht
    exact ⟨_, hl, hd⟩

theorem sizeAll_lt_of_mem {inside : Fields} (h : (name, Tree.branch inside) ∈ fs) :
    Tree.sizeAll inside < Tree.sizeAll fs := by
  induction fs with
  | nil => cases h
  | cons entry fs ih =>
    rw [Tree.sizeAll]
    rcases List.mem_cons.1 h with rfl | h
    · rw [Tree.size]
      omega
    · have := ih h
      omega

theorem Distinct.nodup (h : Distinct fs) : (Table.keys fs).Nodup := h [] fs rfl

theorem Distinct.inside {inside : Fields} (h : Distinct fs)
    (hl : fs.lookup name = some (.branch inside)) : Distinct inside := by
  intro path level hd
  exact h (name :: path) level (by rwa [descend?_branch hl])

namespace Covers

theorem refl (fs : Fields) : Covers fs fs := fun _ level h => ⟨level, h, List.Subset.refl _⟩

theorem nil (fs : Fields) : Covers fs [] := by
  rintro (_ | ⟨name, path⟩) level h
  · cases h
    exact ⟨fs, rfl, List.nil_subset _⟩
  · obtain ⟨inside, hl, -⟩ := exists_branch_of_descend? h
    cases hl

theorem trans {hs : Fields} (h : Covers fs gs) (h' : Covers gs hs) : Covers fs hs := by
  intro path level hd
  obtain ⟨level', hd', hk'⟩ := h' path level hd
  obtain ⟨level'', hd'', hk''⟩ := h path level' hd'
  exact ⟨level'', hd'', List.Subset.trans hk' hk''⟩

theorem keys_subset (h : Covers fs gs) : Table.keys gs ⊆ Table.keys fs := by
  obtain ⟨level, hl, hk⟩ := h [] gs rfl
  cases hl
  exact hk

theorem exists_branch {inside : Fields} (h : Covers fs gs)
    (hl : gs.lookup name = some (.branch inside)) :
    ∃ inside', fs.lookup name = some (.branch inside') ∧ Covers inside' inside := by
  obtain ⟨_, hd, -⟩ := h [name] inside (descend?_branch hl [])
  obtain ⟨inside', hl', -⟩ := exists_branch_of_descend? hd
  refine ⟨inside', hl', fun path level hp => ?_⟩
  obtain ⟨level', hd', hk⟩ := h (name :: path) level (by rwa [descend?_branch hl])
  rw [descend?_branch hl'] at hd'
  exact ⟨level', hd', hk⟩

end Covers

/-! ### Sameness -/

theorem sameIn_iff : Tree.sameIn gs fs = true ↔
    ∀ entry ∈ fs, ∃ t, gs.lookup entry.1 = some t ∧ entry.2.same t = true := by
  induction fs with
  | nil => simp [Tree.sameIn]
  | cons entry fs ih =>
    rw [Tree.sameIn, Bool.and_eq_true, ih, Option.any_eq_true, List.forall_mem_cons]

theorem same_branch_iff : (Tree.branch fs).same (.branch gs) = true ↔
    fs.length = gs.length ∧
      ∀ entry ∈ fs, ∃ t, gs.lookup entry.1 = some t ∧ entry.2.same t = true := by
  rw [Tree.same, Bool.and_eq_true, beq_iff_eq, sameIn_iff]

/-- What is the same as some fields covers them. -/
theorem covers_of_same (h : (Tree.branch fs).same (.branch gs) = true) : Covers gs fs := by
  intro path
  induction path generalizing fs gs with
  | nil =>
    rintro level ⟨⟩
    refine ⟨gs, rfl, fun name hname => ?_⟩
    obtain ⟨entry, he, rfl⟩ := List.mem_map.1 hname
    obtain ⟨t, ht, -⟩ := (same_branch_iff.1 h).2 entry he
    exact Table.lookup_isSome_iff.1 (Option.isSome_of_eq_some ht)
  | cons name path ih =>
    intro level hd
    obtain ⟨inside, hl, hd⟩ := exists_branch_of_descend? hd
    obtain ⟨t, ht, hs⟩ := (same_branch_iff.1 h).2 _ (Table.mem_of_lookup hl)
    cases t with
    | leaf => simp [Tree.same] at hs
    | branch inside' =>
      obtain ⟨level', hd', hk⟩ := ih hs level hd
      exact ⟨level', by rwa [descend?_branch ht], hk⟩

/-- Fields without repetitions that cover each other are the same. -/
theorem same_of_covers {fs gs : Fields} (hf : Distinct fs) (hg : Distinct gs) (h : Covers fs gs)
    (h' : Covers gs fs) : (Tree.branch fs).same (.branch gs) = true := by
  rw [same_branch_iff]
  constructor
  · have hperm : (Table.keys fs).Perm (Table.keys gs) :=
      (List.perm_ext_iff_of_nodup hf.nodup hg.nodup).2 fun _ =>
        ⟨fun hn => h'.keys_subset hn, fun hn => h.keys_subset hn⟩
    simpa [Table.keys] using hperm.length_eq
  · rintro ⟨name, t⟩ he
    have hl : fs.lookup name = some t := Table.lookup_of_mem hf.nodup he
    cases t with
    | leaf =>
      have hname : name ∈ Table.keys gs := h'.keys_subset (List.mem_map_of_mem he)
      obtain ⟨t, ht⟩ := Option.isSome_iff_exists.1 (Table.lookup_isSome_iff.2 hname)
      cases t with
      | leaf => exact ⟨.leaf, ht, rfl⟩
      | branch inside =>
        -- A branch of `gs` would be one of `fs`.
        obtain ⟨inside', hl', -⟩ := h.exists_branch ht
        rw [hl] at hl'
        cases hl'
    | branch inside =>
      obtain ⟨inside', ht, hcov'⟩ := h'.exists_branch hl
      obtain ⟨inside'', hl', hcov⟩ := h.exists_branch ht
      rw [hl] at hl'
      cases hl'
      have hlt := sizeAll_lt_of_mem he
      exact ⟨_, ht, same_of_covers (hf.inside hl) (hg.inside ht) hcov hcov'⟩
termination_by Tree.sizeAll fs

end Fields

/-! ### Merged occurrences -/

namespace Occurrence

/-- What is requested beneath the fields `path`, one inside the other, if all of them are requested
with sub-selections. -/
def within? (os : List Occurrence) : List String → Option (List Occurrence)
  | [] => some os
  | name :: path => if os.any (isBranch name) then within? (beneath name os) path else none

/-- What is requested beneath a dotted path. -/
def under (path : String) (os : List Occurrence) : List Occurrence :=
  if path.isEmpty then os else (within? os (segments path)).getD []

theorem under_nil (path : String) : under path [] = [] := by
  unfold under
  split
  · rfl
  · cases segments path <;> rfl

theorem within?_append (os os' : List Occurrence) (path : List String) :
    within? (os ++ os') path = Option.merge (· ++ ·) (within? os path) (within? os' path) := by
  induction path generalizing os os' with
  | nil => rfl
  | cons name path ih =>
    rw [within?, within?, within?, List.any_append, beneath_append]
    by_cases h : os.any (isBranch name) = true
    · by_cases h' : os'.any (isBranch name) = true
      · simp [h, h', ih]
      · simp [h, h', beneath_eq_nil (Bool.not_eq_true _ ▸ h')]
    · by_cases h' : os'.any (isBranch name) = true
      · simp [h, h', beneath_eq_nil (Bool.not_eq_true _ ▸ h)]
      · simp [h, h']

theorem exists_within?_append_left {os inside : List Occurrence} {path : List String}
    (h : within? os path = some inside) (os' : List Occurrence) :
    ∃ all, within? (os ++ os') path = some all ∧ inside ⊆ all := by
  rw [within?_append, h]
  cases within? os' path with
  | none => exact ⟨inside, rfl, List.Subset.refl _⟩
  | some inside' => exact ⟨inside ++ inside', rfl, List.subset_append_left _ _⟩

theorem exists_within?_append_right {os' inside' : List Occurrence} {path : List String}
    (h : within? os' path = some inside') (os : List Occurrence) :
    ∃ all, within? (os ++ os') path = some all ∧ inside' ⊆ all := by
  rw [within?_append, h]
  cases within? os path with
  | none => exact ⟨inside', rfl, List.Subset.refl _⟩
  | some inside => exact ⟨inside ++ inside', rfl, List.subset_append_right _ _⟩

theorem under_append (path : String) (os os' : List Occurrence) :
    under path (os ++ os') = under path os ++ under path os' := by
  unfold under
  split
  · rfl
  · rw [within?_append]
    cases within? os (segments path) <;> cases within? os' (segments path) <;> simp

end Occurrence

namespace Fields

open Occurrence

theorem descend?_absorb (os : List Occurrence) (path : List String) :
    descend? (absorb [] os) path = (within? os path).map (absorb []) := by
  induction path generalizing os with
  | nil => rfl
  | cons name path ih =>
    rw [descend?_cons, lookup_absorb, within?]
    split
    · exact ih (Occurrence.beneath name os)
    · split <;> rfl

theorem beneath_absorb (os : List Occurrence) (path : String) :
    ((absorb [] os).beneath path).value = absorb [] (under path os) := by
  unfold beneath under
  rw [descend?_absorb]
  split
  · rfl
  · cases within? os (segments path) with
    | none => exact (absorb_nil []).symm
    | some inside => rfl

theorem mem_keys_absorb {name : String} {os : List Occurrence} :
    name ∈ Table.keys (absorb [] os) ↔ name ∈ names os := by
  simp [keys_absorb, List.removeAll]

theorem distinct_absorb (os : List Occurrence) : Distinct (absorb [] os) := by
  intro path level h
  rw [descend?_absorb] at h
  obtain ⟨inside, -, rfl⟩ := Option.map_eq_some_iff.1 h
  refine nodup_keys_absorb ?_ inside
  exact List.nodup_nil

variable {fs : Fields} {os os' : List Occurrence}

theorem covers_absorb_iff : Covers fs (absorb [] os) ↔
    ∀ path inside, within? os path = some inside →
      ∃ level, descend? fs path = some level ∧ names inside ⊆ Table.keys level := by
  constructor
  · intro h path inside hi
    obtain ⟨level, hl, hk⟩ := h path (absorb [] inside) (by rw [descend?_absorb, hi]; rfl)
    exact ⟨level, hl, fun name hn => hk (mem_keys_absorb.2 hn)⟩
  · intro h path level hl
    rw [descend?_absorb] at hl
    obtain ⟨inside, hi, rfl⟩ := Option.map_eq_some_iff.1 hl
    obtain ⟨level', hl', hk⟩ := h path inside hi
    exact ⟨level', hl', fun name hn => hk (mem_keys_absorb.1 hn)⟩

/-- Fields cover what two lists of occurrences are merged to if they cover both of them. -/
theorem covers_absorb_append : Covers fs (absorb [] (os ++ os')) ↔
    Covers fs (absorb [] os) ∧ Covers fs (absorb [] os') := by
  rw [covers_absorb_iff, covers_absorb_iff, covers_absorb_iff]
  constructor
  · intro h
    constructor
    · intro path inside hi
      obtain ⟨all, ha, hsub⟩ := exists_within?_append_left hi os'
      obtain ⟨level, hl, hk⟩ := h path all ha
      exact ⟨level, hl, fun name hn => hk (List.filterMap_subset _ hsub hn)⟩
    · intro path inside' hi'
      obtain ⟨all, ha, hsub⟩ := exists_within?_append_right hi' os
      obtain ⟨level, hl, hk⟩ := h path all ha
      exact ⟨level, hl, fun name hn => hk (List.filterMap_subset _ hsub hn)⟩
  · rintro ⟨h, h'⟩ path all ha
    rw [within?_append] at ha
    cases hi : within? os path with
    | none =>
      rw [hi, Option.merge_none_left] at ha
      exact h' path all ha
    | some inside =>
      cases hi' : within? os' path with
      | none =>
        rw [hi, hi', Option.merge_none_right] at ha
        exact h path all (hi.trans ha)
      | some inside' =>
        rw [hi, hi', Option.merge_some_some] at ha
        cases ha
        obtain ⟨level, hl, hk⟩ := h path inside hi
        obtain ⟨level', hl', hk'⟩ := h' path inside' hi'
        rw [hl] at hl'
        cases hl'
        refine ⟨level, hl, ?_⟩
        rw [names_append]
        exact List.append_subset.2 ⟨hk, hk'⟩

theorem covers_absorb_left (os os' : List Occurrence) :
    Covers (absorb [] (os ++ os')) (absorb [] os) :=
  (covers_absorb_append.1 (Covers.refl _)).1

theorem covers_absorb_right (os os' : List Occurrence) :
    Covers (absorb [] (os ++ os')) (absorb [] os') :=
  (covers_absorb_append.1 (Covers.refl _)).2

/-- More occurrences make a difference unless what is there covers them. -/
theorem same_absorb_append_iff : (Tree.branch (absorb [] (os ++ os'))).same
    (.branch (absorb [] os)) = true ↔ Covers (absorb [] os) (absorb [] os') := by
  constructor
  · intro h
    exact (covers_absorb_append.1 (covers_of_same h)).2
  · intro h
    have hmore : Covers (absorb [] os) (absorb [] (os ++ os')) :=
      covers_absorb_append.2 ⟨Covers.refl _, h⟩
    exact same_of_covers (distinct_absorb _) (distinct_absorb _) (covers_absorb_left os os') hmore

end Fields

end Lookahead
