import Lookahead.Proofs.Absorption
import Lookahead.Proofs.Hiding
import Lookahead.Proofs.PathNames

/-!
# What a projection tells about a tree

The keys of a projection without replacements and without parents are the dotted paths of the
leaves. Where names are plain, they can be taken apart again, and a leaf put at each of them
(`Fields.rebuilt`) gives the tree back, but for the branches without a leaf beneath them
(`Fields.trim`). The order of the keys makes no difference: fields without empty branches are the
same if they have the same paths (`covers_of_hasPath`), and both the paths of what is rebuilt and
those of what is left are the starts of the paths of leaves (`hasPath_rebuilt`, `hasPath_trim`).
-/

namespace Lookahead

/-! ### Leaves -/

namespace Tree

mutual

/-- The number of leaves at and beneath a node. -/
def leafCount : Tree → Nat
  | leaf => 1
  | branch fields => leafCountAll fields

def leafCountAll : List (String × Tree) → Nat
  | [] => 0
  | (_, t) :: fields => t.leafCount + leafCountAll fields

end

mutual

/-- The leaves at and beneath a node, each as the names on the way to it. -/
def leaves : Tree → List (List String)
  | leaf => [[]]
  | branch fields => leavesAll fields

def leavesAll : List (String × Tree) → List (List String)
  | [] => []
  | (name, t) :: fields => t.leaves.map (name :: ·) ++ leavesAll fields

end

mutual

theorem length_leaves : ∀ t : Tree, t.leaves.length = t.leafCount
  | leaf => rfl
  | branch fields => by rw [leaves, leafCount, length_leavesAll fields]

theorem length_leavesAll : ∀ fields, (leavesAll fields).length = leafCountAll fields
  | [] => rfl
  | (name, t) :: fields => by
    rw [leavesAll, leafCountAll, List.length_append, List.length_map, length_leaves t,
      length_leavesAll fields]

end

theorem leavesAll_eq_flatMap (fields : Fields) :
    leavesAll fields = fields.flatMap fun entry => entry.2.leaves.map (entry.1 :: ·) := by
  induction fields with
  | nil => rfl
  | cons entry fields ih => rw [leavesAll, ih, List.flatMap_cons]

theorem mem_leavesAll {fields : Fields} {names : List String} : names ∈ leavesAll fields ↔
    ∃ entry ∈ fields, ∃ inner ∈ entry.2.leaves, entry.1 :: inner = names := by
  rw [leavesAll_eq_flatMap, List.mem_flatMap]
  simp only [List.mem_map]

theorem nil_notMem_leavesAll (fields : Fields) : [] ∉ leavesAll fields := by
  intro h
  obtain ⟨_, -, _, -, he⟩ := mem_leavesAll.1 h
  cases he

theorem nodup_leaves {t : Tree} (h : t.fields.Distinct) : t.leaves.Nodup := by
  cases t with
  | leaf => exact List.nodup_singleton _
  | branch fields =>
    rw [leaves, leavesAll_eq_flatMap]
    refine nodup_flatMap_cons leaves h.nodup fun entry he => ?_
    have hlt := size_lt_of_mem_fields (t := .branch fields) he
    exact nodup_leaves (h.of_mem he)
termination_by t.size

theorem mem_atDepth_leaf_iff {t : Tree} {names : List String} :
    (names, .leaf) ∈ t.atDepth names.length ↔ names ∈ t.leaves := by
  induction names generalizing t with
  | nil =>
    cases t with
    | leaf => simp [atDepth, leaves]
    | branch fields =>
      refine iff_of_false (fun h => ?_) (nil_notMem_leavesAll fields)
      cases List.mem_singleton.1 h
  | cons name names ih =>
    rw [List.length_cons, mem_atDepth_succ]
    constructor
    · rintro ⟨entry, he, ⟨inner, u⟩, hi, hnode⟩
      obtain ⟨hnames, rfl⟩ := Prod.mk.inj hnode
      obtain ⟨hname, rfl⟩ := List.cons.inj hnames
      cases t with
      | leaf => cases he
      | branch fields => exact mem_leavesAll.2 ⟨entry, he, inner, ih.1 hi, hnames⟩
    · intro h
      cases t with
      | leaf => cases List.mem_singleton.1 h
      | branch fields =>
        obtain ⟨entry, he, inner, hi, hnames⟩ := mem_leavesAll.1 h
        obtain ⟨rfl, rfl⟩ := List.cons.inj hnames
        exact ⟨entry, he, (inner, .leaf), ih.2 hi, rfl⟩

end Tree

/-! ### Trimming -/

mutual

/-- A node without the branches beneath it that have no leaf. -/
def Tree.trim : Tree → Tree
  | .leaf => .leaf
  | .branch fields => .branch (Fields.trim fields)

/-- The fields of a level without the branches that have no leaf, on this level and beneath. -/
def Fields.trim : List (String × Tree) → Fields
  | [] => []
  | (name, t) :: fields =>
    if t.leafCount = 0 then Fields.trim fields else (name, t.trim) :: Fields.trim fields

end

namespace Fields

variable {fields fs gs inside : Fields} {name : String} {path : List String}

theorem fields_trim (t : Tree) : t.trim.fields = trim t.fields := by
  cases t with
  | leaf => rw [Tree.trim]; rfl
  | branch fields => rw [Tree.trim]; rfl

theorem trim_cons (name : String) (t : Tree) (fields : Fields) :
    trim ((name, t) :: fields) =
      if t.leafCount = 0 then trim fields else (name, t.trim) :: trim fields := by rw [trim]

theorem keys_trim_sublist (fields : Fields) :
    (Table.keys (trim fields)).Sublist (Table.keys fields) := by
  induction fields with
  | nil => rw [trim]
  | cons entry fields ih =>
    rw [trim_cons]
    split
    · exact ih.cons _
    · exact ih.cons_cons _

theorem lookup_trim (h : (Table.keys fields).Nodup) (name : String) :
    (trim fields).lookup name =
      ((fields.lookup name).filter (·.leafCount != 0)).map Tree.trim := by
  induction fields with
  | nil => rw [trim]; rfl
  | cons entry fields ih =>
    obtain ⟨key, t⟩ := entry
    obtain ⟨hkey, hn⟩ := List.nodup_cons.1 h
    rw [trim_cons, Table.lookup_cons]
    by_cases hname : name = key
    · subst hname
      have hnone : (trim fields).lookup name = none := by
        rw [← Option.not_isSome_iff_eq_none, Table.lookup_isSome_iff]
        exact fun hm => hkey ((keys_trim_sublist fields).subset hm)
      by_cases ht : t.leafCount = 0 <;> simp [ht, hnone]
    · by_cases ht : t.leafCount = 0 <;> simp [ht, hname, Table.lookup_cons, ih hn]

theorem trim_ne_nil (h : Tree.leafCountAll fields ≠ 0) : trim fields ≠ [] := by
  induction fields with
  | nil => exact absurd rfl h
  | cons entry fields ih =>
    rw [Tree.leafCountAll] at h
    rw [trim_cons]
    split
    · next ht => exact ih (by omega)
    · exact List.cons_ne_nil _ _

mutual

theorem leafCount_trim : ∀ t : Tree, t.trim.leafCount = t.leafCount
  | .leaf => by rw [Tree.trim]
  | .branch fields => by
    rw [Tree.trim, Tree.leafCount, Tree.leafCount, leafCountAll_trim fields]

/-- Trimming loses no leaf. -/
theorem leafCountAll_trim : ∀ fields, Tree.leafCountAll (trim fields) = Tree.leafCountAll fields
  | [] => by rw [trim]
  | (name, t) :: fields => by
    rw [trim_cons, Tree.leafCountAll]
    split
    · next ht => rw [leafCountAll_trim fields, ht, Nat.zero_add]
    · rw [Tree.leafCountAll, leafCount_trim t, leafCountAll_trim fields]

end

theorem descend?_trim (h : Distinct fields) (hd : descend? (trim fields) path = some inside) :
    ∃ level, descend? fields path = some level ∧ inside = trim level ∧
      (path ≠ [] → Tree.leafCountAll level ≠ 0) := by
  induction path generalizing fields with
  | nil =>
    cases hd
    exact ⟨fields, rfl, rfl, fun hne => absurd rfl hne⟩
  | cons name path ih =>
    obtain ⟨branch, hl, hd⟩ := exists_branch_of_descend? hd
    rw [lookup_trim h.nodup] at hl
    obtain ⟨t, ht, htrim⟩ := Option.map_eq_some_iff.1 hl
    obtain ⟨ht, hcount⟩ := Option.filter_eq_some_iff.1 ht
    cases t with
    | leaf => cases htrim
    | branch fields' =>
      cases htrim
      obtain ⟨level, hlevel, he, hne⟩ := ih (h.inside ht) hd
      refine ⟨level, by rwa [descend?_branch ht], he, fun _ => ?_⟩
      by_cases hpath : path = []
      · subst hpath
        cases hlevel
        simpa [Tree.leafCount] using hcount
      · exact hne hpath

theorem Distinct.trim (h : Distinct fields) : Distinct (trim fields) := by
  intro path inside hd
  obtain ⟨level, hl, rfl, -⟩ := descend?_trim h hd
  exact (h path level hl).sublist (keys_trim_sublist level)

theorem Plain.trim (h : Plain fields) (hd : Distinct fields) : Plain (trim fields) := by
  intro path inside hi name hname
  obtain ⟨level, hl, rfl, -⟩ := descend?_trim hd hi
  exact h path level hl name ((keys_trim_sublist level).subset hname)

/-! ### Fields by their paths -/

/-- No branch beneath the fields is empty. -/
def Filled (fields : Fields) : Prop :=
  ∀ path inside, path ≠ [] → descend? fields path = some inside → inside ≠ []

theorem Filled.trim (h : Distinct fields) : Filled (trim fields) := by
  intro path inside hne hd
  obtain ⟨level, -, rfl, hcount⟩ := descend?_trim h hd
  exact trim_ne_nil (hcount hne)

theorem hasPath_cons_iff : fields.hasPath (name :: path) = true ↔
    ∃ t, fields.lookup name = some t ∧ t.fields.hasPath path = true := by
  rw [hasPath, Option.any_eq_true]

theorem hasPath_concat_iff : fields.hasPath (path ++ [name]) = true ↔
    ∃ level, descend? fields path = some level ∧ name ∈ Table.keys level := by
  induction path generalizing fields with
  | nil =>
    rw [List.nil_append, hasPath_cons_iff]
    constructor
    · rintro ⟨t, ht, -⟩
      exact ⟨fields, rfl, Table.lookup_isSome_iff.1 (Option.isSome_of_eq_some ht)⟩
    · rintro ⟨level, hl, hname⟩
      cases hl
      obtain ⟨t, ht⟩ := Option.isSome_iff_exists.1 (Table.lookup_isSome_iff.2 hname)
      exact ⟨t, ht, rfl⟩
  | cons first path ih =>
    rw [List.cons_append, hasPath_cons_iff]
    constructor
    · rintro ⟨t, ht, hpath⟩
      obtain ⟨level, hl, hname⟩ := ih.1 hpath
      cases t with
      | leaf =>
        cases path with
        | nil => cases hl; cases hname
        | cons next path => cases hl
      | branch inside => exact ⟨level, by rwa [descend?_branch ht], hname⟩
    · rintro ⟨level, hl, hname⟩
      obtain ⟨inside, ht, hl⟩ := exists_branch_of_descend? hl
      exact ⟨.branch inside, ht, ih.2 ⟨level, hl, hname⟩⟩

/-- Fields that have every path of filled fields cover them. -/
theorem covers_of_hasPath (hg : Filled gs)
    (h : ∀ path, gs.hasPath path = true → fs.hasPath path = true) : Covers fs gs := by
  intro path level hd
  have hname : ∀ name ∈ Table.keys level, ∃ level', descend? fs path = some level' ∧
      name ∈ Table.keys level' := fun name hn =>
    hasPath_concat_iff.1 (h _ (hasPath_concat_iff.2 ⟨level, hd, hn⟩))
  have hlevel : ∃ level', descend? fs path = some level' := by
    by_cases hpath : path = []
    · exact ⟨fs, by rw [hpath]; rfl⟩
    · obtain ⟨entry, rest, rfl⟩ := List.exists_cons_of_ne_nil (hg path level hpath hd)
      obtain ⟨level', hl, -⟩ := hname entry.1 (List.mem_cons_self ..)
      exact ⟨level', hl⟩
  obtain ⟨level', hl⟩ := hlevel
  refine ⟨level', hl, fun name hn => ?_⟩
  obtain ⟨level'', hl', hn'⟩ := hname name hn
  rw [hl] at hl'
  cases hl'
  exact hn'

theorem leafCount_ne_zero {t : Tree} {inner : List String} (h : inner ∈ t.leaves) :
    t.leafCount ≠ 0 := by
  rw [← Tree.length_leaves]
  exact List.ne_nil_iff_length_pos.1 (List.ne_nil_of_mem h) |>.ne'

theorem exists_leaf_iff {t : Tree} (h : t.leafCount ≠ 0) :
    (∃ inner ∈ t.leaves, path <+: inner) ↔
      path = [] ∨ ∃ names ∈ Tree.leavesAll t.fields, path <+: names := by
  cases t with
  | leaf => simp [Tree.leaves, Tree.fields, Tree.leavesAll]
  | branch fields =>
    constructor
    · exact .inr
    · rintro (rfl | hnames)
      · rw [← Tree.length_leaves, ne_eq, List.length_eq_zero_iff] at h
        obtain ⟨inner, hi⟩ := List.exists_mem_of_ne_nil _ h
        exact ⟨inner, hi, List.nil_prefix⟩
      · exact hnames

theorem exists_leavesAll_cons_iff (h : (Table.keys fields).Nodup) :
    (∃ names ∈ Tree.leavesAll fields, name :: path <+: names) ↔
      ∃ t, fields.lookup name = some t ∧ ∃ inner ∈ t.leaves, path <+: inner := by
  constructor
  · rintro ⟨names, hn, hprefix⟩
    obtain ⟨⟨key, t⟩, he, inner, hi, rfl⟩ := Tree.mem_leavesAll.1 hn
    obtain ⟨rfl, hinner⟩ := List.cons_prefix_cons.1 hprefix
    exact ⟨t, Table.lookup_of_mem h he, inner, hi, hinner⟩
  · rintro ⟨t, ht, inner, hi, hprefix⟩
    exact ⟨name :: inner, Tree.mem_leavesAll.2 ⟨_, Table.mem_of_lookup ht, inner, hi, rfl⟩,
      List.cons_prefix_cons.2 ⟨rfl, hprefix⟩⟩

/-- The paths of trimmed fields are the starts of the paths of leaves. -/
theorem hasPath_trim (h : Distinct fields) : (trim fields).hasPath path = true ↔
    path = [] ∨ ∃ names ∈ Tree.leavesAll fields, path <+: names := by
  induction path generalizing fields with
  | nil => exact iff_of_true rfl (.inl rfl)
  | cons name path ih =>
    have hcons : ¬ name :: path = [] := List.cons_ne_nil _ _
    rw [hasPath_cons_iff, lookup_trim h.nodup, or_iff_right hcons, exists_leavesAll_cons_iff h.nodup]
    constructor
    · rintro ⟨_, hl, hpath⟩
      obtain ⟨t, ht, rfl⟩ := Option.map_eq_some_iff.1 hl
      obtain ⟨ht, hcount⟩ := Option.filter_eq_some_iff.1 ht
      rw [fields_trim, ih (h.of_mem (Table.mem_of_lookup ht))] at hpath
      exact ⟨t, ht, (exists_leaf_iff (by simpa using hcount)).2 hpath⟩
    · rintro ⟨t, ht, hleaf⟩
      obtain ⟨inner, hi, -⟩ := id hleaf
      have hcount : t.leafCount ≠ 0 := leafCount_ne_zero hi
      refine ⟨t.trim, by simp [ht, hcount], ?_⟩
      rw [fields_trim, ih (h.of_mem (Table.mem_of_lookup ht))]
      exact (exists_leaf_iff hcount).1 hleaf

/-! ### Planting -/

/-- Puts a leaf at a path, with branches on the way to it. -/
def plant : List String → Fields → Fields
  | [], fields => fields
  | name :: path, fields =>
    Table.update name (fun old =>
      if path.isEmpty then old.getD .leaf
      else .branch (plant path (old.elim [] Tree.fields))) fields

/-- What there is if a leaf is put at each of the dotted paths. -/
def rebuilt (keys : List String) : Fields :=
  keys.foldl (fun fields key => plant (segments key) fields) []

variable {names : List String}

/-- What a field becomes when a leaf is put beneath it, or in its place. -/
def planted (names : List String) (old : Option Tree) : Tree :=
  if names.isEmpty then old.getD .leaf else .branch (plant names (old.elim [] Tree.fields))

theorem fields_planted (names : List String) (old : Option Tree) :
    (planted names old).fields = plant names (old.elim [] Tree.fields) := by
  cases names with
  | nil => cases old <;> rfl
  | cons name names => rfl

theorem plant_cons (name : String) (names : List String) (fields : Fields) :
    plant (name :: names) fields = Table.update name (planted names) fields := by
  rw [plant]
  rfl

theorem plant_ne_nil (h : names ≠ []) (fields : Fields) : plant names fields ≠ [] := by
  obtain ⟨name, rest, rfl⟩ := List.exists_cons_of_ne_nil h
  rw [plant_cons]
  intro he
  have hkeys := Table.keys_update name (planted rest) fields
  rw [he] at hkeys
  split at hkeys
  · next hm => rw [← hkeys] at hm; cases hm
  · simp at hkeys

theorem lookup_plant (name key : String) (names : List String) (fields : Fields) :
    (plant (name :: names) fields).lookup key =
      if key = name then some (planted names (fields.lookup name)) else fields.lookup key := by
  rw [plant_cons, Table.lookup_update]

theorem hasPath_below : (below fields name).hasPath path = true ↔
    path = [] ∨ fields.hasPath (name :: path) = true := by
  rw [hasPath_cons_iff, below]
  cases hl : fields.lookup name with
  | none => cases path <;> simp [hasPath]
  | some t => cases path <;> simp [hasPath]

/-- The paths of fields that a leaf is put in are those that there were and those that lead to it. -/
theorem hasPath_plant : (plant names fields).hasPath path = true ↔
    fields.hasPath path = true ∨ path <+: names := by
  induction names generalizing fields path with
  | nil =>
    rw [plant, List.prefix_nil]
    refine (or_iff_left_of_imp ?_).symm
    rintro rfl
    rfl
  | cons name names ih =>
    cases path with
    | nil => exact iff_of_true rfl (.inl rfl)
    | cons key path =>
      rw [hasPath_cons_iff, lookup_plant, List.cons_prefix_cons]
      by_cases hk : key = name
      · subst hk
        have hnew : (planted names (fields.lookup key)).fields.hasPath path = true ↔
            (path = [] ∨ fields.hasPath (key :: path) = true) ∨ path <+: names := by
          rw [fields_planted, ih, ← hasPath_below]
          rfl
        have hnil : path = [] → path <+: names := fun he => he ▸ List.nil_prefix
        simp only [if_true, Option.some.injEq, exists_eq_left', hnew, true_and]
        tauto
      · simp [hk, hasPath_cons_iff]

/-- A branch of fields that a leaf is put in is on the way to the leaf or was there before. -/
theorem descend?_plant {key : String}
    (hd : descend? (plant (name :: names) fields) (key :: path) = some inside) :
    names ≠ [] ∧ descend? (plant names (below fields name)) path = some inside ∨
      descend? fields (key :: path) = some inside := by
  obtain ⟨branch, hl, hd⟩ := exists_branch_of_descend? hd
  rw [lookup_plant] at hl
  split at hl
  · next hk =>
    subst hk
    cases names with
    | nil =>
      refine .inr ?_
      cases hold : fields.lookup key with
      | none => rw [hold] at hl; cases hl
      | some t =>
        rw [hold] at hl
        cases hl
        rwa [descend?_branch hold]
    | cons next names =>
      cases hl
      exact .inl ⟨List.cons_ne_nil _ _, hd⟩
  · exact .inr (by rwa [descend?_branch hl])

theorem Distinct.plant (h : Distinct fields) (names : List String) :
    Distinct (plant names fields) := by
  induction names generalizing fields with
  | nil => rwa [Fields.plant]
  | cons name names ih =>
    rintro (_ | ⟨key, path⟩) level hd
    · cases hd
      rw [plant_cons, Table.keys_update]
      split
      · exact h.nodup
      · next hk =>
        rw [← List.concat_eq_append]
        exact h.nodup.concat hk
    · rcases descend?_plant hd with ⟨-, hd⟩ | hd
      · exact ih (h.below name) path level hd
      · exact h (key :: path) level hd

theorem filled_nil : Filled [] := by
  rintro (_ | ⟨name, path⟩) inside hne hd
  · exact absurd rfl hne
  · obtain ⟨branch, hl, -⟩ := exists_branch_of_descend? hd
    cases hl

theorem Filled.below (h : Filled fields) (name : String) : Filled (below fields name) := by
  rw [Fields.below]
  rcases hl : fields.lookup name with _ | _ | inside
  · exact filled_nil
  · exact filled_nil
  · intro path level _ hd
    exact h (name :: path) level (List.cons_ne_nil _ _) (by rwa [descend?_branch hl])

theorem Filled.plant (h : Filled fields) (names : List String) : Filled (plant names fields) := by
  induction names generalizing fields with
  | nil => rwa [Fields.plant]
  | cons name names ih =>
    rintro (_ | ⟨key, path⟩) level hne hd
    · exact absurd rfl hne
    · rcases descend?_plant hd with ⟨hnames, hd⟩ | hd
      · by_cases hpath : path = []
        · subst hpath
          cases hd
          exact plant_ne_nil hnames _
        · exact ih (h.below name) path level hpath hd
      · exact h (key :: path) level hne hd

/-- What holds of no fields and is kept when a leaf is put somewhere holds of what is rebuilt. -/
theorem rebuilt_induction {P : Fields → Prop} (hnil : P [])
    (hplant : ∀ fields names, P fields → P (plant names fields)) (keys : List String) :
    P (rebuilt keys) :=
  List.foldlRecOn keys _ hnil fun fields h key _ => hplant fields (segments key) h

theorem distinct_rebuilt (keys : List String) : Distinct (rebuilt keys) :=
  rebuilt_induction distinct_nil (fun _ names h => h.plant names) keys

theorem filled_rebuilt (keys : List String) : Filled (rebuilt keys) :=
  rebuilt_induction filled_nil (fun _ names h => h.plant names) keys

theorem hasPath_rebuilt (keys : List String) : (rebuilt keys).hasPath path = true ↔
    path = [] ∨ ∃ key ∈ keys, path <+: segments key := by
  have hfold : ∀ fields : Fields,
      (keys.foldl (fun fields key => plant (segments key) fields) fields).hasPath path = true ↔
        fields.hasPath path = true ∨ ∃ key ∈ keys, path <+: segments key := by
    induction keys with
    | nil => simp
    | cons key keys ih =>
      intro fields
      rw [List.foldl_cons, ih, hasPath_plant, or_assoc, List.exists_mem_cons_iff]
  have hnil : Fields.hasPath [] path = true ↔ path = [] := by
    cases path <;> simp [hasPath]
  rw [rebuilt, hfold, hnil]

/-! ### Fields without leafless branches -/

/-- Every branch beneath the fields has a leaf. -/
def Leafy (fields : Fields) : Prop :=
  ∀ path inside, path ≠ [] → descend? fields path = some inside → Tree.leafCountAll inside ≠ 0

theorem Leafy.trim (h : Distinct fields) : Leafy (trim fields) := by
  intro path inside hne hd
  obtain ⟨level, -, rfl, hcount⟩ := descend?_trim h hd
  rw [leafCountAll_trim]
  exact hcount hne

theorem trim_eq_self_of_forall
    (h : ∀ entry ∈ fields, entry.2.leafCount ≠ 0 ∧ entry.2.trim = entry.2) :
    trim fields = fields := by
  induction fields with
  | nil => rw [trim]
  | cons entry fields ih =>
    obtain ⟨hcount, htrim⟩ := h entry (List.mem_cons_self ..)
    rw [trim_cons, if_neg hcount, htrim, ih fun e he => h e (List.mem_cons_of_mem _ he)]

theorem Leafy.trim_eq_self {fields : Fields} (h : Leafy fields) (hd : Distinct fields) :
    Fields.trim fields = fields := by
  refine trim_eq_self_of_forall fun ⟨name, t⟩ he => ?_
  cases t with
  | leaf => exact ⟨Nat.one_ne_zero, by rw [Tree.trim]⟩
  | branch inside =>
    have hl := Table.lookup_of_mem hd.nodup he
    have hinside : Leafy inside := fun path level hne hlevel =>
      h (name :: path) level (List.cons_ne_nil _ _) (by rwa [descend?_branch hl])
    have hcount : Tree.leafCountAll inside ≠ 0 :=
      h [name] inside (List.cons_ne_nil _ _) (descend?_branch hl [])
    have hlt := sizeAll_lt_of_mem he
    exact ⟨hcount, by rw [Tree.trim, Leafy.trim_eq_self hinside (hd.inside hl)]⟩
termination_by Tree.sizeAll fields

/-- Filled fields that have the same paths are the same. -/
theorem same_of_hasPath (hf : Distinct fs) (hg : Distinct gs) (hf' : Filled fs) (hg' : Filled gs)
    (h : ∀ path, fs.hasPath path = true ↔ gs.hasPath path = true) :
    (Tree.branch fs).same (.branch gs) = true :=
  same_of_covers hf hg (covers_of_hasPath hg' fun path => (h path).2)
    (covers_of_hasPath hf' fun path => (h path).1)

/-! ### The keys of a projection -/

theorem mem_paths_false_iff : names ∈ paths false fields ↔ names ∈ Tree.leavesAll fields := by
  have hleaf : names ∈ Tree.leavesAll fields ↔
      (names, .leaf) ∈ (Tree.branch fields).atDepth names.length :=
    (Tree.mem_atDepth_leaf_iff (t := .branch fields)).symm
  rw [hleaf, mem_paths_iff]
  constructor
  · rintro ⟨depth, t, hn, hentered⟩
    have hlength : names.length = depth + 1 := Tree.length_of_mem_atDepth hn
    rw [hlength]
    cases t with
    | leaf => exact hn
    | branch inside => cases hentered
  · intro h
    cases names with
    | nil => cases List.mem_singleton.1 h
    | cons name rest => exact ⟨rest.length, .leaf, h, rfl⟩

/-- Without parents, as many nodes are entered as there are leaves. -/
theorem length_paths_false (h : Distinct fields) :
    (paths false fields).length = Tree.leafCountAll fields := by
  have hperm : (paths false fields).Perm (Tree.leavesAll fields) :=
    (List.perm_ext_iff_of_nodup (nodup_paths false h) (Tree.nodup_leaves (t := .branch fields) h)).2
      fun _ => mem_paths_false_iff
  rw [hperm.length_eq, Tree.length_leavesAll]

/-- The keys are taken apart to the paths of the leaves. -/
theorem exists_key_iff (hd : Distinct fields) (hp : Plain fields) :
    (∃ key ∈ (paths false fields).map dottedAll, path <+: segments key) ↔
      ∃ names ∈ Tree.leavesAll fields, path <+: names := by
  constructor
  · rintro ⟨_, hkey, hprefix⟩
    obtain ⟨names, hn, rfl⟩ := List.mem_map.1 hkey
    rw [segments_of_mem_paths hd hp hn] at hprefix
    exact ⟨names, mem_paths_false_iff.1 hn, hprefix⟩
  · rintro ⟨names, hn, hprefix⟩
    have hm : names ∈ paths false fields := mem_paths_false_iff.2 hn
    exact ⟨dottedAll names, List.mem_map_of_mem hm, by rwa [segments_of_mem_paths hd hp hm]⟩

/-- A projection without replacements and parents has one key for each leaf. A leaf put at each of
the paths that the keys spell out gives the fields back, but for branches without a leaf, so fields
without such branches are the same if their projections have the same keys. -/
theorem projection_decodes (hd : Distinct fields) (hp : Plain fields) :
    ∃ keys : List String, fields.projection [] false = .ok (keys.map .text) ∧ keys.Nodup ∧
      keys.length = Tree.leafCountAll fields ∧
      (Tree.branch (rebuilt keys)).same (.branch (trim fields)) = true ∧
      ∀ others keys', Distinct others → Plain others → Leafy fields → Leafy others →
        others.projection [] false = .ok keys' → (∀ key, key ∈ keys' ↔ key ∈ keys.map .text) →
        (Tree.branch fields).same (.branch others) = true := by
  refine ⟨(paths false fields).map dottedAll, projection_eq_paths false hd hp,
    nodup_dotted_paths false hd hp, ?_, ?_, ?_⟩
  · rw [List.length_map, length_paths_false hd]
  · refine same_of_hasPath (distinct_rebuilt _) hd.trim (filled_rebuilt _) (.trim hd) fun path => ?_
    rw [hasPath_rebuilt, hasPath_trim hd, exists_key_iff hd hp]
  · intro others keys' hd' hp' hleafy hleafy' hok hkeys
    rw [projection_eq_paths false hd' hp'] at hok
    cases hok
    have hmem : ∀ key, key ∈ (paths false others).map dottedAll ↔
        key ∈ (paths false fields).map dottedAll := fun key => by
      have htext : Function.Injective Key.text := fun _ _ => Key.text.inj
      simpa only [List.mem_map_of_injective htext] using hkeys (.text key)
    have hsame := same_of_hasPath hd.trim hd'.trim (.trim hd) (.trim hd') fun path => by
      rw [hasPath_trim hd, hasPath_trim hd', ← exists_key_iff hd hp, ← exists_key_iff hd' hp']
      simp only [hmem]
    rwa [hleafy.trim_eq_self hd, hleafy'.trim_eq_self hd'] at hsame

/-- `{ profile { email avatar { hidden {} } name } id posts {} }`, the braces being empty where
everything was skipped. -/
def account : Fields :=
  [("profile", .branch [("email", .leaf), ("avatar", .branch [("hidden", .branch [])]),
    ("name", .leaf)]), ("id", .leaf), ("posts", .branch [])]

theorem distinct_account : Distinct account :=
  distinct_absorb [.branch "profile" [.leaf "email", .branch "avatar" [.branch "hidden" []],
    .leaf "name"], .leaf "id", .branch "posts" []]

theorem plain_account : Plain account := by
  have hhidden : Plain [("hidden", .branch [])] := plain_of_forall <| by
    simp [PlainName, Tree.fields, plain_nil]
  have hprofile : Plain [("email", .leaf), ("avatar", .branch [("hidden", .branch [])]),
      ("name", .leaf)] := plain_of_forall <| by
    simp [PlainName, Tree.fields, plain_nil, hhidden]
  exact plain_of_forall <| by simp [account, PlainName, Tree.fields, plain_nil, hprofile]

/-- `{ id profile { name email } }` -/
def card : Fields := [("id", .leaf), ("profile", .branch [("name", .leaf), ("email", .leaf)])]

theorem distinct_card : Distinct card :=
  distinct_absorb [.leaf "id", .branch "profile" [.leaf "name", .leaf "email"]]

theorem plain_card : Plain card := by
  have hprofile : Plain [("name", .leaf), ("email", .leaf)] := plain_of_forall <| by
    simp [PlainName, Tree.fields, plain_nil]
  exact plain_of_forall <| by simp [card, PlainName, Tree.fields, plain_nil, hprofile]

theorem projection_decodes_account :
    Distinct account ∧ Plain account ∧
    account.projection [] false = .ok (["id", "profile.email", "profile.name"].map .text) ∧
    Tree.leafCountAll account = 3 ∧
    trim account = [("profile", .branch [("email", .leaf), ("name", .leaf)]), ("id", .leaf)] ∧
    (Tree.branch (rebuilt ["id", "profile.email", "profile.name"])).same
      (.branch (trim account)) = true ∧
    Leafy card ∧ Leafy (trim account) ∧
    card.projection [] false = .ok (["id", "profile.name", "profile.email"].map .text) ∧
    (trim account).projection [] false =
      .ok (["id", "profile.email", "profile.name"].map .text) ∧
    (Tree.branch card).same (.branch (trim account)) = true := by
  have hok : account.projection [] false =
      .ok (["id", "profile.email", "profile.name"].map .text) := by
    rw [projection_eq_paths false distinct_account plain_account]
    rfl
  have hcard : card.projection [] false =
      .ok (["id", "profile.name", "profile.email"].map .text) := by
    rw [projection_eq_paths false distinct_card plain_card]
    rfl
  have hslim : trim account =
      [("profile", .branch [("email", .leaf), ("name", .leaf)]), ("id", .leaf)] := rfl
  have htrim : (trim account).projection [] false =
      .ok (["id", "profile.email", "profile.name"].map .text) := by
    rw [projection_eq_paths false distinct_account.trim (plain_account.trim distinct_account), hslim]
    rfl
  have htexts : Function.Injective (List.map Key.text) :=
    List.map_injective_iff.2 fun _ _ => Key.text.inj
  have hleafy : Leafy card := Leafy.trim distinct_card
  have hleafy' : Leafy (trim account) := .trim distinct_account
  obtain ⟨keys, hkeys, -, hlength, hsame, -⟩ := projection_decodes distinct_account plain_account
  obtain ⟨keys', hkeys', -, -, -, hunique⟩ := projection_decodes distinct_card plain_card
  obtain rfl : ["id", "profile.email", "profile.name"] = keys :=
    htexts (Except.ok.inj (hok.symm.trans hkeys))
  obtain rfl : ["id", "profile.name", "profile.email"] = keys' :=
    htexts (Except.ok.inj (hcard.symm.trans hkeys'))
  refine ⟨distinct_account, plain_account, hok, hlength.symm, hslim, hsame, hleafy, hleafy', hcard,
    htrim, ?_⟩
  exact hunique _ _ distinct_account.trim (plain_account.trim distinct_account) hleafy hleafy' htrim
    fun key => by
      simp only [List.map_cons, List.map_nil, List.mem_cons]
      exact or_congr_right or_left_comm

end Fields

end Lookahead
