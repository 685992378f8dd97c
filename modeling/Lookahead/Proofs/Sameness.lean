import Lookahead.Proofs.PathNames
import Mathlib.Data.List.Perm.Subperm
import Mathlib.Data.Set.Basic

/-!
# Sameness of trees

`Tree.same` compares two trees level by level, each name of the one looked up in the other. If no name
is repeated, that is to compare what there is at every path: a leaf, a branch, or nothing
(`Tree.nodes`, `same_iff_nodes`). It is also to compare the trees as values, as objects that do not
care for the order of their members (`Json.same`, `same_toJson`). Reordered fields have the nodes that
they had before (`Fields.Reordered`, `nodes_of_reordered`).
-/

namespace Lookahead

/-! ### The nodes of a tree -/

/-- What stands at a path of a tree. -/
inductive Kind where
  | leaf
  | branch

namespace Tree

open Fields

def kind : Tree → Kind
  | leaf => .leaf
  | branch _ => .branch

/-- The paths of a tree from its root, each with what stands there. -/
def nodes (t : Tree) : Set (List String × Kind) :=
  {node | ∃ depth, ∃ child, (node.1, child) ∈ t.atDepth depth ∧ child.kind = node.2}

variable {t u : Tree} {name : String} {path : List String} {k : Kind}

theorem mem_nodes_nil : ([], k) ∈ t.nodes ↔ t.kind = k := by
  constructor
  · rintro ⟨depth, child, hchild, hk⟩
    obtain rfl := length_of_mem_atDepth hchild
    obtain ⟨-, rfl⟩ := Prod.mk.inj (List.mem_singleton.1 hchild)
    exact hk
  · intro hk
    exact ⟨0, t, List.mem_singleton_self _, hk⟩

theorem mem_nodes_cons : (name :: path, k) ∈ t.nodes ↔
    ∃ child, (name, child) ∈ t.fields ∧ (path, k) ∈ child.nodes := by
  constructor
  · rintro ⟨depth, child, hchild, hk⟩
    obtain rfl := length_of_mem_atDepth hchild
    obtain ⟨entry, he, inner, hi, hnode⟩ := mem_atDepth_succ.1 hchild
    obtain ⟨hnames, rfl⟩ := Prod.mk.inj hnode
    obtain ⟨rfl, rfl⟩ := List.cons.inj hnames
    exact ⟨entry.2, he, _, inner.2, hi, hk⟩
  · rintro ⟨child, hc, depth, inner, hi, hk⟩
    exact ⟨depth + 1, inner, mem_atDepth_succ.2 ⟨(name, child), hc, (path, inner), hi, rfl⟩, hk⟩

theorem mem_keys_fields : name ∈ Table.keys t.fields ↔ ∃ k, ([name], k) ∈ t.nodes := by
  simp only [mem_nodes_cons, mem_nodes_nil]
  constructor
  · intro h
    obtain ⟨⟨_, child⟩, hc, rfl⟩ := List.mem_map.1 h
    exact ⟨child.kind, child, hc, rfl⟩
  · rintro ⟨k, child, hc, -⟩
    exact List.mem_map_of_mem hc

/-- Beneath one name there is one tree. -/
theorem mem_nodes_cons_of_mem {child : Tree} (ht : Distinct t.fields)
    (hc : (name, child) ∈ t.fields) : (name :: path, k) ∈ t.nodes ↔ (path, k) ∈ child.nodes := by
  rw [mem_nodes_cons]
  constructor
  · rintro ⟨child', hc', hn⟩
    have hl := Table.lookup_of_mem ht.nodup hc
    rw [Table.lookup_of_mem ht.nodup hc'] at hl
    rwa [← Option.some.inj hl]
  · intro hn
    exact ⟨child, hc, hn⟩

theorem kind_eq_of_nodes (h : t.nodes = u.nodes) : t.kind = u.kind :=
  (mem_nodes_nil.1 (h ▸ mem_nodes_nil.2 rfl : ([], t.kind) ∈ u.nodes)).symm

/-! ### Sameness by nodes -/

/-- To find each of as many names in another list is to have the same names. -/
theorem found_iff {fs gs : Fields} (hf : (Table.keys fs).Nodup) (hg : (Table.keys gs).Nodup)
    (R : Tree → Tree → Prop) :
    (fs.length = gs.length ∧ ∀ entry ∈ fs, ∃ t, gs.lookup entry.1 = some t ∧ R entry.2 t) ↔
      (Table.keys fs).Perm (Table.keys gs) ∧
        ∀ name child child', (name, child) ∈ fs → (name, child') ∈ gs → R child child' := by
  constructor
  · rintro ⟨hlen, h⟩
    constructor
    · have hsub : Table.keys fs ⊆ Table.keys gs := by
        intro name hname
        obtain ⟨entry, he, rfl⟩ := List.mem_map.1 hname
        obtain ⟨t, hl, -⟩ := h entry he
        exact Table.lookup_isSome_iff.1 (Option.isSome_of_eq_some hl)
      exact (List.subperm_of_subset hf hsub).perm_of_length_le (by simp [Table.keys, hlen])
    · intro name child child' hc hc'
      obtain ⟨t, hl, hr⟩ := h _ hc
      rw [Table.lookup_of_mem hg hc'] at hl
      rwa [Option.some.inj hl]
  · rintro ⟨hperm, h⟩
    refine ⟨by simpa [Table.keys] using hperm.length_eq, fun entry he => ?_⟩
    obtain ⟨⟨_, child'⟩, hc', hname⟩ := List.mem_map.1 (hperm.mem_iff.1 (List.mem_map_of_mem he))
    obtain rfl : _ = entry.1 := hname
    exact ⟨child', Table.lookup_of_mem hg hc', h _ _ _ he hc'⟩

theorem nodes_branch_congr {fs gs : Fields}
    (h : ∀ name path k, (∃ child, (name, child) ∈ fs ∧ (path, k) ∈ child.nodes) ↔
      ∃ child, (name, child) ∈ gs ∧ (path, k) ∈ child.nodes) :
    (branch fs).nodes = (branch gs).nodes := by
  ext ⟨_ | ⟨name, path⟩, k⟩
  · rw [mem_nodes_nil, mem_nodes_nil]
    rfl
  · rw [mem_nodes_cons, mem_nodes_cons]
    exact h name path k

theorem nodes_branch_iff {fs gs : Fields} (hf : Distinct fs) (hg : Distinct gs) :
    (branch fs).nodes = (branch gs).nodes ↔ (Table.keys fs).Perm (Table.keys gs) ∧
      ∀ name child child', (name, child) ∈ fs → (name, child') ∈ gs → child.nodes = child'.nodes := by
  constructor
  · intro h
    constructor
    · refine (List.perm_ext_iff_of_nodup hf.nodup hg.nodup).2 fun name => ?_
      show name ∈ Table.keys (branch fs).fields ↔ name ∈ Table.keys (branch gs).fields
      rw [mem_keys_fields, mem_keys_fields, h]
    · intro name child child' hc hc'
      ext ⟨path, k⟩
      rw [← mem_nodes_cons_of_mem (t := .branch fs) hf hc,
        ← mem_nodes_cons_of_mem (t := .branch gs) hg hc', h]
  · rintro ⟨hperm, h⟩
    refine nodes_branch_congr fun name path k => ⟨?_, ?_⟩
    · rintro ⟨child, hc, hn⟩
      obtain ⟨⟨_, child'⟩, hc', rfl⟩ := List.mem_map.1 (hperm.mem_iff.1 (List.mem_map_of_mem hc))
      exact ⟨child', hc', h _ _ _ hc hc' ▸ hn⟩
    · rintro ⟨child', hc', hn⟩
      obtain ⟨⟨_, child⟩, hc, rfl⟩ := List.mem_map.1 (hperm.mem_iff.2 (List.mem_map_of_mem hc'))
      exact ⟨child, hc, h _ _ _ hc hc' ▸ hn⟩

/-- Trees without repeated names are the same exactly if they have the same nodes. -/
theorem same_iff_nodes {t u : Tree} (ht : Distinct t.fields) (hu : Distinct u.fields) :
    t.same u = true ↔ t.nodes = u.nodes := by
  cases t with
  | leaf =>
    cases u with
    | leaf => exact iff_of_true rfl rfl
    | branch gs => exact ⟨nofun, fun h => by cases kind_eq_of_nodes h⟩
  | branch fs =>
    cases u with
    | leaf => exact ⟨nofun, fun h => by cases kind_eq_of_nodes h⟩
    | branch gs =>
      have ih : ∀ name child child', (name, child) ∈ fs → (name, child') ∈ gs →
          (child.same child' = true ↔ child.nodes = child'.nodes) := by
        intro name child child' hc hc'
        have hlt : child.size < (branch fs).size := size_lt_of_mem_fields (t := .branch fs) hc
        exact same_iff_nodes (ht.of_mem hc) (hu.of_mem hc')
      have hf : Distinct fs := ht
      have hg : Distinct gs := hu
      rw [same_branch_iff, found_iff hf.nodup hg.nodup (·.same · = true), nodes_branch_iff hf hg]
      refine and_congr_right fun _ => ?_
      exact forall₃_congr fun name child child' => forall₂_congr (ih name child child')
termination_by t.size

/-- At one path there is one node. -/
theorem kind_unique {t : Tree} {path : List String} {k k' : Kind} (ht : Distinct t.fields)
    (h : (path, k) ∈ t.nodes) (h' : (path, k') ∈ t.nodes) : k = k' := by
  induction path generalizing t with
  | nil => rw [← mem_nodes_nil.1 h, mem_nodes_nil.1 h']
  | cons name path ih =>
    obtain ⟨child, hc, hn⟩ := mem_nodes_cons.1 h
    exact ih (ht.of_mem hc) hn ((mem_nodes_cons_of_mem ht hc).1 h')

end Tree

/-! ### Reordered fields -/

/-- The second list has the fields of the first in some order, on every level. -/
inductive Fields.Reordered : Fields → Fields → Prop
  | nil : Reordered [] []
  | leaf {name fs gs} (tail : Reordered fs gs) :
    Reordered ((name, .leaf) :: fs) ((name, .leaf) :: gs)
  | branch {name inside inside' fs gs} (head : Reordered inside inside') (tail : Reordered fs gs) :
    Reordered ((name, .branch inside) :: fs) ((name, .branch inside') :: gs)
  | swap (entry entry' fs) : Reordered (entry :: entry' :: fs) (entry' :: entry :: fs)
  | trans {fs gs hs} (first : Reordered fs gs) (second : Reordered gs hs) : Reordered fs hs

namespace Fields

variable {fs gs : Fields} {name : String} {t : Tree}

theorem distinct_cons_iff :
    Distinct ((name, t) :: fs) ↔ name ∉ Table.keys fs ∧ Distinct t.fields ∧ Distinct fs := by
  constructor
  · intro h
    obtain ⟨hname, hkeys⟩ := List.nodup_cons.1 h.nodup
    refine ⟨hname, h.of_mem (List.mem_cons_self ..), ?_⟩
    rintro (_ | ⟨key, path⟩) level hd
    · cases hd
      exact hkeys
    · obtain ⟨inside, hl, hd⟩ := exists_branch_of_descend? hd
      exact (h.of_mem (List.mem_cons_of_mem _ (Table.mem_of_lookup hl))) path level hd
  · rintro ⟨hname, ht, hfs⟩ (_ | ⟨key, path⟩) level hd
    · cases hd
      exact List.nodup_cons.2 ⟨hname, hfs.nodup⟩
    · obtain ⟨inside, hl, hin⟩ := exists_branch_of_descend? hd
      rcases List.mem_cons.1 (Table.mem_of_lookup hl) with he | hmem
      · obtain ⟨rfl, rfl⟩ := Prod.mk.inj he
        exact ht path level hin
      · exact hfs.of_mem hmem path level hin

theorem Reordered.keys_perm (h : Reordered fs gs) : (Table.keys fs).Perm (Table.keys gs) := by
  induction h with
  | nil => exact .nil
  | leaf _ ih => exact ih.cons _
  | branch _ _ _ ih => exact ih.cons _
  | swap entry entry' fs => exact .swap _ _ _
  | trans _ _ ih₁ ih₂ => exact ih₁.trans ih₂

theorem Reordered.distinct (h : Reordered fs gs) (hd : Distinct fs) : Distinct gs := by
  induction h with
  | nil => exact hd
  | leaf tail ih =>
    obtain ⟨hname, hleaf, hfs⟩ := distinct_cons_iff.1 hd
    rw [tail.keys_perm.mem_iff] at hname
    exact distinct_cons_iff.2 ⟨hname, hleaf, ih hfs⟩
  | branch _ tail ih₁ ih₂ =>
    obtain ⟨hname, hinside, hfs⟩ := distinct_cons_iff.1 hd
    rw [tail.keys_perm.mem_iff] at hname
    exact distinct_cons_iff.2 ⟨hname, ih₁ hinside, ih₂ hfs⟩
  | swap entry entry' fs =>
    obtain ⟨hname, ht, hrest⟩ := distinct_cons_iff.1 hd
    obtain ⟨hname', ht', hfs⟩ := distinct_cons_iff.1 hrest
    rw [Table.keys_cons, List.mem_cons, not_or] at hname
    refine distinct_cons_iff.2 ⟨?_, ht', distinct_cons_iff.2 ⟨hname.2, ht, hfs⟩⟩
    rw [Table.keys_cons, List.mem_cons, not_or]
    exact ⟨Ne.symm hname.1, hname'⟩
  | trans _ _ ih₁ ih₂ => exact ih₂ (ih₁ hd)

end Fields

namespace Tree

open Fields

theorem nodes_cons_congr {name : String} {t u : Tree} {fs gs : Fields} (hc : t.nodes = u.nodes)
    (h : (branch fs).nodes = (branch gs).nodes) :
    (branch ((name, t) :: fs)).nodes = (branch ((name, u) :: gs)).nodes := by
  refine nodes_branch_congr fun key path k => ?_
  have hrest : (key :: path, k) ∈ (branch fs).nodes ↔ (key :: path, k) ∈ (branch gs).nodes := by
    rw [h]
  rw [mem_nodes_cons, mem_nodes_cons] at hrest
  simp only [List.mem_cons, or_and_right, exists_or]
  refine or_congr ?_ hrest
  simp only [Prod.mk.injEq, and_assoc, exists_and_left, exists_eq_left, hc]

theorem nodes_of_reordered {fs gs : Fields} (h : Reordered fs gs) :
    (branch fs).nodes = (branch gs).nodes := by
  induction h with
  | nil => rfl
  | leaf _ ih => exact nodes_cons_congr rfl ih
  | branch _ _ ih₁ ih₂ => exact nodes_cons_congr ih₁ ih₂
  | swap entry entry' fs =>
    refine nodes_branch_congr fun name path k => exists_congr fun child => and_congr_left fun _ => ?_
    exact (List.Perm.swap entry' entry fs).mem_iff
  | trans _ _ ih₁ ih₂ => exact ih₁.trans ih₂

end Tree

/-! ### Sameness as values -/

namespace Json

/-- The number that a value counts as. -/
def number? : Json → Option Number
  | bool b => some (.whole b.toInt)
  | num n => some n
  | _ => none

mutual

/-- Equality of values. Objects are equal whatever the order of their members. -/
def same : Json → Json → Bool
  | null, null => true
  | str s, str t => s == t
  | arr items, arr others => sameItems items others
  | obj members, obj others => members.length == others.length && sameMembers others members
  | j, k => (j.number?).any fun m => (k.number?).any m.same

def sameItems : List Json → List Json → Bool
  | [], [] => true
  | j :: items, k :: others => j.same k && sameItems items others
  | _, _ => false

/-- Whether each of the members is among `others`, with the same value. -/
def sameMembers (others : List (String × Json)) : List (String × Json) → Bool
  | [] => true
  | (name, value) :: members =>
    (others.lookup name).any (same value) && sameMembers others members

end

end Json

namespace Tree

open Fields

theorem length_members (fs : Fields) : (members fs).length = fs.length := by
  induction fs with
  | nil => rfl
  | cons entry fs ih => rw [members, List.length_cons, List.length_cons, ih]

mutual

theorem same_toJson : ∀ t u : Tree, t.toJson.same u.toJson = t.same u
  | leaf, leaf => rfl
  | leaf, branch _ => rfl
  | branch _, leaf => rfl
  | branch fs, branch gs => by
    rw [toJson, toJson, Json.same, same, length_members, length_members, sameMembers_members gs fs]

theorem sameMembers_members (gs : Fields) :
    ∀ fs : List (String × Tree), Json.sameMembers (members gs) (members fs) = sameIn gs fs
  | [] => rfl
  | (name, t) :: fs => by
    have hsame : (fun u => t.toJson.same u.toJson) = t.same := funext fun u => same_toJson t u
    rw [members, Json.sameMembers, sameIn, lookup_members, Option.any_map, hsame,
      sameMembers_members gs fs]

end

/-! ### The equivalence -/

/-- A tree without repeated names on any of its levels. -/
abbrev WithoutRepeats := {t : Tree // Distinct t.fields}

theorem same_equivalence : Equivalence fun t u : WithoutRepeats => t.1.same u.1 = true where
  refl t := (same_iff_nodes t.2 t.2).2 rfl
  symm {t u} h := (same_iff_nodes u.2 t.2).2 ((same_iff_nodes t.2 u.2).1 h).symm
  trans {t u v} h h' := (same_iff_nodes t.2 v.2).2
    (((same_iff_nodes t.2 u.2).1 h).trans ((same_iff_nodes u.2 v.2).1 h'))

/-- What is a leaf in the one tree and a branch in the other tells them apart. -/
theorem same_eq_false_of_kind {t u : Tree} {path : List String} {k k' : Kind}
    (ht : Distinct t.fields) (hu : Distinct u.fields) (hk : (path, k) ∈ t.nodes)
    (hk' : (path, k') ∈ u.nodes) (hne : k ≠ k') : t.same u = false := by
  rw [← Bool.not_eq_true, same_iff_nodes ht hu]
  intro h
  exact hne (kind_unique hu (h ▸ hk) hk')

/-- On trees without repeated names, sameness is equality of the nodes and equality of the values. So
it is an equivalence, the order on no level matters, and to be a leaf is not to be a branch that
nothing is requested beneath. -/
theorem same_extensional :
    (∀ t u : WithoutRepeats,
      (t.1.same u.1 = true ↔ t.1.nodes = u.1.nodes) ∧
      (t.1.same u.1 = true ↔ t.1.toJson.same u.1.toJson = true)) ∧
    (Equivalence fun t u : WithoutRepeats => t.1.same u.1 = true) ∧
    (∀ fs gs, Distinct fs → Reordered fs gs →
      Distinct gs ∧ (branch fs).same (branch gs) = true) ∧
    ∀ (t u : WithoutRepeats) path, (path, Kind.leaf) ∈ t.1.nodes → (path, Kind.branch) ∈ u.1.nodes →
      t.1.same u.1 = false ∧ u.1.same t.1 = false := by
  refine ⟨fun t u => ⟨same_iff_nodes t.2 u.2, ?_⟩, same_equivalence, ?_, ?_⟩
  · rw [same_toJson]
  · intro fs gs hf h
    have hg : Distinct gs := h.distinct hf
    exact ⟨hg, (same_iff_nodes (t := .branch fs) (u := .branch gs) hf hg).2 (nodes_of_reordered h)⟩
  · intro t u path ht hu
    exact ⟨same_eq_false_of_kind t.2 u.2 ht hu nofun, same_eq_false_of_kind u.2 t.2 hu ht nofun⟩

/-- `{ a b { c d { } } }` -/
def twoLevels : WithoutRepeats :=
  ⟨.branch [("a", .leaf), ("b", .branch [("c", .leaf), ("d", .branch [])])],
    distinct_absorb [.leaf "a", .branch "b" [.leaf "c", .branch "d" []]]⟩

/-- `{ b { d { } c } a }` -/
def turned : WithoutRepeats :=
  ⟨.branch [("b", .branch [("d", .branch []), ("c", .leaf)]), ("a", .leaf)],
    distinct_absorb [.branch "b" [.branch "d" [], .leaf "c"], .leaf "a"]⟩

/-- `{ a b { c d } }` -/
def bare : WithoutRepeats :=
  ⟨.branch [("a", .leaf), ("b", .branch [("c", .leaf), ("d", .leaf)])],
    distinct_absorb [.leaf "a", .branch "b" [.leaf "c", .leaf "d"]]⟩

theorem reordered_turned : Reordered twoLevels.1.fields turned.1.fields :=
  .trans (.leaf (.branch (.swap _ _ _) .nil)) (.swap _ _ _)

theorem same_twoLevels :
    twoLevels.1.same turned.1 = true ∧ twoLevels.1.nodes = turned.1.nodes ∧
    twoLevels.1.toJson.same turned.1.toJson = true ∧ bare.1.same twoLevels.1 = false := by
  obtain ⟨hiff, -, horder, hkinds⟩ := same_extensional
  obtain ⟨hnodes, hvalues⟩ := hiff twoLevels turned
  have hsame : twoLevels.1.same turned.1 = true := (horder _ _ twoLevels.2 reordered_turned).2
  have hleaf : (["b", "d"], Kind.leaf) ∈ bare.1.nodes := ⟨2, .leaf, .tail _ (.head _), rfl⟩
  have hbranch : (["b", "d"], Kind.branch) ∈ twoLevels.1.nodes :=
    ⟨2, .branch [], .tail _ (.head _), rfl⟩
  exact ⟨hsame, hnodes.1 hsame, hvalues.1 hsame, (hkinds bare twoLevels _ hleaf hbranch).1⟩

end Tree

end Lookahead
