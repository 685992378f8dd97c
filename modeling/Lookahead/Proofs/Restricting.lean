import Lookahead.Proofs.PathNames

/-!
# Projections of a branch

The fields at a path are projected to the keys that go on behind that path in the projection of the
whole tree, in the order in which they stand there (`projection_beneath`). On every level of the
whole tree the nodes beneath one branch stand side by side, and they are a level of that branch
(`filter_atDepth`), so its level order is what is left of the level order of the tree
(`filter_levelOrder`). That a key goes on behind a path is a matter of names, not of text, since
plain names can be told from their dotted path.
-/

namespace Lookahead

/-- Whether names lead to a place beneath a path. -/
def leadsBeneath (path names : List String) : Bool :=
  path.isPrefixOf names && decide (path.length < names.length)

theorem leadsBeneath_iff {path names : List String} :
    leadsBeneath path names = true ↔ ∃ rest, rest ≠ [] ∧ path ++ rest = names := by
  rw [leadsBeneath, Bool.and_eq_true, List.isPrefixOf_iff_prefix, decide_eq_true_eq]
  constructor
  · rintro ⟨⟨rest, rfl⟩, hlt⟩
    rw [List.length_append] at hlt
    exact ⟨rest, List.ne_nil_of_length_pos (by omega), rfl⟩
  · rintro ⟨rest, hne, rfl⟩
    have := List.length_pos_of_ne_nil hne
    exact ⟨List.prefix_append _ _, by rw [List.length_append]; omega⟩

namespace Fields

variable {fields inside : Fields} {path : List String}

/-! ### Levels of a branch -/

/-- Of tables without repetitions, the entries called `name` are at most one. -/
theorem flatMap_if_key {α : Type} (h : (Table.keys fields).Nodup) (name : String)
    (f : Tree → List α) :
    (fields.flatMap fun entry => if entry.1 = name then f entry.2 else []) =
      (fields.lookup name).elim [] f := by
  induction fields with
  | nil => rfl
  | cons entry fields ih =>
    obtain ⟨key, t⟩ := entry
    obtain ⟨hkey, hn⟩ := List.nodup_cons.1 h
    rw [List.flatMap_cons, ih hn, Table.lookup_cons]
    by_cases hk : key = name
    · subst hk
      have hnone : fields.lookup key = none := by
        rwa [← Option.not_isSome_iff_eq_none, Table.lookup_isSome_iff]
      simp [hnone]
    · simp [hk, Ne.symm hk]

/-- The nodes of a level that stand beneath a branch are a level of that branch. -/
theorem filter_atDepth (h : Distinct fields) (path : List String) (depth : Nat) :
    ((Tree.branch fields).atDepth (path.length + (depth + 1))).filter
        (fun node => path.isPrefixOf node.1) =
      (descend? fields path).elim [] fun inside =>
        ((Tree.branch inside).atDepth (depth + 1)).map fun node => (path ++ node.1, node.2) := by
  induction path generalizing fields with
  | nil => simp [descend?]
  | cons name path ih =>
    have hdepth : (name :: path).length + (depth + 1) = path.length + (depth + 1) + 1 := by
      rw [List.length_cons]
      omega
    have hentry : ∀ entry : String × Tree,
        (((entry.2.atDepth (path.length + (depth + 1))).map fun node =>
          (entry.1 :: node.1, node.2)).filter fun node => (name :: path).isPrefixOf node.1) =
        if entry.1 = name then
          ((entry.2.atDepth (path.length + (depth + 1))).filter fun node =>
            path.isPrefixOf node.1).map fun node => (name :: node.1, node.2)
        else [] := by
      rintro ⟨key, t⟩
      rw [List.filter_map]
      by_cases hk : key = name
      · subst hk
        simp [Function.comp_def]
      · simp [Function.comp_def, hk, Ne.symm hk]
    rw [hdepth, Tree.atDepth_succ, List.filter_flatMap]
    simp only [hentry, Tree.fields]
    rw [flatMap_if_key h.nodup name fun t =>
      ((t.atDepth (path.length + (depth + 1))).filter fun node => path.isPrefixOf node.1).map
        fun node => (name :: node.1, node.2)]
    rcases hl : fields.lookup name with _ | _ | inside
    · simp [descend?_cons, hl]
    · simp [descend?_cons, hl, Tree.branch?, ← Nat.add_assoc, Tree.atDepth_leaf]
    · rw [descend?_branch hl, Option.elim, ih (h.inside hl)]
      cases descend? inside path <;> simp

theorem sizeAll_le_of_descend? (h : descend? fields path = some inside) :
    Tree.sizeAll inside ≤ Tree.sizeAll fields := by
  induction path generalizing fields with
  | nil =>
    cases h
    exact Nat.le_refl _
  | cons name path ih =>
    obtain ⟨branch, hl, hd⟩ := exists_branch_of_descend? h
    have hlt := sizeAll_lt_of_mem (Table.mem_of_lookup hl)
    have hle := ih hd
    omega

/-- More levels than there are nodes list nothing more. -/
theorem flatMap_range_of_le {t : Tree} {n : Nat} (h : t.size ≤ n) :
    (List.range n).flatMap (fun depth => t.atDepth (depth + 1)) = t.levelOrder := by
  obtain ⟨k, rfl⟩ := Nat.exists_eq_add_of_le h
  have hdeep : (List.range k).flatMap (fun depth => t.atDepth (t.size + depth + 1)) = [] :=
    List.flatMap_eq_nil_iff.2 fun depth _ => Tree.atDepth_eq_nil (by omega)
  rw [List.range_add, List.flatMap_append, List.flatMap_map, hdeep, List.append_nil, Tree.levelOrder]

theorem filter_leadsBeneath_shallow {t : Tree} {depth : Nat} (h : depth ≤ path.length) :
    (t.atDepth depth).filter (fun node => leadsBeneath path node.1) = [] := by
  rw [List.filter_eq_nil_iff]
  intro node hn hbeneath
  obtain ⟨rest, hne, he⟩ := leadsBeneath_iff.1 hbeneath
  have hlength := Tree.length_of_mem_atDepth hn
  have hrest := List.length_pos_of_ne_nil hne
  rw [← he, List.length_append] at hlength
  omega

theorem filter_leadsBeneath_deep (h : Distinct fields) (path : List String) (depth : Nat) :
    ((Tree.branch fields).atDepth (path.length + depth + 1)).filter
        (fun node => leadsBeneath path node.1) =
      (descend? fields path).elim [] fun inside =>
        ((Tree.branch inside).atDepth (depth + 1)).map fun node => (path ++ node.1, node.2) := by
  rw [← filter_atDepth h, Nat.add_assoc]
  refine List.filter_congr fun node hn => ?_
  have hlength := Tree.length_of_mem_atDepth hn
  rw [leadsBeneath, decide_eq_true (by omega), Bool.and_true]

/-- The nodes beneath a branch, in the order in which they stand in the whole tree, are those of the
branch in its own order. -/
theorem filter_levelOrder (h : Distinct fields) (path : List String) :
    (Tree.branch fields).levelOrder.filter (fun node => leadsBeneath path node.1) =
      (descend? fields path).elim [] fun inside =>
        (Tree.branch inside).levelOrder.map fun node => (path ++ node.1, node.2) := by
  have hsize : (Tree.branch fields).size ≤ path.length + (Tree.branch fields).size := by omega
  have hshallow : (List.range path.length).flatMap (fun depth =>
      ((Tree.branch fields).atDepth (depth + 1)).filter fun node => leadsBeneath path node.1) = [] :=
    List.flatMap_eq_nil_iff.2 fun depth hd =>
      filter_leadsBeneath_shallow (Nat.succ_le_of_lt (List.mem_range.1 hd))
  rw [← flatMap_range_of_le hsize, List.filter_flatMap, List.range_add, List.flatMap_append,
    hshallow, List.nil_append, List.flatMap_map]
  simp only [filter_leadsBeneath_deep h]
  cases hd : descend? fields path with
  | none => exact List.flatMap_eq_nil_iff.2 fun _ _ => rfl
  | some inside =>
    have hinside : (Tree.branch inside).size ≤ (Tree.branch fields).size := by
      have := sizeAll_le_of_descend? hd
      rw [Tree.size, Tree.size]
      omega
    simp only [Option.elim]
    rw [← flatMap_range_of_le hinside, List.map_flatMap]

/-! ### Keys of a branch -/

variable {keepParentField : Bool}

/-- What is entered of a branch is what is entered beneath it. -/
theorem filter_paths (h : Distinct fields) (path : List String) (keepParentField : Bool) :
    (paths keepParentField fields).filter (leadsBeneath path) =
      (paths keepParentField ((descend? fields path).getD [])).map (path ++ ·) := by
  have hfilter : (paths keepParentField fields).filter (leadsBeneath path) =
      ((((Tree.branch fields).levelOrder.filter fun node => leadsBeneath path node.1).filter
        (isEntered keepParentField)).map Prod.fst) := by
    rw [paths, List.filter_map, List.filter_filter, List.filter_filter]
    simp only [Function.comp_def, Bool.and_comm]
  rw [hfilter, filter_levelOrder h]
  cases descend? fields path with
  | none => rfl
  | some inside =>
    simp only [Option.elim, Option.getD, paths, List.filter_map, List.map_map]
    rfl

theorem dottedAll_segments {path : String} (h : ∀ name ∈ segments path, PlainName name) :
    dottedAll (segments path) = path :=
  segments_injective (segments_dottedAll (segments_ne_nil path) h)

/-- The path of plain names beneath a dotted path starts with that path and a dot. -/
theorem dottedAll_beneath {path : String} {rest : List String} (hr : rest ≠ [])
    (h : ∀ name ∈ segments path ++ rest, PlainName name) :
    dottedAll (segments path ++ rest) = path ++ "." ++ dottedAll rest := by
  have hpath := dottedAll_segments fun name hn => h name (List.mem_append_left _ hn)
  have hne : dottedAll (segments path) ≠ "" := by
    rw [hpath]
    rintro rfl
    exact (h "" (List.mem_append_left _ (by decide))).1 rfl
  rw [dottedAll_append hne hr fun name hn => (h name (List.mem_append_right _ hn)).1, hpath]

/-- A dotted path goes on behind another one exactly if its names lead beneath it. -/
theorem isPrefixOf_dottedAll {path : String} {names : List String} (hne : names ≠ [])
    (h : ∀ name ∈ names, PlainName name) :
    (path ++ ".").toList.isPrefixOf (dottedAll names).toList = leadsBeneath (segments path) names := by
  rw [Bool.eq_iff_iff, List.isPrefixOf_iff_prefix, leadsBeneath_iff]
  constructor
  · rintro ⟨rest, hrest⟩
    have hkey : dottedAll names = path ++ "." ++ String.ofList rest := by
      rw [← String.toList_inj, String.toList_append, String.toList_ofList, hrest]
    have hnames := segments_dottedAll hne h
    rw [hkey, segments_append_dot] at hnames
    exact ⟨segments (String.ofList rest), segments_ne_nil _, hnames⟩
  · rintro ⟨rest, hr, rfl⟩
    rw [dottedAll_beneath hr h]
    exact ⟨(dottedAll rest).toList, (String.toList_append ..).symm⟩

theorem value_beneath {path : String} (h : path ≠ "") (fields : Fields) :
    (fields.beneath path).value = (descend? fields (segments path)).getD [] := by
  rw [beneath, if_neg fun he => h (String.isEmpty_iff.1 he)]
  cases descend? fields (segments path) <;> rfl

theorem Distinct.getD (h : Distinct fields) (path : List String) :
    Distinct ((descend? fields path).getD []) := by
  cases hd : descend? fields path with
  | none => exact distinct_nil
  | some inside => exact h.of_descend? hd

theorem Plain.getD (h : Plain fields) (path : List String) :
    Plain ((descend? fields path).getD []) := by
  cases hd : descend? fields path with
  | none => exact plain_nil
  | some inside => exact h.of_descend? hd

theorem map_keys_beneath (hd : Distinct fields) (hp : Plain fields) (path : String)
    (keepParentField : Bool) :
    ((paths keepParentField ((descend? fields (segments path)).getD [])).map dottedAll).map
        (path ++ "." ++ ·) =
      ((paths keepParentField fields).map dottedAll).filter
        fun key => (path ++ ".").toList.isPrefixOf key.toList := by
  have hnames : ∀ names ∈ paths keepParentField fields,
      (path ++ ".").toList.isPrefixOf (dottedAll names).toList =
        leadsBeneath (segments path) names := fun names hn =>
    isPrefixOf_dottedAll (ne_nil_of_mem_paths hn) (plainName_of_mem_paths hd hp hn)
  have hpaths := filter_paths hd (segments path) keepParentField
  rw [List.filter_map, List.map_map]
  simp only [Function.comp_def]
  rw [List.filter_congr hnames, hpaths, List.map_map]
  refine List.map_congr_left fun rest hr => ?_
  have hwhole : segments path ++ rest ∈ paths keepParentField fields :=
    (List.mem_filter.1 (hpaths ▸ List.mem_map_of_mem hr)).1
  exact (dottedAll_beneath (ne_nil_of_mem_paths hr) (plainName_of_mem_paths hd hp hwhole)).symm

/-- The projection of the fields at a path has exactly the keys with which the projection of all
fields goes on behind that path, in the order in which they stand there. -/
theorem projection_beneath (hd : Distinct fields) (hp : Plain fields) {path : String}
    (hpath : path ≠ "") (keepParentField : Bool) :
    ∃ keys inner : List String,
      fields.projection [] keepParentField = .ok (keys.map .text) ∧
      (fields.beneath path).value.projection [] keepParentField = .ok (inner.map .text) ∧
      inner.map (path ++ "." ++ ·) =
        keys.filter (fun key => (path ++ ".").toList.isPrefixOf key.toList) ∧
      ∀ key, key ∈ inner ↔ path ++ "." ++ key ∈ keys := by
  have hkeys := map_keys_beneath hd hp path keepParentField
  refine ⟨(paths keepParentField fields).map dottedAll, _, projection_eq_paths _ hd hp, ?_, hkeys, ?_⟩
  · rw [value_beneath hpath]
    exact projection_eq_paths _ (hd.getD _) (hp.getD _)
  · intro key
    have hinjective : Function.Injective (path ++ "." ++ ·) := fun a b h =>
      String.toList_inj.1 (by simpa using congrArg String.toList h)
    rw [← List.mem_map_of_injective hinjective, hkeys, List.mem_filter]
    refine and_iff_left ?_
    rw [List.isPrefixOf_iff_prefix]
    exact ⟨key.toList, (String.toList_append ..).symm⟩

/-- `{ a { b { c } d } ab b { c } }` -/
def crossed : Fields :=
  [("a", .branch [("b", .branch [("c", .leaf)]), ("d", .leaf)]), ("ab", .leaf),
    ("b", .branch [("c", .leaf)])]

theorem distinct_crossed : Distinct crossed :=
  distinct_absorb [.branch "a" [.branch "b" [.leaf "c"], .leaf "d"], .leaf "ab",
    .branch "b" [.leaf "c"]]

theorem plain_crossed : Plain crossed := by
  have hb : Plain [("c", .leaf)] := plain_of_forall <| by simp [PlainName, Tree.fields, plain_nil]
  have ha : Plain [("b", .branch [("c", .leaf)]), ("d", .leaf)] := plain_of_forall <| by
    simp [PlainName, Tree.fields, plain_nil, hb]
  exact plain_of_forall <| by simp [crossed, PlainName, Tree.fields, plain_nil, ha, hb]

theorem projection_beneath_crossed :
    Distinct crossed ∧ Plain crossed ∧
    crossed.projection [] true =
      .ok (["a", "ab", "b", "a.b", "a.d", "b.c", "a.b.c"].map .text) ∧
    (∃ inner : List String,
      (crossed.beneath "a").value.projection [] true = .ok (inner.map .text) ∧
      inner.map ("a" ++ "." ++ ·) = ["a.b", "a.d", "a.b.c"]) ∧
    ∃ inner : List String,
      (crossed.beneath "a.d").value.projection [] true = .ok (inner.map .text) ∧
      inner.map ("a.d" ++ "." ++ ·) = [] := by
  have hall : crossed.projection [] true =
      .ok (["a", "ab", "b", "a.b", "a.d", "b.c", "a.b.c"].map .text) := by
    rw [projection_eq_paths true distinct_crossed plain_crossed]
    rfl
  have htexts : Function.Injective (List.map Key.text) :=
    List.map_injective_iff.2 fun _ _ => Key.text.inj
  obtain ⟨keys, inner, hkeys, hinner, hmap, -⟩ :=
    projection_beneath distinct_crossed plain_crossed (show "a" ≠ "" by decide) true
  obtain ⟨keys', inner', hkeys', hinner', hmap', -⟩ :=
    projection_beneath distinct_crossed plain_crossed (show "a.d" ≠ "" by decide) true
  obtain rfl := htexts (Except.ok.inj (hkeys.symm.trans hall))
  obtain rfl := htexts (Except.ok.inj (hkeys'.symm.trans hall))
  exact ⟨distinct_crossed, plain_crossed, hall, ⟨inner, hinner, hmap⟩, inner', hinner', hmap'⟩

end Fields

end Lookahead
