import Mathlib.Data.List.Nodup
import Lookahead.Proofs.Covering
import Lookahead.Proofs.LevelOrder

/-!
# Projections of plainly named fields

Where every name is plain, that is not empty and without a dot, a dotted path tells the names that
it was put together from (`segments_dottedAll`). Where no name is repeated on a level either, no two
nodes have the same path, so the keys of a projection without replacements are just the paths of
what is entered (`projection_eq_paths`).
-/

namespace Lookahead

/-- A name that a dotted path can be told to go through. -/
def PlainName (name : String) : Prop := name ≠ "" ∧ '.' ∉ name.toList

theorem segments_injective {p q : String} (h : segments p = segments q) : p = q := by
  rw [← intercalate_segments p, h, intercalate_segments]

theorem dropWhile_isEmpty {names : List String} (h : ∀ name ∈ names, name ≠ "") :
    names.dropWhile String.isEmpty = names := by
  cases names with
  | nil => rfl
  | cons name names =>
    have hname : ¬ name.isEmpty = true := fun he =>
      h name (List.mem_cons_self ..) (String.isEmpty_iff.1 he)
    rw [List.dropWhile_cons_of_neg hname]

/-- Behind a path that is not empty, the path of further names is set off with a dot. -/
theorem dottedAll_append {front back : List String} (hf : dottedAll front ≠ "") (hb : back ≠ [])
    (hn : ∀ n ∈ back, n ≠ "") :
    dottedAll (front ++ back) = dottedAll front ++ "." ++ dottedAll back := by
  rw [dottedAll_eq_intercalate] at hf
  have hfront : front.dropWhile String.isEmpty ≠ [] := fun he =>
    hf (by rw [he, String.intercalate_nil])
  rw [dottedAll_eq_intercalate, dottedAll_eq_intercalate, dottedAll_eq_intercalate,
    List.dropWhile_append, if_neg (by simpa using hfront), dropWhile_isEmpty hn,
    String.intercalate_append_of_ne_nil hfront hb]

theorem segments_dottedAll {names : List String} (hne : names ≠ [])
    (h : ∀ name ∈ names, PlainName name) : segments (dottedAll names) = names := by
  rw [dottedAll_eq_intercalate, dropWhile_isEmpty fun name hname => (h name hname).1,
    segments_intercalate hne fun name hname => (h name hname).2]

namespace Fields

/-- All names are plain. -/
def Plain (fields : Fields) : Prop :=
  ∀ path level, descend? fields path = some level → ∀ name ∈ Table.keys level, PlainName name

variable {fields inside : Fields} {name : String}

theorem Distinct.of_descend? {path : List String} (h : Distinct fields)
    (hd : descend? fields path = some inside) : Distinct inside := by
  intro path' level hl
  exact h (path ++ path') level (by rwa [descend?_append, hd])

theorem Plain.of_descend? {path : List String} (h : Plain fields)
    (hd : descend? fields path = some inside) : Plain inside := by
  intro path' level hl
  exact h (path ++ path') level (by rwa [descend?_append, hd])

theorem distinct_nil : Distinct [] := distinct_absorb []

theorem plain_nil : Plain [] := by
  rintro (_ | ⟨name, path⟩) level h
  · cases h
    exact fun name hname => absurd hname List.not_mem_nil
  · obtain ⟨inside, hl, -⟩ := exists_branch_of_descend? h
    cases hl

theorem Distinct.of_mem {t : Tree} (h : Distinct fields) (hm : (name, t) ∈ fields) :
    Distinct t.fields := by
  cases t with
  | leaf => exact distinct_nil
  | branch inside => exact h.inside (Table.lookup_of_mem h.nodup hm)

theorem Plain.of_mem {t : Tree} (h : Plain fields) (hd : Distinct fields)
    (hm : (name, t) ∈ fields) : Plain t.fields := by
  cases t with
  | leaf => exact plain_nil
  | branch inside =>
    have hl : descend? fields [name] = some inside :=
      descend?_branch (Table.lookup_of_mem hd.nodup hm) []
    exact h.of_descend? hl

/-- Names are plain if they are on the first level and beneath each field of it. -/
theorem plain_of_forall
    (h : ∀ entry ∈ fields, PlainName entry.1 ∧ Plain entry.2.fields) : Plain fields := by
  rintro (_ | ⟨name, path⟩) level hl
  · cases hl
    intro name hname
    obtain ⟨entry, he, rfl⟩ := List.mem_map.1 hname
    exact (h entry he).1
  · obtain ⟨inside, ht, hl⟩ := exists_branch_of_descend? hl
    exact (h _ (Table.mem_of_lookup ht)).2 path level hl

end Fields

namespace Tree

open Fields

/-! ### The nodes of a tree -/

variable {t : Tree} {depth : Nat}

theorem mem_atDepth_succ {node : List String × Tree} : node ∈ t.atDepth (depth + 1) ↔
    ∃ entry ∈ t.fields, ∃ inner ∈ entry.2.atDepth depth, (entry.1 :: inner.1, inner.2) = node := by
  rw [atDepth_succ, List.mem_flatMap]
  simp only [List.mem_map]

theorem length_of_mem_atDepth {node : List String × Tree} (h : node ∈ t.atDepth depth) :
    node.1.length = depth := by
  induction depth generalizing t node with
  | zero =>
    obtain rfl := List.mem_singleton.1 h
    rfl
  | succ depth ih =>
    obtain ⟨entry, -, inner, hi, rfl⟩ := mem_atDepth_succ.1 h
    rw [List.length_cons, ih hi]

theorem plainName_of_mem_atDepth {node : List String × Tree} (hd : Distinct t.fields)
    (hp : Plain t.fields) (h : node ∈ t.atDepth depth) : ∀ name ∈ node.1, PlainName name := by
  induction depth generalizing t node with
  | zero =>
    obtain rfl := List.mem_singleton.1 h
    exact fun name hname => absurd hname List.not_mem_nil
  | succ depth ih =>
    obtain ⟨entry, he, inner, hi, rfl⟩ := mem_atDepth_succ.1 h
    intro name hname
    rcases List.mem_cons.1 hname with rfl | hname
    · exact hp [] t.fields rfl entry.1 (List.mem_map_of_mem he)
    · exact ih (hd.of_mem he) (hp.of_mem hd he) hi name hname

/-- Lists of names, each under the name of its entry, are not repeated if no entry repeats one. -/
theorem nodup_flatMap_cons {fields : Fields} (f : Tree → List (List String))
    (hk : (Table.keys fields).Nodup) (hf : ∀ entry ∈ fields, (f entry.2).Nodup) :
    (fields.flatMap fun entry => (f entry.2).map (entry.1 :: ·)).Nodup := by
  rw [List.nodup_flatMap]
  refine ⟨fun entry he => (hf entry he).map fun _ _ h => (List.cons.inj h).2, ?_⟩
  refine (List.pairwise_map.1 hk).imp fun hne names h h' => ?_
  obtain ⟨inner, -, rfl⟩ := List.mem_map.1 h
  obtain ⟨inner', -, he⟩ := List.mem_map.1 h'
  exact hne (List.cons.inj he).1.symm

theorem nodup_atDepth (depth : Nat) (h : Distinct t.fields) :
    ((t.atDepth depth).map Prod.fst).Nodup := by
  induction depth generalizing t with
  | zero => exact List.nodup_singleton _
  | succ depth ih =>
    have hnames : (t.atDepth (depth + 1)).map Prod.fst = t.fields.flatMap fun entry =>
        ((entry.2.atDepth depth).map Prod.fst).map (entry.1 :: ·) := by
      rw [atDepth_succ, List.map_flatMap]
      simp only [List.map_map]
      rfl
    rw [hnames]
    exact nodup_flatMap_cons (fun t => (t.atDepth depth).map Prod.fst) h.nodup fun entry he =>
      ih (h.of_mem he)

theorem nodup_levelOrder (h : Distinct t.fields) : (t.levelOrder.map Prod.fst).Nodup := by
  rw [levelOrder, List.map_flatMap, List.nodup_flatMap]
  refine ⟨fun depth _ => nodup_atDepth _ h, ?_⟩
  refine List.nodup_range.imp fun hne names hn hn' => ?_
  obtain ⟨node, hnode, rfl⟩ := List.mem_map.1 hn
  obtain ⟨node', hnode', he⟩ := List.mem_map.1 hn'
  have hlen := length_of_mem_atDepth hnode
  have hlen' := length_of_mem_atDepth hnode'
  rw [he, hlen] at hlen'
  omega

end Tree

namespace Fields

/-! ### The keys -/

/-- Whether a projection enters a node. -/
def isEntered (keepParentField : Bool) (node : List String × Tree) : Bool :=
  keepParentField || node.2.branch?.isNone

/-- The names of the nodes that a projection enters, in level order. -/
def paths (keepParentField : Bool) (fields : Fields) : List (List String) :=
  ((Tree.branch fields).levelOrder.filter (isEntered keepParentField)).map Prod.fst

variable {keepParentField : Bool} {names : List String}

theorem filterMap_entered {α : Type} (f : List String → α) (nodes : List (List String × Tree)) :
    nodes.filterMap (entered f f keepParentField) =
      ((nodes.filter (isEntered keepParentField)).map Prod.fst).map f := by
  induction nodes with
  | nil => rfl
  | cons node nodes ih =>
    obtain ⟨names, _ | inside⟩ := node
    · simp [entered, isEntered, Tree.branch?, ih]
    · cases keepParentField <;> simp [entered, isEntered, Tree.branch?, ih]

theorem nodup_paths (keepParentField : Bool) (hd : Distinct fields) :
    (paths keepParentField fields).Nodup :=
  (Tree.nodup_levelOrder (t := .branch fields) hd).sublist (List.filter_sublist.map _)

theorem mem_paths_iff : names ∈ paths keepParentField fields ↔
    ∃ depth t, (names, t) ∈ (Tree.branch fields).atDepth (depth + 1) ∧
      isEntered keepParentField (names, t) = true := by
  constructor
  · intro h
    obtain ⟨⟨_, t⟩, hn, rfl⟩ := List.mem_map.1 h
    obtain ⟨hlevel, hentered⟩ := List.mem_filter.1 hn
    obtain ⟨depth, -, hdepth⟩ := List.mem_flatMap.1 hlevel
    exact ⟨depth, t, hdepth, hentered⟩
  · rintro ⟨depth, t, hn, hentered⟩
    have hdepth : depth < (Tree.branch fields).size := by
      by_contra hle
      rw [Tree.atDepth_eq_nil (by omega)] at hn
      cases hn
    refine List.mem_map.2 ⟨(names, t), List.mem_filter.2 ⟨?_, hentered⟩, rfl⟩
    exact List.mem_flatMap.2 ⟨depth, List.mem_range.2 hdepth, hn⟩

theorem ne_nil_of_mem_paths (h : names ∈ paths keepParentField fields) : names ≠ [] := by
  obtain ⟨depth, t, hn, -⟩ := mem_paths_iff.1 h
  have hlength : names.length = depth + 1 := Tree.length_of_mem_atDepth hn
  exact List.ne_nil_of_length_pos (by omega)

theorem plainName_of_mem_paths (hd : Distinct fields) (hp : Plain fields)
    (h : names ∈ paths keepParentField fields) : ∀ name ∈ names, PlainName name := by
  obtain ⟨depth, t, hn, -⟩ := mem_paths_iff.1 h
  exact Tree.plainName_of_mem_atDepth (t := .branch fields) hd hp hn

theorem segments_of_mem_paths (hd : Distinct fields) (hp : Plain fields)
    (h : names ∈ paths keepParentField fields) : segments (dottedAll names) = names :=
  segments_dottedAll (ne_nil_of_mem_paths h) (plainName_of_mem_paths hd hp h)

theorem nodup_dotted_paths (keepParentField : Bool) (hd : Distinct fields) (hp : Plain fields) :
    ((paths keepParentField fields).map dottedAll).Nodup := by
  refine (nodup_paths keepParentField hd).map_on fun names hn names' hn' he => ?_
  rw [← segments_of_mem_paths hd hp hn, he, segments_of_mem_paths hd hp hn']

theorem eraseDups_of_nodup {texts : List String} (h : texts.Nodup) : texts.eraseDups = texts := by
  induction texts with
  | nil => rfl
  | cons text texts ih =>
    obtain ⟨hnot, hnodup⟩ := List.nodup_cons.1 h
    have hkeep : texts.filter (fun other => !other == text) = texts := by
      refine List.filter_eq_self.2 fun other ho => ?_
      have hne : other ≠ text := fun he => hnot (he ▸ ho)
      simpa using hne
    rw [List.eraseDups_cons, hkeep, ih hnodup]

/-- Without replacements, the keys are the paths of the nodes that are entered. -/
theorem projection_eq_paths (keepParentField : Bool) (hd : Distinct fields) (hp : Plain fields) :
    fields.projection [] keepParentField =
      .ok (((paths keepParentField fields).map dottedAll).map .text) := by
  have hkeys := projection_of_texts fields [] keepParentField
  have hnone : replacement [] ∘ dottedAll = dottedAll := rfl
  rw [List.map_nil, hnone, filterMap_entered, ← paths,
    eraseDups_of_nodup (nodup_dotted_paths keepParentField hd hp)] at hkeys
  exact hkeys

end Fields

end Lookahead
