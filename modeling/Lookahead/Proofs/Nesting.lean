import Lookahead.Proofs.Hiding
import Lookahead.Proofs.OptionMembers
import Lookahead.Proofs.RepeatedNodes

/-!
# Skip patterns beneath a path

Options may ask for the fields at a path and give skip patterns as well. The patterns are about
paths from the root. Those that start with the path of the options are compiled to what the rest of
them is compiled to, nested beneath the path (`Rules.ofPatterns_prefixed`), and such rules touch
nothing of the fields at the path but what the nested ones prune (`Fields.beneath_prune_nest`).
So they act on the answer as patterns without the path act on it (`requestedTree_skip_beneath_path`).
-/

namespace Lookahead

namespace Rules

/-- Rules for what is beneath a path and for nothing else. -/
def nest : List String → Rules → Rules
  | [], rules => rules
  | name :: path, rules => [(name, .within (nest path rules))]

variable {path pattern : List String} {rules : Rules}

theorem lookup_nest (name : String) (path : List String) (rules : Rules) :
    lookup (nest (name :: path) rules) name = some (.within (nest path rules)) :=
  lookup_of_key (by rw [nest, Table.lookup_cons, if_pos rfl])

/-- Along a path that has rules of its own, every segment is taken literally. -/
theorem addSegments_nest (path pattern : List String) (rules : Rules) :
    addSegments (path ++ pattern) (nest path rules) = nest path (addSegments pattern rules) := by
  induction path with
  | nil => rfl
  | cons name path ih =>
    rw [List.cons_append, nest, nest, ← ih]
    exact if_pos rfl

/-- Where there are no rules yet, a star right behind a segment would be used up. -/
theorem addSegments_nest_nil (hpath : "*" ∉ path) (hpattern : pattern ≠ [])
    (hstar : pattern.head? ≠ some "*") :
    addSegments (path ++ pattern) [] = nest path (addSegments pattern []) := by
  induction path with
  | nil => rfl
  | cons name path ih =>
    have hrest : ¬(path ++ pattern = [] ∨ (path ++ pattern).head? = some "*") := by
      cases path with
      | nil => simp [hpattern, hstar]
      | cons next path =>
        have hne : next ≠ "*" := fun he => hpath (by simp [he])
        simp [hne]
    rw [List.cons_append, nest, addSegments, Table.update, if_neg hrest,
      ih fun h => hpath (List.mem_cons_of_mem _ h)]

theorem foldl_add_nest (path : String) (patterns : List String) (rules : Rules) :
    (patterns.map (path ++ "." ++ ·)).foldl add (nest (segments path) rules) =
      nest (segments path) (patterns.foldl add rules) := by
  induction patterns generalizing rules with
  | nil => rfl
  | cons p patterns ih =>
    rw [List.map_cons, List.foldl_cons, List.foldl_cons, add, segments_append_dot, addSegments_nest,
      ih, add]

/-- Patterns with a path in front of them are the patterns beneath that path. -/
theorem ofPatterns_prefixed {path p : String} {patterns : List String}
    (hpath : "*" ∉ segments path) (hp : (segments p).head? ≠ some "*") :
    ofPatterns ((p :: patterns).map (path ++ "." ++ ·)) =
      nest (segments path) (ofPatterns (p :: patterns)) := by
  rw [ofPatterns, ofPatterns, List.map_cons, List.foldl_cons, List.foldl_cons, add, add,
    segments_append_dot, addSegments_nest_nil hpath (segments_ne_nil p) hp, foldl_add_nest]

end Rules

/-! ### Pruning beneath a path -/

mutual

theorem Tree.prune_no_rules : ∀ t : Tree, t.prune [] = t
  | .leaf => by rw [Tree.prune]
  | .branch fields => by rw [Tree.prune, Fields.prune_no_rules fields]

theorem Fields.prune_no_rules : ∀ fields : List (String × Tree), Fields.prune [] fields = fields
  | [] => Fields.prune_nil []
  | (name, t) :: fields => by
    have hl : Rules.lookup [] name ≠ some .whole := nofun
    have hinner : Rule.inner (Rules.lookup [] name) = [] := rfl
    rw [Fields.prune_cons_kept hl, hinner, Tree.prune_no_rules t, Fields.prune_no_rules fields]

end

namespace Fields

theorem branch?_prune (rules : Rules) (t : Tree) :
    (t.prune rules).branch? = t.branch?.map (prune rules) := by
  cases t <;> rw [Tree.prune] <;> rfl

theorem descend?_prune_nest (path : List String) (rules : Rules) (fields : Fields) :
    descend? (prune (Rules.nest path rules) fields) path =
      (descend? fields path).map (prune rules) := by
  induction path generalizing fields with
  | nil => rfl
  | cons name path ih =>
    have hlookup := Rules.lookup_nest name path rules
    have hkept : Rules.lookup (Rules.nest (name :: path) rules) name ≠ some .whole := by
      simp [hlookup]
    rw [descend?_cons, descend?_cons, lookup_prune_kept hkept, hlookup, Rule.inner]
    cases fields.lookup name with
    | none => rfl
    | some t =>
      rw [Option.map_some, Option.bind_some, Option.bind_some, branch?_prune]
      cases t.branch? with
      | none => rfl
      | some inside => exact ih inside

/-- Rules for what is beneath a path prune the fields there. -/
theorem beneath_prune_nest {path : String} (h : path ≠ "") (rules : Rules) (fields : Fields) :
    ((prune (Rules.nest (segments path) rules) fields).beneath path).value =
      prune rules (fields.beneath path).value := by
  have hne : path.isEmpty = false := by simpa using h
  rw [beneath, beneath, descend?_prune_nest]
  simp only [hne]
  cases descend? fields (segments path) with
  | none => exact (prune_nil rules).symm
  | some found => rfl

theorem beneath_prune_prefixed {path : String} (h : path ≠ "") (hpath : "*" ∉ segments path)
    {patterns : List String} (hp : ∀ p ∈ patterns, (segments p).head? ≠ some "*")
    (fields : Fields) :
    ((prune (Rules.ofPatterns (patterns.map (path ++ "." ++ ·))) fields).beneath path).value =
      prune (Rules.ofPatterns patterns) (fields.beneath path).value := by
  cases patterns with
  | nil =>
    show ((prune [] fields).beneath path).value = prune [] (fields.beneath path).value
    rw [prune_no_rules, prune_no_rules]
  | cons p patterns =>
    rw [Rules.ofPatterns_prefixed hpath (hp p (List.mem_cons_self ..)), beneath_prune_nest h]

end Fields

/-! ### Options with a path and skip patterns -/

namespace Options

variable {options : Options} {context : Context} {info : Option ResolveInfo} {patterns : List String}
  {found : Logged Fields}

theorem exists_reads_of_fieldsOf {node : FieldNode}
    (h : options.fieldsOf context node = .ok found) :
    ∃ os, (options.collector context).Reads (Rules.ofPatterns options.skip) node.selections os ∧
      found.value = ((Fields.absorb [] os).beneath options.path).value := by
  obtain ⟨all, hc, he⟩ := bind_eq_ok_iff.1 h
  obtain ⟨os, hr, rfl⟩ := Collector.exists_reads_of_collect hc
  cases he
  exact ⟨os, hr, rfl⟩

/-- The options with skip patterns beneath their path in the place of none. -/
def skipBeneath (options : Options) (patterns : List String) : Options :=
  { options with skip := patterns.map (options.path ++ "." ++ ·) }

section

variable (hnone : options.skip = []) (hpath : options.path ≠ "")
  (hstar : "*" ∉ segments options.path) (hp : ∀ p ∈ patterns, (segments p).head? ≠ some "*")

include hnone hpath hstar hp

theorem fieldsOf_skipBeneath {node : FieldNode} (h : options.fieldsOf context node = .ok found) :
    ∃ own, (options.skipBeneath patterns).fieldsOf context node = .ok own ∧
      own.value = Fields.prune (Rules.ofPatterns patterns) found.value := by
  obtain ⟨os, hr, hv⟩ := exists_reads_of_fieldsOf h
  rw [hnone] at hr
  have hskipping : ((options.skipBeneath patterns).collector context).Reads
      (Rules.ofPatterns (options.skipBeneath patterns).skip) node.selections
      (Occurrence.pruneAll (Rules.ofPatterns (options.skipBeneath patterns).skip) os) := hr.prune _
  obtain ⟨own, hown, hv'⟩ := exists_fieldsOf hskipping
  refine ⟨own, hown, ?_⟩
  have hpruned := Fields.beneath_prune_prefixed hpath hstar hp (Fields.absorb [] os)
  rw [Fields.prune_absorb, Fields.prune_nil] at hpruned
  rw [hv', hv, ← hpruned, ← Fields.beneath_absorb]
  rfl

theorem requested_skipBeneath (h : options.requested info = .ok found) :
    ∃ own, (options.skipBeneath patterns).requested info = .ok own ∧
      own.value = Fields.prune (Rules.ofPatterns patterns) found.value := by
  unfold requested at h ⊢
  cases hc : (info.bind ResolveInfo.context?).bind fun c => c.node?.map (c, ·) with
  | none =>
    simp only [hc] at h ⊢
    cases h
    exact ⟨_, rfl, (Fields.prune_nil _).symm⟩
  | some looked =>
    simp only [hc] at h ⊢
    exact fieldsOf_skipBeneath hnone hpath hstar hp h

end

end Options

theorem exists_options_of_requestedTree {info : Option ResolveInfo} {value : Json}
    {found : Logged Fields} (h : requestedTree info value = .ok found) :
    ∃ options, Options.ofJson value = .ok options ∧ options.requested info = .ok found := by
  obtain ⟨options, ho, h⟩ := bind_eq_ok_iff.1 h
  obtain ⟨fields, hf, h⟩ := bind_eq_ok_iff.1 h
  cases h
  exact ⟨options, mapError_eq_ok_iff.1 ho, mapError_eq_ok_iff.1 hf⟩

/-- Skip patterns that start with the path of the options act on the fields at that path as they
would without it. -/
theorem requestedTree_skip_beneath_path {members members' : Table Json} {path : String}
    {patterns : List String} (hm : members.lookup "path" = some (.str path))
    (hnone : members.lookup "skip" = none)
    (hs : members'.lookup "skip" = some (.arr (patterns.map fun p => .str (path ++ "." ++ p))))
    (hothers : ∀ name, name ≠ "skip" → members'.lookup name = members.lookup name)
    (hpath : path ≠ "") (hstar : "*" ∉ segments path)
    (hp : ∀ p ∈ patterns, (segments p).head? ≠ some "*") {info : Option ResolveInfo}
    {found : Logged Fields} (h : requestedTree info (.obj members) = .ok found) :
    ∃ records, requestedTree info (.obj members') =
      .ok ⟨Fields.prune (Rules.ofPatterns patterns) found.value, records⟩ := by
  obtain ⟨options, ho, hr⟩ := exists_options_of_requestedTree h
  rw [Options.ofJson_obj] at ho
  obtain ⟨-, hpath', -, hskip, -⟩ := Options.ofMembers_eq_ok_iff.1 ho
  rw [hm] at hpath'
  rw [hnone] at hskip
  obtain rfl : path = options.path := Except.ok.inj hpath'
  have hempty : options.skip = [] := (Except.ok.inj hskip).symm
  obtain ⟨own, hown, hv⟩ := Options.requested_skipBeneath hempty hpath hstar hp hr
  have hskipping : Options.ofJson (.obj members') = .ok (options.skipBeneath patterns) := by
    rw [Options.ofJson_obj]
    refine Options.ofMembers_of_skip ho ?_ hothers
    rw [hs, List.map_map]
    rfl
  refine ⟨own.records, ?_⟩
  rw [Options.requestedTree_eq hskipping hown, ← hv]

/-- `viewer { id user { profile { ownerId name address { street } } } }` -/
def ResolveInfo.ofViewer : ResolveInfo where
  fieldName := some "viewer"
  fieldNodes := some [some ⟨some "viewer", [.field "id" none [] [], .field "user" none []
    [.field "profile" none [] [.field "ownerId" none [] [], .field "name" none [] [],
      .field "address" none [] [.field "street" none [] []]]]]⟩]
  fieldAsts := none
  fragments := none
  vars := none

/-- Options for the fields of the profile. -/
def Options.atProfile : Table Json := [("path", .str "user.profile")]

/-- Options for the fields of the profile with some left out. -/
def Options.atProfileSkipping : Table Json :=
  [("path", .str "user.profile"), ("skip", .arr [.str "user.profile.*Id",
    .str "user.profile.address.*", .str "user.profile.name.first"])]

theorem requestedTree_skip_beneath_profile :
    "*" ∉ segments "user.profile" ∧
    (∀ p ∈ ["*Id", "address.*", "name.first"], (segments p).head? ≠ some "*") ∧
    requestedTree (some .ofViewer) (.obj Options.atProfile) =
      .ok ⟨[("ownerId", .leaf), ("name", .leaf), ("address", .branch [("street", .leaf)])], []⟩ ∧
    ∃ records, requestedTree (some .ofViewer) (.obj Options.atProfileSkipping) =
      .ok ⟨[("name", .leaf)], records⟩ := by
  have hstar : "*" ∉ segments "user.profile" := by decide
  have hp : ∀ p ∈ ["*Id", "address.*", "name.first"], (segments p).head? ≠ some "*" := by decide
  have ho : Options.ofJson (.obj Options.atProfile) = .ok { path := "user.profile" } := by
    refine Options.ofMembers_eq_ok_iff.2 ⟨?_, rfl, rfl, rfl, rfl, rfl⟩
    exact Options.unknownNames_eq_nil_iff.2 (by decide)
  have hfound : requestedTree (some .ofViewer) (.obj Options.atProfile) =
      .ok ⟨[("ownerId", .leaf), ("name", .leaf), ("address", .branch [("street", .leaf)])], []⟩ :=
    Options.requestedTree_eq ho rfl
  have hs : Options.atProfileSkipping.lookup "skip" =
      some (.arr (["*Id", "address.*", "name.first"].map fun p =>
        .str ("user.profile" ++ "." ++ p))) := by
    simp [Options.atProfileSkipping, Table.lookup_cons]
  have hothers : ∀ name, name ≠ "skip" →
      Options.atProfileSkipping.lookup name = Options.atProfile.lookup name := by
    intro name hname
    rw [Options.atProfileSkipping, Options.atProfile, Table.lookup_cons, Table.lookup_cons,
      Table.lookup_cons, if_neg hname]
  obtain ⟨records, hskipping⟩ :=
    requestedTree_skip_beneath_path rfl rfl hs hothers (by decide) hstar hp hfound
  have hrules : Rules.ofPatterns ["*Id", "address.*", "name.first"] =
      [("*Id", .whole), ("address", .whole), ("name", .within [("first", .whole)])] := rfl
  have hleft : Fields.prune
      [("*Id", .whole), ("address", .whole), ("name", .within [("first", .whole)])]
      [("ownerId", .leaf), ("name", .leaf), ("address", .branch [("street", .leaf)])] =
    [("name", .leaf)] := rfl
  rw [hrules, hleft] at hskipping
  exact ⟨hstar, hp, hfound, records, hskipping⟩

end Lookahead
