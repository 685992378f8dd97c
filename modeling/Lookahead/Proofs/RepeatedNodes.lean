import Lookahead.Proofs.Covering
import Lookahead.Proofs.Depth
import Lookahead.Requested

/-!
# A field with several nodes

A field that is requested several times comes with several nodes. What is requested of it is what
its nodes request together (`Options.merged`), while `Options.requested` looks at the first node
alone. So an answer is complete exactly if the first node requests, at the path of the options,
whatever the later ones do (`requestedTree_same_iff`).
-/

namespace Lookahead

namespace Context

/-- The nodes of the field being resolved. -/
def currentNodes (context : Context) : List FieldNode :=
  (context.nodes.filter context.isCurrent).filterMap id

theorem head?_currentNodes (context : Context) :
    context.currentNodes.head? = (context.nodes.find? context.isCurrent).join := by
  unfold currentNodes
  induction context.nodes with
  | nil => rfl
  | cons node nodes ih =>
    by_cases h : context.isCurrent node = true
    · cases node with
      | none => simp [isCurrent] at h
      | some node => simp [h]
    · simpa [h] using ih

/-- The first node of the field is looked at, unless it has no sub-selections. -/
theorem node?_eq (context : Context) :
    context.node? = context.currentNodes.head?.filter fun node => !node.selections.isEmpty := by
  rw [head?_currentNodes, List.find?_eq_bind_findIdx?_getElem?, node?, index?]
  cases context.nodes.findIdx? context.isCurrent with
  | none => rfl
  | some i =>
    cases hi : context.nodes[i]?.join with
    | none => simp [Option.filter, hi]
    | some node => by_cases hs : node.selections = [] <;> simp [Option.filter, hi, hs]

end Context

namespace Options

/-- Merges what a node requests into the fields requested so far. -/
def mergeNode (options : Options) (context : Context) (fields : Fields) (node : FieldNode) :
    Except Halt Fields := do
  let all ← (options.collector context).collect (Rules.ofPatterns options.skip) node.selections
    fields
  return all.value

/-- The fields requested by all nodes of the field being resolved, one after another. -/
def merged (options : Options) (info : Option ResolveInfo) : Except Halt Fields :=
  match info.bind ResolveInfo.context? with
  | some context => context.currentNodes.foldlM (options.mergeNode context) []
  | none => .ok []

/-- At the path of the options, the first node of the field being resolved requests all that any
later node does. -/
def FirstSuffices (options : Options) (info : Option ResolveInfo) : Prop :=
  ∀ context first later, info.bind ResolveInfo.context? = some context →
    context.currentNodes = first :: later → ∀ node ∈ later, ∃ own own',
      options.fieldsOf context first = .ok own ∧ options.fieldsOf context node = .ok own' ∧
        own.value.Covers own'.value

variable {options : Options} {context : Context} {info : Option ResolveInfo}

open Collector Occurrence Fields

theorem exists_reads_of_foldlM {nodes : List FieldNode} {fields all : Fields}
    (h : nodes.foldlM (options.mergeNode context) fields = .ok all) :
    ∃ found, (options.collector context).Reads (Rules.ofPatterns options.skip)
      (nodes.flatMap FieldNode.selections) found ∧ all = absorb fields found := by
  induction nodes generalizing fields with
  | nil =>
    cases h
    exact ⟨[], .nil, (absorb_nil _).symm⟩
  | cons node nodes ih =>
    rw [List.foldlM_cons] at h
    obtain ⟨next, hnode, hrest⟩ := bind_eq_ok_iff.1 h
    obtain ⟨result, hc, hv⟩ := bind_eq_ok_iff.1 hnode
    obtain ⟨x, hx, rfl⟩ := exists_reads_of_collect hc
    cases hv
    obtain ⟨y, hy, rfl⟩ := ih hrest
    exact ⟨x ++ y, hx.append hy, (absorb_append ..).symm⟩

/-- The fields that a node requests at the path of the options. -/
theorem exists_fieldsOf {node : FieldNode} {os : List Occurrence}
    (h : (options.collector context).Reads (Rules.ofPatterns options.skip) node.selections os) :
    ∃ own, options.fieldsOf context node = .ok own ∧ own.value = absorb [] (under options.path os) := by
  rw [fieldsOf, h.collect_eq]
  exact ⟨_, rfl, beneath_absorb os options.path⟩

theorem covers_later_iff {fs : Fields} {nodes : List FieldNode} {os : List Occurrence}
    (h : (options.collector context).Reads (Rules.ofPatterns options.skip)
      (nodes.flatMap FieldNode.selections) os) :
    Covers fs (absorb [] (under options.path os)) ↔
      ∀ node ∈ nodes, ∃ own, options.fieldsOf context node = .ok own ∧ Covers fs own.value := by
  induction nodes generalizing os with
  | nil =>
    cases h
    simp [under_nil, Covers.nil]
  | cons node nodes ih =>
    obtain ⟨x, y, rfl, hx, hy⟩ := h.exists_of_append
    obtain ⟨own, ho, hv⟩ := exists_fieldsOf hx
    rw [under_append, covers_absorb_append, ih hy, ← hv, List.forall_mem_cons]
    refine and_congr_left fun _ => ⟨fun hc => ⟨own, ho, hc⟩, ?_⟩
    rintro ⟨own', ho', hc⟩
    rw [ho] at ho'
    cases ho'
    exact hc

/-- The answer is what the first node requests at the path of the options. -/
theorem exists_requested (hc : info.bind ResolveInfo.context? = some context)
    {os : List Occurrence}
    (h : (options.collector context).Reads (Rules.ofPatterns options.skip)
      (context.currentNodes.head?.elim [] FieldNode.selections) os) :
    ∃ found, options.requested info = .ok found ∧
      found.value = absorb [] (under options.path os) := by
  -- Where no node is looked at, there is nothing to be read.
  have hnothing : context.node? = none → os = [] → ∃ found, options.requested info = .ok found ∧
      found.value = absorb [] (under options.path os) := by
    rintro hn rfl
    rw [under_nil, absorb_nil]
    exact ⟨⟨[], Context.missing (some context)⟩, by simp [requested, hc, hn], rfl⟩
  have hnode := context.node?_eq
  cases hhead : context.currentNodes.head? with
  | none =>
    rw [hhead] at hnode h
    cases h
    exact hnothing hnode rfl
  | some first =>
    rw [hhead] at hnode h
    by_cases hs : first.selections = []
    · rw [Option.elim_some, hs] at h
      cases h
      exact hnothing (by simp [hnode, hs]) rfl
    · have hfirst : context.node? = some first := by simp [hnode, Option.filter, hs]
      obtain ⟨own, ho, hv⟩ := exists_fieldsOf h
      exact ⟨own, by simpa [requested, hc, hfirst] using ho, hv⟩

theorem requestedTree_eq {value : Json} (ho : Options.ofJson value = .ok options)
    {found : Logged Fields} (h : options.requested info = .ok found) :
    requestedTree info value = .ok found := by
  rw [requestedTree, withOptions, ho]
  show (options.requested info).mapError Failure.ofHalt >>= _ = _
  rw [h]
  rfl

theorem firstSuffices_iff (hc : info.bind ResolveInfo.context? = some context)
    {first : FieldNode} {later : List FieldNode} (hnodes : context.currentNodes = first :: later)
    {own : Logged Fields} (hown : options.fieldsOf context first = .ok own) :
    options.FirstSuffices info ↔ ∀ node ∈ later, ∃ own',
      options.fieldsOf context node = .ok own' ∧ own.value.Covers own'.value := by
  constructor
  · intro h node hn
    obtain ⟨own₁, own', h₁, ho', hcov⟩ := h context first later hc hnodes node hn
    rw [hown] at h₁
    cases h₁
    exact ⟨own', ho', hcov⟩
  · intro h context' first' later' hc' hnodes' node hn
    rw [hc] at hc'
    cases hc'
    rw [hnodes] at hnodes'
    cases hnodes'
    obtain ⟨own', ho', hcov⟩ := h node hn
    exact ⟨own, own', hown, ho', hcov⟩

/-- With nodes of the field, the first one has to request what the later ones do. -/
theorem requested_same_iff (hc : info.bind ResolveInfo.context? = some context)
    {first : FieldNode} {later : List FieldNode} (hnodes : context.currentNodes = first :: later)
    {all : Fields} (h : options.merged info = .ok all) :
    ∃ found, options.requested info = .ok found ∧
      ((Tree.branch (all.beneath options.path).value).same (.branch found.value) = true ↔
        options.FirstSuffices info) := by
  rw [merged, hc] at h
  obtain ⟨os, hr, rfl⟩ := exists_reads_of_foldlM h
  rw [hnodes] at hr
  obtain ⟨x, y, rfl, hx, hy⟩ := hr.exists_of_append
  have hhead : (options.collector context).Reads (Rules.ofPatterns options.skip)
      (context.currentNodes.head?.elim [] FieldNode.selections) x := by rwa [hnodes]
  obtain ⟨found, hf, hv⟩ := exists_requested hc hhead
  obtain ⟨own, hown, hv'⟩ := exists_fieldsOf hx
  refine ⟨found, hf, ?_⟩
  rw [firstSuffices_iff hc hnodes hown, hv', ← covers_later_iff hy, beneath_absorb, under_append, hv]
  exact same_absorb_append_iff

/-- Without a node of the field nothing is requested, and nothing is missed. -/
theorem requested_same_of_no_nodes (hnone : ∀ context,
    info.bind ResolveInfo.context? = some context → context.currentNodes = [])
    {all : Fields} (h : options.merged info = .ok all) :
    ∃ found, options.requested info = .ok found ∧ options.FirstSuffices info ∧
      (Tree.branch (all.beneath options.path).value).same (.branch found.value) = true := by
  have hsuffices : options.FirstSuffices info := by
    intro context first later hc hnodes
    rw [hnone context hc] at hnodes
    cases hnodes
  have hempty : (Fields.beneath [] options.path).value = [] := by
    have hb := beneath_absorb [] options.path
    rwa [under_nil, absorb_nil] at hb
  have hsame : (Tree.branch (Fields.beneath [] options.path).value).same (.branch []) = true := by
    rw [hempty]
    rfl
  unfold merged at h
  unfold requested
  cases hc : info.bind ResolveInfo.context? with
  | none =>
    rw [hc] at h
    cases h
    exact ⟨⟨[], _⟩, rfl, hsuffices, hsame⟩
  | some context =>
    have hnodes := hnone context hc
    have hnode : context.node? = none := by rw [Context.node?_eq, hnodes]; rfl
    simp only [hc, hnodes] at h
    cases h
    exact ⟨⟨[], Context.missing (some context)⟩, by simp [hnode], hsuffices, hsame⟩

end Options

/-- An answer is the same as what all nodes request together exactly if the first node requests, at
the path of the options, all that the later ones do. -/
theorem requestedTree_same_iff {value : Json} {options : Options}
    (ho : Options.ofJson value = .ok options) {info : Option ResolveInfo} {all : Fields}
    (h : options.merged info = .ok all) :
    ∃ found, requestedTree info value = .ok found ∧
      ((Tree.branch (all.beneath options.path).value).same (.branch found.value) = true ↔
        options.FirstSuffices info) := by
  by_cases hnone : ∀ context, info.bind ResolveInfo.context? = some context →
      context.currentNodes = []
  · obtain ⟨found, hf, hfirst, hsame⟩ := Options.requested_same_of_no_nodes hnone h
    exact ⟨found, Options.requestedTree_eq ho hf, iff_of_true hsame hfirst⟩
  · push Not at hnone
    obtain ⟨context, hc, hne⟩ := hnone
    obtain ⟨first, later, hnodes⟩ := List.exists_cons_of_ne_nil hne
    obtain ⟨found, hf, hsame⟩ := Options.requested_same_iff hc hnodes h
    exact ⟨found, Options.requestedTree_eq ho hf, hsame⟩

/-- A field called `user` with two nodes. -/
def ResolveInfo.ofTwoNodes (first second : List Selection) : ResolveInfo where
  fieldName := some "user"
  fieldNodes := some [some ⟨some "user", first⟩, some ⟨some "user", second⟩]
  fieldAsts := none
  fragments := none
  vars := none

theorem requestedTree_same_iff_two_nodes :
    Options.ofJson .null = .ok {} ∧
      Options.merged {} (some (.ofTwoNodes [.field "id" none [] []] [.field "name" none [] []])) =
        .ok [("id", .leaf), ("name", .leaf)] ∧
      ¬Options.FirstSuffices {}
        (some (.ofTwoNodes [.field "id" none [] []] [.field "name" none [] []])) := by
  have ho : Options.ofJson .null = .ok {} := rfl
  have hm : Options.merged {}
      (some (.ofTwoNodes [.field "id" none [] []] [.field "name" none [] []])) =
    .ok [("id", .leaf), ("name", .leaf)] := rfl
  refine ⟨ho, hm, fun hfirst => ?_⟩
  obtain ⟨found, hf, hsame⟩ := requestedTree_same_iff ho hm
  cases hf
  exact absurd (hsame.2 hfirst) (by decide)

theorem requestedTree_loses_fields :
    Options.ofJson .null = .ok {} ∧
      Options.merged {} (some (.ofTwoNodes [.field "id" none [] []] [.field "name" none [] []])) =
        .ok [("id", .leaf), ("name", .leaf)] ∧
      requestedTree (some (.ofTwoNodes [.field "id" none [] []] [.field "name" none [] []])) .null =
        .ok ⟨[("id", .leaf)], []⟩ ∧
      (Tree.branch (Fields.beneath [("id", .leaf), ("name", .leaf)] "").value).same
        (.branch [("id", .leaf)]) = false :=
  ⟨rfl, rfl, rfl, rfl⟩

end Lookahead
