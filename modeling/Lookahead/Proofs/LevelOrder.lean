import Mathlib.Logic.Function.Iterate
import Lookahead.Projection

/-!
# Projections level by level

`Fields.breadthFirst` works off a queue, in which branches of two adjacent levels stand one behind
the other. `Tree.levelOrder` is what it amounts to: the nodes at depth one, then those at depth two,
and so on, each level from left to right. Working off a whole queue of branches lists their children
and leaves the branches among these as the next queue (`breadthFirst_append`), so a level of a queue
is the level above of the next one (`levelOf_succ`).

A projection enters each node under at most one key, and a key that comes up again keeps its first
place, so its keys are those of the nodes in level order without repetitions
(`projection_eq_levelOrder`). The path of a node has the names on the way to it with dots between
them, but for empty ones at its start (`dottedAll_eq_intercalate`).
-/

namespace Lookahead

/-- The dotted path of a field, given the names from the root to it. -/
def dottedAll (names : List String) : String := names.foldl dotted ""

theorem dotted_of_ne {parent : String} (h : parent ≠ "") (child : String) :
    dotted parent child = parent ++ "." ++ child :=
  if_neg fun he => h (String.isEmpty_iff.1 he)

theorem foldl_dotted {parent : String} (h : parent ≠ "") (names : List String) :
    names.foldl dotted parent = ".".intercalate (parent :: names) := by
  induction names generalizing parent with
  | nil => exact String.intercalate_singleton.symm
  | cons name names ih =>
    have hpath : dotted parent name ≠ "" := by
      rw [dotted_of_ne h]
      simp [h]
    rw [List.foldl_cons, ih hpath, dotted_of_ne h, String.intercalate_cons_append,
      String.intercalate_cons_cons]

/-- A dotted path has the names from the first on that is not empty, with dots between them. -/
theorem dottedAll_eq_intercalate (names : List String) :
    dottedAll names = ".".intercalate (names.dropWhile String.isEmpty) := by
  induction names with
  | nil => rfl
  | cons name names ih =>
    by_cases hempty : name.isEmpty = true
    · obtain rfl := String.isEmpty_iff.1 hempty
      rw [List.dropWhile_cons_of_pos hempty, ← ih]
      rfl
    · have hname : name ≠ "" := fun he => hempty (String.isEmpty_iff.2 he)
      rw [List.dropWhile_cons_of_neg hempty, ← foldl_dotted hname]
      rfl

namespace Tree

/-- The nodes at a depth beneath a tree, from left to right, each with the names on the way. -/
def atDepth : Nat → Tree → List (List String × Tree)
  | 0, t => [([], t)]
  | depth + 1, t => t.fields.flatMap fun entry =>
      (atDepth depth entry.2).map fun node => (entry.1 :: node.1, node.2)

/-- The nodes beneath a tree, level by level. None is deeper than there are nodes. -/
def levelOrder (t : Tree) : List (List String × Tree) :=
  (List.range t.size).flatMap fun depth => t.atDepth (depth + 1)

theorem atDepth_succ (depth : Nat) (t : Tree) :
    t.atDepth (depth + 1) = t.fields.flatMap fun entry =>
      (entry.2.atDepth depth).map fun node => (entry.1 :: node.1, node.2) := rfl

theorem atDepth_leaf (depth : Nat) : leaf.atDepth (depth + 1) = [] := rfl

theorem size_lt_of_mem_fields {t : Tree} {entry : String × Tree} (h : entry ∈ t.fields) :
    entry.2.size < t.size := by
  cases t with
  | leaf => cases h
  | branch fields =>
    change entry ∈ fields at h
    rw [size]
    induction fields with
    | nil => cases h
    | cons first fields ih =>
      rw [sizeAll]
      rcases List.mem_cons.1 h with rfl | h
      · omega
      · have := ih h
        omega

theorem size_pos (t : Tree) : 0 < t.size := by
  cases t <;> rw [size] <;> omega

theorem atDepth_eq_nil {depth : Nat} {t : Tree} (h : t.size ≤ depth) : t.atDepth depth = [] := by
  induction depth generalizing t with
  | zero => exact absurd (size_pos t) (by omega)
  | succ depth ih =>
    rw [atDepth_succ, List.flatMap_eq_nil_iff]
    intro entry he
    have := size_lt_of_mem_fields he
    rw [ih (by omega), List.map_nil]

end Tree

namespace Fields

/-! ### The queue -/

/-- One round of the loop: a branch is taken from the front, and the branches among its children go
to the end. -/
def requeue : List (String × Fields) → List (String × Fields)
  | [] => []
  | (parent, fields) :: queue => queue ++ branches (children parent fields)

/-- The branches of the next level, from left to right. -/
def nextQueue (queue : List (String × Fields)) : List (String × Fields) :=
  queue.flatMap fun b => branches (children b.1 b.2)

/-- The nodes at a depth beneath a branch of a queue, its children being at depth zero. -/
def nodesFrom (depth : Nat) (b : String × Fields) : List (String × Tree) :=
  ((Tree.branch b.2).atDepth (depth + 1)).map fun node => (node.1.foldl dotted b.1, node.2)

/-- The nodes at a depth beneath the branches of a queue. -/
def levelOf (depth : Nat) (queue : List (String × Fields)) : List (String × Tree) :=
  queue.flatMap (nodesFrom depth)

theorem breadthFirst_nil : breadthFirst [] = [] := by rw [breadthFirst]

theorem breadthFirst_cons (b : String × Fields) (queue : List (String × Fields)) :
    breadthFirst (b :: queue) = children b.1 b.2 ++ breadthFirst (requeue (b :: queue)) := by
  rw [breadthFirst]
  rfl

/-- The branches in front are worked off before those that are put behind them. -/
theorem breadthFirst_append (front back : List (String × Fields)) :
    breadthFirst (front ++ back) =
      (front.flatMap fun b => children b.1 b.2) ++ breadthFirst (back ++ nextQueue front) := by
  induction front generalizing back with
  | nil => rw [nextQueue, List.flatMap_nil, List.flatMap_nil, List.append_nil]; rfl
  | cons b front ih =>
    rw [List.cons_append, breadthFirst_cons, requeue, List.append_assoc, ih, nextQueue, nextQueue,
      List.flatMap_cons, List.flatMap_cons, List.append_assoc, List.append_assoc]

theorem nodesFrom_cons (depth : Nat) (parent name : String) (t : Tree) (fields : Fields) :
    nodesFrom depth (parent, (name, t) :: fields) =
      ((t.atDepth depth).map fun node => (node.1.foldl dotted (dotted parent name), node.2)) ++
        nodesFrom depth (parent, fields) := by
  simp only [nodesFrom, Tree.atDepth_succ, Tree.fields, List.flatMap_cons, List.map_append,
    List.map_map]
  rfl

theorem nodesFrom_zero (b : String × Fields) : nodesFrom 0 b = children b.1 b.2 := by
  obtain ⟨parent, fields⟩ := b
  induction fields with
  | nil => rfl
  | cons entry fields ih =>
    rw [nodesFrom_cons, ih]
    rfl

/-- What is deeper beneath a branch is beneath the branches among its children. -/
theorem nodesFrom_succ (depth : Nat) (b : String × Fields) :
    nodesFrom (depth + 1) b = levelOf depth (branches (children b.1 b.2)) := by
  obtain ⟨parent, fields⟩ := b
  induction fields with
  | nil => rfl
  | cons entry fields ih =>
    obtain ⟨name, t⟩ := entry
    rw [nodesFrom_cons, ih]
    cases t with
    | leaf => rfl
    | branch inside => rfl

theorem levelOf_zero (queue : List (String × Fields)) :
    levelOf 0 queue = queue.flatMap fun b => children b.1 b.2 := by
  rw [levelOf, funext nodesFrom_zero]

theorem levelOf_succ (depth : Nat) (queue : List (String × Fields)) :
    levelOf (depth + 1) queue = levelOf depth (nextQueue queue) := by
  rw [levelOf, nextQueue, levelOf, List.flatMap_assoc]
  exact congrArg (List.flatMap · queue) (funext (nodesFrom_succ depth))

theorem queued_nextQueue (queue : List (String × Fields)) :
    queued (nextQueue queue) + queue.length ≤ queued queue := by
  induction queue with
  | nil => exact Nat.le_refl 0
  | cons b queue ih =>
    obtain ⟨parent, fields⟩ := b
    have hchildren := queued_branches_children parent fields
    rw [nextQueue, List.flatMap_cons, ← nextQueue, queued_append, queued, List.length_cons]
    dsimp only
    omega

/-- Working off a queue lists one level after another. -/
theorem breadthFirst_eq_levels {n : Nat} {queue : List (String × Fields)} (h : queued queue ≤ n) :
    breadthFirst queue = (List.range n).flatMap (levelOf · queue) := by
  induction n generalizing queue with
  | zero =>
    cases queue with
    | nil => rw [breadthFirst_nil]; rfl
    | cons b queue =>
      rw [queued] at h
      omega
  | succ n ih =>
    cases queue with
    | nil =>
      rw [breadthFirst_nil]
      exact (List.flatMap_eq_nil_iff.2 fun _ _ => rfl).symm
    | cons b queue =>
      have hnext := queued_nextQueue (b :: queue)
      have hround := breadthFirst_append (b :: queue) []
      rw [List.length_cons] at hnext
      rw [List.append_nil, List.nil_append, ← levelOf_zero] at hround
      rw [hround, ih (by omega), List.range_succ_eq_map, List.flatMap_cons, List.flatMap_map]
      simp only [levelOf_succ]

theorem breadthFirst_eq_levelOrder (fields : Fields) :
    breadthFirst [("", fields)] =
      (Tree.branch fields).levelOrder.map fun node => (dottedAll node.1, node.2) := by
  have hsize : queued [("", fields)] ≤ (Tree.branch fields).size := by
    rw [queued, queued, Tree.size]
    omega
  rw [breadthFirst_eq_levels hsize, Tree.levelOrder, List.map_flatMap]
  refine congrArg (List.flatMap · _) (funext fun depth => ?_)
  rw [levelOf, List.flatMap_singleton]
  rfl

/-! ### The loop over the queue -/

theorem queued_requeue_le {n : Nat} {queue : List (String × Fields)} (h : queued queue ≤ n + 1) :
    queued (requeue queue) ≤ n := by
  cases queue with
  | nil => exact Nat.zero_le n
  | cons b queue =>
    obtain ⟨parent, fields⟩ := b
    have hchildren := queued_branches_children parent fields
    rw [queued] at h
    rw [requeue, queued_append]
    omega

theorem iterate_requeue_eq_nil {n : Nat} {queue : List (String × Fields)} (h : queued queue ≤ n) :
    requeue^[n] queue = [] := by
  induction n generalizing queue with
  | zero =>
    cases queue with
    | nil => rfl
    | cons b queue =>
      rw [queued] at h
      omega
  | succ n ih => exact ih (queued_requeue_le h)

/-! ### The keys -/

/-- What a node is entered as, given what stands for a leaf and what for a branch. -/
def entered {α : Type} (rename own : List String → α) (keepParentField : Bool) :
    List String × Tree → Option α
  | (names, .leaf) => some (rename names)
  | (names, .branch _) => if keepParentField then some (own names) else none

theorem filterMap_entered_comp {α β : Type} (h : α → β) (rename own : List String → α)
    (keepParentField : Bool) (nodes : List (List String × Tree)) :
    nodes.filterMap (entered (h ∘ rename) (h ∘ own) keepParentField) =
      (nodes.filterMap (entered rename own keepParentField)).map h := by
  rw [List.map_filterMap]
  refine congrArg (List.filterMap · nodes) (funext fun node => ?_)
  obtain ⟨names, _ | inside⟩ := node
  · rfl
  · cases keepParentField <;> rfl

/-- The value that a node is entered under: a leaf under what its path is renamed to, a branch under
its own path, if it is entered at all. -/
def entry (transform : Table Json) (keepParentField : Bool) : List String × Tree → Option Json :=
  entered (renamed transform ∘ dottedAll) (.str ∘ dottedAll) keepParentField

section

variable {transform : Table Json} {keepParentField : Bool}

theorem enter_eq (keys : Projection) (node : List String × Tree) :
    enter transform keepParentField keys (dottedAll node.1, node.2) =
      match entry transform keepParentField node with
      | none => .ok keys
      | some value =>
        match Key.ofJson? value with
        | some key => .ok (keys.insert key)
        | none => .error ⟨dottedAll node.1⟩ := by
  obtain ⟨names, _ | inside⟩ := node
  · rfl
  · cases keepParentField <;> rfl

/-- Nodes are entered one after another, as long as what they are entered as can be a key. -/
theorem foldlM_enter_eq_ok_iff {nodes : List (List String × Tree)} {keys result : Projection} :
    (nodes.map fun node => (dottedAll node.1, node.2)).foldlM (enter transform keepParentField)
        keys = .ok result ↔
      ∃ all, (nodes.filterMap (entry transform keepParentField)).mapM Key.ofJson? = some all ∧
        result = all.foldl Projection.insert keys := by
  induction nodes generalizing keys with
  | nil =>
    constructor
    · rintro ⟨⟩
      exact ⟨[], rfl, rfl⟩
    · rintro ⟨all, hall, rfl⟩
      cases hall
      rfl
  | cons node nodes ih =>
    rw [List.map_cons, List.foldlM_cons, enter_eq, List.filterMap_cons]
    cases entry transform keepParentField node with
    | none => exact ih
    | some value =>
      dsimp only
      rw [List.mapM_cons]
      cases Key.ofJson? value with
      | none => exact iff_of_false nofun (by simp)
      | some key =>
        refine ih.trans ?_
        cases (nodes.filterMap (entry transform keepParentField)).mapM Key.ofJson? <;> simp

end

/-- Inserting keys one after another leaves out every repetition. -/
theorem foldl_insert (keys : List Key) :
    keys.foldl Projection.insert [] = keys.eraseDupsBy Key.same := by
  have hloop : ∀ seen : List Key, keys.foldl Projection.insert seen.reverse =
      List.eraseDupsBy.loop Key.same keys seen := by
    induction keys with
    | nil => exact fun _ => rfl
    | cons key keys ih =>
      intro seen
      rw [List.foldl_cons, List.eraseDupsBy.loop, Projection.insert, List.any_reverse]
      cases seen.any key.same with
      | true => exact ih seen
      | false =>
        rw [← ih (key :: seen), List.reverse_cons]
        rfl
  exact hloop []

theorem eraseDupsBy_same_text (texts : List String) :
    (texts.map Key.text).eraseDupsBy Key.same = texts.eraseDups.map Key.text := by
  have hloop : ∀ seen : List String,
      List.eraseDupsBy.loop Key.same (texts.map .text) (seen.map .text) =
        (List.eraseDupsBy.loop (· == ·) texts seen).map Key.text := by
    induction texts with
    | nil => exact fun seen => List.map_reverse.symm
    | cons text texts ih =>
      intro seen
      rw [List.map_cons, List.eraseDupsBy.loop, List.eraseDupsBy.loop, List.any_map]
      have hsame : (Key.text text).same ∘ Key.text = (text == ·) := rfl
      rw [hsame]
      cases seen.any (text == ·) with
      | true => exact ih seen
      | false => exact ih (text :: seen)
  exact hloop []

/-- What a path is replaced by: its entry in the table, unless that is missing or empty. -/
def replacement (names : Table String) (path : String) : String :=
  match names.lookup path with
  | some name => if name.isEmpty then path else name
  | none => path

theorem renamed_str (names : Table String) (path : String) :
    renamed (names.map fun e => (e.1, .str e.2)) path = .str (replacement names path) := by
  have hlookup : List.lookup path (names.map fun e => (e.1, Json.str e.2)) =
      (names.lookup path).map Json.str := by
    induction names with
    | nil => rfl
    | cons e names ih =>
      rw [List.map_cons, Table.lookup_cons, Table.lookup_cons, ih]
      split <;> rfl
  rw [renamed, replacement, hlookup]
  cases names.lookup path with
  | none => rfl
  | some name => cases hname : name.isEmpty <;> simp [Json.truthy, hname]

theorem mapM_ofJson?_str (texts : List String) :
    (texts.map Json.str).mapM Key.ofJson? = some (texts.map .text) := by
  induction texts with
  | nil => rfl
  | cons text texts ih =>
    rw [List.map_cons, List.mapM_cons, ih]
    rfl

/-- Under replacements that are text every node can be entered. -/
theorem mapM_ofJson?_entry (names : Table String) (keepParentField : Bool)
    (nodes : List (List String × Tree)) :
    (nodes.filterMap (entry (names.map fun e => (e.1, .str e.2)) keepParentField)).mapM
        Key.ofJson? =
      some ((nodes.filterMap
        (entered (replacement names ∘ dottedAll) dottedAll keepParentField)).map .text) := by
  have hstr : renamed (names.map fun e => (e.1, .str e.2)) ∘ dottedAll =
      Json.str ∘ (replacement names ∘ dottedAll) :=
    funext fun path => renamed_str names (dottedAll path)
  rw [entry, hstr, filterMap_entered_comp, mapM_ofJson?_str]

theorem projection_eq_ok_iff {fields : Fields} {transform : Table Json} {keepParentField : Bool}
    {keys : Projection} : fields.projection transform keepParentField = .ok keys ↔
      ∃ all, ((Tree.branch fields).levelOrder.filterMap
          (entry transform keepParentField)).mapM Key.ofJson? = some all ∧
        keys = all.eraseDupsBy Key.same := by
  rw [projection, breadthFirst_eq_levelOrder, foldlM_enter_eq_ok_iff]
  simp only [foldl_insert]

theorem projection_of_texts (fields : Fields) (names : Table String) (keepParentField : Bool) :
    fields.projection (names.map fun e => (e.1, .str e.2)) keepParentField =
      .ok (((Tree.branch fields).levelOrder.filterMap
        (entered (replacement names ∘ dottedAll) dottedAll keepParentField)).eraseDups.map .text) :=
  projection_eq_ok_iff.2 ⟨_, mapM_ofJson?_entry names keepParentField _,
    (eraseDupsBy_same_text _).symm⟩

/-- The keys of a projection are what the nodes are entered as, in level order and without
repetitions, and there is a projection exactly if all of that can be keys. It always can under
replacements that are text. The loop over the queue ends after as many rounds as there are nodes. -/
theorem projection_eq_levelOrder (fields : Fields) (transform : Table Json)
    (keepParentField : Bool) :
    (∀ keys, fields.projection transform keepParentField = .ok keys ↔
      ∃ all, ((Tree.branch fields).levelOrder.filterMap
          (entry transform keepParentField)).mapM Key.ofJson? = some all ∧
        keys = all.eraseDupsBy Key.same) ∧
    (∀ names : Table String,
      fields.projection (names.map fun e => (e.1, .str e.2)) keepParentField =
        .ok (((Tree.branch fields).levelOrder.filterMap
          (entered (replacement names ∘ dottedAll) dottedAll keepParentField)).eraseDups.map .text)) ∧
    requeue^[(Tree.branch fields).size] [("", fields)] = [] := by
  refine ⟨fun keys => projection_eq_ok_iff, fun names => projection_of_texts fields names _, ?_⟩
  refine iterate_requeue_eq_nil ?_
  rw [queued, queued, Tree.size]
  omega

end Fields

end Lookahead
