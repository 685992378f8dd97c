import Lookahead.Proofs.Depth
import Lookahead.Proofs.Merging

/-!
# Collecting fields name by name

The specification of a query language collects the fields of a selection set first and merges the
selection sets of equally named fields afterwards. `Collector.Flattens` lists the fields that stand
on one level when fragments are spliced in; `Collector.Groups` gives each of their names one entry,
with the tree of all sub-selections under that name taken as one list. `Collector.collect` goes
through the selections once, depth first, and fills one tree as it goes. It comes to the same
(`groups_iff_collect_eq_ok`).
-/

namespace Lookahead

/-- The fields of one level as they are written, each with its sub-selections. -/
abbrev Requests := List (String × List Selection)

namespace Requests

/-- The names, each once, in order of first occurrence. -/
def names (requests : Requests) : List String := (requests.map Prod.fst).eraseDups

/-- The sub-selections of all fields called `name`, one after another. There are none if none of
these fields has any. -/
def inside (name : String) (requests : Requests) : List Selection :=
  requests.flatMap fun request => if request.1 = name then request.2 else []

theorem inside_cons (name : String) (request : String × List Selection) (requests : Requests) :
    inside name (request :: requests) =
      (if request.1 = name then request.2 else []) ++ inside name requests := List.flatMap_cons

theorem inside_append (name : String) (front back : Requests) :
    inside name (front ++ back) = inside name front ++ inside name back := List.flatMap_append

end Requests

namespace Occurrence

mutual

/-- The number of occurrences at and beneath an occurrence. -/
def size : Occurrence → Nat
  | leaf _ => 1
  | branch _ inside => 1 + sizeAll inside
  | unknownFragment _ => 1

def sizeAll : List Occurrence → Nat
  | [] => 0
  | o :: os => o.size + sizeAll os

end

theorem sizeAll_append (os os' : List Occurrence) :
    sizeAll (os ++ os') = sizeAll os + sizeAll os' := by
  induction os with
  | nil => simp [sizeAll]
  | cons o os ih => simp [sizeAll, ih, Nat.add_assoc]

theorem sizeAll_insideOf_lt (name : String) (o : Occurrence) :
    sizeAll (o.insideOf name) < o.size := by
  cases o with
  | branch n inside =>
    rw [insideOf]
    split <;> simp only [size, sizeAll] <;> omega
  | leaf n => exact Nat.one_pos
  | unknownFragment n => exact Nat.one_pos

theorem sizeAll_beneath_lt {name : String} {os : List Occurrence}
    (h : os.any (isBranch name) = true) : sizeAll (beneath name os) < sizeAll os := by
  have hle : ∀ os : List Occurrence, sizeAll (beneath name os) + os.length ≤ sizeAll os := by
    intro os
    induction os with
    | nil => exact Nat.le_refl _
    | cons o os ih =>
      have := sizeAll_insideOf_lt name o
      rw [beneath_cons, sizeAll_append, sizeAll, List.length_cons]
      omega
  have hpos : 0 < os.length := by
    cases os with
    | nil => cases h
    | cons o os => exact Nat.succ_pos _
  have := hle os
  omega

end Occurrence

namespace Collector

/-- The fields that a selection list requests on its own level: without what is rejected or
skipped, and with what fragments contain in the place of the fragments. -/
inductive Flattens (c : Collector) (rules : Rules) : List Selection → Requests → Prop
  | nil : Flattens c rules [] []
  | rejected {s rest requests} (ha : c.admits s = false) (tail : Flattens c rules rest requests) :
    Flattens c rules (s :: rest) requests
  | skipped {name key ds inside rest requests}
    (ha : c.admits (.field name key ds inside) = true) (hl : rules.lookup name = some .whole)
    (tail : Flattens c rules rest requests) :
    Flattens c rules (.field name key ds inside :: rest) requests
  | field {name key ds inside rest requests}
    (ha : c.admits (.field name key ds inside) = true) (hl : rules.lookup name ≠ some .whole)
    (tail : Flattens c rules rest requests) :
    Flattens c rules (.field name key ds inside :: rest) ((name, inside) :: requests)
  | inlineFragment {tc ds inside rest spliced requests}
    (ha : c.admits (.inlineFragment tc ds inside) = true)
    (head : Flattens c rules inside spliced) (tail : Flattens c rules rest requests) :
    Flattens c rules (.inlineFragment tc ds inside :: rest) (spliced ++ requests)
  | fragment {name ds fragment rest spliced requests}
    (ha : c.admits (.fragmentSpread name ds) = true)
    (hf : c.fragments.find? name = some fragment)
    (head : Flattens c rules fragment.selections spliced) (tail : Flattens c rules rest requests) :
    Flattens c rules (.fragmentSpread name ds :: rest) (spliced ++ requests)
  | unknownFragment {name ds rest requests}
    (ha : c.admits (.fragmentSpread name ds) = true) (hf : c.fragments.find? name = none)
    (tail : Flattens c rules rest requests) :
    Flattens c rules (.fragmentSpread name ds :: rest) requests

/-- The tree of a selection list, put together name by name. -/
inductive Groups (c : Collector) : Rules → List Selection → Fields → Prop
  | mk {rules selections requests} (inner : String → Fields)
    (flat : c.Flattens rules selections requests)
    (groups : ∀ name, requests.inside name ≠ [] →
      Groups c (Rule.inner (rules.lookup name)) (requests.inside name) (inner name)) :
    Groups c rules selections (requests.names.map fun name =>
      (name, if (requests.inside name).isEmpty then .leaf else .branch (inner name)))

variable {c : Collector} {rules : Rules}

/-! ### The occurrences of one level -/

/-- The occurrences `found` are what is read for the fields `requests` of one level. -/
structure Renders (c : Collector) (rules : Rules) (requests : Requests)
    (found : List Occurrence) : Prop where
  names : requests.map Prod.fst = Occurrence.names found
  inside : ∀ name, c.Reads (Rule.inner (rules.lookup name)) (requests.inside name)
    (Occurrence.beneath name found)
  branch : ∀ name, found.any (Occurrence.isBranch name) = !(requests.inside name).isEmpty

namespace Renders

variable {requests : Requests} {found : List Occurrence}

theorem nil : c.Renders rules [] [] := ⟨rfl, fun _ => .nil, fun _ => rfl⟩

theorem leaf (h : c.Renders rules requests found) (name : String) :
    c.Renders rules ((name, []) :: requests) (.leaf name :: found) := by
  have hi : ∀ n, Requests.inside n ((name, []) :: requests) = requests.inside n := fun n => by
    rw [Requests.inside_cons, ite_self, List.nil_append]
  refine ⟨congrArg (name :: ·) h.names, fun n => ?_, fun n => ?_⟩
  · rw [hi]
    exact h.inside n
  · rw [hi, ← h.branch]
    rfl

theorem branch_cons (h : c.Renders rules requests found) {name : String} {inside : List Selection}
    {beneath : List Occurrence} (hi : inside ≠ [])
    (hr : c.Reads (Rule.inner (rules.lookup name)) inside beneath) :
    c.Renders rules ((name, inside) :: requests) (.branch name beneath :: found) := by
  refine ⟨congrArg (name :: ·) h.names, fun n => ?_, fun n => ?_⟩
  · rw [Requests.inside_cons, Occurrence.beneath_cons, Occurrence.insideOf]
    by_cases hn : name = n
    · subst hn
      rw [if_pos rfl, if_pos rfl]
      exact hr.append (h.inside name)
    · rw [if_neg hn, if_neg hn]
      exact h.inside n
  · rw [Requests.inside_cons, List.any_cons, h.branch, Occurrence.isBranch]
    by_cases hn : name = n <;> simp [hn, hi]

theorem unknownFragment (h : c.Renders rules requests found) (name : String) :
    c.Renders rules requests (.unknownFragment name :: found) := ⟨h.names, h.inside, h.branch⟩

theorem append {requests' : Requests} {found' : List Occurrence}
    (h : c.Renders rules requests found) (h' : c.Renders rules requests' found') :
    c.Renders rules (requests ++ requests') (found ++ found') := by
  refine ⟨?_, fun n => ?_, fun n => ?_⟩
  · rw [List.map_append, h.names, h'.names, Occurrence.names_append]
  · rw [Requests.inside_append, Occurrence.beneath_append]
    exact (h.inside n).append (h'.inside n)
  · rw [Requests.inside_append, List.any_append, h.branch, h'.branch]
    cases requests.inside n <;> rfl

end Renders

theorem Reads.exists_flattens {selections : List Selection} {found : List Occurrence}
    (h : c.Reads rules selections found) :
    ∃ requests, c.Flattens rules selections requests ∧ c.Renders rules requests found := by
  induction h with
  | nil => exact ⟨[], .nil, .nil⟩
  | rejected ha _ ih =>
    obtain ⟨requests, hf, hr⟩ := ih
    exact ⟨requests, .rejected ha hf, hr⟩
  | skipped ha hl _ ih =>
    obtain ⟨requests, hf, hr⟩ := ih
    exact ⟨requests, .skipped ha hl hf, hr⟩
  | leaf ha hl _ ih =>
    obtain ⟨requests, hf, hr⟩ := ih
    exact ⟨_, .field ha hl hf, hr.leaf _⟩
  | branch ha hl hi head _ _ ih =>
    obtain ⟨requests, hf, hr⟩ := ih
    exact ⟨_, .field ha hl hf, hr.branch_cons hi head⟩
  | inlineFragment ha _ _ ih₁ ih₂ =>
    obtain ⟨spliced, hf₁, hr₁⟩ := ih₁
    obtain ⟨requests, hf₂, hr₂⟩ := ih₂
    exact ⟨_, .inlineFragment ha hf₁ hf₂, hr₁.append hr₂⟩
  | fragment ha hf _ _ ih₁ ih₂ =>
    obtain ⟨spliced, hf₁, hr₁⟩ := ih₁
    obtain ⟨requests, hf₂, hr₂⟩ := ih₂
    exact ⟨_, .fragment ha hf hf₁ hf₂, hr₁.append hr₂⟩
  | unknownFragment ha hf _ ih =>
    obtain ⟨requests, hf', hr⟩ := ih
    exact ⟨requests, .unknownFragment ha hf hf', hr.unknownFragment _⟩

/-- The sub-selections on a level can be read name by name. -/
def Readable (c : Collector) (rules : Rules) (requests : Requests) : Prop :=
  ∀ name, ∃ beneath, c.Reads (Rule.inner (rules.lookup name)) (requests.inside name) beneath

theorem Readable.of_append {front back : Requests} (h : c.Readable rules (front ++ back)) :
    c.Readable rules front ∧ c.Readable rules back := by
  refine ⟨fun name => ?_, fun name => ?_⟩ <;>
    obtain ⟨beneath, hb⟩ := h name <;>
    rw [Requests.inside_append] at hb <;>
    obtain ⟨x, y, -, hx, hy⟩ := hb.exists_of_append
  · exact ⟨x, hx⟩
  · exact ⟨y, hy⟩

theorem Flattens.exists_reads {selections : List Selection} {requests : Requests}
    (h : c.Flattens rules selections requests) (hin : c.Readable rules requests) :
    ∃ found, c.Reads rules selections found ∧ c.Renders rules requests found := by
  induction h with
  | nil => exact ⟨[], .nil, .nil⟩
  | rejected ha _ ih =>
    obtain ⟨found, hf, hr⟩ := ih hin
    exact ⟨found, .rejected ha hf, hr⟩
  | skipped ha hl _ ih =>
    obtain ⟨found, hf, hr⟩ := ih hin
    exact ⟨found, .skipped ha hl hf, hr⟩
  | @field name key ds inside rest requests ha hl _ ih =>
    have hin : c.Readable rules ([(name, inside)] ++ requests) := hin
    obtain ⟨hfirst, hrest⟩ := hin.of_append
    obtain ⟨found, hf, hr⟩ := ih hrest
    by_cases hi : inside = []
    · subst hi
      exact ⟨_, .leaf ha hl hf, hr.leaf _⟩
    · obtain ⟨beneath, hb⟩ := hfirst name
      rw [Requests.inside_cons, if_pos rfl, Requests.inside, List.flatMap_nil, List.append_nil] at hb
      exact ⟨_, .branch ha hl hi hb hf, hr.branch_cons hi hb⟩
  | inlineFragment ha _ _ ih₁ ih₂ =>
    obtain ⟨hin₁, hin₂⟩ := hin.of_append
    obtain ⟨spliced, hf₁, hr₁⟩ := ih₁ hin₁
    obtain ⟨found, hf₂, hr₂⟩ := ih₂ hin₂
    exact ⟨_, .inlineFragment ha hf₁ hf₂, hr₁.append hr₂⟩
  | fragment ha hf _ _ ih₁ ih₂ =>
    obtain ⟨hin₁, hin₂⟩ := hin.of_append
    obtain ⟨spliced, hf₁, hr₁⟩ := ih₁ hin₁
    obtain ⟨found, hf₂, hr₂⟩ := ih₂ hin₂
    exact ⟨_, .fragment ha hf hf₁ hf₂, hr₁.append hr₂⟩
  | unknownFragment ha hf _ ih =>
    obtain ⟨found, hf', hr⟩ := ih hin
    exact ⟨_, .unknownFragment ha hf hf', hr.unknownFragment _⟩

/-! ### The tree of one level -/

/-- Merging what was read gives each name one entry. -/
theorem Renders.absorb_eq {requests : Requests} {found : List Occurrence}
    (h : c.Renders rules requests found) :
    Fields.absorb [] found = requests.names.map fun name =>
      (name, if (requests.inside name).isEmpty then .leaf
        else .branch (Fields.absorb [] (Occurrence.beneath name found))) := by
  have hkeys : Table.keys (Fields.absorb [] found) = requests.names := by
    rw [Fields.keys_absorb, Requests.names, h.names]
    simp
  rw [← hkeys]
  have hnodup : (Table.keys (Fields.absorb [] found)).Nodup :=
    Fields.nodup_keys_absorb (by simp) found
  refine Table.eq_map_keys hnodup fun name hn => ?_
  rw [Fields.lookup_absorb, h.branch]
  have hmem : name ∈ Occurrence.names found := by
    rw [Fields.keys_absorb] at hn
    simpa using hn
  cases hi : (requests.inside name).isEmpty with
  | true => simp [hmem]
  | false => simp [Fields.below]

theorem groups_absorb {selections : List Selection} {found : List Occurrence}
    (h : c.Reads rules selections found) : c.Groups rules selections (Fields.absorb [] found) := by
  -- the occurrences beneath one name are fewer, though they are no part of the given reading
  induction hn : Occurrence.sizeAll found using Nat.strong_induction_on
    generalizing rules selections found with
  | _ n ih =>
    obtain ⟨requests, hf, hr⟩ := h.exists_flattens
    rw [hr.absorb_eq]
    refine .mk (fun name => Fields.absorb [] (Occurrence.beneath name found)) hf fun name hi => ?_
    have hany : found.any (Occurrence.isBranch name) = true := by simp [hr.branch, hi]
    exact ih _ (hn ▸ Occurrence.sizeAll_beneath_lt hany) (hr.inside name) rfl

theorem groups_iff_exists_reads {selections : List Selection} {fields : Fields} :
    c.Groups rules selections fields ↔
      ∃ found, c.Reads rules selections found ∧ fields = Fields.absorb [] found := by
  constructor
  · intro h
    induction h with
    | @mk rules selections requests inner flat groups ih =>
      have hin : c.Readable rules requests := by
        intro name
        by_cases hi : requests.inside name = []
        · exact ⟨[], hi ▸ .nil⟩
        · obtain ⟨beneath, hb, -⟩ := ih name hi
          exact ⟨beneath, hb⟩
      obtain ⟨found, hf, hr⟩ := flat.exists_reads hin
      refine ⟨found, hf, ?_⟩
      rw [hr.absorb_eq]
      refine List.map_congr_left fun name _ => ?_
      split
      · rfl
      · next hi =>
        obtain ⟨beneath, hb, he⟩ := ih name fun h => hi (List.isEmpty_iff.2 h)
        rw [he, hb.eq (hr.inside name)]
  · rintro ⟨found, hf, rfl⟩
    exact groups_absorb hf

/-- Collecting fields, fragments and repetitions included, gives the tree put together name by
name, and it comes to an end exactly if there is one. -/
theorem groups_iff_collect_eq_ok {selections : List Selection} {fields : Fields} :
    c.Groups rules selections fields ↔
      ∃ records, c.collect rules selections [] = .ok ⟨fields, records⟩ := by
  rw [groups_iff_exists_reads]
  constructor
  · rintro ⟨found, hf, rfl⟩
    exact ⟨_, hf.collect_eq []⟩
  · rintro ⟨records, h⟩
    obtain ⟨found, hf, he⟩ := exists_reads_of_collect h
    exact ⟨found, hf, congrArg Logged.value he⟩

end Collector

end Lookahead
