import Lookahead.Collect
import Lookahead.Except

/-!
# Reading a selection set, without a depth

`Collector.occurrencesWithin` goes by the depth of the calls. A larger depth changes nothing about
an answer that is there (`occurrencesWithin_eq_of_le`), so it can be left out: `Collector.Reads` has
one rule for each thing that a selection can be, and holds of the answers at any depth
(`reads_iff_exists_depth`). What holds of every reading is proved by induction on its rules.

What a selection contributes depends on the reading of at most one other selection list, which is
`Collector.call?`.
-/

namespace Lookahead

namespace Collector

/-- Under `rules`, a selection list contributes the occurrences `found`. -/
inductive Reads (c : Collector) : Rules → List Selection → List Occurrence → Prop
  | nil {rules} : Reads c rules [] []
  | rejected {rules s rest found} (ha : c.admits s = false) (tail : Reads c rules rest found) :
    Reads c rules (s :: rest) found
  | skipped {rules name key ds inside rest found}
    (ha : c.admits (.field name key ds inside) = true)
    (hl : rules.lookup name = some .whole) (tail : Reads c rules rest found) :
    Reads c rules (.field name key ds inside :: rest) found
  | leaf {rules name key ds rest found}
    (ha : c.admits (.field name key ds []) = true)
    (hl : rules.lookup name ≠ some .whole) (tail : Reads c rules rest found) :
    Reads c rules (.field name key ds [] :: rest) (.leaf name :: found)
  | branch {rules name key ds inside rest beneath found}
    (ha : c.admits (.field name key ds inside) = true)
    (hl : rules.lookup name ≠ some .whole) (hi : inside ≠ [])
    (head : Reads c (Rule.inner (rules.lookup name)) inside beneath)
    (tail : Reads c rules rest found) :
    Reads c rules (.field name key ds inside :: rest) (.branch name beneath :: found)
  | inlineFragment {rules tc ds inside rest spread found}
    (ha : c.admits (.inlineFragment tc ds inside) = true)
    (head : Reads c rules inside spread) (tail : Reads c rules rest found) :
    Reads c rules (.inlineFragment tc ds inside :: rest) (spread ++ found)
  | fragment {rules name ds fragment rest spread found}
    (ha : c.admits (.fragmentSpread name ds) = true)
    (hf : c.fragments.find? name = some fragment)
    (head : Reads c rules fragment.selections spread) (tail : Reads c rules rest found) :
    Reads c rules (.fragmentSpread name ds :: rest) (spread ++ found)
  | unknownFragment {rules name ds rest found}
    (ha : c.admits (.fragmentSpread name ds) = true)
    (hf : c.fragments.find? name = none) (tail : Reads c rules rest found) :
    Reads c rules (.fragmentSpread name ds :: rest) (.unknownFragment name :: found)

variable {c : Collector} {rules : Rules}

/-! ### The call of a selection -/

/-- What one call of the reading is about. -/
structure Call where
  rules : Rules
  selections : List Selection

/-- The call that a selection leads to, if it takes part. -/
def call? (c : Collector) (rules : Rules) : Selection → Option Call
  | .field name _ _ inside =>
    match rules.lookup name with
    | some .whole => none
    | rule => if inside.isEmpty then none else some ⟨Rule.inner rule, inside⟩
  | .inlineFragment _ _ inside => some ⟨rules, inside⟩
  | .fragmentSpread name _ => (c.fragments.find? name).map fun fragment => ⟨rules, fragment.selections⟩
  | .unsupported _ => none

/-- How a selection list is read. -/
abbrev Reader := Rules → List Selection → Except Halt (List Occurrence)

section

variable {read : Reader} {name : String} {key : Option String} {ds : List Directive}
  {inside : List Selection}

theorem occurrencesOf_skipped (h : rules.lookup name = some .whole) :
    c.occurrencesOf read rules (.field name key ds inside) = .ok [] := by
  simp only [occurrencesOf, h]

theorem occurrencesOf_kept (h : rules.lookup name ≠ some .whole) :
    c.occurrencesOf read rules (.field name key ds inside) =
      if inside.isEmpty then .ok [.leaf name]
      else (read (Rule.inner (rules.lookup name)) inside).map fun found => [.branch name found] := by
  simp only [occurrencesOf]

theorem call?_skipped (h : rules.lookup name = some .whole) :
    c.call? rules (.field name key ds inside) = none := by
  simp only [call?, h]

theorem call?_kept (h : rules.lookup name ≠ some .whole) :
    c.call? rules (.field name key ds inside) =
      if inside.isEmpty then none else some ⟨Rule.inner (rules.lookup name), inside⟩ := by
  simp only [call?]

end

theorem occurrencesOf_of_call?_eq_none {s : Selection} (h : c.call? rules s = none) :
    ∃ result, result ≠ .error .endless ∧ ∀ read, c.occurrencesOf read rules s = result := by
  cases s with
  | field name key ds inside =>
    by_cases hl : rules.lookup name = some .whole
    · exact ⟨.ok [], by simp, fun _ => occurrencesOf_skipped hl⟩
    · rw [call?_kept hl] at h
      split at h
      · next hi => exact ⟨.ok [.leaf name], by simp, fun _ => by rw [occurrencesOf_kept hl, if_pos hi]⟩
      · cases h
  | inlineFragment tc ds inside => cases h
  | fragmentSpread name ds =>
    have hf : c.fragments.find? name = none := Option.map_eq_none_iff.1 h
    refine ⟨.ok [.unknownFragment name], by simp, fun _ => ?_⟩
    simp only [occurrencesOf, hf]
  | unsupported ds => exact ⟨.error .unsupported, by simp, fun _ => rfl⟩

theorem occurrencesOf_of_call?_eq_some {s : Selection} {call : Call}
    (h : c.call? rules s = some call) :
    ∃ wrap, ∀ read : Reader,
      c.occurrencesOf read rules s = (read call.rules call.selections).map wrap := by
  cases s with
  | field name key ds inside =>
    by_cases hl : rules.lookup name = some .whole
    · rw [call?_skipped hl] at h
      cases h
    · rw [call?_kept hl] at h
      split at h
      · cases h
      · next hi =>
        cases h
        exact ⟨fun found => [.branch name found], fun _ => by rw [occurrencesOf_kept hl, if_neg hi]⟩
  | inlineFragment tc ds inside =>
    cases h
    exact ⟨id, fun read => by rw [Except.map_id]; rfl⟩
  | fragmentSpread name ds =>
    obtain ⟨fragment, hf, rfl⟩ := Option.map_eq_some_iff.1 h
    refine ⟨id, fun read => ?_⟩
    simp only [occurrencesOf, hf, Except.map_id, id]
  | unsupported ds => cases h

/-! ### One selection after another -/

theorem occurrencesWithin_cons (n : Nat) (s : Selection) (rest : List Selection) :
    c.occurrencesWithin (n + 1) rules (s :: rest) =
      if c.admits s then do
        let found ← c.occurrencesOf (c.occurrencesWithin n) rules s
        let others ← c.occurrencesWithin (n + 1) rules rest
        return found ++ others
      else c.occurrencesWithin (n + 1) rules rest := by
  simp only [occurrencesWithin, List.filter_cons]
  split
  · rw [List.mapM_cons]
    cases c.occurrencesOf (c.occurrencesWithin n) rules s with
    | error e => rfl
    | ok found =>
      cases (rest.filter c.admits).mapM (c.occurrencesOf (c.occurrencesWithin n) rules) <;> rfl
  · rfl

theorem occurrencesOf_of_fragments {c c' : Collector} (hf : c'.fragments = c.fragments)
    (read : Reader) (rules : Rules) (s : Selection) :
    c'.occurrencesOf read rules s = c.occurrencesOf read rules s := by
  cases s with
  | fragmentSpread name ds => simp only [occurrencesOf, hf]
  | _ => rfl

/-- The answer depends on which selections take part and on the calls of these. -/
theorem occurrencesWithin_congr {c c' : Collector} {n m : Nat} {selections : List Selection}
    (hf : c'.fragments = c.fragments) (ha : ∀ s ∈ selections, c.admits s = c'.admits s)
    (h : ∀ s ∈ selections, c.admits s = true → ∀ call, c.call? rules s = some call →
      c.occurrencesWithin n call.rules call.selections =
        c'.occurrencesWithin m call.rules call.selections) :
    c.occurrencesWithin (n + 1) rules selections = c'.occurrencesWithin (m + 1) rules selections := by
  induction selections with
  | nil => rfl
  | cons s rest ih =>
    have hrest := ih (fun s' hs' => ha s' (List.mem_cons_of_mem _ hs'))
      fun s' hs' => h s' (List.mem_cons_of_mem _ hs')
    rw [occurrencesWithin_cons, occurrencesWithin_cons, hrest, ← ha s (List.mem_cons_self ..)]
    by_cases hs : c.admits s = true
    · have hsame : c.occurrencesOf (c.occurrencesWithin n) rules s =
          c.occurrencesOf (c'.occurrencesWithin m) rules s := by
        cases hc : c.call? rules s with
        | none =>
          obtain ⟨result, -, hr⟩ := occurrencesOf_of_call?_eq_none hc
          rw [hr, hr]
        | some call =>
          obtain ⟨wrap, hw⟩ := occurrencesOf_of_call?_eq_some hc
          rw [hw, hw, h s (List.mem_cons_self ..) hs call hc]
      rw [hsame, occurrencesOf_of_fragments hf]
    · rw [if_neg hs, if_neg hs]

/-! ### More depth -/

/-- Whatever one reader answers, the other answers as well. -/
def Extends (read read' : Reader) : Prop :=
  ∀ rules selections, read rules selections ≠ .error .endless →
    read' rules selections = read rules selections

theorem Extends.occurrencesOf_eq {read read' : Reader} (h : Extends read read') {s : Selection}
    (hs : c.occurrencesOf read rules s ≠ .error .endless) :
    c.occurrencesOf read' rules s = c.occurrencesOf read rules s := by
  cases hc : c.call? rules s with
  | none =>
    obtain ⟨result, -, hr⟩ := occurrencesOf_of_call?_eq_none hc
    rw [hr, hr]
  | some call =>
    obtain ⟨wrap, hw⟩ := occurrencesOf_of_call?_eq_some hc
    rw [hw] at hs
    rw [hw, hw, h call.rules call.selections fun he => hs (by rw [he]; rfl)]

theorem occurrencesWithin_extends (n : Nat) :
    Extends (c.occurrencesWithin n) (c.occurrencesWithin (n + 1)) := by
  induction n with
  | zero => exact fun _ _ h => absurd rfl h
  | succ n ih =>
    intro rules selections h
    induction selections with
    | nil => rfl
    | cons s rest ihs =>
      rw [occurrencesWithin_cons] at h
      rw [occurrencesWithin_cons, occurrencesWithin_cons]
      split at h
      · next ha =>
        rw [if_pos ha, if_pos ha]
        have hs : c.occurrencesOf (c.occurrencesWithin (n + 1)) rules s =
            c.occurrencesOf (c.occurrencesWithin n) rules s :=
          ih.occurrencesOf_eq fun he => h (by rw [he]; rfl)
        rw [hs]
        -- a selection that halts hides the ones behind it
        cases ho : c.occurrencesOf (c.occurrencesWithin n) rules s with
        | error e => rfl
        | ok found =>
          rw [ho] at h
          rw [ihs fun he => h (by rw [he]; rfl)]
      · next ha => rw [if_neg ha, if_neg ha, ihs h]

/-- An answer at one depth is the answer at every larger depth. -/
theorem occurrencesWithin_eq_of_le {n m : Nat} (hnm : n ≤ m) {selections : List Selection}
    (h : c.occurrencesWithin n rules selections ≠ .error .endless) :
    c.occurrencesWithin m rules selections = c.occurrencesWithin n rules selections := by
  induction hnm with
  | refl => rfl
  | step _ ih => rw [occurrencesWithin_extends _ _ _ (ih ▸ h), ih]

theorem occurrencesWithin_ok_of_le {n m : Nat} (hnm : n ≤ m) {selections : List Selection}
    {found : List Occurrence} (h : c.occurrencesWithin n rules selections = .ok found) :
    c.occurrencesWithin m rules selections = .ok found := by
  rw [occurrencesWithin_eq_of_le hnm (by simp [h]), h]

/-! ### Readings that come to an end -/

theorem reads_of_occurrencesWithin {n : Nat} {selections : List Selection}
    {found : List Occurrence} (h : c.occurrencesWithin n rules selections = .ok found) :
    c.Reads rules selections found := by
  induction n generalizing rules selections found with
  | zero => cases h
  | succ n ih =>
    induction selections generalizing found with
    | nil =>
      cases h
      exact .nil
    | cons s rest ihs =>
      rw [occurrencesWithin_cons] at h
      split at h
      · next ha =>
        obtain ⟨first, hs, h⟩ := bind_eq_ok_iff.1 h
        obtain ⟨others, ho, h⟩ := bind_eq_ok_iff.1 h
        cases h
        have tail := ihs ho
        cases s with
        | field name key ds inside =>
          by_cases hl : rules.lookup name = some .whole
          · rw [occurrencesOf_skipped hl] at hs
            cases hs
            exact .skipped ha hl tail
          · rw [occurrencesOf_kept hl] at hs
            split at hs
            · next hi =>
              cases hs
              obtain rfl := List.isEmpty_iff.1 hi
              exact .leaf ha hl tail
            · next hi =>
              cases hr : c.occurrencesWithin n (Rule.inner (rules.lookup name)) inside with
              | error e => rw [hr] at hs; cases hs
              | ok beneath =>
                rw [hr] at hs
                cases hs
                exact .branch ha hl (fun he => hi (List.isEmpty_iff.2 he)) (ih hr) tail
        | inlineFragment tc ds inside => exact .inlineFragment ha (ih hs) tail
        | fragmentSpread name ds =>
          simp only [occurrencesOf] at hs
          cases hf : c.fragments.find? name with
          | some fragment =>
            rw [hf] at hs
            exact .fragment ha hf (ih hs) tail
          | none =>
            rw [hf] at hs
            cases hs
            exact .unknownFragment ha hf tail
        | unsupported ds => cases hs
      · next ha => exact .rejected (Bool.not_eq_true _ ▸ ha) (ihs h)

/-- Reading the first selection and the others at any depths, the whole list is read at one. -/
theorem occurrencesWithin_cons_ok (n : Nat) {m : Nat} {s : Selection} {rest : List Selection}
    (first : List Occurrence) {others : List Occurrence} (ha : c.admits s = true)
    (hs : c.occurrencesOf (c.occurrencesWithin n) rules s = .ok first)
    (hr : c.occurrencesWithin m rules rest = .ok others) :
    ∃ k, c.occurrencesWithin k rules (s :: rest) = .ok (first ++ others) := by
  refine ⟨max n m + 1, ?_⟩
  have hext : Extends (c.occurrencesWithin n) (c.occurrencesWithin (max n m)) :=
    fun _ _ h => occurrencesWithin_eq_of_le (Nat.le_max_left n m) h
  have hs' : c.occurrencesOf (c.occurrencesWithin (max n m)) rules s =
      c.occurrencesOf (c.occurrencesWithin n) rules s := hext.occurrencesOf_eq (by simp [hs])
  have hm : m ≤ max n m + 1 := Nat.le_succ_of_le (Nat.le_max_right n m)
  rw [occurrencesWithin_cons, if_pos ha, hs', hs, occurrencesWithin_ok_of_le hm hr]
  rfl

theorem Reads.exists_depth {selections : List Selection} {found : List Occurrence}
    (h : c.Reads rules selections found) :
    ∃ n, c.occurrencesWithin n rules selections = .ok found := by
  induction h with
  | nil => exact ⟨1, rfl⟩
  | @rejected rules s rest found ha _ ih =>
    obtain ⟨n, hn⟩ := ih
    refine ⟨n + 1, ?_⟩
    rw [occurrencesWithin_cons, if_neg (by simp [ha])]
    exact occurrencesWithin_ok_of_le (Nat.le_succ n) hn
  | skipped ha hl _ ih =>
    obtain ⟨n, hn⟩ := ih
    exact occurrencesWithin_cons_ok 0 [] ha (occurrencesOf_skipped hl) hn
  | @leaf _ name _ _ _ _ ha hl _ ih =>
    obtain ⟨n, hn⟩ := ih
    exact occurrencesWithin_cons_ok 0 [.leaf name] ha (occurrencesOf_kept hl) hn
  | @branch _ name _ _ _ _ beneath _ ha hl hi _ _ ih₁ ih₂ =>
    obtain ⟨n₁, h₁⟩ := ih₁
    obtain ⟨n₂, h₂⟩ := ih₂
    refine occurrencesWithin_cons_ok n₁ [.branch name beneath] ha ?_ h₂
    rw [occurrencesOf_kept hl, if_neg (fun he => hi (List.isEmpty_iff.1 he)), h₁]
    rfl
  | inlineFragment ha _ _ ih₁ ih₂ =>
    obtain ⟨n₁, h₁⟩ := ih₁
    obtain ⟨n₂, h₂⟩ := ih₂
    exact occurrencesWithin_cons_ok n₁ _ ha h₁ h₂
  | fragment ha hf _ _ ih₁ ih₂ =>
    obtain ⟨n₁, h₁⟩ := ih₁
    obtain ⟨n₂, h₂⟩ := ih₂
    refine occurrencesWithin_cons_ok n₁ _ ha ?_ h₂
    simp only [occurrencesOf, hf]
    exact h₁
  | @unknownFragment _ name _ _ _ ha hf _ ih =>
    obtain ⟨n, hn⟩ := ih
    refine occurrencesWithin_cons_ok 0 [.unknownFragment name] ha ?_ hn
    simp only [occurrencesOf, hf]

theorem reads_iff_exists_depth {selections : List Selection} {found : List Occurrence} :
    c.Reads rules selections found ↔ ∃ n, c.occurrencesWithin n rules selections = .ok found :=
  ⟨Reads.exists_depth, fun ⟨_, h⟩ => reads_of_occurrencesWithin h⟩

/-! ### Lists put together -/

theorem Reads.append {front back : List Selection} {x y : List Occurrence}
    (hx : c.Reads rules front x) (hy : c.Reads rules back y) :
    c.Reads rules (front ++ back) (x ++ y) := by
  induction hx with
  | nil => exact hy
  | rejected ha _ ih => exact .rejected ha (ih hy)
  | skipped ha hl _ ih => exact .skipped ha hl (ih hy)
  | leaf ha hl _ ih => exact .leaf ha hl (ih hy)
  | branch ha hl hi head _ _ ih => exact .branch ha hl hi head (ih hy)
  | inlineFragment ha head _ _ ih =>
    rw [List.append_assoc]
    exact .inlineFragment ha head (ih hy)
  | fragment ha hf head _ _ ih =>
    rw [List.append_assoc]
    exact .fragment ha hf head (ih hy)
  | unknownFragment ha hf _ ih => exact .unknownFragment ha hf (ih hy)

theorem Reads.exists_of_append {front back : List Selection} {found : List Occurrence}
    (h : c.Reads rules (front ++ back) found) :
    ∃ x y, found = x ++ y ∧ c.Reads rules front x ∧ c.Reads rules back y := by
  induction front generalizing found with
  | nil => exact ⟨[], found, rfl, .nil, h⟩
  | cons s front ih =>
    cases h with
    | rejected ha tail =>
      obtain ⟨x, y, rfl, hx, hy⟩ := ih tail
      exact ⟨x, y, rfl, .rejected ha hx, hy⟩
    | skipped ha hl tail =>
      obtain ⟨x, y, rfl, hx, hy⟩ := ih tail
      exact ⟨x, y, rfl, .skipped ha hl hx, hy⟩
    | leaf ha hl tail =>
      obtain ⟨x, y, rfl, hx, hy⟩ := ih tail
      exact ⟨_ :: x, y, rfl, .leaf ha hl hx, hy⟩
    | branch ha hl hi head tail =>
      obtain ⟨x, y, rfl, hx, hy⟩ := ih tail
      exact ⟨_ :: x, y, rfl, .branch ha hl hi head hx, hy⟩
    | inlineFragment ha head tail =>
      obtain ⟨x, y, rfl, hx, hy⟩ := ih tail
      exact ⟨_ ++ x, y, (List.append_assoc ..).symm, .inlineFragment ha head hx, hy⟩
    | fragment ha hf head tail =>
      obtain ⟨x, y, rfl, hx, hy⟩ := ih tail
      exact ⟨_ ++ x, y, (List.append_assoc ..).symm, .fragment ha hf head hx, hy⟩
    | unknownFragment ha hf tail =>
      obtain ⟨x, y, rfl, hx, hy⟩ := ih tail
      exact ⟨_ :: x, y, rfl, .unknownFragment ha hf hx, hy⟩

end Collector

end Lookahead
