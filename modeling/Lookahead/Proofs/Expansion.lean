import Lookahead.Proofs.Termination

/-!
# Fragments are transparent

`FragmentTable.Expands` writes the fragments of a table out: each spread of a fragment becomes an
inline fragment with the directives of the spread around the definition, which is written out in
turn. If no fragment spreads itself, every selection list has exactly one such form. What is written
out is read without the table, at the same depth and with the same outcome (`collect_eq_expanded`).
-/

namespace Lookahead

/-- The selections with the fragments of the table written out. -/
inductive FragmentTable.Expands (fragments : FragmentTable) :
    List Selection → List Selection → Prop
  | nil : Expands fragments [] []
  | field {name key ds inside inside' rest rest'} (head : Expands fragments inside inside')
    (tail : Expands fragments rest rest') :
    Expands fragments (.field name key ds inside :: rest) (.field name key ds inside' :: rest')
  | inlineFragment {tc ds inside inside' rest rest'} (head : Expands fragments inside inside')
    (tail : Expands fragments rest rest') :
    Expands fragments (.inlineFragment tc ds inside :: rest) (.inlineFragment tc ds inside' :: rest')
  | fragment {name ds fragment inside' rest rest'} (hf : fragments.find? name = some fragment)
    (head : Expands fragments fragment.selections inside') (tail : Expands fragments rest rest') :
    Expands fragments (.fragmentSpread name ds :: rest)
      (.inlineFragment fragment.typeCondition ds inside' :: rest')
  | unknownFragment {name ds rest rest'} (hf : fragments.find? name = none)
    (tail : Expands fragments rest rest') :
    Expands fragments (.fragmentSpread name ds :: rest) (.fragmentSpread name ds :: rest')
  | unsupported {ds rest rest'} (tail : Expands fragments rest rest') :
    Expands fragments (.unsupported ds :: rest) (.unsupported ds :: rest')

namespace FragmentTable.Expands

variable {fragments : FragmentTable} {selections expanded : List Selection}

theorem isEmpty_eq (h : fragments.Expands selections expanded) :
    expanded.isEmpty = selections.isEmpty := by
  cases h <;> rfl

/-- There is one way to write fragments out. -/
theorem eq (h : fragments.Expands selections expanded) {expanded' : List Selection}
    (h' : fragments.Expands selections expanded') : expanded = expanded' := by
  induction h generalizing expanded' with
  | nil =>
    cases h'
    rfl
  | field _ _ ih₁ ih₂ =>
    cases h' with
    | field head tail => rw [ih₁ head, ih₂ tail]
  | inlineFragment _ _ ih₁ ih₂ =>
    cases h' with
    | inlineFragment head tail => rw [ih₁ head, ih₂ tail]
  | fragment hf _ _ ih₁ ih₂ =>
    cases h' with
    | fragment hf' head tail =>
      rw [hf] at hf'
      cases hf'
      rw [ih₁ head, ih₂ tail]
    | unknownFragment hf' tail =>
      rw [hf] at hf'
      cases hf'
  | unknownFragment hf _ ih =>
    cases h' with
    | fragment hf' head tail =>
      rw [hf] at hf'
      cases hf'
    | unknownFragment _ tail => rw [ih tail]
  | unsupported _ ih =>
    cases h' with
    | unsupported tail => rw [ih tail]

end FragmentTable.Expands

namespace Collector

open FragmentTable

variable {c c' : Collector} {fragments : FragmentTable} {rules : Rules}
  {selections expanded : List Selection}

/-! ### Writing out comes to an end -/

theorem exists_expands_of_calls (hadmits : ∀ s, c.admits s = true)
    (h : ∀ y, c.Calls ⟨[], selections⟩ y → y.rules = [] → ∃ l, c.fragments.Expands y.selections l) :
    ∃ l, c.fragments.Expands selections l := by
  induction selections with
  | nil => exact ⟨[], .nil⟩
  | cons s rest ih =>
    obtain ⟨rest', hrest⟩ := ih fun y hy => h y (hy.cons s)
    have hcall : ∀ {inside}, c.call? [] s = some ⟨[], inside⟩ →
        ∃ l, c.fragments.Expands inside l := fun {inside} hc =>
      h ⟨[], inside⟩ ⟨s, List.mem_cons_self .., hadmits s, hc⟩ rfl
    cases s with
    | field name key ds inside =>
      cases inside with
      | nil => exact ⟨_, .field .nil hrest⟩
      | cons first others =>
        obtain ⟨inside', hinside⟩ := hcall rfl
        exact ⟨_, .field hinside hrest⟩
    | inlineFragment tc ds inside =>
      obtain ⟨inside', hinside⟩ := hcall rfl
      exact ⟨_, .inlineFragment hinside hrest⟩
    | fragmentSpread name ds =>
      cases hf : c.fragments.find? name with
      | none => exact ⟨_, .unknownFragment hf hrest⟩
      | some fragment =>
        obtain ⟨inside', hinside⟩ := hcall (by rw [call?, hf]; rfl)
        exact ⟨_, .fragment hf hinside hrest⟩
    | unsupported ds => exact ⟨_, .unsupported hrest⟩

theorem exists_expands (h : fragments.Acyclic) (selections : List Selection) :
    ∃ l, fragments.Expands selections l := by
  -- A reading that looks at everything goes wherever fragments have to be written out.
  let all : Collector := ⟨fragments, [], false⟩
  have hacc := acc_of_not_loops (not_loops_of_acyclic (c := all) h ⟨[], selections⟩)
  have hwritten : ∀ x, Acc (fun y x => all.Calls x y) x → x.rules = [] →
      ∃ l, fragments.Expands x.selections l := by
    intro x hx
    induction hx with
    | intro x _ ih =>
      obtain ⟨rules, selections⟩ := x
      rintro rfl
      exact exists_expands_of_calls (c := all) (fun _ => rfl) ih
  exact hwritten _ hacc rfl

/-! ### Reading what is written out -/

theorem occurrencesWithin_cons_congr {n : Nat} {s s' : Selection} {rest rest' : List Selection}
    (ha : c.admits s = c'.admits s')
    (hs : c.occurrencesOf (c.occurrencesWithin n) rules s =
      c'.occurrencesOf (c'.occurrencesWithin n) rules s')
    (hrest : c.occurrencesWithin (n + 1) rules rest = c'.occurrencesWithin (n + 1) rules rest') :
    c.occurrencesWithin (n + 1) rules (s :: rest) =
      c'.occurrencesWithin (n + 1) rules (s' :: rest') := by
  rw [occurrencesWithin_cons, occurrencesWithin_cons, ha, hs, hrest]

theorem occurrencesWithin_eq_expanded (h : fragments.Expands selections expanded)
    (vars : Table Json) (withDirectives : Bool) (n : Nat) (rules : Rules) :
    (Collector.mk fragments vars withDirectives).occurrencesWithin n rules selections =
      (Collector.mk [] vars withDirectives).occurrencesWithin n rules expanded := by
  induction h generalizing n rules with
  | nil => cases n <;> rfl
  | @field name key ds inside inside' rest rest' head _ ih₁ ih₂ =>
    cases n with
    | zero => rfl
    | succ n =>
      refine occurrencesWithin_cons_congr rfl ?_ (ih₂ (n + 1) rules)
      by_cases hl : rules.lookup name = some .whole
      · rw [occurrencesOf_skipped hl, occurrencesOf_skipped hl]
      · rw [occurrencesOf_kept hl, occurrencesOf_kept hl, head.isEmpty_eq, ih₁]
  | inlineFragment _ _ ih₁ ih₂ =>
    cases n with
    | zero => rfl
    | succ n => exact occurrencesWithin_cons_congr rfl (ih₁ n rules) (ih₂ (n + 1) rules)
  | fragment hf _ _ ih₁ ih₂ =>
    cases n with
    | zero => rfl
    | succ n =>
      refine occurrencesWithin_cons_congr rfl ?_ (ih₂ (n + 1) rules)
      simp only [occurrencesOf, hf]
      exact ih₁ n rules
  | unknownFragment hf _ ih =>
    cases n with
    | zero => rfl
    | succ n =>
      refine occurrencesWithin_cons_congr rfl ?_ (ih (n + 1) rules)
      simp only [occurrencesOf, hf]
      rfl
  | unsupported _ ih =>
    cases n with
    | zero => rfl
    | succ n => exact occurrencesWithin_cons_congr rfl rfl (ih (n + 1) rules)

theorem occurrences_eq_expanded (h : fragments.Expands selections expanded) (vars : Table Json)
    (withDirectives : Bool) (rules : Rules) :
    (Collector.mk fragments vars withDirectives).occurrences rules selections =
      (Collector.mk [] vars withDirectives).occurrences rules expanded :=
  occurrences_eq_of_answers
    (fun n _ => ⟨n, (occurrencesWithin_eq_expanded h vars withDirectives n rules).symm⟩)
    (fun n _ => ⟨n, occurrencesWithin_eq_expanded h vars withDirectives n rules⟩)

/-- If no fragment spreads itself, selections can be written out in exactly one way, and collecting
comes to the same end with the table and, written out, without it. -/
theorem collect_eq_expanded (h : fragments.Acyclic) (selections : List Selection) :
    ∃ expanded, (∀ l, fragments.Expands selections l ↔ l = expanded) ∧
      ∀ (vars : Table Json) (withDirectives : Bool) (rules : Rules) (fields : Fields),
        (Collector.mk fragments vars withDirectives).collect rules selections fields =
          (Collector.mk [] vars withDirectives).collect rules expanded fields ∧
        (Collector.mk fragments vars withDirectives).collect rules selections fields ≠
          .error .endless := by
  obtain ⟨expanded, hex⟩ := exists_expands h selections
  refine ⟨expanded, fun l => ⟨fun hl => hl.eq hex, fun hl => hl ▸ hex⟩, ?_⟩
  intro vars withDirectives rules fields
  have heq := occurrences_eq_expanded hex vars withDirectives rules
  have hends : (Collector.mk fragments vars withDirectives).occurrences rules selections ≠
      .error .endless := occurrences_ne_endless (not_loops_of_acyclic h _)
  constructor
  · rw [collect, collect, heq]
  · intro he
    cases ho : (Collector.mk fragments vars withDirectives).occurrences rules selections with
    | ok found =>
      rw [collect, ho] at he
      cases he
    | error e =>
      rw [collect, ho] at he
      cases he
      exact hends ho

/-- The fragment `User` spreads the fragment `Profile`. -/
def profiles : FragmentTable :=
  [("User", some ⟨some "User", [], [.field "id" none [] [], .fragmentSpread "Profile" []]⟩),
    ("Profile", some ⟨none, [], [.field "email" none [] []]⟩)]

theorem collect_profiles_expanded :
    profiles.Acyclic ∧
    profiles.Expands [.field "user" none [] [.fragmentSpread "User" []]]
      [.field "user" none [] [.inlineFragment (some "User") []
        [.field "id" none [] [], .inlineFragment none [] [.field "email" none [] []]]]] ∧
    (Collector.mk profiles [] true).collect [] [.field "user" none [] [.fragmentSpread "User" []]] [] =
      (Collector.mk [] [] true).collect []
        [.field "user" none [] [.inlineFragment (some "User") []
          [.field "id" none [] [], .inlineFragment none [] [.field "email" none [] []]]]] [] ∧
    (Collector.mk profiles [] true).collect [] [.field "user" none [] [.fragmentSpread "User" []]] [] =
      .ok ⟨[("user", .branch [("id", .leaf), ("email", .leaf)])], []⟩ := by
  have hspreads : ∀ {a b}, profiles.Spreads a b → a = "User" ∧ b = "Profile" := by
    rintro a b ⟨fragment, hf, l, hl, ds, hs⟩
    rw [find?, profiles, Table.lookup_cons, Table.lookup_cons] at hf
    split at hf
    · next ha =>
      cases hf
      have hl : l = [.field "id" none [] [], .fragmentSpread "Profile" []] ∨ l = [] := by
        simpa [Selection.listsAll, Selection.lists] using hl
      rcases hl with rfl | rfl
      · have hb : b = "Profile" ∧ ds = [] := by simpa using hs
        exact ⟨ha, hb.1⟩
      · cases hs
    · split at hf
      · cases hf
        have hl : l = [.field "email" none [] []] ∨ l = [] := by
          simpa [Selection.listsAll, Selection.lists] using hl
        rcases hl with rfl | rfl <;> simp at hs
      · cases hf
  have hacyclic : profiles.Acyclic := by
    intro name hcycle
    obtain ⟨_, hfirst, -⟩ := Relation.TransGen.head'_iff.1 hcycle
    obtain ⟨_, -, hlast⟩ := Relation.TransGen.tail'_iff.1 hcycle
    have hname := (hspreads hfirst).1.symm.trans (hspreads hlast).2
    exact absurd hname (by decide)
  have huser : profiles.find? "User" = some ⟨some "User", [],
      [.field "id" none [] [], .fragmentSpread "Profile" []]⟩ := rfl
  have hprofile : profiles.find? "Profile" = some ⟨none, [], [.field "email" none [] []]⟩ := rfl
  have hexpands : profiles.Expands [.field "user" none [] [.fragmentSpread "User" []]]
      [.field "user" none [] [.inlineFragment (some "User") []
        [.field "id" none [] [], .inlineFragment none [] [.field "email" none [] []]]]] :=
    .field (.fragment huser (.field .nil (.fragment hprofile (.field .nil .nil) .nil)) .nil) .nil
  obtain ⟨expanded, hunique, hsame⟩ :=
    collect_eq_expanded hacyclic [.field "user" none [] [.fragmentSpread "User" []]]
  obtain rfl := (hunique _).1 hexpands
  exact ⟨hacyclic, hexpands, (hsame [] true [] []).1, rfl⟩

end Collector

end Lookahead
