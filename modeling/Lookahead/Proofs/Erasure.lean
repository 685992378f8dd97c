import Lookahead.Proofs.Depth

/-!
# Directives ahead of the reading

Directives are looked at while the selections are read. They can as well be looked at before:
`Selection.eraseAll` puts an empty inline fragment in the place of every selection that its
directives reject, and what is left is read without looking at directives, with the same outcome
(`collect_eq_erased`). An empty inline fragment takes a call of its own, so the two readings agree
only up to one step of depth.
-/

namespace Lookahead

namespace Selection

/-- A selection that contributes nothing. -/
def vacant : Selection := .inlineFragment none [] []

mutual

/-- A selection without what directives reject, at any depth. -/
def erase (vars : Table Json) : Selection → Selection
  | field name key ds inside =>
    if admitted vars ds then .field name key ds (eraseAll vars inside) else vacant
  | inlineFragment tc ds inside =>
    if admitted vars ds then .inlineFragment tc ds (eraseAll vars inside) else vacant
  | fragmentSpread name ds => if admitted vars ds then .fragmentSpread name ds else vacant
  | unsupported ds => if admitted vars ds then .unsupported ds else vacant

def eraseAll (vars : Table Json) : List Selection → List Selection
  | [] => []
  | s :: rest => s.erase vars :: eraseAll vars rest

end

variable {vars : Table Json}

theorem erase_rejected {s : Selection} (h : admitted vars s.directives = false) :
    s.erase vars = vacant := by
  cases s <;> exact if_neg (by simpa [directives] using h)

theorem isEmpty_eraseAll (selections : List Selection) :
    (eraseAll vars selections).isEmpty = selections.isEmpty := by
  cases selections <;> rfl

end Selection

/-- A fragment without what directives reject. -/
def Fragment.erase (vars : Table Json) (fragment : Fragment) : Fragment :=
  { fragment with selections := Selection.eraseAll vars fragment.selections }

/-- The fragments of a table without what directives reject. -/
def FragmentTable.erase (vars : Table Json) (fragments : FragmentTable) : FragmentTable :=
  fragments.map fun entry => (entry.1, entry.2.map (Fragment.erase vars))

theorem FragmentTable.find?_erase (vars : Table Json) (fragments : FragmentTable) (name : String) :
    (fragments.erase vars).find? name = (fragments.find? name).map (Fragment.erase vars) := by
  induction fragments with
  | nil => rfl
  | cons entry fragments ih =>
    rw [erase, List.map_cons, find?, find?, Table.lookup_cons, Table.lookup_cons]
    split
    · cases entry.2 <;> rfl
    · exact ih

/-! ### Outcomes that agree -/

/-- The second outcome is the first one, unless the first is left open. -/
def Agrees {α : Type} (r r' : Except Halt α) : Prop := r ≠ .error .endless → r' = r

namespace Agrees

variable {α β : Type} {r r' : Except Halt α}

theorem refl (r : Except Halt α) : Agrees r r := fun _ => rfl

theorem endless : Agrees (.error .endless) r := fun h => absurd rfl h

theorem map (h : Agrees r r') (f : α → β) : Agrees (r.map f) (r'.map f) := by
  intro hne
  rw [h fun he => hne (by rw [he]; rfl)]

theorem bind {f f' : α → Except Halt β} (h : Agrees r r') (hf : ∀ a, Agrees (f a) (f' a)) :
    Agrees (r >>= f) (r' >>= f') := by
  intro hne
  rw [h fun he => hne (by rw [he]; rfl)]
  cases r with
  | error e => rfl
  | ok a => exact hf a hne

end Agrees

namespace Collector

variable {c : Collector} {fragments : FragmentTable} {vars others : Table Json} {rules : Rules}
  {n : Nat}

theorem admits_eq_admitted (s : Selection) :
    (Collector.mk fragments vars true).admits s = admitted vars s.directives := by
  simp [admits]

/-! ### One selection -/

/-- A selection that takes part contributes the same, or goes on with selections and with what is
left of them. -/
theorem occurrencesOf_erase (fragments : FragmentTable) (others : Table Json) (rules : Rules)
    {s : Selection} (ha : admitted vars s.directives = true) :
    (∃ result, ∀ read : Reader,
      (Collector.mk fragments vars true).occurrencesOf read rules s = result ∧
      (Collector.mk (fragments.erase vars) others false).occurrencesOf read rules (s.erase vars) =
        result) ∨
    ∃ (call : Call) (wrap : List Occurrence → List Occurrence), ∀ read : Reader,
      (Collector.mk fragments vars true).occurrencesOf read rules s =
        (read call.rules call.selections).map wrap ∧
      (Collector.mk (fragments.erase vars) others false).occurrencesOf read rules (s.erase vars) =
        (read call.rules (Selection.eraseAll vars call.selections)).map wrap := by
  cases s with
  | field name key ds inside =>
    have he : (Selection.field name key ds inside).erase vars =
        .field name key ds (Selection.eraseAll vars inside) := if_pos ha
    rw [he]
    by_cases hl : rules.lookup name = some .whole
    · exact .inl ⟨.ok [], fun read => ⟨occurrencesOf_skipped hl, occurrencesOf_skipped hl⟩⟩
    · by_cases hi : inside.isEmpty = true
      · refine .inl ⟨.ok [.leaf name], fun read => ?_⟩
        rw [occurrencesOf_kept hl, occurrencesOf_kept hl, Selection.isEmpty_eraseAll, if_pos hi,
          if_pos hi]
        exact ⟨rfl, rfl⟩
      · refine .inr ⟨⟨Rule.inner (rules.lookup name), inside⟩, fun found => [.branch name found],
          fun read => ?_⟩
        rw [occurrencesOf_kept hl, occurrencesOf_kept hl, Selection.isEmpty_eraseAll, if_neg hi,
          if_neg hi]
        exact ⟨rfl, rfl⟩
  | inlineFragment tc ds inside =>
    have he : (Selection.inlineFragment tc ds inside).erase vars =
        .inlineFragment tc ds (Selection.eraseAll vars inside) := if_pos ha
    rw [he]
    refine .inr ⟨⟨rules, inside⟩, id, fun read => ?_⟩
    rw [Except.map_id]
    exact ⟨rfl, rfl⟩
  | fragmentSpread name ds =>
    have he : (Selection.fragmentSpread name ds).erase vars = .fragmentSpread name ds := if_pos ha
    have hfind := fragments.find?_erase vars name
    rw [he]
    cases hf : fragments.find? name with
    | none =>
      rw [hf] at hfind
      refine .inl ⟨.ok [.unknownFragment name], fun read => ?_⟩
      simp only [occurrencesOf, hf, hfind, Option.map_none, and_self]
    | some fragment =>
      rw [hf] at hfind
      refine .inr ⟨⟨rules, fragment.selections⟩, id, fun read => ?_⟩
      simp only [occurrencesOf, hf, hfind, Option.map_some, Except.map_id]
      exact ⟨rfl, rfl⟩
  | unsupported ds =>
    have he : (Selection.unsupported ds).erase vars = .unsupported ds := if_pos ha
    rw [he]
    exact .inl ⟨.error .unsupported, fun read => ⟨rfl, rfl⟩⟩

/-! ### A whole reading -/

theorem occurrencesWithin_vacant (n : Nat) (rest : List Selection) :
    c.occurrencesWithin (n + 2) rules (.vacant :: rest) = c.occurrencesWithin (n + 2) rules rest := by
  have ha : c.admits .vacant = true := by simp [admits, Selection.vacant, Selection.directives]
  rw [occurrencesWithin_cons, if_pos ha]
  show (do
    let others ← c.occurrencesWithin (n + 2) rules rest
    return [] ++ others) = _
  cases c.occurrencesWithin (n + 2) rules rest <;> rfl

theorem occurrencesWithin_agrees_erased (n : Nat) (rules : Rules) (selections : List Selection) :
    Agrees ((Collector.mk fragments vars true).occurrencesWithin n rules selections)
      ((Collector.mk (fragments.erase vars) others false).occurrencesWithin (n + 1) rules
        (Selection.eraseAll vars selections)) := by
  induction n generalizing rules selections with
  | zero => exact .endless
  | succ n ih =>
    induction selections with
    | nil => exact .refl _
    | cons s rest ihs =>
      rw [occurrencesWithin_cons, Selection.eraseAll, admits_eq_admitted]
      by_cases ha : admitted vars s.directives = true
      · rw [if_pos ha, occurrencesWithin_cons (n + 1)]
        refine Agrees.bind ?_ fun found => ihs.bind fun others => .refl _
        rcases occurrencesOf_erase fragments others rules ha with ⟨result, h⟩ | ⟨call, wrap, h⟩
        · rw [(h _).1, (h _).2]
          exact .refl _
        · rw [(h _).1, (h _).2]
          exact (ih call.rules call.selections).map wrap
      · rw [if_neg ha, Selection.erase_rejected (Bool.not_eq_true _ ▸ ha), occurrencesWithin_vacant]
        exact ihs

theorem erased_agrees_occurrencesWithin (n : Nat) (rules : Rules) (selections : List Selection) :
    Agrees ((Collector.mk (fragments.erase vars) others false).occurrencesWithin n rules
        (Selection.eraseAll vars selections))
      ((Collector.mk fragments vars true).occurrencesWithin n rules selections) := by
  induction n generalizing rules selections with
  | zero => exact .endless
  | succ n ih =>
    induction selections with
    | nil => exact .refl _
    | cons s rest ihs =>
      rw [occurrencesWithin_cons, Selection.eraseAll, admits_eq_admitted]
      by_cases ha : admitted vars s.directives = true
      · rw [if_pos ha, occurrencesWithin_cons]
        refine Agrees.bind ?_ fun found => ihs.bind fun others => .refl _
        rcases occurrencesOf_erase fragments others rules ha with ⟨result, h⟩ | ⟨call, wrap, h⟩
        · rw [(h _).1, (h _).2]
          exact .refl _
        · rw [(h _).1, (h _).2]
          exact (ih call.rules call.selections).map wrap
      · rw [if_neg ha, Selection.erase_rejected (Bool.not_eq_true _ ▸ ha)]
        cases n with
        | zero => exact .endless
        | succ n =>
          rw [occurrencesWithin_vacant]
          exact ihs

theorem occurrences_eq_erased (fragments : FragmentTable) (vars others : Table Json) (rules : Rules)
    (selections : List Selection) :
    (Collector.mk fragments vars true).occurrences rules selections =
      (Collector.mk (fragments.erase vars) others false).occurrences rules
        (Selection.eraseAll vars selections) :=
  occurrences_eq_of_answers
    (fun n h => ⟨n + 1, occurrencesWithin_agrees_erased n rules selections h⟩)
    (fun n h => ⟨n, erased_agrees_occurrencesWithin n rules selections h⟩)

/-! ### What is rejected -/

theorem occurrences_rejected {s : Selection} (h : c.admits s = false) (rules : Rules)
    (rest : List Selection) : c.occurrences rules (s :: rest) = c.occurrences rules rest := by
  have hwithin : ∀ n, c.occurrencesWithin n rules (s :: rest) = c.occurrencesWithin n rules rest := by
    intro n
    cases n with
    | zero => rfl
    | succ n => rw [occurrencesWithin_cons, if_neg (by simp [h])]
  exact occurrences_eq_of_answers (fun n _ => ⟨n, (hwithin n).symm⟩) fun n _ => ⟨n, hwithin n⟩

theorem Reads.of_rejected {selections : List Selection} (h : ∀ s ∈ selections, c.admits s = false) :
    c.Reads rules selections [] := by
  induction selections with
  | nil => exact .nil
  | cons s rest ih =>
    exact .rejected (h s (List.mem_cons_self ..)) (ih fun s' hs' => h s' (List.mem_cons_of_mem _ hs'))

/-- Collecting with directives is collecting without them from what they leave. A selection that is
rejected might as well not be there, except that a field keeps being a branch. -/
theorem collect_eq_erased (fragments : FragmentTable) (vars others : Table Json) (rules : Rules)
    (selections : List Selection) (fields : Fields) :
    (Collector.mk fragments vars true).collect rules selections fields =
      (Collector.mk (fragments.erase vars) others false).collect rules
        (Selection.eraseAll vars selections) fields ∧
    (∀ s, admitted vars s.directives = false →
      (Collector.mk fragments vars true).collect rules (s :: selections) fields =
        (Collector.mk fragments vars true).collect rules selections fields) ∧
    ∀ name key ds, admitted vars ds = true → rules.lookup name ≠ some .whole → selections ≠ [] →
      (∀ s ∈ selections, admitted vars s.directives = false) →
      (Collector.mk fragments vars true).collect rules [.field name key ds selections] [] =
        .ok ⟨[(name, .branch [])], []⟩ := by
  refine ⟨?_, fun s hs => ?_, fun name key ds ha hl hi hall => ?_⟩
  · rw [collect, collect, occurrences_eq_erased]
  · rw [collect, collect, occurrences_rejected (by rwa [admits_eq_admitted])]
  · have hinside : (Collector.mk fragments vars true).Reads (Rule.inner (rules.lookup name))
        selections [] := .of_rejected fun s hs => by rw [admits_eq_admitted, hall s hs]
    have hfield : (Collector.mk fragments vars true).Reads rules [.field name key ds selections]
        [.branch name []] := .branch (by rwa [admits_eq_admitted]) hl hi hinside .nil
    rw [hfield.collect_eq]
    rfl

theorem collect_rejected_profile :
    (∀ s ∈ [.field "email" none [⟨"include", [⟨"if", .var "v"⟩]⟩] [],
        .unsupported [⟨"skip", [⟨"if", .boolean true⟩]⟩]],
      admitted [("v", .bool false)] (Selection.directives s) = false) ∧
    (Collector.mk [] [("v", .bool false)] true).collect []
        [.field "profile" none [] [.field "email" none [⟨"include", [⟨"if", .var "v"⟩]⟩] [],
          .unsupported [⟨"skip", [⟨"if", .boolean true⟩]⟩]]] [] =
      .ok ⟨[("profile", .branch [])], []⟩ := by
  have hall : ∀ s ∈ [.field "email" none [⟨"include", [⟨"if", .var "v"⟩]⟩] [],
        .unsupported [⟨"skip", [⟨"if", .boolean true⟩]⟩]],
      admitted [("v", .bool false)] (Selection.directives s) = false := by
    intro s hs
    rcases List.mem_cons.1 hs with rfl | hs
    · rfl
    · obtain rfl := List.mem_singleton.1 hs
      rfl
  obtain ⟨-, -, hbranch⟩ := collect_eq_erased [] [("v", .bool false)] [] []
    [.field "email" none [⟨"include", [⟨"if", .var "v"⟩]⟩] [],
      .unsupported [⟨"skip", [⟨"if", .boolean true⟩]⟩]] []
  exact ⟨hall, hbranch "profile" none [] rfl nofun (by simp) hall⟩

end Collector

end Lookahead
