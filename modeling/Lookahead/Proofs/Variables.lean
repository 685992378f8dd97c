import Lookahead.Proofs.Depth

/-!
# What variables decide

The variables of an operation are looked at for one thing only: whether the condition of an inclusion
directive holds. `FragmentTable.Asks` says which variables stand in such a condition. If two
assignments make the same of these variables hold, each selection that can be reached takes part under
both or under neither (`admits_congr`), so the two readings go the same way at every depth
(`occurrencesWithin_eq_of_admits`) and everything that is collected and reported is the same
(`collect_eq_of_truth`).
-/

namespace Lookahead

/-- Whether a variable holds. One without a value does not. -/
def truth (vars : Table Json) (name : String) : Bool := (vars.lookup name).any Json.truthy

/-- A condition of the selection is the variable. -/
def Selection.Asks (s : Selection) (name : String) : Prop :=
  ∃ d ∈ s.directives, (d.name = "include" ∨ d.name = "skip") ∧
    ∃ argument ∈ d.arguments, argument.value = .var name

/-- Somewhere in the selections or in the fragments, a condition is the variable. -/
def FragmentTable.Asks (fragments : FragmentTable) (selections : List Selection) (name : String) :
    Prop :=
  ∃ l, (l = selections ∨ l ∈ Selection.listsAll selections ∨ l ∈ fragments.lists) ∧
    ∃ s ∈ l, s.Asks name

variable {vars vars' : Table Json}

/-! ### One selection -/

theorem Inclusion.ofName?_eq_none_iff {name : String} :
    ofName? name = none ↔ ¬ (name = "include" ∨ name = "skip") := by
  unfold ofName?
  split <;> simp_all

theorem truthy_getD_lookup (vars : Table Json) (name : String) :
    ((vars.lookup name).getD .null).truthy = truth vars name := by
  rw [truth]
  cases vars.lookup name <;> rfl

theorem Argument.admits_congr {argument : Argument}
    (h : ∀ name, argument.value = .var name → truth vars name = truth vars' name) (name : String) :
    argument.admits vars name = argument.admits vars' name := by
  rw [admits, admits]
  cases hv : argument.value with
  | var asked =>
    -- a directive is told no more of a value than whether it holds
    simp only [Value.condition?, Option.all_some, admitsValue, truthy_getD_lookup, h asked hv]
  | _ => rfl

theorem Directive.admits_congr {d : Directive}
    (h : ∀ name, (d.name = "include" ∨ d.name = "skip") →
      (∃ argument ∈ d.arguments, argument.value = .var name) → truth vars name = truth vars' name) :
    d.admits vars = d.admits vars' := by
  by_cases hd : d.name = "include" ∨ d.name = "skip"
  · rw [admits, admits, Bool.eq_iff_iff, List.all_eq_true, List.all_eq_true]
    refine forall₂_congr fun argument ha => ?_
    rw [Argument.admits_congr fun name hv => h name hd ⟨argument, ha, hv⟩]
  · have hnone := Inclusion.ofName?_eq_none_iff.2 hd
    rw [admits_of_ofName?_eq_none hnone, admits_of_ofName?_eq_none hnone]

theorem admitted_congr {s : Selection}
    (h : ∀ name, s.Asks name → truth vars name = truth vars' name) :
    admitted vars s.directives = admitted vars' s.directives := by
  rw [admitted, admitted, Bool.eq_iff_iff, List.all_eq_true, List.all_eq_true]
  refine forall₂_congr fun d hd => ?_
  rw [Directive.admits_congr fun name hn ha => h name ⟨d, hd, hn, ha⟩]

namespace Collector

variable {c c' : Collector} {rules : Rules} {selections : List Selection}

/-! ### A whole reading -/

/-- Two readings that let the same selections take part go the same way. -/
theorem occurrencesWithin_eq_of_admits (hf : c'.fragments = c.fragments)
    (ha : ∀ l ∈ c.reachableLists selections, ∀ s ∈ l, c.admits s = c'.admits s) (n : Nat)
    (rules : Rules) {l : List Selection} (hl : l ∈ c.reachableLists selections) :
    c.occurrencesWithin n rules l = c'.occurrencesWithin n rules l := by
  induction n generalizing rules l with
  | zero => rfl
  | succ n ih =>
    refine occurrencesWithin_congr hf (ha l hl) fun s hs hadmitted call hc => ih call.rules ?_
    have hcall : c.Calls ⟨rules, l⟩ call := ⟨s, hs, hadmitted, hc⟩
    have hlist : l ∈ c.reachableLists (Call.mk rules selections).selections := hl
    have hscope : rules ∈ reachableScopes (Call.mk rules selections).rules :=
      List.mem_cons_of_mem _ (List.mem_cons_self ..)
    exact (hcall.mem_reachable hlist hscope).1

theorem occurrences_eq_of_truth {fragments : FragmentTable}
    (h : ∀ name, fragments.Asks selections name → truth vars name = truth vars' name)
    (withDirectives : Bool) (rules : Rules) :
    (Collector.mk fragments vars withDirectives).occurrences rules selections =
      (Collector.mk fragments vars' withDirectives).occurrences rules selections := by
  have hdepth : (Collector.mk fragments vars withDirectives).depth rules selections =
      (Collector.mk fragments vars' withDirectives).depth rules selections := rfl
  rw [occurrences, occurrences, hdepth]
  refine occurrencesWithin_eq_of_admits ?_ (fun l hl s hs => ?_) _ rules (List.mem_cons_self ..)
  · rfl
  · have hasked : ∀ name, s.Asks name → fragments.Asks selections name := by
      intro name hname
      refine ⟨l, ?_, s, hs, hname⟩
      simpa [reachableLists, or_assoc] using hl
    rw [admits, admits, admitted_congr fun name hname => h name (hasked name hname)]

/-- Under two assignments that make the same of the variables in conditions hold, collecting comes to
the same end. No other variable matters, whatever directive or argument it stands in. -/
theorem collect_eq_of_truth {fragments : FragmentTable} {selections : List Selection}
    {given given' : Option (Table Json)}
    (h : ∀ name, fragments.Asks selections name →
      truth (given.getD []) name = truth (given'.getD []) name)
    (withDirectives : Bool) (rules : Rules) (fields : Fields) :
    (Collector.mk fragments (given.getD []) withDirectives).collect rules selections fields =
      (Collector.mk fragments (given'.getD []) withDirectives).collect rules selections fields ∧
    ∀ name, ¬ fragments.Asks selections name → ∀ value : Json,
      (Collector.mk fragments (Table.update name (fun _ => value) (given.getD []))
          withDirectives).collect rules selections fields =
        (Collector.mk fragments (given.getD []) withDirectives).collect rules selections fields := by
  constructor
  · rw [collect, collect, occurrences_eq_of_truth h]
  · intro name hname value
    rw [collect, collect, occurrences_eq_of_truth fun other hother => ?_]
    have hne : other ≠ name := fun he => hname (he ▸ hother)
    rw [truth, truth, Table.lookup_update, if_neg hne]

/-- `{ a @include(if: $v) c @log(level: $w) { ...F } }` -/
def guarded : List Selection :=
  [.field "a" none [⟨"include", [⟨"if", .var "v"⟩]⟩] [],
    .field "c" none [⟨"log", [⟨"level", .var "w"⟩]⟩] [.fragmentSpread "F" []]]

/-- `fragment F { b @skip(if: [$u], if: $s) }` -/
def guardedFragments : FragmentTable :=
  [("F", some ⟨none, [],
    [.field "b" none [⟨"skip", [⟨"if", .list [.var "u"]⟩, ⟨"if", .var "s"⟩]⟩] []]⟩)]

theorem asks_guarded_iff {name : String} :
    guardedFragments.Asks guarded name ↔ name = "v" ∨ name = "s" := by
  simp [FragmentTable.Asks, Selection.Asks, guarded, guardedFragments, Selection.listsAll,
    Selection.lists, FragmentTable.lists, Selection.directives, or_and_right, exists_or, eq_comm]

theorem collect_guarded :
    (∀ name, guardedFragments.Asks guarded name → truth (Option.getD none []) name =
      truth (Option.getD (some [("v", .num (.whole 0)), ("w", .bool true), ("s", .str "")]) [])
        name) ∧
    (Collector.mk guardedFragments [("v", .num (.whole 0)), ("w", .bool true), ("s", .str "")]
      true).collect [] guarded [] = .ok ⟨[("c", .branch [("b", .leaf)])], []⟩ ∧
    ¬ guardedFragments.Asks guarded "u" ∧
    (Collector.mk guardedFragments [("u", .bool true)] true).collect [] guarded [] =
      .ok ⟨[("c", .branch [("b", .leaf)])], []⟩ := by
  have h : ∀ name, guardedFragments.Asks guarded name → truth (Option.getD none []) name =
      truth (Option.getD (some [("v", .num (.whole 0)), ("w", .bool true), ("s", .str "")]) [])
        name := by
    intro name hname
    rcases asks_guarded_iff.1 hname with rfl | rfl <;> rfl
  have hu : ¬ guardedFragments.Asks guarded "u" := by
    rw [asks_guarded_iff]
    decide
  obtain ⟨hsame, hother⟩ := collect_eq_of_truth h true [] []
  have hnone : (Collector.mk guardedFragments [] true).collect [] guarded [] =
      .ok ⟨[("c", .branch [("b", .leaf)])], []⟩ := rfl
  exact ⟨h, hsame.symm.trans hnone, hu, (hother "u" hu (.bool true)).trans hnone⟩

end Collector

end Lookahead
