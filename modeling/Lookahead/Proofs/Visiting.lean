import Mathlib.Data.Seq.Basic
import Lookahead.Proofs.Termination

/-!
# What a reading meets

`Collector.visit` is the sequence of the selections that are met, in preorder: a selection that is
rejected is passed over, and what a selection leads to comes right behind it, each time it is led
to. The sequence knows nothing of occurrences or depths, and where fragments lead back to themselves
it never ends. Of a reading that ends it tells everything that is reported (`collect_reports`): the
reading halts at a selection of an unknown kind exactly if one is met, and otherwise the records are
the unknown fragments in the order in which their spreads are met.
-/

namespace Lookahead.Collector

open Occurrence
open Stream' (Seq)

/-- The selections of a call that take part, each with the rules that it stands under. -/
def pending (c : Collector) (x : Call) : List (Rules × Selection) :=
  (x.selections.filter c.admits).map (x.rules, ·)

/-- The selections that are met from pending ones on, in order. -/
def meet (c : Collector) : List (Rules × Selection) → Seq Selection :=
  Seq.corec fun
    | [] => none
    | (rules, s) :: rest => some (s, (c.call? rules s).elim [] c.pending ++ rest)

/-- The selections that are met when a selection list is read, in order. -/
def visit (c : Collector) (rules : Rules) (selections : List Selection) : Seq Selection :=
  c.meet (c.pending ⟨rules, selections⟩)

/-- The fragment that a selection spreads without there being a definition of it. -/
def missing? (c : Collector) : Selection → Option String
  | .fragmentSpread name _ => if (c.fragments.find? name).isNone then some name else none
  | _ => none

variable {c : Collector} {rules : Rules} {s : Selection} {selections rest : List Selection}

/-! ### The sequence -/

theorem meet_nil (c : Collector) : c.meet [] = Seq.nil := Seq.corec_nil _ _ rfl

theorem meet_cons (c : Collector) (rules : Rules) (s : Selection)
    (pending : List (Rules × Selection)) :
    c.meet ((rules, s) :: pending) =
      Seq.cons s (c.meet ((c.call? rules s).elim [] c.pending ++ pending)) :=
  Seq.corec_cons rfl

theorem meet_append (c : Collector) (front back : List (Rules × Selection)) :
    c.meet (front ++ back) = (c.meet front).append (c.meet back) := by
  refine Seq.eq_of_bisim_strong (fun a b => ∃ front, a = c.meet (front ++ back) ∧
    b = (c.meet front).append (c.meet back)) ⟨front, rfl, rfl⟩ ?_
  rintro _ _ ⟨front, rfl, rfl⟩
  cases front with
  | nil => exact .inl (by rw [meet_nil, Seq.nil_append, List.nil_append])
  | cons first front =>
    obtain ⟨rules, s⟩ := first
    refine .inr ⟨s, _, (c.meet ((c.call? rules s).elim [] c.pending ++ front)).append (c.meet back),
      meet_cons c rules s (front ++ back), ?_, _, ?_, rfl⟩
    · rw [meet_cons, Seq.cons_append]
    · rw [List.append_assoc]

theorem visit_nil (c : Collector) (rules : Rules) : c.visit rules [] = Seq.nil := meet_nil c

theorem visit_rejected (h : c.admits s = false) :
    c.visit rules (s :: rest) = c.visit rules rest := by
  rw [visit, pending, List.filter_cons, if_neg (by simp [h])]
  rfl

/-- A selection that takes part is met, then what it leads to, then the selections behind it. -/
theorem visit_cons (h : c.admits s = true) :
    c.visit rules (s :: rest) =
      Seq.cons s (((c.call? rules s).elim Seq.nil fun x => c.visit x.rules x.selections).append
        (c.visit rules rest)) := by
  rw [visit, pending, List.filter_cons, if_pos h, List.map_cons, meet_cons, meet_append]
  cases c.call? rules s with
  | none => rw [Option.elim, Option.elim, meet_nil]; rfl
  | some x => rfl

theorem mem_ofList_append {α : Type} {a : α} (met : List α) {more : Seq α} (h : a ∈ more) :
    a ∈ (Seq.ofList met).append more := by
  induction met with
  | nil => rwa [Seq.ofList_nil, Seq.nil_append]
  | cons first met ih =>
    rw [Seq.ofList_cons, Seq.cons_append]
    exact Seq.mem_cons_of_mem first ih

theorem mem_of_mem_ofList {α : Type} {a : α} {met : List α} (h : a ∈ Seq.ofList met) :
    a ∈ met := by
  induction met with
  | nil => exact absurd h (Seq.notMem_nil a)
  | cons first met ih =>
    rw [Seq.ofList_cons] at h
    rcases Seq.eq_or_mem_of_mem_cons h with rfl | h
    · exact List.mem_cons_self ..
    · exact List.mem_cons_of_mem _ (ih h)

theorem mem_visit_self (h : c.admits s = true) : s ∈ c.visit rules (s :: rest) := by
  rw [visit_cons h]
  exact Seq.mem_cons s _

theorem mem_visit_inside {x : Call} {met : Selection} (h : c.admits s = true)
    (hc : c.call? rules s = some x) (hm : met ∈ c.visit x.rules x.selections) :
    met ∈ c.visit rules (s :: rest) := by
  rw [visit_cons h, hc]
  exact Seq.mem_cons_of_mem s (Seq.mem_append_left hm)

/-- What stands behind a selection is met if what the selection leads to comes to an end. -/
theorem mem_visit_behind {met : Selection}
    (h : c.admits s = true → ∀ x, c.call? rules s = some x →
      ∃ inside : List Selection, c.visit x.rules x.selections = Seq.ofList inside)
    (hm : met ∈ c.visit rules rest) : met ∈ c.visit rules (s :: rest) := by
  by_cases ha : c.admits s = true
  · rw [visit_cons ha]
    refine Seq.mem_cons_of_mem s ?_
    cases hc : c.call? rules s with
    | none => rwa [Option.elim, Seq.nil_append]
    | some x =>
      obtain ⟨inside, hinside⟩ := h ha x hc
      rw [Option.elim, hinside]
      exact mem_ofList_append inside hm
  · rwa [visit_rejected (Bool.not_eq_true _ ▸ ha)]

/-! ### Readings that come to an end -/

/-- What is met is finite and of known kinds, and it spreads the given unknown fragments. -/
def Reports (c : Collector) (x : Call) (names : List String) : Prop :=
  ∃ met : List Selection, c.visit x.rules x.selections = Seq.ofList met ∧
    (∀ ds, .unsupported ds ∉ met) ∧ met.filterMap c.missing? = names

namespace Reports

variable {names others : List String}

theorem nil : c.Reports ⟨rules, []⟩ [] :=
  ⟨[], (visit_nil c rules).trans Seq.ofList_nil.symm, by simp, rfl⟩

theorem rejected (ha : c.admits s = false) (h : c.Reports ⟨rules, rest⟩ names) :
    c.Reports ⟨rules, s :: rest⟩ names := by
  obtain ⟨met, hv, hmet⟩ := h
  exact ⟨met, (visit_rejected ha).trans hv, hmet⟩

/-- A selection of a known kind that leads nowhere. -/
theorem single (ha : c.admits s = true) (hs : ∀ ds, s ≠ .unsupported ds)
    (hc : c.call? rules s = none) (h : c.Reports ⟨rules, rest⟩ names) :
    c.Reports ⟨rules, s :: rest⟩ ((c.missing? s).toList ++ names) := by
  obtain ⟨met, hv, hknown, rfl⟩ := h
  refine ⟨s :: met, ?_, ?_, ?_⟩
  · rw [visit_cons ha, hc, Option.elim, Seq.nil_append, hv, Seq.ofList_cons]
  · intro ds hm
    rcases List.mem_cons.1 hm with he | hm
    · exact hs ds he.symm
    · exact hknown ds hm
  · cases hn : c.missing? s <;> simp [hn]

/-- A selection that leads to a call. -/
theorem call {x : Call} (ha : c.admits s = true) (hc : c.call? rules s = some x)
    (head : c.Reports x names) (tail : c.Reports ⟨rules, rest⟩ others) :
    c.Reports ⟨rules, s :: rest⟩ (names ++ others) := by
  obtain ⟨inside, hinside, hknown, rfl⟩ := head
  obtain ⟨met, hv, hknown', rfl⟩ := tail
  have hs : ∀ ds, s ≠ .unsupported ds := by
    rintro ds rfl
    cases hc
  have hmissing : c.missing? s = none := by
    cases s with
    | fragmentSpread name ds =>
      obtain ⟨fragment, hf, -⟩ := Option.map_eq_some_iff.1 hc
      simp [missing?, hf]
    | _ => rfl
  refine ⟨s :: (inside ++ met), ?_, ?_, ?_⟩
  · rw [visit_cons ha, hc, Option.elim, hinside, hv, Seq.ofList_cons, Seq.ofList_append]
  · intro ds hm
    rcases List.mem_cons.1 hm with he | hm
    · exact hs ds he.symm
    · rcases List.mem_append.1 hm with hm | hm
      · exact hknown ds hm
      · exact hknown' ds hm
  · rw [List.filterMap_cons, hmissing, List.filterMap_append]

end Reports

theorem Reads.reports {found : List Occurrence} (h : c.Reads rules selections found) :
    c.Reports ⟨rules, selections⟩ (unknownFragments found) := by
  induction h with
  | nil => exact .nil
  | rejected ha _ ih => exact ih.rejected ha
  | skipped ha hl _ ih => exact ih.single ha (by simp) (call?_skipped hl)
  | leaf ha hl _ ih =>
    rw [unknownFragments, unknown]
    exact ih.single ha (by simp) (call?_kept hl)
  | branch ha hl hi _ _ ih₁ ih₂ =>
    rw [unknownFragments, unknown]
    exact .call ha ((call?_kept hl).trans (if_neg fun he => hi (List.isEmpty_iff.1 he))) ih₁ ih₂
  | inlineFragment ha _ _ ih₁ ih₂ =>
    rw [unknownFragments_append]
    exact .call ha rfl ih₁ ih₂
  | fragment ha hf _ _ ih₁ ih₂ =>
    rw [unknownFragments_append]
    exact .call ha (by rw [call?, hf]; rfl) ih₁ ih₂
  | @unknownFragment _ name ds _ _ ha hf _ ih =>
    have hmissing : c.missing? (.fragmentSpread name ds) = some name := by simp [missing?, hf]
    have hrest := ih.single ha (by simp) (by rw [call?, hf]; rfl)
    rw [hmissing] at hrest
    rw [unknownFragments, unknown]
    exact hrest

/-! ### Readings that halt -/

/-- Nothing in front of the selection that halts the reading goes on without end, so the selection
is met. -/
theorem exists_unsupported_mem_visit {n : Nat}
    (h : c.occurrencesWithin n rules selections = .error .unsupported) :
    ∃ ds, .unsupported ds ∈ c.visit rules selections := by
  induction n generalizing rules selections with
  | zero => cases h
  | succ n ih =>
    induction selections with
    | nil => cases h
    | cons s rest ihs =>
      rcases occurrencesWithin_cons_error h with ⟨ha, hs⟩ | ⟨hread, hrest⟩
      · rcases occurrencesOf_eq_error hs with ⟨x, hc, hx⟩ | ⟨-, ds, rfl⟩
        · obtain ⟨ds, hds⟩ := ih hx
          exact ⟨ds, mem_visit_inside ha hc hds⟩
        · exact ⟨ds, mem_visit_self ha⟩
      · obtain ⟨ds, hds⟩ := ihs hrest
        refine ⟨ds, mem_visit_behind (fun ha x hc => ?_) hds⟩
        obtain ⟨found, hs⟩ := hread ha
        obtain ⟨beneath, hx⟩ := exists_ok_of_call? hc hs
        obtain ⟨inside, hinside, -⟩ := (reads_of_occurrencesWithin hx).reports
        exact ⟨inside, hinside⟩

/-- A reading that ends halts at a selection of an unknown kind exactly if one is met. If none is,
the records are the spreads of unknown fragments in the order in which they are met, whatever the
fields are that were requested before. -/
theorem collect_reports {fields : Fields}
    (h : c.collect rules selections fields ≠ .error .endless) :
    (c.collect rules selections fields = .error .unsupported ↔
      ∃ ds, .unsupported ds ∈ c.visit rules selections) ∧
    (∀ result, c.collect rules selections fields = .ok result →
      (∃ met : List Selection, c.visit rules selections = Seq.ofList met ∧
        result.records = (met.filterMap c.missing?).map .unknownFragment) ∧
      ∀ record ∈ result.records, record.level = .warning ∧
        record.message = "Unknown fragment spread in selection") ∧
    ∀ others, (c.collect rules selections others).map Logged.records =
      (c.collect rules selections fields).map Logged.records := by
  refine ⟨⟨fun herror => ?_, ?_⟩, fun result hok => ?_, fun others => ?_⟩
  · rw [collect] at herror
    cases ho : c.occurrences rules selections with
    | error e =>
      rw [ho] at herror
      cases herror
      exact exists_unsupported_mem_visit ho
    | ok found => rw [ho] at herror; cases herror
  · rintro ⟨ds, hds⟩
    cases hc : c.collect rules selections fields with
    | error e =>
      cases e with
      | unsupported => rfl
      | endless => exact absurd hc h
    | ok result =>
      obtain ⟨found, hr, -⟩ := exists_reads_of_collect hc
      obtain ⟨met, hv, hknown, -⟩ := hr.reports
      dsimp only at hv
      rw [hv] at hds
      exact absurd (mem_of_mem_ofList hds) (hknown ds)
  · obtain ⟨found, hr, rfl⟩ := exists_reads_of_collect hok
    obtain ⟨met, hv, -, hmissing⟩ := hr.reports
    refine ⟨⟨met, hv, by rw [hmissing]⟩, fun record hrecord => ?_⟩
    obtain ⟨name, -, rfl⟩ := List.mem_map.1 hrecord
    exact ⟨rfl, rfl⟩
  · rw [collect, collect]
    cases c.occurrences rules selections <;> rfl

/-- The fragment `F` spreads `G`, which is not in the table, beneath a field and `H`, an entry
without a definition, beside it. -/
def patchy : Collector where
  fragments := [("F", some ⟨none, [], [.field "a" none [] [.fragmentSpread "G" []],
    .fragmentSpread "H" []]⟩), ("H", none)]
  vars := [("v", .bool true)]
  withDirectives := true

/-- `{ ...F b { ...G @skip(if: $v) ...F } secret { ...G } }` -/
def patchySelections : List Selection :=
  [.fragmentSpread "F" [],
    .field "b" none []
      [.fragmentSpread "G" [⟨"skip", [⟨"if", .var "v"⟩]⟩], .fragmentSpread "F" []],
    .field "secret" none [] [.fragmentSpread "G" []]]

theorem collect_reports_patchy :
    (patchy.collect (Rules.ofPatterns ["b.a", "secret"]) patchySelections [] =
        .ok ⟨[("a", .branch []), ("b", .branch [])],
          [.unknownFragment "G", .unknownFragment "H", .unknownFragment "H"]⟩ ∧
      ∃ met : List Selection,
        patchy.visit (Rules.ofPatterns ["b.a", "secret"]) patchySelections = Seq.ofList met ∧
        [.unknownFragment "G", .unknownFragment "H", .unknownFragment "H"] =
          (met.filterMap patchy.missing?).map LogRecord.unknownFragment) ∧
    patchy.collect [] [.field "b" none [] [.inlineFragment none [] [.unsupported []]]] [] =
        .error .unsupported ∧
      ∃ ds, .unsupported ds ∈
        patchy.visit [] [.field "b" none [] [.inlineFragment none [] [.unsupported []]]] := by
  have hok : patchy.collect (Rules.ofPatterns ["b.a", "secret"]) patchySelections [] =
      .ok ⟨[("a", .branch []), ("b", .branch [])],
        [.unknownFragment "G", .unknownFragment "H", .unknownFragment "H"]⟩ := rfl
  have herror : patchy.collect [] [.field "b" none [] [.inlineFragment none [] [.unsupported []]]]
      [] = .error .unsupported := rfl
  obtain ⟨-, hreturns, -⟩ := collect_reports (by rw [hok]; nofun)
  obtain ⟨hhalts, -, -⟩ := collect_reports (by rw [herror]; nofun)
  exact ⟨⟨hok, (hreturns _ hok).1⟩, herror, hhalts.1 herror⟩

end Lookahead.Collector
