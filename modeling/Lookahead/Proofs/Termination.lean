import Mathlib.Order.Monotone.Basic
import Mathlib.Order.WellFounded
import Lookahead.Proofs.Depth

/-!
# Which readings end

Fragments may spread each other in a circle, and directives or skip rules may cut the circle off.
What decides is whether the calls of a reading ever lead from a call back to itself
(`Collector.Loops`): where they do, no depth is enough, since each depth would do for a smaller one;
where they do not, the finitely many calls within reach are well-founded (`acc_of_not_loops`), and
the reading ends (`collect_eq_ok_iff_not_loops`). Where no fragment spreads itself, directly or
through others, nothing loops (`not_loops_of_acyclic`).
-/

namespace Lookahead

open Relation

/-! ### Fragments that spread each other -/

namespace Selection

/-- The fragment `name` is spread in the selections, at any depth. -/
def Spreads (selections : List Selection) (name : String) : Prop :=
  ∃ l ∈ selections :: listsAll selections, ∃ ds, .fragmentSpread name ds ∈ l

theorem Spreads.of_mem_listsAll {l selections : List Selection} {name : String}
    (h : Spreads l name) (hl : l ∈ listsAll selections) : Spreads selections name := by
  obtain ⟨l', hl', ds, hs⟩ := h
  refine ⟨l', List.mem_cons_of_mem _ ?_, ds, hs⟩
  rcases List.mem_cons.1 hl' with rfl | hl'
  · exact hl
  · exact listsAll_subset _ _ hl hl'

theorem size_le_sizeAll {s : Selection} {selections : List Selection} (h : s ∈ selections) :
    s.size ≤ sizeAll selections := by
  induction selections with
  | nil => cases h
  | cons s' rest ih =>
    rw [sizeAll]
    rcases List.mem_cons.1 h with rfl | h
    · omega
    · have := ih h
      omega

end Selection

namespace FragmentTable

/-- The definition of one fragment spreads the other. -/
def Spreads (fragments : FragmentTable) (a b : String) : Prop :=
  ∃ fragment, fragments.find? a = some fragment ∧ Selection.Spreads fragment.selections b

/-- No fragment spreads itself, directly or through others. -/
def Acyclic (fragments : FragmentTable) : Prop := ∀ name, ¬ TransGen fragments.Spreads name name

end FragmentTable

namespace Collector

variable {c : Collector} {x y root : Call} {n : Nat}

/-- The calls of a reading lead from a call back to itself. -/
def Loops (c : Collector) (x : Call) : Prop :=
  ∃ y, ReflTransGen c.Calls x y ∧ TransGen c.Calls y y

/-! ### Where a reading halts -/

theorem Calls.cons {rules : Rules} {rest : List Selection} (s : Selection)
    (h : c.Calls ⟨rules, rest⟩ y) : c.Calls ⟨rules, s :: rest⟩ y := by
  obtain ⟨s', hs, ha, hc⟩ := h
  exact ⟨s', List.mem_cons_of_mem _ hs, ha, hc⟩

/-- A selection halts the reading if its call does, or if it is of an unknown kind. -/
theorem occurrencesOf_eq_error {read : Reader} {rules : Rules} {s : Selection} {e : Halt}
    (h : c.occurrencesOf read rules s = .error e) :
    (∃ y, c.call? rules s = some y ∧ read y.rules y.selections = .error e) ∨
      e = .unsupported ∧ ∃ ds, s = .unsupported ds := by
  cases hc : c.call? rules s with
  | some y =>
    obtain ⟨wrap, hw⟩ := occurrencesOf_of_call?_eq_some hc
    rw [hw] at h
    refine .inl ⟨y, rfl, ?_⟩
    cases hr : read y.rules y.selections with
    | error e' => rw [hr] at h; cases h; rfl
    | ok found => rw [hr] at h; cases h
  | none =>
    cases s with
    | field name key ds inside =>
      by_cases hl : rules.lookup name = some .whole
      · rw [occurrencesOf_skipped hl] at h
        cases h
      · rw [call?_kept hl] at hc
        rw [occurrencesOf_kept hl] at h
        split at hc
        · next hi =>
          rw [if_pos hi] at h
          cases h
        · cases hc
    | inlineFragment tc ds inside => cases hc
    | fragmentSpread name ds =>
      have hf : c.fragments.find? name = none := Option.map_eq_none_iff.1 hc
      simp only [occurrencesOf, hf] at h
      cases h
    | unsupported ds =>
      cases h
      exact .inr ⟨rfl, ds, rfl⟩

/-- A selection that leads to a call is read to its end only if the call is. -/
theorem exists_ok_of_call? {read : Reader} {rules : Rules} {s : Selection} {found : List Occurrence}
    (hc : c.call? rules s = some y) (h : c.occurrencesOf read rules s = .ok found) :
    ∃ beneath, read y.rules y.selections = .ok beneath := by
  obtain ⟨wrap, hw⟩ := occurrencesOf_of_call?_eq_some hc
  rw [hw] at h
  cases hr : read y.rules y.selections with
  | error e => rw [hr] at h; cases h
  | ok beneath => exact ⟨beneath, rfl⟩

/-- A reading halts at its first selection, or behind it if that is rejected or read to its end. -/
theorem occurrencesWithin_cons_error {rules : Rules} {s : Selection} {rest : List Selection}
    {e : Halt} (h : c.occurrencesWithin (n + 1) rules (s :: rest) = .error e) :
    (c.admits s = true ∧ c.occurrencesOf (c.occurrencesWithin n) rules s = .error e) ∨
    (c.admits s = true →
        ∃ found, c.occurrencesOf (c.occurrencesWithin n) rules s = .ok found) ∧
      c.occurrencesWithin (n + 1) rules rest = .error e := by
  rw [occurrencesWithin_cons] at h
  split at h
  · next ha =>
    cases hs : c.occurrencesOf (c.occurrencesWithin n) rules s with
    | error e' =>
      rw [hs] at h
      cases h
      exact .inl ⟨ha, rfl⟩
    | ok found =>
      rw [hs] at h
      refine .inr ⟨fun _ => ⟨found, rfl⟩, ?_⟩
      cases hr : c.occurrencesWithin (n + 1) rules rest with
      | error e' => rw [hr] at h; cases h; rfl
      | ok others => rw [hr] at h; cases h
  · next ha => exact .inr ⟨fun hadmits => absurd hadmits ha, h⟩

theorem exists_calls_of_error {e : Halt}
    (h : c.occurrencesWithin (n + 1) x.rules x.selections = .error e) :
    (∃ y, c.Calls x y ∧ c.occurrencesWithin n y.rules y.selections = .error e) ∨
      e = .unsupported ∧ ∃ ds, .unsupported ds ∈ x.selections := by
  obtain ⟨rules, selections⟩ := x
  induction selections with
  | nil => cases h
  | cons s rest ih =>
    rcases occurrencesWithin_cons_error h with ⟨ha, hs⟩ | ⟨-, hrest⟩
    · rcases occurrencesOf_eq_error hs with ⟨y, hc, hy⟩ | ⟨rfl, ds, rfl⟩
      · exact .inl ⟨y, ⟨s, List.mem_cons_self .., ha, hc⟩, hy⟩
      · exact .inr ⟨rfl, ds, List.mem_cons_self ..⟩
    · rcases ih hrest with ⟨y, hy, hye⟩ | ⟨rfl, ds, hds⟩
      · exact .inl ⟨y, hy.cons s, hye⟩
      · exact .inr ⟨rfl, ds, List.mem_cons_of_mem _ hds⟩

theorem exists_unsupported (h : c.occurrencesWithin n x.rules x.selections = .error .unsupported) :
    ∃ y, ReflTransGen c.Calls x y ∧ ∃ ds, .unsupported ds ∈ y.selections := by
  induction n generalizing x with
  | zero => cases h
  | succ n ih =>
    rcases exists_calls_of_error h with ⟨y, hxy, hy⟩ | ⟨-, ds, hds⟩
    · obtain ⟨z, hyz, hz⟩ := ih hy
      exact ⟨z, .head hxy hyz, hz⟩
    · exact ⟨x, .refl, ds, hds⟩

/-! ### A reading that ends does not loop -/

/-- A call is read to its end at the depth `n`. -/
def Ends (c : Collector) (n : Nat) (x : Call) : Prop :=
  ∃ found, c.occurrencesWithin n x.rules x.selections = .ok found

theorem Ends.le {m : Nat} (h : c.Ends n x) (hnm : n ≤ m) : c.Ends m x := by
  obtain ⟨found, hf⟩ := h
  exact ⟨found, occurrencesWithin_ok_of_le hnm hf⟩

/-- The depth that does for a call does, less one, for each call that it makes. -/
theorem Ends.of_calls (h : c.Ends (n + 1) x) (hxy : c.Calls x y) : c.Ends n y := by
  obtain ⟨rules, selections⟩ := x
  obtain ⟨found, hf⟩ := h
  obtain ⟨s, hs, ha, hc⟩ := hxy
  dsimp only at hf hs hc
  induction selections generalizing found with
  | nil => cases hs
  | cons s' rest ih =>
    rw [occurrencesWithin_cons] at hf
    split at hf
    · obtain ⟨first, hfirst, hf⟩ := bind_eq_ok_iff.1 hf
      obtain ⟨others, hothers, -⟩ := bind_eq_ok_iff.1 hf
      rcases List.mem_cons.1 hs with rfl | hs
      · exact exists_ok_of_call? hc hfirst
      · exact ih others hothers hs
    · next hrejected =>
      rcases List.mem_cons.1 hs with rfl | hs
      · exact absurd ha hrejected
      · exact ih found hf hs

theorem Ends.of_reflTransGen (h : c.Ends n x) (hxy : ReflTransGen c.Calls x y) : c.Ends n y := by
  induction hxy with
  | refl => exact h
  | tail _ hyz ih => exact (ih.le (Nat.le_succ n)).of_calls hyz

theorem Ends.not_transGen (h : c.Ends n x) : ¬ TransGen c.Calls x x := by
  induction n with
  | zero =>
    obtain ⟨found, hf⟩ := h
    cases hf
  | succ n ih =>
    intro hcycle
    obtain ⟨y, hxy, hyx⟩ := TransGen.head'_iff.1 hcycle
    have hy : c.Ends n y := h.of_calls hxy
    exact ih (hy.of_reflTransGen hyx) hcycle

theorem Ends.not_loops (h : c.Ends n x) : ¬ c.Loops x := by
  rintro ⟨y, hxy, hcycle⟩
  exact (h.of_reflTransGen hxy).not_transGen hcycle

/-! ### A reading that does not loop ends -/

/-- Of an endless chain of calls two are the same, so without a loop there is none. -/
theorem acc_of_not_loops (h : ¬ c.Loops root) : Acc (fun y x => c.Calls x y) root := by
  by_contra hacc
  obtain ⟨call, rfl, hcall⟩ := not_acc_iff_exists_descending_chain.1 hacc
  have hreach : ∀ i, ReflTransGen c.Calls (call 0) (call i) := by
    intro i
    induction i with
    | zero => exact .refl
    | succ i ih => exact ih.tail (hcall i)
  have hlater : ∀ i j, i < j → TransGen c.Calls (call i) (call j) := fun i j hij =>
    Nat.rel_of_forall_rel_succ_of_lt (TransGen c.Calls) (fun i => .single (hcall i)) hij
  have hne : ∀ i j, i < j → call i ≠ call j := by
    intro i j hij he
    exact h ⟨call i, hreach i, by simpa [he] using hlater i j hij⟩
  have hinj : Function.Injective fun i : Fin (c.depth (call 0).rules (call 0).selections + 1) =>
      call i := by
    intro i j hij
    rcases Nat.lt_trichotomy i j with hlt | heq | hgt
    · exact absurd hij (hne i j hlt)
    · exact Fin.ext heq
    · exact absurd hij.symm (hne j i hgt)
  have hcard := card_le_depth hinj fun i => hreach i
  rw [Fintype.card_fin] at hcard
  omega

theorem ne_endless_of_le {m : Nat} (hnm : n ≤ m)
    (h : c.occurrencesWithin n x.rules x.selections ≠ .error .endless) :
    c.occurrencesWithin m x.rules x.selections ≠ .error .endless := by
  rwa [occurrencesWithin_eq_of_le hnm h]

/-- One depth does for all calls that a call makes, if some depth does for each. -/
theorem exists_depth_of_calls
    (h : ∀ y, c.Calls x y → ∃ n, c.occurrencesWithin n y.rules y.selections ≠ .error .endless) :
    ∃ n, ∀ y, c.Calls x y → c.occurrencesWithin n y.rules y.selections ≠ .error .endless := by
  obtain ⟨rules, selections⟩ := x
  induction selections with
  | nil =>
    refine ⟨0, ?_⟩
    rintro y ⟨s, hs, -⟩
    cases hs
  | cons s rest ih =>
    obtain ⟨m, hm⟩ := ih fun y hy => h y (hy.cons s)
    have hhead : ∃ k, ∀ y, c.admits s = true → c.call? rules s = some y →
        c.occurrencesWithin k y.rules y.selections ≠ .error .endless := by
      by_cases hs : ∃ z, c.admits s = true ∧ c.call? rules s = some z
      · obtain ⟨z, ha, hz⟩ := hs
        obtain ⟨k, hk⟩ := h z ⟨s, List.mem_cons_self .., ha, hz⟩
        refine ⟨k, fun y _ hy => ?_⟩
        rw [hz] at hy
        cases hy
        exact hk
      · exact ⟨0, fun y ha hy => absurd ⟨y, ha, hy⟩ hs⟩
    obtain ⟨k, hk⟩ := hhead
    refine ⟨max k m, ?_⟩
    rintro y ⟨s', hs', ha, hc⟩
    rcases List.mem_cons.1 hs' with rfl | hs'
    · exact ne_endless_of_le (Nat.le_max_left k m) (hk y ha hc)
    · exact ne_endless_of_le (Nat.le_max_right k m) (hm y ⟨s', hs', ha, hc⟩)

theorem exists_depth_of_acc (h : Acc (fun y x => c.Calls x y) x) :
    ∃ n, c.occurrencesWithin n x.rules x.selections ≠ .error .endless := by
  induction h with
  | intro x _ ih =>
    obtain ⟨n, hn⟩ := exists_depth_of_calls ih
    refine ⟨n + 1, fun he => ?_⟩
    rcases exists_calls_of_error he with ⟨y, hxy, hy⟩ | ⟨h, -⟩
    · exact hn y hxy hy
    · cases h

theorem occurrences_ne_endless {rules : Rules} {selections : List Selection}
    (h : ¬ c.Loops ⟨rules, selections⟩) : c.occurrences rules selections ≠ .error .endless := by
  obtain ⟨n, hn⟩ := exists_depth_of_acc (acc_of_not_loops h)
  rwa [occurrences_eq_of_ne_endless hn]

/-! ### Fragments without a circle -/

/-- The selections of a call spread a fragment, directly or through other fragments. -/
def Leads (c : Collector) (x : Call) (name : String) : Prop :=
  ∃ a, Selection.Spreads x.selections a ∧ ReflTransGen c.fragments.Spreads a name

/-- A call goes on with selections that stand inside, or with those of a fragment. -/
theorem Calls.inside_or_spread (h : c.Calls x y) :
    (y.selections ∈ Selection.listsAll x.selections ∧
      Selection.sizeAll y.selections < Selection.sizeAll x.selections) ∨
    ∃ name fragment, Selection.Spreads x.selections name ∧
      c.fragments.find? name = some fragment ∧ y.selections = fragment.selections := by
  obtain ⟨s, hs, -, hc⟩ := h
  have hlists : s.lists ⊆ Selection.listsAll x.selections := Selection.lists_subset_listsAll hs
  have hsize : s.size ≤ Selection.sizeAll x.selections := Selection.size_le_sizeAll hs
  cases s with
  | field name key ds inside =>
    by_cases hw : x.rules.lookup name = some .whole
    · rw [call?_skipped hw] at hc
      cases hc
    · rw [call?_kept hw] at hc
      split at hc
      · cases hc
      · cases hc
        rw [Selection.size] at hsize
        exact .inl ⟨hlists (List.mem_cons_self ..), by show Selection.sizeAll inside < _; omega⟩
  | inlineFragment tc ds inside =>
    cases hc
    rw [Selection.size] at hsize
    exact .inl ⟨hlists (List.mem_cons_self ..), by show Selection.sizeAll inside < _; omega⟩
  | fragmentSpread name ds =>
    obtain ⟨fragment, hf, rfl⟩ := Option.map_eq_some_iff.1 hc
    exact .inr ⟨name, fragment, ⟨x.selections, List.mem_cons_self .., ds, hs⟩, hf, rfl⟩
  | unsupported ds => cases hc

theorem Calls.leads {name : String} (h : c.Calls x y) (hy : c.Leads y name) : c.Leads x name := by
  obtain ⟨a, ha, hpath⟩ := hy
  rcases h.inside_or_spread with ⟨hl, -⟩ | ⟨b, fragment, hb, hf, he⟩
  · exact ⟨a, ha.of_mem_listsAll hl, hpath⟩
  · rw [he] at ha
    exact ⟨b, hb, .head ⟨fragment, hf, ha⟩ hpath⟩

theorem Leads.of_reflTransGen {name : String} (hy : c.Leads y name)
    (h : ReflTransGen c.Calls x y) : c.Leads x name := by
  induction h with
  | refl => exact hy
  | tail _ huv ih => exact ih (huv.leads hy)

/-- Without a circle of fragments, calls that keep what is spread go on inside. -/
theorem sizeAll_lt_of_transGen (hf : c.fragments.Acyclic) (h : TransGen c.Calls x y)
    (hkeep : ∀ name, c.Leads x name → c.Leads y name) :
    Selection.sizeAll y.selections < Selection.sizeAll x.selections := by
  have hstep : ∀ {u v}, c.Calls u v → (∀ name, c.Leads u name → c.Leads v name) →
      Selection.sizeAll v.selections < Selection.sizeAll u.selections := by
    intro u v huv hkeep
    rcases huv.inside_or_spread with ⟨-, hlt⟩ | ⟨name, fragment, hs, hfind, he⟩
    · exact hlt
    · -- the fragment that is entered would have to lead back to itself
      obtain ⟨a, ha, hpath⟩ := hkeep name ⟨name, hs, .refl⟩
      rw [he] at ha
      exact absurd (TransGen.head' ⟨fragment, hfind, ha⟩ hpath) (hf name)
  induction h with
  | single hxy => exact hstep hxy hkeep
  | tail hxu huv ih =>
    have hlt := ih fun name hx => huv.leads (hkeep name hx)
    have hlt' := hstep huv fun name hu => hkeep name (hu.of_reflTransGen hxu.to_reflTransGen)
    omega

theorem not_loops_of_acyclic (h : c.fragments.Acyclic) (x : Call) : ¬ c.Loops x := by
  rintro ⟨y, -, hcycle⟩
  have hlt := sizeAll_lt_of_transGen h hcycle fun _ hy => hy
  omega

/-! ### Selections of known kinds -/

/-- No selection of an unknown kind stands among the selections or in a fragment. -/
def Supported (c : Collector) (selections : List Selection) : Prop :=
  ∀ l ∈ c.reachableLists selections, ∀ ds, .unsupported ds ∉ l

section

variable {rules : Rules} {selections : List Selection}

theorem Supported.exists_ok (h : c.Supported selections)
    (hne : c.occurrences rules selections ≠ .error .endless) :
    ∃ found, c.occurrences rules selections = .ok found := by
  cases ho : c.occurrences rules selections with
  | ok found => exact ⟨found, rfl⟩
  | error e =>
    cases e with
    | endless => exact absurd ho hne
    | unsupported =>
      obtain ⟨y, hreach, ds, hds⟩ := exists_unsupported (x := ⟨rules, selections⟩) ho
      exact absurd hds (h y.selections (mem_reachable hreach).1 ds)

theorem exists_collect_iff (fields : Fields) :
    (∃ result, c.collect rules selections fields = .ok result) ↔
      ∃ n, c.Ends n ⟨rules, selections⟩ := by
  constructor
  · rintro ⟨result, h⟩
    obtain ⟨found, hr, -⟩ := exists_reads_of_collect h
    exact ⟨_, found, reads_iff.1 hr⟩
  · rintro ⟨n, found, hf⟩
    exact ⟨_, (reads_of_occurrencesWithin hf).collect_eq fields⟩

theorem Supported.ends_iff (h : c.Supported selections) :
    (∃ n, c.Ends n ⟨rules, selections⟩) ↔ ¬ c.Loops ⟨rules, selections⟩ := by
  constructor
  · rintro ⟨n, hends⟩
    exact hends.not_loops
  · intro hloops
    obtain ⟨found, hf⟩ := h.exists_ok (occurrences_ne_endless hloops)
    exact ⟨_, found, hf⟩

/-- Collecting comes to an end exactly if no call within reach leads back to itself. Where one does,
it goes beyond every depth; where no fragment spreads itself, none does. -/
theorem collect_eq_ok_iff_not_loops (h : c.Supported selections) (rules : Rules)
    (fields : Fields) :
    ((∃ result, c.collect rules selections fields = .ok result) ↔
      ¬ c.Loops ⟨rules, selections⟩) ∧
    (c.Loops ⟨rules, selections⟩ →
      ∀ n, c.occurrencesWithin n rules selections = .error .endless) ∧
    (c.fragments.Acyclic → ∃ result, c.collect rules selections fields = .ok result) := by
  have hiff : (∃ result, c.collect rules selections fields = .ok result) ↔
      ¬ c.Loops ⟨rules, selections⟩ := (exists_collect_iff fields).trans h.ends_iff
  refine ⟨hiff, fun hloops n => ?_, fun hf => hiff.2 (not_loops_of_acyclic hf _)⟩
  by_contra hne
  obtain ⟨found, hf⟩ := h.exists_ok (by rwa [occurrences_eq_of_ne_endless hne])
  have hends : c.Ends (c.depth rules selections) ⟨rules, selections⟩ := ⟨found, hf⟩
  exact hends.not_loops hloops

end

/-- The fragment `F` spreads itself beneath the field `a`. -/
def circle : Collector where
  fragments := [("F", some ⟨none, [], [.field "a" none [] [.fragmentSpread "F" []]]⟩)]
  vars := []
  withDirectives := true

theorem circle_ends_under_rules :
    circle.Supported [.fragmentSpread "F" []] ∧
    circle.collect (Rules.ofPatterns ["a.a.a"]) [.fragmentSpread "F" []] [] =
      .ok ⟨[("a", .branch [("a", .branch [])])], []⟩ ∧
    ¬ circle.Loops ⟨Rules.ofPatterns ["a.a.a"], [.fragmentSpread "F" []]⟩ ∧
    ∀ n, circle.occurrencesWithin n [] [.fragmentSpread "F" []] = .error .endless := by
  have hsupported : circle.Supported [.fragmentSpread "F" []] := by
    intro l hl ds hds
    have hl : l = [.fragmentSpread "F" []] ∨ l = [.field "a" none [] [.fragmentSpread "F" []]] := by
      simpa [reachableLists, Selection.listsAll, Selection.lists, FragmentTable.lists, circle,
        or_comm, or_assoc] using hl
    rcases hl with rfl | rfl <;> simp at hds
  have hok : circle.collect (Rules.ofPatterns ["a.a.a"]) [.fragmentSpread "F" []] [] =
      .ok ⟨[("a", .branch [("a", .branch [])])], []⟩ := rfl
  have hinto : circle.Calls ⟨[], [.fragmentSpread "F" []]⟩
      ⟨[], [.field "a" none [] [.fragmentSpread "F" []]]⟩ :=
    ⟨.fragmentSpread "F" [], List.mem_cons_self .., rfl, rfl⟩
  have hback : circle.Calls ⟨[], [.field "a" none [] [.fragmentSpread "F" []]]⟩
      ⟨[], [.fragmentSpread "F" []]⟩ :=
    ⟨.field "a" none [] [.fragmentSpread "F" []], List.mem_cons_self .., rfl, rfl⟩
  have hloops : circle.Loops ⟨[], [.fragmentSpread "F" []]⟩ := ⟨_, .refl, .head hinto (.single hback)⟩
  refine ⟨hsupported, hok, ?_, ?_⟩
  · exact (collect_eq_ok_iff_not_loops hsupported (Rules.ofPatterns ["a.a.a"]) []).1.1 ⟨_, hok⟩
  · exact (collect_eq_ok_iff_not_loops hsupported [] []).2.1 hloops

end Collector

end Lookahead
