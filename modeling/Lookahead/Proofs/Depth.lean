import Mathlib.Data.Fintype.Card
import Mathlib.Data.Fintype.Prod
import Mathlib.Logic.Relation
import Lookahead.Proofs.Reading

/-!
# The depth is enough

From one selection list only finitely many calls can be reached: each is about one of the lists
that stand in the document and one of the scopes that stand in the rules, and there are at most
`Collector.depth` of these pairs (`card_le_depth`). A reading that ends only at the depth `n + 1`
makes a call that ends only at the depth `n`, so along such a chain no call occurs twice, and the
chain is no longer than that number. Hence a reading that ends at any depth ends at
`Collector.depth` (`occurrences_eq_of_ne_endless`), and `Collector.occurrences` answers exactly the
readings of `Collector.Reads` (`reads_iff`).
-/

namespace Lookahead

/-! ### Selection lists of a document -/

namespace Selection

mutual

/-- The selection lists beneath a selection. -/
def lists : Selection → List (List Selection)
  | field _ _ _ inside => inside :: listsAll inside
  | inlineFragment _ _ inside => inside :: listsAll inside
  | fragmentSpread _ _ => []
  | unsupported _ => []

def listsAll : List Selection → List (List Selection)
  | [] => []
  | s :: rest => s.lists ++ listsAll rest

end

mutual

theorem length_lists_le : ∀ s : Selection, s.lists.length ≤ s.size
  | field _ _ _ inside => by
    have := length_listsAll_le inside
    simp only [lists, size, List.length_cons]; omega
  | inlineFragment _ _ inside => by
    have := length_listsAll_le inside
    simp only [lists, size, List.length_cons]; omega
  | fragmentSpread _ _ => Nat.zero_le _
  | unsupported _ => Nat.zero_le _

theorem length_listsAll_le : ∀ selections, (listsAll selections).length ≤ sizeAll selections
  | [] => Nat.le_refl _
  | s :: rest => by
    have h₁ := length_lists_le s
    have h₂ := length_listsAll_le rest
    simp only [listsAll, sizeAll, List.length_append]; omega

end

theorem lists_subset_listsAll {s : Selection} {selections : List Selection} (h : s ∈ selections) :
    s.lists ⊆ listsAll selections := by
  induction selections with
  | nil => cases h
  | cons s' rest ih =>
    rw [listsAll]
    rcases List.mem_cons.1 h with rfl | h
    · exact List.subset_append_left _ _
    · exact List.subset_append_of_subset_right _ (ih h)

mutual

theorem listsAll_subset_lists : ∀ (s : Selection) (l : List Selection), l ∈ s.lists →
    listsAll l ⊆ s.lists
  | field _ _ _ inside, l, h | inlineFragment _ _ inside, l, h => by
    rw [lists] at h ⊢
    rcases List.mem_cons.1 h with rfl | h
    · exact List.subset_cons_self _ _
    · exact List.subset_cons_of_subset _ (listsAll_subset inside l h)
  | fragmentSpread _ _, _, h | unsupported _, _, h => by cases h

theorem listsAll_subset : ∀ (selections l : List Selection), l ∈ listsAll selections →
    listsAll l ⊆ listsAll selections
  | [], _, h => by cases h
  | s :: rest, l, h => by
    rw [listsAll] at h ⊢
    rcases List.mem_append.1 h with h | h
    · exact List.subset_append_of_subset_left _ (listsAll_subset_lists s l h)
    · exact List.subset_append_of_subset_right _ (listsAll_subset rest l h)

end

end Selection

namespace FragmentTable

open Selection

/-- The selection lists in the fragments of a table. -/
def lists : FragmentTable → List (List Selection)
  | [] => []
  | (_, none) :: rest => lists rest
  | (_, some fragment) :: rest =>
    (fragment.selections :: listsAll fragment.selections) ++ lists rest

theorem length_lists_le (fragments : FragmentTable) : fragments.lists.length ≤ fragments.size := by
  fun_induction lists fragments with
  | case1 => exact Nat.le_refl _
  | case2 _ rest ih => simp only [size]; omega
  | case3 _ fragment rest ih =>
    have := length_listsAll_le fragment.selections
    simp only [size, List.length_append, List.length_cons]; omega

theorem selections_mem_lists {fragments : FragmentTable} {name : String} {fragment : Fragment}
    (h : fragments.find? name = some fragment) : fragment.selections ∈ fragments.lists := by
  fun_induction lists fragments with
  | case1 => cases h
  | case2 key rest ih =>
    rw [find?, Table.lookup_cons] at h
    split at h
    · cases h
    · exact ih h
  | case3 key entry rest ih =>
    rw [find?, Table.lookup_cons] at h
    split at h
    · cases h
      exact List.mem_append_left _ (List.mem_cons_self ..)
    · exact List.mem_append_right _ (ih h)

theorem listsAll_subset {fragments : FragmentTable} {l : List Selection}
    (h : l ∈ fragments.lists) : listsAll l ⊆ fragments.lists := by
  fun_induction lists fragments with
  | case1 => cases h
  | case2 _ rest ih => exact ih h
  | case3 _ fragment rest ih =>
    rcases List.mem_append.1 h with h | h
    · refine List.subset_append_of_subset_left _ ?_
      rcases List.mem_cons.1 h with rfl | h
      · exact List.subset_cons_self _ _
      · exact List.subset_cons_of_subset _ (Selection.listsAll_subset _ l h)
    · exact List.subset_append_of_subset_right _ (ih h)

end FragmentTable

/-! ### Scopes of rules -/

namespace Rule

mutual

/-- The scopes at and beneath a rule. -/
def scopes : Rule → List Rules
  | whole => []
  | within rules => rules :: scopesAll rules

def scopesAll : List (String × Rule) → List Rules
  | [] => []
  | (_, rule) :: rules => rule.scopes ++ scopesAll rules

end

mutual

theorem length_scopes_le : ∀ rule : Rule, rule.scopes.length ≤ rule.size
  | whole => Nat.zero_le _
  | within rules => by
    have := length_scopesAll_le rules
    simp only [scopes, size, List.length_cons]; omega

theorem length_scopesAll_le : ∀ rules : Rules, (scopesAll rules).length ≤ sizeAll rules
  | [] => Nat.le_refl _
  | (_, rule) :: rules => by
    have h₁ := length_scopes_le rule
    have h₂ := length_scopesAll_le rules
    simp only [scopesAll, sizeAll, List.length_append]; omega

end

theorem scopes_subset_scopesAll {key : String} {rule : Rule} {rules : Rules}
    (h : (key, rule) ∈ rules) : rule.scopes ⊆ scopesAll rules := by
  induction rules with
  | nil => cases h
  | cons entry rules ih =>
    rw [scopesAll]
    rcases List.mem_cons.1 h with rfl | h
    · exact List.subset_append_left _ _
    · exact List.subset_append_of_subset_right _ (ih h)

mutual

theorem scopesAll_subset_scopes : ∀ (rule : Rule) (scope : Rules), scope ∈ rule.scopes →
    scopesAll scope ⊆ rule.scopes
  | whole, _, h => by cases h
  | within rules, scope, h => by
    rw [scopes] at h ⊢
    rcases List.mem_cons.1 h with rfl | h
    · exact List.subset_cons_self _ _
    · exact List.subset_cons_of_subset _ (scopesAll_subset rules scope h)

theorem scopesAll_subset : ∀ (rules scope : Rules), scope ∈ scopesAll rules →
    scopesAll scope ⊆ scopesAll rules
  | [], _, h => by cases h
  | (_, rule) :: rules, scope, h => by
    rw [scopesAll] at h ⊢
    rcases List.mem_append.1 h with h | h
    · exact List.subset_append_of_subset_left _ (scopesAll_subset_scopes rule scope h)
    · exact List.subset_append_of_subset_right _ (scopesAll_subset rules scope h)

end

end Rule

namespace Rules

theorem mem_of_scan {name : String} {found : Option Rule} {rules : Rules} {rule : Rule}
    (h : scan name found rules = some rule) : found = some rule ∨ ∃ key, (key, rule) ∈ rules := by
  induction rules generalizing found with
  | nil => exact .inl h
  | cons entry rules ih =>
    obtain ⟨key, r⟩ := entry
    simp only [scan] at h
    split at h
    · split at h
      · cases h
        exact .inr ⟨key, List.mem_cons_self ..⟩
      · rcases ih h with h | ⟨k, hk⟩
        · cases h
          exact .inr ⟨key, List.mem_cons_self ..⟩
        · exact .inr ⟨k, List.mem_cons_of_mem _ hk⟩
    · rcases ih h with h | ⟨k, hk⟩
      · exact .inl h
      · exact .inr ⟨k, List.mem_cons_of_mem _ hk⟩

/-- The rule that applies to a field stands among the rules. -/
theorem mem_of_lookup {rules : Rules} {name : String} {rule : Rule}
    (h : rules.lookup name = some rule) : ∃ key, (key, rule) ∈ rules := by
  rw [lookup] at h
  split at h
  · next hk =>
    cases h
    exact ⟨name, Table.mem_of_lookup hk⟩
  · rcases mem_of_scan h with h | h
    · cases h
    · exact h

theorem inner_lookup_mem (rules : Rules) (name : String) :
    Rule.inner (rules.lookup name) = [] ∨
      Rule.inner (rules.lookup name) ∈ Rule.scopesAll rules := by
  cases h : rules.lookup name with
  | none => exact .inl rfl
  | some rule =>
    cases rule with
    | whole => exact .inl rfl
    | within inner =>
      obtain ⟨key, hk⟩ := mem_of_lookup h
      exact .inr (Rule.scopes_subset_scopesAll hk (List.mem_cons_self ..))

end Rules

/-! ### Calls within reach -/

namespace Collector

open Relation

variable {c : Collector} {x y root : Call} {n : Nat}

/-- The first call makes the second. -/
def Calls (c : Collector) (x y : Call) : Prop :=
  ∃ s ∈ x.selections, c.admits s = true ∧ c.call? x.rules s = some y

/-- The selection lists that calls from `selections` can be about. -/
def reachableLists (c : Collector) (selections : List Selection) : List (List Selection) :=
  (selections :: Selection.listsAll selections) ++ c.fragments.lists

/-- The scopes that calls under `rules` can be about. -/
def reachableScopes (rules : Rules) : List Rules := [] :: rules :: Rule.scopesAll rules

theorem length_mul_length_le_depth (c : Collector) (rules : Rules) (selections : List Selection) :
    (c.reachableLists selections).length * (reachableScopes rules).length ≤
      c.depth rules selections := by
  have h₁ := Selection.length_listsAll_le selections
  have h₂ := FragmentTable.length_lists_le c.fragments
  have h₃ := Rule.length_scopesAll_le rules
  refine Nat.mul_le_mul ?_ ?_
  · simp only [reachableLists, List.length_append, List.length_cons]; omega
  · simp only [reachableScopes, List.length_cons]; omega

theorem listsAll_subset_reachableLists {selections l : List Selection}
    (h : l ∈ c.reachableLists selections) :
    Selection.listsAll l ⊆ c.reachableLists selections := by
  rcases List.mem_append.1 h with h | h
  · refine List.subset_append_of_subset_left _ ?_
    rcases List.mem_cons.1 h with rfl | h
    · exact List.subset_cons_self _ _
    · exact List.subset_cons_of_subset _ (Selection.listsAll_subset _ _ h)
  · exact List.subset_append_of_subset_right _ (FragmentTable.listsAll_subset h)

theorem inner_lookup_mem_reachableScopes {rules scope : Rules} (h : scope ∈ reachableScopes rules)
    (name : String) : Rule.inner (scope.lookup name) ∈ reachableScopes rules := by
  rcases Rules.inner_lookup_mem scope name with he | hm
  · rw [he]
    exact List.mem_cons_self ..
  · refine List.mem_cons_of_mem _ ?_
    rcases List.mem_cons.1 h with rfl | h
    · cases hm
    · rcases List.mem_cons.1 h with rfl | h
      · exact List.mem_cons_of_mem _ hm
      · exact List.mem_cons_of_mem _ (Rule.scopesAll_subset _ _ h hm)

theorem Calls.mem_reachable (h : c.Calls x y)
    (hl : x.selections ∈ c.reachableLists root.selections)
    (hr : x.rules ∈ reachableScopes root.rules) :
    y.selections ∈ c.reachableLists root.selections ∧ y.rules ∈ reachableScopes root.rules := by
  obtain ⟨s, hs, -, hc⟩ := h
  have hsub : s.lists ⊆ c.reachableLists root.selections :=
    List.Subset.trans (Selection.lists_subset_listsAll hs) (listsAll_subset_reachableLists hl)
  cases s with
  | field name key ds inside =>
    by_cases hw : x.rules.lookup name = some .whole
    · rw [call?_skipped hw] at hc
      cases hc
    · rw [call?_kept hw] at hc
      split at hc
      · cases hc
      · cases hc
        exact ⟨hsub (List.mem_cons_self ..), inner_lookup_mem_reachableScopes hr name⟩
  | inlineFragment tc ds inside =>
    cases hc
    exact ⟨hsub (List.mem_cons_self ..), hr⟩
  | fragmentSpread name ds =>
    obtain ⟨fragment, hf, rfl⟩ := Option.map_eq_some_iff.1 hc
    exact ⟨List.mem_append_right _ (FragmentTable.selections_mem_lists hf), hr⟩
  | unsupported ds => cases hc

theorem mem_reachable (h : ReflTransGen c.Calls root x) :
    x.selections ∈ c.reachableLists root.selections ∧ x.rules ∈ reachableScopes root.rules := by
  induction h with
  | refl => exact ⟨List.mem_cons_self .., List.mem_cons_of_mem _ (List.mem_cons_self ..)⟩
  | tail _ hc ih => exact hc.mem_reachable ih.1 ih.2

/-- No more distinct calls can be reached than the depth says. -/
theorem card_le_depth {α : Type} [Fintype α] {call : α → Call} (hinj : Function.Injective call)
    (hr : ∀ a, ReflTransGen c.Calls root (call a)) :
    Fintype.card α ≤ c.depth root.rules root.selections := by
  have hl : ∀ a, ∃ i : Fin (c.reachableLists root.selections).length,
      (c.reachableLists root.selections).get i = (call a).selections :=
    fun a => List.get_of_mem (mem_reachable (hr a)).1
  have hs : ∀ a, ∃ i : Fin (reachableScopes root.rules).length,
      (reachableScopes root.rules).get i = (call a).rules :=
    fun a => List.get_of_mem (mem_reachable (hr a)).2
  choose list hlist using hl
  choose scope hscope using hs
  have hpair : Function.Injective fun a => (list a, scope a) := by
    intro a b hab
    obtain ⟨h₁, h₂⟩ := Prod.mk.inj hab
    refine hinj ?_
    have hsel : (call a).selections = (call b).selections := by rw [← hlist, ← hlist, h₁]
    have hrul : (call a).rules = (call b).rules := by rw [← hscope, ← hscope, h₂]
    cases ha : call a
    cases hb : call b
    simp_all
  have hcard := Fintype.card_le_of_injective _ hpair
  rw [Fintype.card_prod, Fintype.card_fin, Fintype.card_fin] at hcard
  exact hcard.trans (length_mul_length_le_depth c root.rules root.selections)

/-! ### How deep a reading goes -/

/-- The reading of a call ends at the depth `n + 1` and at no smaller one. -/
def Settles (c : Collector) (n : Nat) (x : Call) : Prop :=
  c.occurrencesWithin n x.rules x.selections = .error .endless ∧
    c.occurrencesWithin (n + 1) x.rules x.selections ≠ .error .endless

theorem Settles.eq {m : Nat} (hn : c.Settles n x) (hm : c.Settles m x) : n = m := by
  have hle : ∀ {i j : Nat}, c.Settles i x → c.Settles j x → i ≤ j := by
    intro i j hi hj
    by_contra hij
    have := occurrencesWithin_eq_of_le (show j + 1 ≤ i by omega) hj.2
    exact hj.2 (this ▸ hi.1)
  exact Nat.le_antisymm (hle hn hm) (hle hm hn)

/-- What needs the depth `n + 2` makes a call that needs the depth `n + 1`. -/
theorem Settles.exists_calls (h : c.Settles (n + 1) x) : ∃ y, c.Calls x y ∧ c.Settles n y := by
  by_contra hno
  refine h.2 ((occurrencesWithin_congr rfl (fun _ _ => rfl) fun s hs ha y hy => ?_).symm.trans h.1)
  by_cases hend : c.occurrencesWithin n y.rules y.selections = .error .endless
  · by_contra hne
    exact hno ⟨y, ⟨s, hs, ha, hy⟩, hend, fun he => hne (hend.trans he.symm)⟩
  · exact (occurrencesWithin_extends n _ _ hend).symm

theorem Settles.exists_reachable (h : c.Settles n x) :
    ∀ {k : Nat}, k ≤ n → ∃ y, ReflTransGen c.Calls x y ∧ c.Settles k y := by
  induction n generalizing x with
  | zero =>
    intro k hk
    obtain rfl := Nat.le_zero.1 hk
    exact ⟨x, .refl, h⟩
  | succ n ih =>
    intro k hk
    rcases Nat.le_or_eq_of_le_succ hk with hk | rfl
    · obtain ⟨y, hxy, hy⟩ := h.exists_calls
      obtain ⟨z, hyz, hz⟩ := ih hy hk
      exact ⟨z, .head hxy hyz, hz⟩
    · exact ⟨x, .refl, h⟩

theorem Settles.lt_depth (h : c.Settles n x) : n < c.depth x.rules x.selections := by
  have hchain : ∀ k : Fin (n + 1), ∃ y, ReflTransGen c.Calls x y ∧ c.Settles k y :=
    fun k => h.exists_reachable (Nat.le_of_lt_succ k.isLt)
  choose call hreach hsettles using hchain
  have hinj : Function.Injective call := by
    intro i j hij
    exact Fin.ext ((hsettles i).eq (hij ▸ hsettles j))
  have hcard := card_le_depth hinj hreach
  rwa [Fintype.card_fin] at hcard

theorem exists_settles (h : c.occurrencesWithin n x.rules x.selections ≠ .error .endless) :
    ∃ m, m < n ∧ c.Settles m x := by
  induction n with
  | zero => exact absurd rfl h
  | succ n ih =>
    by_cases hn : c.occurrencesWithin n x.rules x.selections = .error .endless
    · exact ⟨n, Nat.lt_succ_self n, hn, h⟩
    · obtain ⟨m, hm, hs⟩ := ih hn
      exact ⟨m, Nat.lt_succ_of_lt hm, hs⟩

/-- An answer at any depth is the answer. -/
theorem occurrences_eq_of_ne_endless {rules : Rules} {selections : List Selection}
    (h : c.occurrencesWithin n rules selections ≠ .error .endless) :
    c.occurrences rules selections = c.occurrencesWithin n rules selections := by
  obtain ⟨m, hm, hs⟩ := exists_settles (x := ⟨rules, selections⟩) h
  have hd : m + 1 ≤ c.depth rules selections := hs.lt_depth
  rw [occurrences, occurrencesWithin_eq_of_le hd hs.2, occurrencesWithin_eq_of_le hm hs.2]

/-- Two readings of which each gives, at some depth, whatever the other answers have one outcome. -/
theorem occurrences_eq_of_answers {c' : Collector} {rules : Rules}
    {selections selections' : List Selection}
    (h : ∀ n, c.occurrencesWithin n rules selections ≠ .error .endless →
      ∃ m, c'.occurrencesWithin m rules selections' = c.occurrencesWithin n rules selections)
    (h' : ∀ n, c'.occurrencesWithin n rules selections' ≠ .error .endless →
      ∃ m, c.occurrencesWithin m rules selections = c'.occurrencesWithin n rules selections') :
    c.occurrences rules selections = c'.occurrences rules selections' := by
  by_cases hc : c.occurrences rules selections = .error .endless
  · by_contra hne
    have hc' : c'.occurrences rules selections' ≠ .error .endless := fun he => hne (hc.trans he.symm)
    obtain ⟨m, hm⟩ := h' _ hc'
    have hanswer := occurrences_eq_of_ne_endless (hm.trans_ne hc')
    exact hc' (hm.symm.trans (hanswer.symm.trans hc))
  · obtain ⟨m, hm⟩ := h _ hc
    exact hm.symm.trans (occurrences_eq_of_ne_endless (hm.trans_ne hc)).symm

theorem reads_iff {rules : Rules} {selections : List Selection} {found : List Occurrence} :
    c.Reads rules selections found ↔ c.occurrences rules selections = .ok found := by
  constructor
  · intro h
    obtain ⟨n, hn⟩ := reads_iff_exists_depth.1 h
    rw [occurrences_eq_of_ne_endless (n := n) (by simp [hn]), hn]
  · intro h
    exact reads_iff_exists_depth.2 ⟨_, h⟩

theorem Reads.eq {rules : Rules} {selections : List Selection} {found found' : List Occurrence}
    (h : c.Reads rules selections found) (h' : c.Reads rules selections found') :
    found = found' :=
  Except.ok.inj ((reads_iff.1 h).symm.trans (reads_iff.1 h'))

/-- Collecting is reading and merging what was read. -/
theorem Reads.collect_eq {rules : Rules} {selections : List Selection} {found : List Occurrence}
    (h : c.Reads rules selections found) (fields : Fields) :
    c.collect rules selections fields =
      .ok ⟨fields.absorb found, (Occurrence.unknownFragments found).map .unknownFragment⟩ := by
  rw [collect, reads_iff.1 h]
  rfl

theorem exists_reads_of_collect {rules : Rules} {selections : List Selection} {fields : Fields}
    {result : Logged Fields} (h : c.collect rules selections fields = .ok result) :
    ∃ found, c.Reads rules selections found ∧
      result = ⟨fields.absorb found, (Occurrence.unknownFragments found).map .unknownFragment⟩ := by
  obtain ⟨found, ho, he⟩ := bind_eq_ok_iff.1 h
  exact ⟨found, reads_iff.2 ho, (Except.ok.inj he).symm⟩

end Collector

end Lookahead
