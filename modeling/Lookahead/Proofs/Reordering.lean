import Lookahead.Proofs.Absorption

/-!
# The order of selections

Selections may be written in any order, at any depth and in the fragments as well
(`Selection.Reordered`, `FragmentTable.Reordered`). What is read for them are then occurrences that
ask for the same (`Occurrence.Alike`): at no depth does a reading notice more than the order
(`occurrencesWithin_follows`). Hence the same fields are collected, in some order, and the same is
reported, in some order (`collect_reordered`).
-/

namespace Lookahead

/-- The second list has the selections of the first in some order, at every depth. -/
inductive Selection.Reordered : List Selection → List Selection → Prop
  | nil : Reordered [] []
  | field {name key ds inside inside' rest rest'} (head : Reordered inside inside')
    (tail : Reordered rest rest') :
    Reordered (.field name key ds inside :: rest) (.field name key ds inside' :: rest')
  | inlineFragment {tc ds inside inside' rest rest'} (head : Reordered inside inside')
    (tail : Reordered rest rest') :
    Reordered (.inlineFragment tc ds inside :: rest) (.inlineFragment tc ds inside' :: rest')
  | fragmentSpread {name ds rest rest'} (tail : Reordered rest rest') :
    Reordered (.fragmentSpread name ds :: rest) (.fragmentSpread name ds :: rest')
  | unsupported {ds rest rest'} (tail : Reordered rest rest') :
    Reordered (.unsupported ds :: rest) (.unsupported ds :: rest')
  | swap (s s' rest) : Reordered (s :: s' :: rest) (s' :: s :: rest)
  | trans {l l' l''} (first : Reordered l l') (second : Reordered l' l'') : Reordered l l''

/-- The tables define the same fragments, with selections that are reordered. -/
def FragmentTable.Reordered (fragments fragments' : FragmentTable) : Prop :=
  ∀ name, Option.Rel (fun fragment fragment' =>
    Selection.Reordered fragment.selections fragment'.selections)
    (fragments.find? name) (fragments'.find? name)

namespace Selection.Reordered

mutual

theorem cons : ∀ (s : Selection) {rest rest' : List Selection}, Reordered rest rest' →
    Reordered (s :: rest) (s :: rest')
  | .field _ _ _ inside, _, _, h => .field (refl inside) h
  | .inlineFragment _ _ inside, _, _, h => .inlineFragment (refl inside) h
  | .fragmentSpread _ _, _, _, h => .fragmentSpread h
  | .unsupported _, _, _, h => .unsupported h

theorem refl : ∀ selections : List Selection, Reordered selections selections
  | [] => .nil
  | s :: rest => cons s (refl rest)

end

theorem of_perm {l l' : List Selection} (h : l.Perm l') : Reordered l l' := by
  induction h with
  | nil => exact .nil
  | cons s _ ih => exact .cons s ih
  | swap s s' rest => exact .swap s' s rest
  | trans _ _ ih₁ ih₂ => exact .trans ih₁ ih₂

theorem symm {l l' : List Selection} (h : Reordered l l') : Reordered l' l := by
  induction h with
  | nil => exact .nil
  | field _ _ ih₁ ih₂ => exact .field ih₁ ih₂
  | inlineFragment _ _ ih₁ ih₂ => exact .inlineFragment ih₁ ih₂
  | fragmentSpread _ ih => exact .fragmentSpread ih
  | unsupported _ ih => exact .unsupported ih
  | swap s s' rest => exact .swap s' s rest
  | trans _ _ ih₁ ih₂ => exact .trans ih₂ ih₁

theorem isEmpty_eq {l l' : List Selection} (h : Reordered l l') : l'.isEmpty = l.isEmpty := by
  induction h with
  | trans _ _ ih₁ ih₂ => rw [ih₂, ih₁]
  | _ => rfl

end Selection.Reordered

namespace FragmentTable.Reordered

variable {fragments fragments' : FragmentTable}

theorem refl (fragments : FragmentTable) : fragments.Reordered fragments := by
  intro name
  cases fragments.find? name with
  | none => exact .none
  | some fragment => exact .some (.refl _)

theorem symm (h : fragments.Reordered fragments') : fragments'.Reordered fragments := by
  intro name
  have h := h name
  revert h
  cases fragments.find? name <;> cases fragments'.find? name <;> intro h <;> cases h
  · exact .none
  · next h => exact .some h.symm

end FragmentTable.Reordered

namespace Occurrence

open Fields

/-- Both lists of occurrences request the same fields and spread the same unknown fragments. -/
structure Alike (os os' : List Occurrence) : Prop where
  covers : Covers (absorb [] os) (absorb [] os')
  covered : Covers (absorb [] os') (absorb [] os)
  unknown : (unknownFragments os).Perm (unknownFragments os')

theorem covers_branch {os os' : List Occurrence} (h : Covers (absorb [] os) (absorb [] os'))
    (name : String) : Covers (absorb [] [branch name os]) (absorb [] [branch name os']) := by
  rintro (_ | ⟨key, path⟩) level hd
  · cases hd
    exact ⟨_, rfl, fun n hn => by simpa [mem_keys_absorb, names, fieldName?] using hn⟩
  · obtain ⟨inside, hk, hd⟩ := exists_branch_of_descend? hd
    have hkey : key = name := by
      have hmem := Table.lookup_isSome_iff.1 (Option.isSome_of_eq_some hk)
      simpa [mem_keys_absorb, names, fieldName?] using hmem
    subst hkey
    rw [lookup_absorb_single] at hk
    cases hk
    obtain ⟨level', hd', hsub⟩ := h path level hd
    exact ⟨level', by rwa [descend?_branch (lookup_absorb_single key os)], hsub⟩

namespace Alike

variable {x x' y y' : List Occurrence}

theorem refl (os : List Occurrence) : Alike os os := ⟨.refl _, .refl _, .refl _⟩

theorem symm (h : Alike x y) : Alike y x := ⟨h.covered, h.covers, h.unknown.symm⟩

theorem trans {z : List Occurrence} (h : Alike x y) (h' : Alike y z) : Alike x z :=
  ⟨h.covers.trans h'.covers, h'.covered.trans h.covered, h.unknown.trans h'.unknown⟩

theorem append (hx : Alike x x') (hy : Alike y y') : Alike (x ++ y) (x' ++ y') := by
  constructor
  · exact covers_absorb_append.2
      ⟨(covers_absorb_left x y).trans hx.covers, (covers_absorb_right x y).trans hy.covers⟩
  · exact covers_absorb_append.2
      ⟨(covers_absorb_left x' y').trans hx.covered, (covers_absorb_right x' y').trans hy.covered⟩
  · rw [unknownFragments_append, unknownFragments_append]
    exact hx.unknown.append hy.unknown

theorem comm (x y : List Occurrence) : Alike (x ++ y) (y ++ x) := by
  constructor
  · exact covers_absorb_append.2 ⟨covers_absorb_right x y, covers_absorb_left x y⟩
  · exact covers_absorb_append.2 ⟨covers_absorb_right y x, covers_absorb_left y x⟩
  · rw [unknownFragments_append, unknownFragments_append]
    exact List.perm_append_comm

theorem branch (h : Alike x y) (name : String) : Alike [.branch name x] [.branch name y] := by
  refine ⟨covers_branch h.covers name, covers_branch h.covered name, ?_⟩
  simpa [unknownFragments, Occurrence.unknown] using h.unknown

theorem covers_absorb_root (h : Alike x y) (fields : Fields) :
    Covers (absorb fields x) (absorb fields y) :=
  covers_absorb_root_iff.2
    ⟨(retains_absorb fields x).covers, (covers_absorb fields x).trans h.covers⟩

/-- Wherever they are merged into, the outcome is the same. -/
theorem same_absorb (h : Alike x y) {fields : Fields} (hd : Distinct fields) :
    (Tree.branch (absorb fields x)).same (.branch (absorb fields y)) = true :=
  same_of_covers (hd.absorb_root x) (hd.absorb_root y) (h.covers_absorb_root fields)
    (h.symm.covers_absorb_root fields)

end Alike

end Occurrence

/-! ### Reading what is reordered -/

/-- Where the first outcome is an answer, the second is an answer that is alike. -/
def Follows (r r' : Except Halt (List Occurrence)) : Prop :=
  ∀ found, r = .ok found → ∃ found', r' = .ok found' ∧ Occurrence.Alike found found'

namespace Follows

variable {x x' y y' : Except Halt (List Occurrence)}

theorem refl (x : Except Halt (List Occurrence)) : Follows x x := fun found h => ⟨found, h, .refl _⟩

theorem trans (h : Follows x x') (h' : Follows x' y) : Follows x y := by
  intro found hx
  obtain ⟨found', hx', ha⟩ := h found hx
  obtain ⟨found'', hy, ha'⟩ := h' found' hx'
  exact ⟨found'', hy, ha.trans ha'⟩

theorem append (hx : Follows x x') (hy : Follows y y') :
    Follows (do let first ← x; let others ← y; return first ++ others)
      (do let first ← x'; let others ← y'; return first ++ others) := by
  intro found h
  obtain ⟨first, h₁, h⟩ := bind_eq_ok_iff.1 h
  obtain ⟨others, h₂, h⟩ := bind_eq_ok_iff.1 h
  cases h
  obtain ⟨first', h₁', ha⟩ := hx first h₁
  obtain ⟨others', h₂', ha'⟩ := hy others h₂
  exact ⟨first' ++ others', by rw [h₁', h₂']; rfl, ha.append ha'⟩

theorem branch (h : Follows x x') (name : String) :
    Follows (x.map fun found => [.branch name found]) (x'.map fun found => [.branch name found]) := by
  intro found hx
  cases x with
  | error e => cases hx
  | ok inside =>
    cases hx
    obtain ⟨inside', hx', ha⟩ := h inside rfl
    exact ⟨_, by rw [hx']; rfl, ha.branch name⟩

end Follows

namespace Collector

variable {c c' : Collector} {rules : Rules} {n : Nat}

/-- What one reader answers, the other answers alike for reordered selections. -/
def Reader.Follows (read read' : Reader) : Prop :=
  ∀ rules selections selections', Selection.Reordered selections selections' →
    Lookahead.Follows (read rules selections) (read' rules selections')

section

variable {read read' : Reader}

theorem occurrencesOf_field_follows (hr : Reader.Follows read read') {inside inside' : List Selection}
    (h : Selection.Reordered inside inside') (name : String) (key : Option String)
    (ds : List Directive) :
    Follows (c.occurrencesOf read rules (.field name key ds inside))
      (c'.occurrencesOf read' rules (.field name key ds inside')) := by
  by_cases hl : rules.lookup name = some .whole
  · rw [occurrencesOf_skipped hl, occurrencesOf_skipped hl]
    exact .refl _
  · rw [occurrencesOf_kept hl, occurrencesOf_kept hl, h.isEmpty_eq]
    split
    · exact .refl _
    · exact (hr _ _ _ h).branch name

theorem occurrencesOf_follows (hr : Reader.Follows read read')
    (ht : c.fragments.Reordered c'.fragments) (s : Selection) :
    Follows (c.occurrencesOf read rules s) (c'.occurrencesOf read' rules s) := by
  cases s with
  | field name key ds inside => exact occurrencesOf_field_follows hr (.refl inside) name key ds
  | inlineFragment tc ds inside => exact hr rules inside inside (.refl inside)
  | fragmentSpread name ds =>
    have hname := ht name
    simp only [occurrencesOf]
    cases hf : c.fragments.find? name with
    | none =>
      rw [hf] at hname
      cases hf' : c'.fragments.find? name with
      | none => exact .refl _
      | some fragment' => rw [hf'] at hname; cases hname
    | some fragment =>
      rw [hf] at hname
      cases hf' : c'.fragments.find? name with
      | none => rw [hf'] at hname; cases hname
      | some fragment' =>
        rw [hf'] at hname
        cases hname with
        | some h => exact hr rules _ _ h
  | unsupported ds => exact .refl _

end

theorem occurrencesWithin_cons_follows {s s' : Selection} {rest rest' : List Selection}
    (ha : c'.admits s' = c.admits s)
    (hs : Follows (c.occurrencesOf (c.occurrencesWithin n) rules s)
      (c'.occurrencesOf (c'.occurrencesWithin n) rules s'))
    (hrest : Follows (c.occurrencesWithin (n + 1) rules rest)
      (c'.occurrencesWithin (n + 1) rules rest')) :
    Follows (c.occurrencesWithin (n + 1) rules (s :: rest))
      (c'.occurrencesWithin (n + 1) rules (s' :: rest')) := by
  rw [occurrencesWithin_cons, occurrencesWithin_cons, ha]
  split
  · exact hs.append hrest
  · exact hrest

theorem occurrencesWithin_swap_follows (s s' : Selection) (rest : List Selection) :
    Follows (c.occurrencesWithin (n + 1) rules (s :: s' :: rest))
      (c.occurrencesWithin (n + 1) rules (s' :: s :: rest)) := by
  simp only [occurrencesWithin_cons]
  by_cases ha : c.admits s = true
  · by_cases ha' : c.admits s' = true
    · rw [if_pos ha, if_pos ha', if_pos ha', if_pos ha]
      intro found h
      obtain ⟨first, h₁, h⟩ := bind_eq_ok_iff.1 h
      obtain ⟨_, h', h⟩ := bind_eq_ok_iff.1 h
      obtain ⟨second, h₂, h'⟩ := bind_eq_ok_iff.1 h'
      obtain ⟨others, h₃, h'⟩ := bind_eq_ok_iff.1 h'
      cases h'
      cases h
      refine ⟨second ++ (first ++ others), by rw [h₁, h₂, h₃]; rfl, ?_⟩
      rw [← List.append_assoc, ← List.append_assoc]
      exact (Occurrence.Alike.comm first second).append (.refl others)
    · rw [if_pos ha, if_neg ha', if_neg ha', if_pos ha]
      exact .refl _
  · rw [if_neg ha, if_neg ha]
    exact .refl _

/-- At every depth, what is reordered is read alike. -/
theorem occurrencesWithin_follows (n : Nat) {c c' : Collector}
    (ht : c.fragments.Reordered c'.fragments) (ha : ∀ s, c'.admits s = c.admits s) :
    Reader.Follows (c.occurrencesWithin n) (c'.occurrencesWithin n) := by
  induction n generalizing c c' with
  | zero => intro rules selections selections' _ found h; cases h
  | succ n ih =>
    intro rules selections selections' h
    -- first the fragments, then the selections that use them
    have hfragments : Follows (c.occurrencesWithin (n + 1) rules selections)
        (c'.occurrencesWithin (n + 1) rules selections) := by
      clear h
      induction selections with
      | nil => exact .refl _
      | cons s rest ihs =>
        exact occurrencesWithin_cons_follows (ha s) (occurrencesOf_follows (ih ht ha) ht s) ihs
    refine hfragments.trans ?_
    have hread : Reader.Follows (c'.occurrencesWithin n) (c'.occurrencesWithin n) :=
      ih (.refl _) fun _ => rfl
    clear hfragments
    induction h with
    | nil => exact .refl _
    | field head _ _ ih₂ =>
      exact occurrencesWithin_cons_follows rfl (occurrencesOf_field_follows hread head _ _ _) ih₂
    | inlineFragment head _ _ ih₂ =>
      exact occurrencesWithin_cons_follows rfl (hread rules _ _ head) ih₂
    | fragmentSpread _ ih => exact occurrencesWithin_cons_follows rfl (.refl _) ih
    | unsupported _ ih => exact occurrencesWithin_cons_follows rfl (.refl _) ih
    | swap s s' rest => exact occurrencesWithin_swap_follows s s' rest
    | trans _ _ ih₁ ih₂ => exact ih₁.trans ih₂

theorem Reads.reordered {selections selections' : List Selection} {found : List Occurrence}
    (hr : c.Reads rules selections found) (c' : Collector) (ht : c.fragments.Reordered c'.fragments)
    (ha : ∀ s, c'.admits s = c.admits s) (h : Selection.Reordered selections selections') :
    ∃ found', c'.Reads rules selections' found' ∧ Occurrence.Alike found found' := by
  obtain ⟨n, hn⟩ := reads_iff_exists_depth.1 hr
  obtain ⟨found', hn', hal⟩ := occurrencesWithin_follows n ht ha rules _ _ h found hn
  exact ⟨found', reads_iff_exists_depth.2 ⟨n, hn'⟩, hal⟩

/-- With the selections and those of the fragments in another order, collecting comes to an end all
the same, with the same fields and the same reports. -/
theorem collect_reordered (c : Collector) {fragments : FragmentTable}
    (ht : c.fragments.Reordered fragments) {selections selections' : List Selection}
    (hs : Selection.Reordered selections selections') (rules : Rules) {fields : Fields}
    (hd : fields.Distinct) :
    ((∃ result, c.collect rules selections fields = .ok result) ↔
      ∃ result', { c with fragments }.collect rules selections' fields = .ok result') ∧
    ∀ result result', c.collect rules selections fields = .ok result →
      { c with fragments }.collect rules selections' fields = .ok result' →
      (Tree.branch result.value).same (.branch result'.value) = true ∧
        result.records.Perm result'.records := by
  constructor
  · constructor
    · rintro ⟨result, h⟩
      obtain ⟨found, hr, -⟩ := exists_reads_of_collect h
      obtain ⟨found', hr', -⟩ := hr.reordered { c with fragments } ht (fun _ => rfl) hs
      exact ⟨_, hr'.collect_eq fields⟩
    · rintro ⟨result', h⟩
      obtain ⟨found', hr', -⟩ := exists_reads_of_collect h
      obtain ⟨found, hr, -⟩ := hr'.reordered c ht.symm (fun _ => rfl) hs.symm
      exact ⟨_, hr.collect_eq fields⟩
  · intro result result' h h'
    obtain ⟨found, hr, rfl⟩ := exists_reads_of_collect h
    obtain ⟨found', hr', rfl⟩ := exists_reads_of_collect h'
    obtain ⟨found'', hr'', halike⟩ := hr.reordered { c with fragments } ht (fun _ => rfl) hs
    rw [hr''.eq hr'] at halike
    exact ⟨halike.same_absorb hd, halike.unknown.map _⟩

/-- `{ a ...U b { ...F q } b ...V }` -/
def written : List Selection :=
  [.field "a" none [] [], .fragmentSpread "U" [],
    .field "b" none [] [.fragmentSpread "F" [], .field "q" none [] []],
    .field "b" none [] [], .fragmentSpread "V" []]

/-- `{ ...V b b { q ...F } ...U a }` -/
def rewritten : List Selection :=
  [.fragmentSpread "V" [], .field "b" none [] [],
    .field "b" none [] [.field "q" none [] [], .fragmentSpread "F" []],
    .fragmentSpread "U" [], .field "a" none [] []]

/-- `fragment F { x y { p } }` -/
def writtenFragments : FragmentTable :=
  [("F", some ⟨none, [], [.field "x" none [] [], .field "y" none [] [.field "p" none [] []]]⟩)]

/-- `fragment F { y { p } x }` -/
def rewrittenFragments : FragmentTable :=
  [("F", some ⟨none, [], [.field "y" none [] [.field "p" none [] []], .field "x" none [] []]⟩)]

theorem collect_rewritten :
    writtenFragments.Reordered rewrittenFragments ∧
    Selection.Reordered written rewritten ∧
    Fields.Distinct [("q", .leaf)] ∧
    (Collector.mk writtenFragments [] true).collect [] written [("q", .leaf)] =
      .ok ⟨[("q", .leaf), ("a", .leaf),
        ("b", .branch [("x", .leaf), ("y", .branch [("p", .leaf)]), ("q", .leaf)])],
        [.unknownFragment "U", .unknownFragment "V"]⟩ ∧
    ∃ result',
      (Collector.mk rewrittenFragments [] true).collect [] rewritten [("q", .leaf)] = .ok result' ∧
      (Tree.branch [("q", .leaf), ("a", .leaf), ("b", .branch [("x", .leaf),
        ("y", .branch [("p", .leaf)]), ("q", .leaf)])]).same (.branch result'.value) = true ∧
      [.unknownFragment "U", .unknownFragment "V"].Perm result'.records := by
  have ht : writtenFragments.Reordered rewrittenFragments := by
    intro name
    rw [FragmentTable.find?, FragmentTable.find?, writtenFragments, rewrittenFragments,
      Table.lookup_cons, Table.lookup_cons]
    split
    · exact .some (.swap _ _ _)
    · exact .none
  have hs : Selection.Reordered written rewritten := by
    have hinside : Selection.Reordered written rewritten.reverse :=
      .cons _ (.fragmentSpread (.field (.swap _ _ _) (.refl _)))
    exact hinside.trans (.of_perm (List.reverse_perm _))
  have hd : Fields.Distinct [("q", .leaf)] := Fields.distinct_absorb [.leaf "q"]
  have hc : (Collector.mk writtenFragments [] true).collect [] written [("q", .leaf)] =
    .ok ⟨[("q", .leaf), ("a", .leaf),
      ("b", .branch [("x", .leaf), ("y", .branch [("p", .leaf)]), ("q", .leaf)])],
      [.unknownFragment "U", .unknownFragment "V"]⟩ := rfl
  obtain ⟨hends, hsame⟩ := collect_reordered ⟨writtenFragments, [], true⟩ ht hs [] hd
  obtain ⟨result', hc'⟩ := hends.1 ⟨_, hc⟩
  exact ⟨ht, hs, hd, hc, result', hc', hsame _ _ hc hc'⟩

end Collector

end Lookahead
