import Lookahead.Wildcard
import Mathlib.Data.List.Basic

/-!
# What a wildcard matches

A name matches a pattern if it contains the parts between the stars one after another, with gaps
without a line feed between them. The search commits to the first place that can be reached for each
part but the first, and misses nothing by it: the rest behind that place is the rest behind any other
place with no more than a gap before it (`exists_afterNext`), and what follows behind a gap follows
(`Follows.of_gap`). Without a line feed in the name the first part as well can be put at its first
place. Empty parts make no difference, and neither does what surrounds a match (`accepts_iff`).
-/

namespace Lookahead.Wildcard

/-- The text between the stars of a pattern. -/
def parts (pattern : String) : List (List Char) := pattern.toList.splitOn '*'

/-- The parts between the stars that are not empty. -/
def literals (pattern : String) : List (List Char) := (parts pattern).filter (! ·.isEmpty)

/-- The text starts with the parts one after another, each behind a gap without a line feed. -/
def Follows : List (List Char) → List Char → Prop
  | [], _ => True
  | part :: parts, text =>
    ∃ gap rest, text = gap ++ part ++ rest ∧ '\n' ∉ gap ∧ Follows parts rest

/-- What remains of a text behind the first occurrence of a part. -/
def behind? (text part : List Char) : Option (List Char) := (text.dropInfix? part).map Prod.snd

variable {part gap text rest : List Char} {ps : List (List Char)} {c : Char}

/-! ### The first occurrence of a part -/

theorem dropInfix?_iff : text.dropInfix? part = some (gap, rest) ↔ text = gap ++ part ++ rest ∧
    ∀ gap' rest', text = gap' ++ part ++ rest' → gap.length ≤ gap'.length := by
  rw [List.dropInfix?_eq_some_iff]
  simp only [beq_iff_eq, exists_eq_right]
  refine and_congr_right fun _ => ⟨fun h gap' rest' h' => h gap' part rest' h' rfl, ?_⟩
  rintro h gap' _ rest' h' rfl
  exact h gap' rest' h'

theorem dropInfix?_of_isPrefixOf? {found : List Char} (hp : part.isPrefixOf? text = some found) :
    text.dropInfix? part = some (gap, rest) ↔ gap = [] ∧ rest = found := by
  rw [List.isPrefixOf?_eq_some_iff_append_eq] at hp
  rw [dropInfix?_iff]
  constructor
  · rintro ⟨h, hfirst⟩
    obtain rfl := List.eq_nil_of_length_eq_zero (Nat.le_zero.1 (hfirst [] found hp.symm))
    rw [h, List.nil_append] at hp
    exact ⟨rfl, (List.append_cancel_left hp).symm⟩
  · rintro ⟨rfl, rfl⟩
    exact ⟨hp.symm, fun _ _ _ => Nat.zero_le _⟩

theorem dropInfix?_cons (hp : part.isPrefixOf? (c :: text) = none) :
    (c :: text).dropInfix? part = some (gap, rest) ↔
      ∃ gap', gap = c :: gap' ∧ text.dropInfix? part = some (gap', rest) := by
  have hgap : ∀ {gap rest}, c :: text = gap ++ part ++ rest →
      ∃ gap', gap = c :: gap' ∧ text = gap' ++ part ++ rest := by
    rintro (_ | ⟨d, gap⟩) rest h
    · rw [List.nil_append] at h
      rw [List.isPrefixOf?_eq_some_iff_append_eq.2 h.symm] at hp
      cases hp
    · obtain ⟨rfl, rfl⟩ := List.cons.inj h
      exact ⟨gap, rfl, rfl⟩
  simp only [dropInfix?_iff]
  constructor
  · rintro ⟨h, hfirst⟩
    obtain ⟨gap, rfl, htext⟩ := hgap h
    refine ⟨gap, rfl, htext, fun gap' rest' h' => ?_⟩
    exact Nat.le_of_succ_le_succ (hfirst (c :: gap') rest' (by rw [h']; rfl))
  · rintro ⟨gap, rfl, rfl, hfirst⟩
    refine ⟨rfl, fun gap' rest' h' => ?_⟩
    obtain ⟨gap', rfl, htext⟩ := hgap h'
    exact Nat.succ_le_succ (hfirst gap' rest' htext)

/-- What occurs has a first occurrence. -/
theorem exists_dropInfix? {gap rest : List Char} (h : text = gap ++ part ++ rest) :
    ∃ gap' rest', text.dropInfix? part = some (gap', rest') ∧ gap'.length ≤ gap.length := by
  by_cases hfirst : ∀ gap' rest', text = gap' ++ part ++ rest' → gap.length ≤ gap'.length
  · exact ⟨gap, rest, dropInfix?_iff.2 ⟨h, hfirst⟩, Nat.le_refl _⟩
  · push Not at hfirst
    obtain ⟨gap', rest', h', hlt⟩ := hfirst
    obtain ⟨gap'', rest'', hd, hle⟩ := exists_dropInfix? h'
    exact ⟨gap'', rest'', hd, by omega⟩
termination_by gap.length

/-! ### The next part -/

/-- The next occurrence is the first one, if that can be reached. -/
theorem afterNext_eq_some_iff : afterNext part text = some rest ↔
    ∃ gap, text.dropInfix? part = some (gap, rest) ∧ '\n' ∉ gap := by
  induction text with
  | nil =>
    cases part with
    | nil => simp [afterNext]
    | cons d part => simp [afterNext, dropInfix?_iff]
  | cons c text ih =>
    rw [afterNext]
    split
    · next found hp =>
      simp only [dropInfix?_of_isPrefixOf? hp]
      simp [eq_comm]
    · next hp =>
      simp only [dropInfix?_cons hp]
      split
      · next hc => simp [hc]
      · next hc => simp [ih, Ne.symm hc]

/-- Wherever a part can be reached, the rest behind it can be reached from behind the next
occurrence. -/
theorem exists_afterNext (h : text = gap ++ part ++ rest) (hn : '\n' ∉ gap) :
    ∃ gap', afterNext part text = some (gap' ++ rest) ∧ '\n' ∉ gap' := by
  obtain ⟨first, found, hd, hle⟩ := exists_dropInfix? h
  have hsplit := (dropInfix?_iff.1 hd).1
  have hfirst : first <+: text := ⟨part ++ found, by rw [hsplit, List.append_assoc]⟩
  have hgap : gap <+: text := ⟨part ++ rest, by rw [h, List.append_assoc]⟩
  obtain ⟨between, rfl⟩ := List.prefix_of_prefix_length_le hfirst hgap hle
  rw [List.mem_append, not_or] at hn
  have hnext : afterNext part text = some found := afterNext_eq_some_iff.2 ⟨first, hd, hn.1⟩
  have heq : part ++ found = between ++ part ++ rest := by
    rw [h] at hsplit
    simpa using hsplit.symm
  rcases List.append_eq_append_iff.1 heq with ⟨gap', hpart, hfound⟩ | ⟨more, hpart, hrest⟩
  · refine ⟨gap', hfound ▸ hnext, ?_⟩
    -- as many line feeds as before the later occurrence
    have hcount := congrArg (List.count '\n') hpart
    rw [List.count_append, List.count_append, List.count_eq_zero.2 hn.2] at hcount
    exact List.count_eq_zero.1 (by omega)
  · have hlength := congrArg List.length hpart
    simp only [List.length_append] at hlength
    obtain rfl : more = [] := List.eq_nil_of_length_eq_zero (by omega)
    exact ⟨[], by rw [hnext, hrest]; rfl, List.not_mem_nil⟩

/-! ### All parts -/

theorem Follows.of_gap (hn : '\n' ∉ gap) (h : Follows ps text) : Follows ps (gap ++ text) := by
  cases ps with
  | nil => trivial
  | cons part ps =>
    obtain ⟨gap', rest, rfl, hn', hrest⟩ := h
    refine ⟨gap ++ gap', rest, by simp, ?_, hrest⟩
    rw [List.mem_append, not_or]
    exact ⟨hn, hn'⟩

theorem Follows.append (h : Follows ps text) (more : List Char) : Follows ps (text ++ more) := by
  induction ps generalizing text with
  | nil => trivial
  | cons part ps ih =>
    obtain ⟨gap, rest, rfl, hn, hrest⟩ := h
    exact ⟨gap, rest ++ more, by simp, hn, ih hrest⟩

theorem follow_iff : follow ps text = true ↔ Follows ps text := by
  induction ps generalizing text with
  | nil => exact iff_of_true rfl trivial
  | cons part ps ih =>
    rw [follow, Follows]
    constructor
    · intro h
      split at h
      · next rest hnext =>
        obtain ⟨gap, hd, hn⟩ := afterNext_eq_some_iff.1 hnext
        exact ⟨gap, rest, (dropInfix?_iff.1 hd).1, hn, ih.1 h⟩
      · cases h
    · rintro ⟨gap, rest, h, hn, hrest⟩
      obtain ⟨gap', hnext, hn'⟩ := exists_afterNext h hn
      rw [hnext]
      exact ih.2 (hrest.of_gap hn')

theorem follows_iff : Follows ps text ↔ ∃ gaps rest, gaps.length = ps.length ∧
    (∀ gap ∈ gaps, '\n' ∉ gap) ∧ text = (List.zipWith (· ++ ·) gaps ps).flatten ++ rest := by
  induction ps generalizing text with
  | nil => exact iff_of_true trivial ⟨[], text, rfl, nofun, rfl⟩
  | cons part ps ih =>
    rw [Follows]
    simp only [ih]
    constructor
    · rintro ⟨gap, _, rfl, hn, gaps, rest, hlen, hgaps, rfl⟩
      exact ⟨gap :: gaps, rest, by simp [hlen], by simpa using ⟨hn, hgaps⟩, by simp⟩
    · rintro ⟨_ | ⟨gap, gaps⟩, rest, hlen, hgaps, rfl⟩
      · cases hlen
      · refine ⟨gap, _, ?_, hgaps gap (List.mem_cons_self ..), gaps, rest, by simpa using hlen,
          fun g hg => hgaps g (List.mem_cons_of_mem _ hg), rfl⟩
        simp

/-- Empty parts make no difference. -/
theorem follows_filter_iff : Follows (ps.filter (! ·.isEmpty)) text ↔ Follows ps text := by
  induction ps generalizing text with
  | nil => rfl
  | cons part ps ih =>
    cases part with
    | nil =>
      rw [List.filter_cons_of_neg (by simp), ih]
      constructor
      · intro h
        exact ⟨[], text, rfl, List.not_mem_nil, h⟩
      · rintro ⟨gap, rest, rfl, hn, h⟩
        rw [List.append_nil]
        exact h.of_gap hn
    | cons c part =>
      rw [List.filter_cons_of_pos (by simp), Follows, Follows]
      simp only [ih]

/-! ### Without a line feed -/

theorem afterNext_eq_behind? (hn : '\n' ∉ text) (part : List Char) :
    afterNext part text = behind? text part := by
  refine Option.ext fun rest => ?_
  rw [afterNext_eq_some_iff, behind?, Option.map_eq_some_iff]
  constructor
  · rintro ⟨gap, hd, -⟩
    exact ⟨(gap, rest), hd, rfl⟩
  · rintro ⟨⟨gap, _⟩, hd, rfl⟩
    refine ⟨gap, hd, fun hgap => hn ?_⟩
    rw [(dropInfix?_iff.1 hd).1]
    simp [hgap]

theorem follow_eq_isSome (hn : '\n' ∉ text) : follow ps text = (ps.foldlM behind? text).isSome := by
  induction ps generalizing text with
  | nil => rfl
  | cons part ps ih =>
    rw [follow, afterNext_eq_behind? hn, List.foldlM_cons]
    cases hnext : behind? text part with
    | none => rfl
    | some rest =>
      rw [← afterNext_eq_behind? hn] at hnext
      obtain ⟨gap, hd, -⟩ := afterNext_eq_some_iff.1 hnext
      refine ih fun hrest => hn ?_
      rw [(dropInfix?_iff.1 hd).1]
      exact List.mem_append_right _ hrest

/-! ### A pattern anywhere in a name -/

theorem placed_cons_iff : placed (part :: ps) text = true ↔
    ∃ rest, text = part ++ rest ∧ Follows ps rest := by
  rw [placed]
  split
  · next found hp =>
    rw [List.isPrefixOf?_eq_some_iff_append_eq] at hp
    rw [follow_iff]
    constructor
    · intro h
      exact ⟨found, hp.symm, h⟩
    · rintro ⟨rest, h, hrest⟩
      rwa [List.append_cancel_left (hp.trans h)]
  · next hp =>
    refine ⟨nofun, ?_⟩
    rintro ⟨rest, h, -⟩
    rw [List.isPrefixOf?_eq_some_iff_append_eq.2 h.symm] at hp
    cases hp

theorem exists_parts (pattern : String) : ∃ first others, parts pattern = first :: others :=
  List.exists_cons_of_ne_nil (List.splitOn_ne_nil _ _)

theorem accepts_iff_exists {pattern name : String} {first : List Char} {others : List (List Char)}
    (hparts : parts pattern = first :: others) : accepts pattern name = true ↔
      ∃ x rest, name.toList = x ++ first ++ rest ∧ Follows others rest := by
  rw [parts] at hparts
  rw [accepts, hparts, anywhere_iff]
  simp only [placed_cons_iff]
  constructor
  · rintro ⟨x, _, h, rest, rfl, hrest⟩
    exact ⟨x, rest, by rw [h, List.append_assoc], hrest⟩
  · rintro ⟨x, rest, h, hrest⟩
    exact ⟨x, first ++ rest, by rw [h, List.append_assoc], rest, rfl, hrest⟩

/-- What stands before the first part is a gap like any other, except that it may have line feeds. -/
theorem accepts_iff_follows {pattern name : String} : accepts pattern name = true ↔
    ∃ x y, name.toList = x ++ y ∧ Follows (parts pattern) y := by
  obtain ⟨first, others, hparts⟩ := exists_parts pattern
  rw [accepts_iff_exists hparts, hparts]
  constructor
  · rintro ⟨x, rest, h, hrest⟩
    exact ⟨x, first ++ rest, by rw [h, List.append_assoc], [], rest, rfl, List.not_mem_nil, hrest⟩
  · rintro ⟨x, _, h, gap, rest, rfl, -, hrest⟩
    exact ⟨x ++ gap, rest, by simp [h], hrest⟩

theorem accepts_iff_literals {pattern name : String} : accepts pattern name = true ↔
    ∃ x y, name.toList = x ++ y ∧ Follows (literals pattern) y := by
  simp only [accepts_iff_follows, literals, follows_filter_iff]

theorem accepts_star (name : String) : accepts "*" name = true :=
  accepts_iff_literals.2 ⟨[], name.toList, rfl, trivial⟩

theorem accepts_congr {pattern pattern' : String} (h : literals pattern' = literals pattern)
    (name : String) : accepts pattern' name = accepts pattern name := by
  rw [Bool.eq_iff_iff, accepts_iff_literals, accepts_iff_literals, h]

theorem literals_append_star (front back : String) :
    literals (front ++ "*" ++ back) = literals front ++ literals back := by
  have hlist : (front ++ "*" ++ back).toList = front.toList ++ '*' :: back.toList := by simp
  rw [literals, parts, hlist, List.splitOn_append_cons_self, List.filter_append]
  rfl

/-- A name is accepted exactly if the parts of the pattern stand in it, with gaps without a line feed
between them. In a name without a line feed they do exactly if each part in turn can be put at its
first place behind the one before. Only the parts that are not empty count, and all that surrounds an
accepted name is accepted with it. -/
theorem accepts_iff_spaced (pattern name : String) :
    (accepts pattern name = true ↔ ∃ first others x gaps y, parts pattern = first :: others ∧
      gaps.length = others.length ∧ (∀ gap ∈ gaps, '\n' ∉ gap) ∧
      name.toList = x ++ first ++ (List.zipWith (· ++ ·) gaps others).flatten ++ y) ∧
    ('\n' ∉ name.toList →
      accepts pattern name = ((parts pattern).foldlM behind? name.toList).isSome) ∧
    (∀ pattern', literals pattern' = literals pattern →
      accepts pattern' name = accepts pattern name) ∧
    (∀ front back, accepts (front ++ "**" ++ back) name = accepts (front ++ "*" ++ back) name) ∧
    accepts ("*" ++ pattern) name = accepts pattern name ∧
    accepts (pattern ++ "*") name = accepts pattern name ∧
    ∀ front back, accepts pattern name = true → accepts pattern (front ++ name ++ back) = true := by
  refine ⟨?_, fun hn => ?_, fun _ h => accepts_congr h name, fun front back => ?_, ?_, ?_, ?_⟩
  · obtain ⟨first, others, hparts⟩ := exists_parts pattern
    rw [accepts_iff_exists hparts]
    simp only [follows_iff]
    constructor
    · rintro ⟨x, _, h, gaps, y, hlength, hgaps, rfl⟩
      exact ⟨first, others, x, gaps, y, hparts, hlength, hgaps, by rw [h, List.append_assoc _ _ y]⟩
    · rintro ⟨first', others', x, gaps, y, hparts', hlength, hgaps, h⟩
      obtain ⟨rfl, rfl⟩ := List.cons.inj (hparts.symm.trans hparts')
      exact ⟨x, _, by rw [h, List.append_assoc _ _ y], gaps, y, hlength, hgaps, rfl⟩
  · rw [← follow_eq_isSome hn, Bool.eq_iff_iff, follow_iff, accepts_iff_follows]
    constructor
    · rintro ⟨x, y, h, hfollows⟩
      rw [h] at hn ⊢
      exact hfollows.of_gap fun hx => hn (List.mem_append_left _ hx)
    · intro hfollows
      exact ⟨[], name.toList, rfl, hfollows⟩
  · have htwo : front ++ "**" ++ back = front ++ "*" ++ "" ++ "*" ++ back := by
      simp [String.append_assoc]
    refine accepts_congr ?_ name
    rw [htwo, literals_append_star, literals_append_star, literals_append_star]
    simp [literals, parts]
  · refine accepts_congr ?_ name
    have h := literals_append_star "" pattern
    simpa [literals, parts] using h
  · refine accepts_congr ?_ name
    have h := literals_append_star pattern ""
    simpa [literals, parts] using h
  · intro front back h
    obtain ⟨x, y, hname, hfollows⟩ := accepts_iff_follows.1 h
    exact accepts_iff_follows.2 ⟨front.toList ++ x, y ++ back.toList, by simp [hname],
      hfollows.append back.toList⟩

/-- The gap before the last `b` may have anything in it but a line feed. -/
theorem accepts_through_gap :
    '\n' ∉ "xabcab".toList ∧ literals "*ab**b" = literals "ab*b" ∧
    accepts "ab*b" "xabcab" = true ∧ accepts "*ab**b" "xabcab" = true ∧
    accepts "ab*b" ("\n" ++ "xabcab" ++ "\n") = true ∧ accepts "ab*b" "xab\ncab" = false := by
  obtain ⟨-, hfirst, hliterals, -, -, -, hcontained⟩ := accepts_iff_spaced "ab*b" "xabcab"
  have hn : '\n' ∉ "xabcab".toList := by decide
  have hsame : literals "*ab**b" = literals "ab*b" := by decide
  have haccepts : accepts "ab*b" "xabcab" = true := by
    rw [hfirst hn]
    decide
  refine ⟨hn, hsame, haccepts, ?_, hcontained "\n" "\n" haccepts, by decide⟩
  rw [hliterals _ hsame]
  exact haccepts

end Lookahead.Wildcard
