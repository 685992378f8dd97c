/-!
# Dotted paths

A path is text whose segments are separated by dots, so one with `n` dots has `n + 1` segments, some
of them perhaps empty. Nothing but the dots is lost (`intercalate_segments`), and no segment has a
dot of its own (`dot_notMem_of_mem_segments`), so that segments without dots can be put together and
told again (`segments_intercalate`).
-/

namespace Lookahead

/-- The segments of a dotted path. -/
def segments (path : String) : List String :=
  (path.toList.splitOn '.').map String.ofList

/-- The path of `child` beneath `parent`. The empty path stands for the root, whose children are
named without a dot. -/
def dotted (parent child : String) : String :=
  if parent.isEmpty then child else parent ++ "." ++ child

theorem notMem_of_mem_splitOn {sep : Char} {cs p : List Char} (h : p ∈ cs.splitOn sep) :
    sep ∉ p := by
  induction cs generalizing p with
  | nil => simp_all
  | cons c cs ih =>
    rw [List.splitOn_cons_eq_if_modifyHead] at h
    split at h
    · rcases List.mem_cons.mp h with rfl | h
      · exact List.not_mem_nil
      · exact ih h
    · next hc =>
      obtain ⟨q, qs, hq⟩ := List.exists_cons_of_ne_nil (List.splitOn_ne_nil sep cs)
      rw [hq] at h ih
      rcases List.mem_cons.mp h with rfl | h
      · intro hs
        rcases List.mem_cons.mp hs with rfl | hs
        · exact hc (beq_self_eq_true _)
        · exact ih (List.mem_cons_self ..) hs
      · exact ih (List.mem_cons_of_mem _ h)

theorem subset_of_mem_splitOn {sep : Char} {cs p : List Char} (h : p ∈ cs.splitOn sep) :
    p ⊆ cs := by
  induction cs generalizing p with
  | nil => simp_all
  | cons c cs ih =>
    rw [List.splitOn_cons_eq_if_modifyHead] at h
    split at h
    · rcases List.mem_cons.mp h with rfl | h
      · exact List.nil_subset _
      · exact List.subset_cons_of_subset _ (ih h)
    · obtain ⟨q, qs, hq⟩ := List.exists_cons_of_ne_nil (List.splitOn_ne_nil sep cs)
      rw [hq] at h ih
      rcases List.mem_cons.mp h with rfl | h
      · exact List.cons_subset_cons _ (ih (List.mem_cons_self ..))
      · exact List.subset_cons_of_subset _ (ih (List.mem_cons_of_mem _ h))

theorem segments_ne_nil (path : String) : segments path ≠ [] := by
  simp [segments, List.splitOn_ne_nil]

theorem segments_append_dot (p q : String) :
    segments (p ++ "." ++ q) = segments p ++ segments q := by
  have hlist : (p ++ "." ++ q).toList = p.toList ++ '.' :: q.toList := by simp
  rw [segments, hlist, List.splitOn_append_cons_self, List.map_append, segments, segments]

theorem dot_notMem_of_mem_segments {path s : String} (h : s ∈ segments path) :
    '.' ∉ s.toList := by
  obtain ⟨p, hp, rfl⟩ := List.mem_map.mp h
  rw [String.toList_ofList]
  exact notMem_of_mem_splitOn hp

theorem subset_of_mem_segments {path s : String} (h : s ∈ segments path) :
    s.toList ⊆ path.toList := by
  obtain ⟨p, hp, rfl⟩ := List.mem_map.mp h
  rw [String.toList_ofList]
  exact subset_of_mem_splitOn hp

theorem intercalate_segments (path : String) : ".".intercalate (segments path) = path := by
  have hlist : ['.'].intercalate ((segments path).map String.toList) = path.toList := by
    simp [segments, Function.comp_def, List.intercalate_splitOn]
  rw [← String.toList_inj, String.toList_intercalate]
  exact hlist

theorem segments_intercalate {names : List String} (hne : names ≠ [])
    (h : ∀ name ∈ names, '.' ∉ name.toList) : segments (".".intercalate names) = names := by
  have hparts : ∀ part ∈ names.map String.toList, '.' ∉ part := by
    intro part hpart
    obtain ⟨name, hname, rfl⟩ := List.mem_map.1 hpart
    exact h name hname
  have hlist : (".".intercalate names).toList = ['.'].intercalate (names.map String.toList) :=
    String.toList_intercalate
  rw [segments, hlist, List.splitOn_intercalate '.' hparts (by simpa using hne), List.map_map]
  simp [Function.comp_def]

theorem segments_eq_iff {path : String} {names : List String} : segments path = names ↔
    names ≠ [] ∧ (∀ name ∈ names, '.' ∉ name.toList) ∧ ".".intercalate names = path := by
  constructor
  · rintro rfl
    exact ⟨segments_ne_nil path, fun _ => dot_notMem_of_mem_segments, intercalate_segments path⟩
  · rintro ⟨hne, hdots, rfl⟩
    exact segments_intercalate hne hdots

end Lookahead
