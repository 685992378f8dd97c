/-!
# Ordered tables

A table is a list of named entries, in the order in which the names were first written. Core's
`List.lookup` reads it and `Table.update` writes it: a name that is there keeps its place, a new
name goes to the end (`keys_update`), and a later lookup sees exactly the write (`lookup_update`).
-/

namespace Lookahead

/-- Named entries in order of first writing. -/
abbrev Table (α : Type) := List (String × α)

namespace Table

variable {α : Type}

def keys (t : Table α) : List String := t.map Prod.fst

/-- Sets the entry of `key` to `f` of what it was (`none` if there was no entry), in its old place
or at the end. -/
def update (key : String) (f : Option α → α) : Table α → Table α
  | [] => [(key, f none)]
  | (k, v) :: rest => if k = key then (k, f (some v)) :: rest else (k, v) :: update key f rest

@[simp] theorem keys_nil : keys ([] : Table α) = [] := rfl

@[simp] theorem keys_cons (k : String) (v : α) (t : Table α) : keys ((k, v) :: t) = k :: keys t :=
  rfl

theorem lookup_cons (key k : String) (v : α) (t : Table α) :
    List.lookup key ((k, v) :: t) = if key = k then some v else List.lookup key t := by
  by_cases h : key = k
  · subst h; simp
  · simp [List.lookup_cons, beq_false_of_ne h, h]

theorem lookup_isSome_iff {key : String} {t : Table α} :
    (t.lookup key).isSome ↔ key ∈ keys t := by
  induction t with
  | nil => simp
  | cons e t ih =>
    rw [lookup_cons, keys_cons, List.mem_cons]
    split <;> simp_all

theorem mem_of_lookup {key : String} {v : α} {t : Table α} (h : t.lookup key = some v) :
    (key, v) ∈ t := by
  obtain ⟨front, back, rfl, -⟩ := List.lookup_eq_some_iff.1 h
  exact List.mem_append_right _ (List.mem_cons_self ..)

theorem lookup_of_mem {key : String} {v : α} {t : Table α} (hn : (keys t).Nodup)
    (h : (key, v) ∈ t) : t.lookup key = some v := by
  induction t with
  | nil => cases h
  | cons e t ih =>
    obtain ⟨k, w⟩ := e
    obtain ⟨hk, hn⟩ := List.nodup_cons.1 hn
    rcases List.mem_cons.1 h with he | h
    · obtain ⟨rfl, rfl⟩ := Prod.mk.inj he
      rw [lookup_cons, if_pos rfl]
    · have hkey : key ∈ keys t := List.mem_map_of_mem h
      have hne : key ≠ k := fun he => hk (he ▸ hkey)
      rw [lookup_cons, if_neg hne, ih hn h]

/-- Without repeated keys the order of the entries does not matter to a lookup. -/
theorem lookup_of_perm {t t' : Table α} (hn : (keys t).Nodup) (hp : t.Perm t') (key : String) :
    t'.lookup key = t.lookup key := by
  have hkeys : (keys t).Perm (keys t') := hp.map Prod.fst
  cases h : t.lookup key with
  | some v => exact lookup_of_mem (hkeys.nodup_iff.1 hn) (hp.mem_iff.1 (mem_of_lookup h))
  | none =>
    rw [← Option.not_isSome_iff_eq_none, lookup_isSome_iff] at h ⊢
    rwa [← hkeys.mem_iff]

theorem eq_map_keys {t : Table α} {f : String → α} (hn : (keys t).Nodup)
    (hf : ∀ key ∈ keys t, t.lookup key = some (f key)) : t = (keys t).map fun key => (key, f key) := by
  induction t with
  | nil => rfl
  | cons e t ih =>
    obtain ⟨k, v⟩ := e
    obtain ⟨hk, hn⟩ := List.nodup_cons.1 hn
    have hv : v = f k := by simpa [lookup_cons] using hf k (List.mem_cons_self ..)
    have ht : ∀ key ∈ keys t, t.lookup key = some (f key) := fun key hkey => by
      have hne : key ≠ k := fun he => hk (he ▸ hkey)
      simpa [lookup_cons, hne] using hf key (List.mem_cons_of_mem _ hkey)
    rw [keys_cons, List.map_cons, ← ih hn ht, hv]

/-- Tables with the same keys, none of them repeated, are equal if their lookups are. -/
theorem eq_of_lookup {t t' : Table α} (hn : (keys t).Nodup) (hk : keys t = keys t')
    (h : ∀ key, t.lookup key = t'.lookup key) : t = t' := by
  induction t generalizing t' with
  | nil => exact (List.map_eq_nil_iff.1 hk.symm).symm
  | cons e t ih =>
    obtain ⟨k, v⟩ := e
    cases t' with
    | nil => cases hk
    | cons e' t' =>
      obtain ⟨k', v'⟩ := e'
      obtain ⟨rfl, hkeys⟩ := List.cons.inj hk
      obtain ⟨hnot, hn⟩ := List.nodup_cons.1 hn
      have hv : v = v' := by simpa [lookup_cons] using h k
      have hrest : ∀ key, t.lookup key = t'.lookup key := by
        intro key
        by_cases he : key = k
        · have hnone : ∀ {u : Table α}, keys u = keys t → u.lookup key = none := fun hu => by
            rw [← Option.not_isSome_iff_eq_none, lookup_isSome_iff, hu, he]
            exact hnot
          rw [hnone rfl, hnone hkeys.symm]
        · simpa [lookup_cons, he] using h key
      rw [hv, ih hn hkeys hrest]

theorem keys_filter (p : String → Bool) (t : Table α) :
    keys (t.filter fun e => p e.1) = (keys t).filter p := by
  rw [keys, keys, List.filter_map]
  rfl

theorem lookup_filter (p : String → Bool) (t : Table α) (key : String) :
    (t.filter fun e => p e.1).lookup key = if p key then t.lookup key else none := by
  induction t with
  | nil => simp
  | cons e t ih =>
    obtain ⟨k, v⟩ := e
    rw [List.filter_cons, lookup_cons]
    by_cases hk : key = k
    · subst hk
      by_cases hp : p key = true <;> simp [hp, ih]
    · by_cases hp : p k = true <;> simp [hp, hk, lookup_cons, ih]

theorem lookup_update (key k : String) (f : Option α → α) (t : Table α) :
    (update key f t).lookup k = if k = key then some (f (t.lookup key)) else t.lookup k := by
  induction t with
  | nil => simp [update, lookup_cons]
  | cons e t ih =>
    obtain ⟨k', v⟩ := e
    by_cases h : k' = key
    · subst h
      by_cases hk : k = k' <;> simp [update, lookup_cons, hk]
    · by_cases hk : k = k'
      · subst hk
        simp [update, h]
      · simp [update, lookup_cons, h, hk, ih, Ne.symm h]

theorem update_eq_self {key : String} {v : α} {f : Option α → α} {t : Table α}
    (h : t.lookup key = some v) (hf : f (some v) = v) : update key f t = t := by
  induction t with
  | nil => cases h
  | cons e t ih =>
    obtain ⟨k, w⟩ := e
    rw [lookup_cons] at h
    rw [update]
    by_cases hk : key = k
    · subst hk
      rw [if_pos rfl] at h ⊢
      cases h
      rw [hf]
    · rw [if_neg hk] at h
      rw [if_neg (Ne.symm hk), ih h]

/-- A write depends on what it makes of the entry that is there. -/
theorem update_congr {key : String} {f g : Option α → α} {t : Table α}
    (h : f (t.lookup key) = g (t.lookup key)) : update key f t = update key g t := by
  induction t with
  | nil => exact congrArg (fun v => [(key, v)]) h
  | cons e t ih =>
    obtain ⟨k, w⟩ := e
    rw [lookup_cons] at h
    rw [update, update]
    by_cases hk : key = k
    · rw [if_pos hk] at h
      rw [if_pos hk.symm, if_pos hk.symm, h]
    · rw [if_neg hk] at h
      rw [if_neg (Ne.symm hk), if_neg (Ne.symm hk), ih h]

theorem update_update (key : String) (f g : Option α → α) (t : Table α) :
    update key g (update key f t) = update key (fun old => g (some (f old))) t := by
  induction t with
  | nil => exact if_pos rfl
  | cons e t ih =>
    obtain ⟨k, w⟩ := e
    by_cases hk : k = key
    · simp only [update, if_pos hk]
    · simp only [update, if_neg hk, ih]

/-- An entry that is there has a first place. -/
theorem exists_append_of_lookup {key : String} {v : α} {t : Table α} (h : t.lookup key = some v) :
    ∃ front back, t = front ++ (key, v) :: back ∧ key ∉ keys front := by
  obtain ⟨front, back, rfl, hne⟩ := List.lookup_eq_some_iff.1 h
  refine ⟨front, back, rfl, fun hkey => ?_⟩
  obtain ⟨e, he, rfl⟩ := List.mem_map.1 hkey
  simpa using hne e he

theorem update_append {key : String} {front : Table α} (h : key ∉ keys front) (v : α)
    (f : Option α → α) (back : Table α) :
    update key f (front ++ (key, v) :: back) = front ++ (key, f (some v)) :: back := by
  induction front with
  | nil => exact if_pos rfl
  | cons e front ih =>
    obtain ⟨k, w⟩ := e
    rw [keys_cons, List.mem_cons, not_or] at h
    rw [List.cons_append, update, if_neg (Ne.symm h.1), ih h.2, List.cons_append]

theorem update_of_notMem {key : String} {t : Table α} (h : key ∉ keys t) (f : Option α → α) :
    update key f t = t ++ [(key, f none)] := by
  induction t with
  | nil => rfl
  | cons e t ih =>
    obtain ⟨k, w⟩ := e
    rw [keys_cons, List.mem_cons, not_or] at h
    rw [update, if_neg (Ne.symm h.1), ih h.2, List.cons_append]

theorem mem_update {key k : String} {v : α} {f : Option α → α} {t : Table α}
    (h : (k, v) ∈ update key f t) :
    (k, v) ∈ t ∨ k = key ∧ (v = f none ∨ ∃ old, (key, old) ∈ t ∧ v = f (some old)) := by
  induction t with
  | nil =>
    obtain ⟨rfl, rfl⟩ := Prod.mk.inj (List.mem_singleton.1 h)
    exact .inr ⟨rfl, .inl rfl⟩
  | cons e t ih =>
    obtain ⟨k', v'⟩ := e
    rw [update] at h
    split at h
    · next hk =>
      subst hk
      rcases List.mem_cons.1 h with h | h
      · obtain ⟨rfl, rfl⟩ := Prod.mk.inj h
        exact .inr ⟨rfl, .inr ⟨v', List.mem_cons_self .., rfl⟩⟩
      · exact .inl (List.mem_cons_of_mem _ h)
    · rcases List.mem_cons.1 h with h | h
      · exact .inl (h ▸ List.mem_cons_self ..)
      · rcases ih h with h | ⟨rfl, h | ⟨old, ho, h⟩⟩
        · exact .inl (List.mem_cons_of_mem _ h)
        · exact .inr ⟨rfl, .inl h⟩
        · exact .inr ⟨rfl, .inr ⟨old, List.mem_cons_of_mem _ ho, h⟩⟩

theorem keys_update (key : String) (f : Option α → α) (t : Table α) :
    keys (update key f t) = if key ∈ keys t then keys t else keys t ++ [key] := by
  induction t with
  | nil => simp [update]
  | cons e t ih =>
    obtain ⟨k', v⟩ := e
    by_cases h : k' = key
    · subst h
      simp [update]
    · by_cases hk : key ∈ keys t <;> simp_all [update, Ne.symm h]

end Table

end Lookahead
