import Lookahead.Proofs.OptionMembers

/-!
# Options in full

Options can be written out as an object with all its members, and that object is read back as the
same options (`ofJson_toJson`). What is read from an object, or found wrong with it, does not depend
on the order of its members (`ofJson_perm`), although of several faults only the first is told.
-/

namespace Lookahead

namespace Options

/-! ### Written out and read back -/

theorem transformOf_obj (renamings : Table Json) : transformOf (.obj renamings) = .ok renamings := by
  cases renamings <;> rfl

theorem ofJson_toJson (options : Options) : ofJson options.toJson = .ok options := by
  rw [toJson, ofJson_obj, ofMembers_eq_ok_iff]
  have hknown : ∀ name ∈ names, name ∈ names := fun _ h => h
  exact ⟨unknownNames_eq_nil_iff.2 hknown, rfl, transformOf_obj _, skipOf_patterns _, rfl, rfl⟩

/-! ### Members in another order -/

theorem pairwise_unknownNames (given : List String) : (unknownNames given).Pairwise (· ≤ ·) := by
  have htrans : ∀ a b c : String, decide (a ≤ b) = true → decide (b ≤ c) = true →
      decide (a ≤ c) = true := fun a b c hab hbc => by
    simpa using String.le_trans (by simpa using hab) (by simpa using hbc)
  have htotal : ∀ a b : String, (decide (a ≤ b) || decide (b ≤ a)) = true := fun a b => by
    simpa using String.le_total a b
  have hsorted := List.pairwise_mergeSort htrans htotal
    (given.filter fun name => !names.contains name)
  simpa [unknownNames] using hsorted

theorem unknownNames_perm {given given' : List String} (h : given.Perm given') :
    unknownNames given' = unknownNames given := by
  have hperm : (unknownNames given').Perm (unknownNames given) :=
    (List.mergeSort_perm ..).trans ((h.symm.filter _).trans (List.mergeSort_perm ..).symm)
  exact hperm.eq_of_pairwise (fun _ _ _ _ => String.le_antisymm) (pairwise_unknownNames given')
    (pairwise_unknownNames given)

/-- Options depend on the members one by one, and on which names are unknown. -/
theorem ofMembers_congr {members members' : Table Json}
    (hu : unknownNames (Table.keys members') = unknownNames (Table.keys members))
    (hl : ∀ name, members'.lookup name = members.lookup name) :
    ofMembers members' = ofMembers members := by
  unfold ofMembers
  simp only [hu, hl]

theorem ofJson_perm {members members' : Table Json} (hn : (Table.keys members).Nodup)
    (h : members.Perm members') : ofJson (.obj members') = ofJson (.obj members) := by
  rw [ofJson_obj, ofJson_obj]
  exact ofMembers_congr (unknownNames_perm (h.map Prod.fst)) (Table.lookup_of_perm hn h)

/-- Options that were read are in a normal form: written out in full they are read back as they are.
In what order the members of an object were written makes no difference, not even to what is found
wrong with them. -/
theorem ofJson_normal_form :
    (∀ options, ofJson options.toJson = .ok options) ∧
    (∀ value options, ofJson value = .ok options → ofJson options.toJson = ofJson value) ∧
    ∀ members members' : Table Json, (Table.keys members).Nodup → members.Perm members' →
      ofJson (.obj members') = ofJson (.obj members) := by
  refine ⟨ofJson_toJson, fun value options h => ?_, fun members members' => ofJson_perm⟩
  rw [h, ofJson_toJson]

/-- Members that none of the options is usually given as. -/
def loose : Table Json :=
  [("skip", .obj [("user.*Id", .null)]), ("path", .null), ("keep_parent_field", .str "no"),
    ("with_directives", .num (.whole 0))]

/-- Members with several faults. -/
def faulty : Table Json :=
  [("transform", .bool true), ("skip", .str "user"), ("path", .bool false)]

theorem ofJson_loose :
    (Table.keys loose).Nodup ∧ (Table.keys faulty).Nodup ∧
    ofJson (.obj loose) = .ok ⟨"", [], false, true, ["user.*Id"]⟩ ∧
    ofJson (.obj loose.reverse) = .ok ⟨"", [], false, true, ["user.*Id"]⟩ ∧
    ofJson (toJson ⟨"", [], false, true, ["user.*Id"]⟩) = ofJson (.obj loose) ∧
    ofJson (.obj faulty) = .error .pathNotText ∧ ofJson (.obj faulty.reverse) = .error .pathNotText := by
  have hn : (Table.keys loose).Nodup := by decide
  have hn' : (Table.keys faulty).Nodup := by decide
  obtain ⟨-, hback, horder⟩ := ofJson_normal_form
  have hloose : ofJson (.obj loose) = .ok ⟨"", [], false, true, ["user.*Id"]⟩ := by
    rw [ofJson_obj, ofMembers_eq_ok_iff]
    exact ⟨unknownNames_eq_nil_iff.2 (by decide), rfl, rfl, rfl, rfl, rfl⟩
  have hfaulty : ofJson (.obj faulty) = .error .pathNotText := by
    rw [ofJson_obj, ofMembers_eq_error_iff]
    exact .inr ⟨unknownNames_eq_nil_iff.2 (by decide), .inl rfl⟩
  refine ⟨hn, hn', hloose, ?_, hback _ _ hloose, hfaulty, ?_⟩
  · rw [horder _ _ hn (List.reverse_perm _).symm, hloose]
  · rw [horder _ _ hn' (List.reverse_perm _).symm, hfaulty]

end Options

end Lookahead
