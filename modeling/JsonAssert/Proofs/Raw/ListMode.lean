import JsonAssert.Proofs.Raw.Records

/-! A list of records, and the list as one value. The records are converted and walked through one by
one, the value as a whole, with the indices put on inside the walk; the text is the same, and so is
the first complaint, unless the walk through a record comes to a complaint before a later record is
found to be no JSON data. The empty list has a line as a value, and none as records. -/
namespace JsonAssert.Raw

/-! Complaints -/

theorem outcome_records_of_error {before : List (Data String)} {values : List (String × Value)}
    {root : String} (hbefore : List.Forall₂ IsConverted (targets before true root) values)
    {d : Data String} {e : NotJson} (herror : d.foreign? = some e) (after : List (Data String)) :
    ((∀ x ∈ before, IsWritable x) →
        (generateAssertions (before ++ d :: after) true root).outcome = .error (.notJson e)) ∧
      ((¬ ∀ x ∈ before, IsWritable x) → ∃ u,
        (generateAssertions (before ++ d :: after) true root).outcome = .error (.unwritable u)) := by
  rw [generateAssertions_of_error hbefore ((toValue_eq_error_iff d e).mpr herror),
    ← complaint?_eq_none_iff hbefore]
  cases (emissionOf values).complaint? <;> simp

/-- Elements without foreign objects stand before one that has some, and one of them cannot be
written. -/
def IsOvertaken (items : List (Data String)) : Prop :=
  ∃ before d after, items = before ++ d :: after ∧ (∀ x ∈ before, x.foreign? = none) ∧
    d.foreign? ≠ none ∧ ¬ ∀ x ∈ before, IsWritable x

theorem IsOvertaken.outcome {items : List (Data String)} (h : IsOvertaken items) (root : String) :
    ∃ u, (generateAssertions items true root).outcome = .error (.unwritable u) := by
  obtain ⟨before, d, after, rfl, hbefore, hd, hunwritable⟩ := h
  obtain ⟨e, he⟩ := Option.ne_none_iff_exists'.mp hd
  obtain ⟨f, hf⟩ := exists_toValue fun d hd => exists_toValue_iff.mpr (hbefore d hd)
  exact (outcome_records_of_error (isConverted_targets hf true root) he after).2 hunwritable

theorem IsOvertaken.exists_foreign {items : List (Data String)} (h : IsOvertaken items) :
    ∃ e, (Data.list items).foreign? = some e := by
  obtain ⟨before, d, after, rfl, -, hd, -⟩ := h
  rw [← Option.isSome_iff_exists, foreign?_list, List.findSome?_isSome_iff]
  exact ⟨d, by simp, Option.isSome_iff_ne_none.mpr hd⟩

end JsonAssert.Raw
