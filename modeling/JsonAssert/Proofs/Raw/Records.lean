import JsonAssert.Proofs.Raw.Walk

/-! Records from elsewhere. They are converted one by one, each as a whole and before its first line,
and a record that is no JSON data, or that cannot be written, keeps all later ones from being looked
at. -/
namespace JsonAssert.Raw

/-! Conversion -/

mutual
/-- The objects that are no JSON data, in document order. -/
def Data.objects {ε : Type} : Data ε → List ε
  | .list items => objectsOfItems items
  | .dict entries => objectsOfEntries entries
  | .other x => [x]
  | _ => []

def objectsOfItems {ε : Type} : List (Data ε) → List ε
  | [] => []
  | d :: items => d.objects ++ objectsOfItems items

def objectsOfEntries {ε : Type} : List (Key × Data ε) → List ε
  | [] => []
  | (_, d) :: entries => d.objects ++ objectsOfEntries entries
end

theorem objectsOfItems_eq {ε : Type} (items : List (Data ε)) :
    objectsOfItems items = items.flatMap Data.objects := by
  induction items with
  | nil => rfl
  | cons d items ih => rw [objectsOfItems, ih, List.flatMap_cons]

theorem objectsOfEntries_eq {ε : Type} (entries : List (Key × Data ε)) :
    objectsOfEntries entries = entries.flatMap fun e => e.2.objects := by
  induction entries with
  | nil => rfl
  | cons e entries ih => rw [objectsOfEntries, ih, List.flatMap_cons]

/-- What is wrong with the first object that is no JSON data. -/
def Data.foreign? (d : Data String) : Option NotJson := d.objects.head?.map NotJson.mk

theorem foreign?_list (items : List (Data String)) :
    (Data.list items).foreign? = items.findSome? Data.foreign? := by
  rw [Data.foreign?, Data.objects, objectsOfItems_eq, List.head?_flatMap, List.map_findSome?]
  rfl

theorem foreign?_dict (entries : List (Key × Data String)) :
    (Data.dict entries).foreign? = entries.findSome? fun e => e.2.foreign? := by
  rw [Data.foreign?, Data.objects, objectsOfEntries_eq, List.head?_flatMap, List.map_findSome?]
  rfl

section
variable {α β ε : Type} {f : α → Except ε β} {xs : List α}

theorem exists_of_bind_eq_ok {x : Except ε α} {f : α → Except ε β} {b : β}
    (h : x >>= f = .ok b) : ∃ a, x = .ok a ∧ f a = .ok b := by
  cases x with
  | error e => cases h
  | ok a => exact ⟨a, rfl, h⟩

theorem mapM_eq_ok_iff {ys : List β} :
    xs.mapM f = .ok ys ↔ List.Forall₂ (fun x y => f x = .ok y) xs ys := by
  induction xs generalizing ys with
  | nil =>
    rw [List.forall₂_nil_left_iff]
    exact ⟨fun h => (Except.ok.inj h).symm, fun h => congrArg Except.ok h.symm⟩
  | cons x xs ih =>
    rw [List.mapM_cons, List.forall₂_cons_left_iff]
    constructor
    · intro h
      obtain ⟨y, hy, h⟩ := exists_of_bind_eq_ok h
      obtain ⟨zs, hzs, h⟩ := exists_of_bind_eq_ok h
      exact ⟨y, zs, hy, ih.mp hzs, (Except.ok.inj h).symm⟩
    · rintro ⟨y, zs, hy, hzs, rfl⟩
      rw [hy, ih.mpr hzs]
      rfl

theorem mapM_eq_error_iff {g : α → Option ε}
    (h : ∀ x ∈ xs, ∀ e, f x = .error e ↔ g x = some e) (e : ε) :
    xs.mapM f = .error e ↔ xs.findSome? g = some e := by
  induction xs with
  | nil => simp [pure, Except.pure]
  | cons x xs ih =>
    obtain ⟨hx, hxs⟩ := List.forall_mem_cons.mp h
    rw [List.mapM_cons, List.findSome?_cons]
    cases hfx : f x with
    | error e' =>
      rw [(hx e').mp hfx]
      simp [bind, Except.bind]
    | ok y =>
      have hgx : g x = none := by
        apply Option.eq_none_iff_forall_ne_some.mpr
        intro e' he'
        cases hfx.symm.trans ((hx e').mpr he')
      rw [hgx]
      simp only [← ih hxs]
      cases xs.mapM f <;> simp [bind, Except.bind, pure, Except.pure]

end

theorem valuesOfItems_eq_mapM (items : List (Data String)) :
    valuesOfItems items = items.mapM Data.toValue := by
  induction items with
  | nil => rfl
  | cons d items ih =>
    rw [valuesOfItems, ih, List.mapM_cons]
    rfl

theorem valuesOfEntries_eq_mapM (entries : List (Key × Data String)) :
    valuesOfEntries entries = entries.mapM fun e => e.2.toValue.map (e.1, ·) := by
  induction entries with
  | nil => rfl
  | cons e entries ih =>
    rw [valuesOfEntries, ih, List.mapM_cons]
    cases e.2.toValue <;> rfl

/-- Data is complained of exactly for the first object that is no JSON data. -/
theorem toValue_eq_error_iff (d : Data String) (e : NotJson) :
    d.toValue = .error e ↔ d.foreign? = some e := by
  induction d using Data.induction_contents generalizing e with
  | other typeName => simp [Data.toValue, Data.foreign?, Data.objects]
  | list items ih =>
    rw [Data.toValue, valuesOfItems_eq_mapM, foreign?_list, ← mapM_eq_error_iff ih]
    cases items.mapM Data.toValue <;> simp [Except.map]
  | dict entries ih =>
    have hentries : ∀ x ∈ entries, ∀ e,
        x.2.toValue.map (x.1, ·) = .error e ↔ x.2.foreign? = some e := by
      intro x hx e
      rw [← ih x hx]
      cases x.2.toValue <;> simp [Except.map]
    rw [Data.toValue, valuesOfEntries_eq_mapM, foreign?_dict, ← mapM_eq_error_iff hentries]
    generalize List.mapM (fun x => x.2.toValue.map (x.1, ·)) entries = outcome
    cases outcome <;> simp [Except.map]
  | _ => simp [Data.toValue, Data.foreign?, Data.objects]

theorem exists_toValue_iff {d : Data String} : (∃ v, d.toValue = .ok v) ↔ d.foreign? = none := by
  rw [Option.eq_none_iff_forall_ne_some]
  simp only [ne_eq, ← toValue_eq_error_iff]
  cases d.toValue <;> simp

theorem exists_toValue {records : List (Data String)} (h : ∀ d ∈ records, ∃ v, d.toValue = .ok v) :
    ∃ f : Data String → Value, ∀ d ∈ records, d.toValue = .ok (f d) := by
  choose! f hf using h
  exact ⟨f, hf⟩

theorem forall_mem_iff_of_forall₂ {α β : Type} {r : α → β → Prop} {p : α → Prop} {q : β → Prop}
    {xs : List α} {ys : List β} (h : List.Forall₂ r xs ys)
    (hpq : ∀ x ∈ xs, ∀ y, r x y → (q y ↔ p x)) : (∀ y ∈ ys, q y) ↔ ∀ x ∈ xs, p x := by
  induction h with
  | nil => simp
  | cons hxy _ ih =>
    obtain ⟨hx, hxs⟩ := List.forall_mem_cons.mp hpq
    rw [List.forall_mem_cons, List.forall_mem_cons, hx _ hxy, ih hxs]

/-- An entry of a dictionary keeps its key. -/
theorem converted_entry {x : Key × Data String} {y : Key × Value}
    (h : x.2.toValue.map (x.1, ·) = .ok y) : y.1 = x.1 ∧ x.2.toValue = .ok y.2 := by
  cases hx : x.2.toValue with
  | error e =>
    rw [hx] at h
    cases h
  | ok v =>
    rw [hx] at h
    cases h
    exact ⟨rfl, rfl⟩

/-- A value can be written exactly if the data that it was converted from can. -/
theorem isWritable_iff_of_toValue {d : Data String} {v : Value} (h : d.toValue = .ok v) :
    IsWritable v ↔ IsWritable d := by
  induction d using Data.induction_contents generalizing v with
  | null =>
    cases h
    exact iff_of_true .null .null
  | bool b =>
    cases h
    exact iff_of_true (.bool b) (.bool b)
  | number n =>
    cases h
    exact iff_of_true (.number n) (.number n)
  | text t =>
    cases h
    rw [isWritable_text_iff, isWritable_text_iff]
  | other typeName => cases h
  | list items ih =>
    rw [Data.toValue, valuesOfItems_eq_mapM] at h
    cases hitems : items.mapM Data.toValue with
    | error e =>
      rw [hitems] at h
      cases h
    | ok values =>
      rw [hitems] at h
      cases h
      rw [isWritable_list_iff, isWritable_list_iff]
      exact forall_mem_iff_of_forall₂ (mapM_eq_ok_iff.mp hitems) fun d hd v hv => ih d hd hv
  | dict entries ih =>
    rw [Data.toValue, valuesOfEntries_eq_mapM] at h
    generalize hentries : List.mapM (fun e => e.2.toValue.map (e.1, ·)) entries = outcome at h
    cases outcome with
    | error e => cases h
    | ok values =>
      cases h
      rw [isWritable_dict_iff, isWritable_dict_iff]
      refine and_congr ?_ ?_
      · exact forall_mem_iff_of_forall₂ (mapM_eq_ok_iff.mp hentries) fun x _ y hxy => by
          rw [(converted_entry hxy).1]
      · exact forall_mem_iff_of_forall₂ (mapM_eq_ok_iff.mp hentries) fun x hx y hxy =>
          ih x hx (converted_entry hxy).2

/-! Records -/

/-- The value of a record, with the expression that leads to it. -/
structure IsConverted (record : String × Data String) (entry : String × Value) : Prop where
  target : entry.1 = record.1
  value : record.2.toValue = .ok entry.2

/-- The lines of a record in front of those of the rest, which are looked at if there is nothing to
complain of. -/
def Emission.before (x : Emission) (rest : Traced Failure (List String)) :
    Traced Failure (List String) :=
  match x.complaint? with
  | some u => ⟨x.lines.map (⟨.generator, ·⟩), .error (.unwritable u)⟩
  | none => ⟨x.lines.map (⟨.generator, ·⟩) ++ rest.log, rest.outcome.map (x.lines ++ ·)⟩

theorem Emission.andThen_before (x y : Emission) (rest : Traced Failure (List String)) :
    (x.andThen y).before rest = x.before (y.before rest) := by
  obtain ⟨lines, _ | u⟩ := x
  · obtain ⟨lines', _ | u'⟩ := y
    · cases hrest : rest.outcome <;> simp [andThen, before, Except.map, hrest]
    · simp [andThen, before, Except.map]
  · rfl

theorem Emission.empty_before (rest : Traced Failure (List String)) :
    (⟨[], none⟩ : Emission).before rest = rest := by
  obtain ⟨log, _ | lines⟩ := rest <;> rfl

theorem linesOfRecords_of_ok {d : Data String} {v : Value} (h : d.toValue = .ok v)
    (target : String) (rest : List (String × Data String)) :
    linesOfRecords ((target, d) :: rest) = (emission target v).before (linesOfRecords rest) := by
  have hwalk : walk [(target, v)] = (emission target v).traced := by
    rw [walk_eq, emissionOf_cons]
    obtain ⟨lines, _ | u⟩ := emission target v <;> simp [emissionOf, Emission.andThen]
  rw [linesOfRecords, h]
  simp only [Traced.ofExcept, Except.mapError, Traced.bind_ok, hwalk]
  obtain ⟨lines, _ | u⟩ := emission target v <;> rfl

/-- A record that cannot be converted logs nothing, and no later one is looked at. -/
theorem linesOfRecords_of_error {d : Data String} {e : NotJson} (h : d.toValue = .error e)
    (target : String) (rest : List (String × Data String)) :
    linesOfRecords ((target, d) :: rest) = ⟨[], .error (.notJson e)⟩ := by
  rw [linesOfRecords, h]
  rfl

/-- Records that can be converted have their lines in front of those of the rest. -/
theorem linesOfRecords_append {todo : List (String × Data String)}
    {values : List (String × Value)} (h : List.Forall₂ IsConverted todo values)
    (rest : List (String × Data String)) :
    linesOfRecords (todo ++ rest) = (emissionOf values).before (linesOfRecords rest) := by
  induction h with
  | nil => exact (Emission.empty_before _).symm
  | @cons record entry todo values hentry _ ih =>
    obtain ⟨target, d⟩ := record
    obtain ⟨target', v⟩ := entry
    obtain ⟨rfl, hv⟩ := hentry
    rw [List.cons_append, linesOfRecords_of_ok hv, ih, emissionOf_cons, Emission.andThen_before]

/-- The complaint of the first record that cannot be written, or else of one that is no JSON data. -/
theorem linesOfRecords_append_error {before : List (String × Data String)}
    {values : List (String × Value)} (h : List.Forall₂ IsConverted before values) {d : Data String}
    {e : NotJson} (herror : d.toValue = .error e) (target : String)
    (rest : List (String × Data String)) :
    linesOfRecords (before ++ (target, d) :: rest) =
      ⟨(emissionOf values).lines.map (⟨.generator, ·⟩),
        .error (((emissionOf values).complaint?.map .unwritable).getD (.notJson e))⟩ := by
  rw [linesOfRecords_append h, linesOfRecords_of_error herror, Emission.before]
  cases (emissionOf values).complaint? <;> simp [Except.map]

/-! Targets -/

section
variable {records before : List (Data String)} {isList : Bool} {root : String}
  {values : List (String × Value)}

/-- The expressions of some records do not depend on those that come after them. -/
theorem exists_targets_append {α : Type} (before : List α) (d : α) (after : List α) (isList : Bool)
    (root : String) : ∃ target rest, targets (before ++ d :: after) isList root =
      targets before isList root ++ (target, d) :: rest := by
  unfold targets
  split_ifs
  · rw [List.zipIdx_append, List.zipIdx_cons, List.map_append, List.map_cons]
    exact ⟨_, _, rfl⟩
  · rw [List.map_append, List.map_cons]
    exact ⟨_, _, rfl⟩

theorem isConverted_targets {f : Data String → Value}
    (hf : ∀ d ∈ records, d.toValue = .ok (f d)) (isList : Bool) (root : String) :
    List.Forall₂ IsConverted (targets records isList root)
      (targets (records.map f) isList root) := by
  rw [targets_map, List.forall₂_map_right_iff, List.forall₂_same]
  intro record hrecord
  refine ⟨rfl, hf record.2 ?_⟩
  rw [← map_snd_targets records isList root]
  exact List.mem_map_of_mem hrecord

/-- There is nothing to complain of in some values exactly if the records that they were converted
from can be written. -/
theorem complaint?_eq_none_iff
    (h : List.Forall₂ IsConverted (targets records isList root) values) :
    (emissionOf values).complaint? = none ↔ ∀ d ∈ records, IsWritable d := by
  have hvalues := forall_mem_iff_of_forall₂ (p := fun record => IsWritable record.2)
    (q := fun entry => IsWritable entry.2) h
    fun record _ entry hentry => isWritable_iff_of_toValue hentry.value
  rw [emissionOf_complaint?_eq_none_iff rfl fun v _ target => emission_complaint?_eq_none_iff v target,
    List.forall_mem_map, hvalues, ← List.forall_mem_map (f := Prod.snd) (P := IsWritable)]
  rw [map_snd_targets]

/-- The complaint is about the first record that cannot be written, or else about the first that is
no JSON data. -/
theorem generateAssertions_of_error
    (hbefore : List.Forall₂ IsConverted (targets before isList root) values) {d : Data String}
    {e : NotJson} (herror : d.toValue = .error e) (after : List (Data String)) :
    generateAssertions (before ++ d :: after) isList root =
      ⟨(emissionOf values).lines.map (⟨.generator, ·⟩),
        .error (((emissionOf values).complaint?.map .unwritable).getD (.notJson e))⟩ := by
  obtain ⟨target, rest, htargets⟩ := exists_targets_append before d after isList root
  rw [generateAssertions, htargets, linesOfRecords_append_error hbefore herror]
  rfl

end

end JsonAssert.Raw
