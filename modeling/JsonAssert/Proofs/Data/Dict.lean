import Mathlib
import JsonAssert.Data.Dict

/-! Dictionaries with one entry for each place: building one keeps the keys apart, and what is in it
is found under its key. -/
namespace JsonAssert

namespace Key

theorem same_iff (k l : Key) : k.same l = true ↔ k.canonical = l.canonical := beq_iff_eq

theorem same_refl (k : Key) : k.same k = true := (same_iff k k).mpr rfl

theorem same_comm (k l : Key) : k.same l = l.same k := by
  rw [Bool.eq_iff_iff, same_iff, same_iff]
  exact eq_comm

theorem same_trans {k l m : Key} (h : k.same l = true) : k.same m = l.same m := by
  rw [Bool.eq_iff_iff, same_iff, same_iff, (same_iff k l).mp h]

theorem same_text (s t : String) : (text s).same (text t) = (s == t) := by
  rw [Bool.eq_iff_iff, same_iff]
  simp [canonical, index?]

end Key

namespace Dict
variable {α : Type}

/-- No two entries are for the same place. -/
def Distinct (d : Dict α) : Prop := d.Pairwise fun e e' => e.1.same e'.1 = false

theorem insert_of_new {k : Key} {d : Dict α} (h : ∀ e ∈ d, e.1.same k = false) (v : α) :
    d.insert k v = d ++ [(k, v)] := by
  induction d with
  | nil => rfl
  | cons e d ih =>
    have hd := ih fun e' he' => h e' (List.mem_cons_of_mem e he')
    simp [insert, h e List.mem_cons_self, hd]

theorem foldl_insert_of_distinct {d entries : Dict α} (h : Distinct (d ++ entries)) :
    entries.foldl (fun d (k, v) => insert k v d) d = d ++ entries := by
  induction entries generalizing d with
  | nil => simp
  | cons e entries ih =>
    have hnew : ∀ e' ∈ d, e'.1.same e.1 = false := by
      intro e' he'
      exact (List.pairwise_append.mp h).2.2 e' he' e List.mem_cons_self
    have hmore : Distinct ((d ++ [e]) ++ entries) := by simpa using h
    have hfold : entries.foldl (fun d (k, v) => insert k v d) (insert e.1 e.2 d) =
        d ++ [e] ++ entries := by
      rw [insert_of_new hnew]
      exact ih hmore
    simpa using hfold

/-- Entries for different places are all kept as they are. -/
theorem ofList_of_distinct {entries : Dict α} (h : Distinct entries) : ofList entries = entries :=
  foldl_insert_of_distinct (d := []) h

/-! What inserting keeps -/

theorem mem_insert {k : Key} {v : α} {d : Dict α} {e : Key × α} (h : e ∈ d.insert k v) :
    e ∈ d ∨ e.2 = v ∧ (e.1 = k ∨ ∃ e' ∈ d, e'.1 = e.1 ∧ e'.1.same k = true) := by
  induction d with
  | nil =>
    obtain rfl : e = (k, v) := by simpa [insert] using h
    exact .inr ⟨rfl, .inl rfl⟩
  | cons e' d ih =>
    rw [insert] at h
    split_ifs at h with hsame
    · rcases List.mem_cons.mp h with rfl | hd
      · exact .inr ⟨rfl, .inr ⟨e', List.mem_cons_self, rfl, hsame⟩⟩
      · exact .inl (List.mem_cons_of_mem e' hd)
    · rcases List.mem_cons.mp h with rfl | hd
      · exact .inl List.mem_cons_self
      · rcases ih hd with hmem | ⟨hv, hk | ⟨e'', he'', hkey⟩⟩
        · exact .inl (List.mem_cons_of_mem e' hmem)
        · exact .inr ⟨hv, .inl hk⟩
        · exact .inr ⟨hv, .inr ⟨e'', List.mem_cons_of_mem e' he'', hkey⟩⟩

/-- A key in the dictionary after an insertion counts as one from before or as the new one. -/
theorem same_of_mem_insert {k : Key} {v : α} {d : Dict α} {e : Key × α} (h : e ∈ d.insert k v) :
    e.1.same k = true ∨ ∃ e' ∈ d, e'.1 = e.1 := by
  rcases mem_insert h with hmem | ⟨-, hk | ⟨e', -, hkey, hsame⟩⟩
  · exact .inr ⟨e, hmem, rfl⟩
  · exact .inl (by rw [hk, Key.same_refl])
  · exact .inl (by rwa [← hkey])

theorem Distinct.insert {d : Dict α} (h : Distinct d) (k : Key) (v : α) :
    Distinct (d.insert k v) := by
  induction d with
  | nil => simp [Distinct, Dict.insert]
  | cons e d ih =>
    obtain ⟨he, hd⟩ := List.pairwise_cons.mp h
    rw [Dict.insert]
    split_ifs with hsame
    · exact List.pairwise_cons.mpr ⟨he, hd⟩
    · refine List.pairwise_cons.mpr ⟨?_, ih hd⟩
      intro e' he'
      rcases same_of_mem_insert he' with hk | ⟨e'', he'', hkey⟩
      · rw [Key.same_comm, Key.same_trans hk, Key.same_comm]
        simpa using hsame
      · rw [← hkey]
        exact he e'' he''

theorem distinct_foldl_insert {d : Dict α} (h : Distinct d) (entries : List (Key × α)) :
    Distinct (entries.foldl (fun d (k, v) => insert k v d) d) := by
  induction entries generalizing d with
  | nil => exact h
  | cons e entries ih => exact ih (h.insert e.1 e.2)

theorem distinct_ofList (entries : List (Key × α)) : Distinct (ofList entries) :=
  distinct_foldl_insert .nil entries

theorem mem_foldl_insert {d : Dict α} {entries : List (Key × α)} {e : Key × α}
    (h : e ∈ entries.foldl (fun d (k, v) => insert k v d) d) :
    (∃ e' ∈ d ++ entries, e'.1 = e.1) ∧ ∃ e' ∈ d ++ entries, e'.2 = e.2 := by
  induction entries generalizing d with
  | nil => exact ⟨⟨e, by simpa using h, rfl⟩, e, by simpa using h, rfl⟩
  | cons a entries ih =>
    have hback {e' : Key × α} (he' : e' ∈ d.insert a.1 a.2 ++ entries) :
        (∃ x ∈ d ++ a :: entries, x.1 = e'.1) ∧ ∃ x ∈ d ++ a :: entries, x.2 = e'.2 := by
      rcases List.mem_append.mp he' with hd | hmore
      · rcases mem_insert hd with hmem | ⟨hv, hk | ⟨x, hx, hkey, -⟩⟩
        · exact ⟨⟨e', by simp [hmem], rfl⟩, e', by simp [hmem], rfl⟩
        · exact ⟨⟨a, by simp, hk.symm⟩, a, by simp, hv.symm⟩
        · exact ⟨⟨x, by simp [hx], hkey⟩, a, by simp, hv.symm⟩
      · exact ⟨⟨e', by simp [hmore], rfl⟩, e', by simp [hmore], rfl⟩
    obtain ⟨⟨x, hx, hkey⟩, y, hy, hvalue⟩ := ih h
    obtain ⟨x', hx', hkey'⟩ := (hback hx).1
    obtain ⟨y', hy', hvalue'⟩ := (hback hy).2
    exact ⟨⟨x', hx', hkey'.trans hkey⟩, y', hy', hvalue'.trans hvalue⟩

/-- Keys and values of a dictionary are those of its entries. -/
theorem mem_ofList {entries : List (Key × α)} {e : Key × α} (h : e ∈ ofList entries) :
    (∃ e' ∈ entries, e'.1 = e.1) ∧ ∃ e' ∈ entries, e'.2 = e.2 :=
  mem_foldl_insert (d := []) h

theorem get?_of_mem {d : Dict α} (h : Distinct d) {k : Key} {v : α} (hmem : (k, v) ∈ d) :
    d.get? k = some v := by
  induction d with
  | nil => simp at hmem
  | cons e d ih =>
    obtain ⟨he, hd⟩ := List.pairwise_cons.mp h
    rcases List.mem_cons.mp hmem with rfl | hmore
    · simp [get?, Key.same_refl]
    · have hrest := ih hd hmore
      simp only [get?] at hrest ⊢
      rwa [List.find?_cons_of_neg (by simp [he (k, v) hmore])]

/-! What is found after a change -/

theorem get?_cons (e : Key × α) (d : Dict α) (l : Key) :
    get? l (e :: d) = if e.1.same l then some e.2 else d.get? l := by
  rw [get?, List.find?_cons]
  split_ifs with h <;> simp only [h] <;> rfl

theorem get?_insert_self (k : Key) (v : α) (d : Dict α) : (d.insert k v).get? k = some v := by
  induction d with
  | nil => simp [insert, get?_cons, Key.same_refl]
  | cons e d ih =>
    rw [insert]
    split_ifs with h
    · rw [get?_cons, if_pos h]
    · rw [get?_cons, if_neg h, ih]

theorem get?_insert_ne {k l : Key} (h : k.same l = false) (v : α) (d : Dict α) :
    (d.insert k v).get? l = d.get? l := by
  have hne : ¬ k.same l = true := by simp [h]
  induction d with
  | nil => rw [insert, get?_cons, if_neg hne]
  | cons e d ih =>
    rw [insert]
    split_ifs with he
    · rw [get?_cons, get?_cons, Key.same_trans he, if_neg hne, if_neg hne]
    · rw [get?_cons, get?_cons, ih]

theorem insert_insert (k : Key) (v w : α) (d : Dict α) :
    (d.insert k v).insert k w = d.insert k w := by
  induction d with
  | nil => simp [insert, Key.same_refl]
  | cons e d ih =>
    rw [insert, insert]
    split_ifs with h
    · rw [insert, if_pos h]
    · rw [insert, if_neg h, ih]

theorem get?_erase_self (k : Key) (d : Dict α) : (d.erase k).get? k = none := by
  rw [get?, Option.map_eq_none_iff, List.find?_eq_none]
  intro e he
  have hkept := (List.mem_filter.mp he).2
  simpa using hkept

theorem get?_erase_ne {k l : Key} (h : k.same l = false) (d : Dict α) :
    (d.erase k).get? l = d.get? l := by
  have hne : ¬ k.same l = true := by simp [h]
  induction d with
  | nil => rfl
  | cons e d ih =>
    by_cases he : e.1.same k = true
    · rw [erase, List.filter_cons_of_neg (by simp [he]), get?_cons, Key.same_trans he, if_neg hne]
      exact ih
    · rw [erase, List.filter_cons_of_pos (by simp [he]), get?_cons, get?_cons]
      rw [← ih, erase]

end Dict

end JsonAssert
