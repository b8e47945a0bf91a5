import Mathlib
import JsonAssert.Files.Path

/-! Reading what was written: a write changes one entry that is no directory, so every path still
leads where it led before. -/
namespace JsonAssert.FileTree

theorem lookup_filter_ne {names names' : List String} (h : names' ≠ names)
    (entries : List (List String × Entry)) :
    (entries.filter fun e => e.1 != names).lookup names' = entries.lookup names' := by
  induction entries with
  | nil => rfl
  | cons e entries ih =>
    by_cases hkey : e.1 = names
    · have hne : (names' == e.1) = false := by simpa [hkey] using h
      rw [List.filter_cons_of_neg (by simp [hkey]), ih, List.lookup_cons, hne]
    · rw [List.filter_cons_of_pos (by simp [hkey]), List.lookup_cons, List.lookup_cons, ih]

theorem get?_put_self (t : FileTree) {names : List String} (hnames : names ≠ []) (e : Entry) :
    (t.put names e).get? names = some e := by
  rw [get?, if_neg hnames]
  simp [put]

theorem get?_put_of_ne (t : FileTree) {names names' : List String} (h : names' ≠ names)
    (e : Entry) : (t.put names e).get? names' = t.get? names' := by
  have hkey : (names' == names) = false := by simpa using h
  rw [get?, get?]
  split_ifs
  · rfl
  · rw [put, List.lookup_cons, hkey]
    exact lookup_filter_ne h t.entries

@[simp] theorem workingDirectory_put (t : FileTree) (names : List String) (e : Entry) :
    (t.put names e).workingDirectory = t.workingDirectory := rfl

@[simp] theorem start_put (t : FileTree) (names : List String) (e : Entry) (path : String) :
    (t.put names e).start path = t.start path := rfl

/-- A step of a path starts at a directory. -/
theorem directory_of_follow {t : FileTree} {names next : List String} {name : String}
    (h : t.follow names name = .ok next) : t.get? names = some .directory := by
  unfold follow at h
  split at h
  · simp at h
  · simp at h
  · next hentry => exact hentry

theorem follow_congr {t t' : FileTree} {names : List String} (name : String)
    (h : t'.get? names = t.get? names) : t'.follow names name = t.follow names name := by
  unfold follow
  rw [h]

/-- Putting something else in the place of what is no directory leads no path astray. -/
theorem locate_put {t : FileTree} {names found : List String} {path : String} (e : Entry)
    (hnames : t.get? names ≠ some .directory) (h : t.locate path = .ok found) :
    (t.put names e).locate path = .ok found := by
  have hsteps (parts : List String) {start : List String}
      (h : parts.foldlM t.follow start = .ok found) :
      parts.foldlM (t.put names e).follow start = .ok found := by
    induction parts generalizing start with
    | nil => exact h
    | cons part parts ih =>
      rw [List.foldlM_cons] at h ⊢
      cases hstep : t.follow start part with
      | error cause =>
        rw [hstep] at h
        exact absurd h (by simp [bind, Except.bind])
      | ok next =>
        have hstart : start ≠ names := by
          rintro rfl
          exact hnames (directory_of_follow hstep)
        rw [hstep] at h
        rw [follow_congr part (get?_put_of_ne t hstart e), hstep]
        exact ih h
  unfold locate at h ⊢
  split_ifs at h ⊢
  rw [start_put]
  exact hsteps _ h

/-- A write puts a file where the path leads, which is no directory. -/
theorem eq_put_of_write {t t' : FileTree} {path : String} {bytes : List UInt8}
    (h : t.write path bytes = .ok t') :
    ∃ names, t.locate path = .ok names ∧ t.get? names ≠ some .directory ∧
      t' = t.put names (.file bytes) := by
  unfold write at h
  split at h
  · simp at h
  next names hlocate =>
  split at h
  · simp at h
  next hentry => exact ⟨names, hlocate, hentry, (Except.ok.inj h).symm⟩

theorem ne_nil_of_not_directory {t : FileTree} {names : List String}
    (h : t.get? names ≠ some .directory) : names ≠ [] := by
  rintro rfl
  exact h rfl

/-- What was written is read at the same path. -/
theorem read_of_write {t t' : FileTree} {path : String} {bytes : List UInt8}
    (h : t.write path bytes = .ok t') : t'.read path = .ok bytes := by
  obtain ⟨names, hlocate, hentry, rfl⟩ := eq_put_of_write h
  rw [read, locate_put _ hentry hlocate]
  simp only [get?_put_self t (ne_nil_of_not_directory hentry)]

/-- The path leads to a file with these bytes, every other entry is what it was before, and so is the
directory that is worked in. -/
structure Replaces (t : FileTree) (path : String) (bytes : List UInt8) (t' : FileTree) : Prop where
  read : t'.read path = .ok bytes
  entry : ∃ names, t.locate path = .ok names ∧ t'.get? names = some (.file bytes) ∧
    ∀ names', names' ≠ names → t'.get? names' = t.get? names'
  workingDirectory : t'.workingDirectory = t.workingDirectory

theorem replaces_of_write {t t' : FileTree} {path : String} {bytes : List UInt8}
    (h : t.write path bytes = .ok t') : t.Replaces path bytes t' where
  read := read_of_write h
  entry := by
    obtain ⟨names, hlocate, hentry, rfl⟩ := eq_put_of_write h
    exact ⟨names, hlocate, get?_put_self t (ne_nil_of_not_directory hentry) _,
      fun names' hne => get?_put_of_ne t hne _⟩
  workingDirectory := by
    obtain ⟨names, -, -, rfl⟩ := eq_put_of_write h
    exact workingDirectory_put t names _

end JsonAssert.FileTree
