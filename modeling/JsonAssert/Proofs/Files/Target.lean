import JsonAssert.Proofs.Files.Path

/-! Where a write goes, and who can see it. A path never leads to the file beside it, and two paths
without a slash lead to one file of the working directory only if they are the same. -/
namespace JsonAssert.FileTree

/-- The names of the file that a write makes or replaces. -/
def target (t : FileTree) (path : String) : Except FileError (List String) :=
  match t.locate path with
  | .error e => .error e
  | .ok names =>
    match t.get? names with
    | some .directory => .error .isDirectory
    | _ => .ok names

theorem write_eq (t : FileTree) (path : String) (bytes : List UInt8) :
    t.write path bytes = (t.target path).map fun names => t.put names (.file bytes) := by
  unfold write target
  cases t.locate path with
  | error e => rfl
  | ok names =>
    dsimp only
    cases t.get? names with
    | none => rfl
    | some entry => cases entry <;> rfl

theorem target_eq_ok_iff {t : FileTree} {path : String} {names : List String} :
    t.target path = .ok names ↔ t.locate path = .ok names ∧ t.get? names ≠ some .directory := by
  unfold target
  cases t.locate path with
  | error e => simp
  | ok names' =>
    dsimp only
    split
    · next hentry =>
      simp only [reduceCtorEq, Except.ok.injEq, false_iff, not_and]
      rintro rfl
      exact not_not_intro hentry
    · next hentry =>
      simp only [Except.ok.injEq]
      exact ⟨fun heq => ⟨heq, heq ▸ hentry⟩, And.left⟩

/-- Reading sees the one entry that the path leads to. -/
theorem read_congr {t t' : FileTree} {path : String} (hlocate : t'.locate path = t.locate path)
    (hentry : ∀ names, t.locate path = .ok names → t'.get? names = t.get? names) :
    t'.read path = t.read path := by
  unfold read
  rw [hlocate]
  cases h : t.locate path with
  | error e => rfl
  | ok names => simp only [hentry names h]

theorem target_congr {t t' : FileTree} {path : String} (hlocate : t'.locate path = t.locate path)
    (hentry : ∀ names, t.locate path = .ok names → t'.get? names = t.get? names) :
    t'.target path = t.target path := by
  unfold target
  rw [hlocate]
  cases h : t.locate path with
  | error e => rfl
  | ok names => simp only [hentry names h]

/-! The last part of a path -/

theorem components_of_plain {path : List Char} (h : '/' ∉ path) : components path = [path] := by
  induction path with
  | nil => rfl
  | cons c path ih =>
    obtain ⟨hc, hpath⟩ := List.ne_and_not_mem_of_not_mem_cons h
    rw [components, ih hpath]
    exact Ne.symm hc

theorem components_append {suffix : List Char} (h : '/' ∉ suffix) (path : List Char) :
    ∃ init last, components path = init ++ [last] ∧
      components (path ++ suffix) = init ++ [last ++ suffix] := by
  induction path with
  | nil => exact ⟨[], [], rfl, components_of_plain h⟩
  | cons c path ih =>
    obtain ⟨init, last, hpath, hmore⟩ := ih
    by_cases hc : c = '/'
    · subst hc
      exact ⟨[] :: init, last, by rw [components, hpath]; rfl,
        by rw [List.cons_append, components, hmore]; rfl⟩
    · cases init with
      | nil =>
        refine ⟨[], c :: last, ?_, ?_⟩
        · rw [components, hpath]
          · rfl
          · exact hc
        · rw [List.cons_append, components, hmore]
          · rfl
          · exact hc
      | cons name init =>
        refine ⟨(c :: name) :: init, last, ?_, ?_⟩
        · rw [components, hpath]
          · rfl
          · exact hc
        · rw [List.cons_append, components, hmore]
          · rfl
          · exact hc

/-- A name that is neither empty nor made of dots leads into the directory. -/
theorem follow_of_ordinary {t : FileTree} {names next : List String} {name : String}
    (hname : 2 < name.length) (h : t.follow names name = .ok next) : next = names ++ [name] := by
  have hne {s : String} (hs : s.length ≤ 2) : name ≠ s := by
    rintro rfl
    omega
  unfold follow at h
  split at h
  · cases h
  · cases h
  have hself : ¬ (name = "" ∨ name = ".") := by
    rintro (heq | heq)
    · exact hne (by decide) heq
    · exact hne (by decide) heq
  rw [if_neg hself, if_neg (hne (by decide))] at h
  split_ifs at h
  exact (Except.ok.inj h).symm

/-- No name leads to where a longer one does. -/
theorem follow_ne {t : FileTree} {names next : List String} {name suffix : String}
    (hsuffix : suffix ≠ "") (h : t.follow names name = .ok next) :
    next ≠ names ++ [name ++ suffix] := by
  have hlonger : name ≠ name ++ suffix := by
    intro heq
    exact hsuffix (by simpa using congrArg String.toList heq)
  unfold follow at h
  split at h
  · cases h
  · cases h
  split_ifs at h with hself hup hlong
  · obtain rfl := Except.ok.inj h
    simp
  · obtain rfl := Except.ok.inj h
    intro hnext
    have hlength := congrArg List.length hnext
    simp only [List.length_dropLast, List.length_append, List.length_cons] at hlength
    omega
  · obtain rfl := Except.ok.inj h
    simpa using hlonger

/-- The file beside another has a longer last name, so it is another file. -/
theorem locate_ne_of_append {t : FileTree} {path suffix : String} {names names' : List String}
    (hlong : 2 < suffix.length) (hplain : '/' ∉ suffix.toList) (h : t.locate path = .ok names)
    (hbeside : t.locate (path ++ suffix) = .ok names') : names ≠ names' := by
  obtain ⟨init, last, hpath, hmore⟩ := components_append hplain path.toList
  unfold locate at h hbeside
  split_ifs at h hbeside with hempty
  have hstart : t.start (path ++ suffix) = t.start path := by
    have hne : path.toList ≠ [] := by simpa using hempty
    simp only [start, String.toList_append, List.head?_append_of_ne_nil _ hne]
  simp only [hpath, String.toList_append, hmore, hstart, List.map_append, List.map_singleton,
    List.foldlM_append, List.foldlM_cons, List.foldlM_nil, bind_pure] at h hbeside
  cases hdirectory : (init.map String.ofList).foldlM t.follow (t.start path) with
  | error e => simp [hdirectory, bind, Except.bind] at h
  | ok directory =>
    rw [hdirectory] at h hbeside
    have hname : 2 < (String.ofList (last ++ suffix.toList)).length := by
      simp
      omega
    rw [follow_of_ordinary hname hbeside, String.ofList_append, String.ofList_toList]
    refine follow_ne ?_ h
    rintro rfl
    simp at hlong

/-! Paths without a slash -/

theorem locate_of_plain_eq {path : String} (h : '/' ∉ path.toList) (t : FileTree) :
    t.locate path =
      if path = "" then .error .notFound
      else if maxPath ≤ path.utf8ByteSize then .error .nameTooLong
      else t.follow t.workingDirectory path := by
  have hstart : t.start path = t.workingDirectory := by
    refine if_neg fun hhead => h ?_
    exact List.mem_of_mem_head? (by rw [hhead]; rfl)
  unfold locate
  simp only [components_of_plain h, List.map_singleton, List.foldlM_cons, List.foldlM_nil,
    bind_pure, hstart, String.ofList_toList]

/-- A plain name is looked up in the working directory. -/
theorem locate_of_plain {t t' : FileTree} {path : String} (h : '/' ∉ path.toList)
    (hnames : t'.workingDirectory = t.workingDirectory)
    (hentry : t'.get? t.workingDirectory = t.get? t.workingDirectory) :
    t'.locate path = t.locate path := by
  rw [locate_of_plain_eq h, locate_of_plain_eq h, hnames, follow_congr path hentry]

/-- A plain name leads to no place of another name in the working directory. -/
theorem ne_of_plain {t : FileTree} {path other : String} {names : List String}
    (h : '/' ∉ path.toList) (hother : path ≠ other) (hlocate : t.locate path = .ok names) :
    names ≠ t.workingDirectory ++ [other] := by
  have hne {names : List String} (hlength : names.length ≤ t.workingDirectory.length) :
      names ≠ t.workingDirectory ++ [other] := by
    rintro rfl
    simp at hlength
  rw [locate_of_plain_eq h] at hlocate
  split_ifs at hlocate
  unfold follow at hlocate
  split at hlocate
  · cases hlocate
  · cases hlocate
  split_ifs at hlocate
  · obtain rfl := Except.ok.inj hlocate
    exact hne le_rfl
  · obtain rfl := Except.ok.inj hlocate
    exact hne (by simp)
  · obtain rfl := Except.ok.inj hlocate
    simpa using hother

/-- What is written at a plain name that is not made of dots is in the working directory. -/
theorem target_of_plain {t : FileTree} {path : String} {names : List String}
    (h : '/' ∉ path.toList) (hlong : 2 < path.length) (htarget : t.target path = .ok names) :
    names = t.workingDirectory ++ [path] := by
  obtain ⟨hlocate, -⟩ := target_eq_ok_iff.mp htarget
  rw [locate_of_plain_eq h] at hlocate
  split_ifs at hlocate
  exact follow_of_ordinary hlong hlocate

/-! One write after another -/

theorem put_put (t : FileTree) (names : List String) (e e' : Entry) :
    (t.put names e).put names e' = t.put names e' := by
  simp [put, remove]

/-- Every name leads to the same in both, and one directory is worked in. -/
structure SameFiles (t t' : FileTree) : Prop where
  workingDirectory : t'.workingDirectory = t.workingDirectory
  get? : ∀ names, t'.get? names = t.get? names

theorem SameFiles.refl (t : FileTree) : SameFiles t t := ⟨rfl, fun _ => rfl⟩

theorem sameFiles_put_comm (t : FileTree) {names names' : List String} (h : names ≠ names')
    (e e' : Entry) : SameFiles ((t.put names e).put names' e') ((t.put names' e').put names e) := by
  refine ⟨rfl, fun other => ?_⟩
  by_cases hnil : other = []
  · subst hnil
    rfl
  by_cases hfirst : other = names
  · subst hfirst
    rw [get?_put_self _ hnil, get?_put_of_ne _ h, get?_put_self _ hnil]
  by_cases hsecond : other = names'
  · subst hsecond
    rw [get?_put_of_ne _ h.symm, get?_put_self _ hnil, get?_put_self _ hnil]
  · simp only [get?_put_of_ne _ hfirst, get?_put_of_ne _ hsecond]

end JsonAssert.FileTree
