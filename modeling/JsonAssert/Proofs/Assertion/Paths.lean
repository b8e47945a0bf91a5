import JsonAssert.Proofs.Assertion.Reading
import JsonAssert.Value.Edit

/-! Paths of steps through well-formed data: a path goes on below the child that its first key names,
and a change at its end leaves alone what stands elsewhere. -/
namespace JsonAssert
open Script

/-! Children -/

/-- The child that a key names. -/
def Tree.child? {α : Type} [Tree α] (k : Key) (t : α) : Option α :=
  (branch? t).bind (Branch.get? k)

theorem Tree.child?_of_branch? {α : Type} [Tree α] {t : α} {b : Branch α} (h : branch? t = some b)
    (k : Key) : child? k t = b.get? k := by
  rw [child?, h, Option.bind_some]

theorem Tree.at?_cons {α : Type} [Tree α] (k : Key) (path : List Key) (t : α) :
    at? (k :: path) t = (child? k t).bind (at? path) := by
  cases hb : branch? t <;> simp [child?, at?, bind, hb]

theorem Tree.at?_append {α : Type} [Tree α] (path rest : List Key) (t : α) :
    at? (path ++ rest) t = (at? path t).bind (at? rest) := by
  induction path generalizing t with
  | nil => rfl
  | cons k path ih =>
    rw [List.cons_append, at?_cons, at?_cons]
    cases child? k t with
    | none => rfl
    | some child => exact ih child

/-- The keys under which well-formed data has children are the same only if they are equal. -/
theorem Key.same_iff_eq {k l : Key} (hk : IsStep k) (hl : IsStep l) : k.same l = true ↔ k = l := by
  rw [Key.same_iff]
  cases k with
  | bool b => exact absurd hk id
  | _ =>
    cases l with
    | bool b => exact absurd hl id
    | _ => simp [Key.canonical, Key.index?]

theorem Key.same_eq_false {k l : Key} (hk : IsStep k) (hl : IsStep l) (hne : k ≠ l) :
    k.same l = false := by
  rw [Bool.eq_false_iff]
  exact mt (Key.same_iff_eq hk hl).mp hne

theorem Dict.HasTextKeys.isStep {α : Type} {d : Dict α} (h : d.HasTextKeys) {e : Key × α}
    (he : e ∈ d) : IsStep e.1 := by
  obtain ⟨s, hs⟩ := h e he
  rw [hs]
  trivial

namespace Branch
variable {α : Type}

theorem position?_natCast (length i : ℕ) :
    position? length (.int i) = if i < length then some i else none := by
  have hnonneg : ¬ (i : ℤ) < 0 := by omega
  have hbounds : (0 ≤ (i : ℤ) ∧ (i : ℤ) < length) ↔ i < length := by omega
  simp only [position?, Key.index?, bind, Option.bind_some, if_neg hnonneg, hbounds,
    Int.toNat_natCast]

theorem get?_list_natCast (items : List α) (i : ℕ) : (list items).get? (.int i) = items[i]? := by
  rw [get?, position?_natCast]
  split_ifs with hi
  · rfl
  · rw [Option.bind_none, List.getElem?_eq_none (Nat.le_of_not_lt hi)]

theorem replace_list_natCast (items : List α) (i : ℕ) (x : α) :
    (list items).replace (.int i) x = .list (items.set i x) := by
  rw [replace, position?_natCast]
  split_ifs with hi
  · rfl
  · rw [List.set_eq_of_length_le (Nat.le_of_not_lt hi)]

theorem mem_children_list {items : List α} {k : Key} {x : α} :
    (k, x) ∈ (list items).children ↔ ∃ i : ℕ, k = .int i ∧ items[i]? = some x := by
  constructor
  · intro h
    obtain ⟨⟨y, i⟩, hmem, heq⟩ := List.mem_map.mp h
    obtain ⟨rfl, rfl⟩ : (Key.int i) = k ∧ y = x := by simpa using heq
    exact ⟨i, rfl, List.mk_mem_zipIdx_iff_getElem?.mp hmem⟩
  · rintro ⟨i, rfl, hget⟩
    exact List.mem_map.mpr ⟨(x, i), List.mk_mem_zipIdx_iff_getElem?.mpr hget, rfl⟩

/-- In a list, what a step finds is the element with this key. -/
theorem get?_list_iff {items : List α} {k : Key} (hk : IsStep k) {x : α} :
    (list items).get? k = some x ↔ (k, x) ∈ (list items).children := by
  rw [mem_children_list]
  cases k with
  | text s => simp [get?, position?, Key.index?]
  | bool b => exact absurd hk id
  | int n =>
    obtain ⟨i, rfl⟩ := Int.eq_ofNat_of_zero_le hk
    rw [get?_list_natCast]
    simp

theorem nodup_keys_list (items : List α) : ((list items).children.map (·.1)).Nodup := by
  have hkeys : (list items).children.map (·.1) =
      (items.zipIdx.map (·.2)).map fun i : ℕ => Key.int i := by
    rw [children, List.map_map, List.map_map]
    rfl
  rw [hkeys]
  apply (List.nodup_zipIdx_map_snd items).map
  intro i j h
  simpa using h

end Branch

namespace Dict
variable {α : Type}

theorem get?_iff {d : Dict α} (htext : d.HasTextKeys) (hnodup : (d.map (·.1)).Nodup) {k : Key}
    (hk : IsStep k) {x : α} : d.get? k = some x ↔ (k, x) ∈ d := by
  constructor
  · intro h
    obtain ⟨e, hfind, rfl⟩ := Option.map_eq_some_iff.mp h
    have hmem := List.mem_of_find?_eq_some hfind
    have hsame := List.find?_some hfind
    obtain rfl := (Key.same_iff_eq (htext.isStep hmem) hk).mp hsame
    exact hmem
  · exact get?_of_mem (distinct_of_nodup htext hnodup)

end Dict

/-- A step from a node leads to the child with this key. -/
theorem Data.child?_iff {d : Data}
    (h : ∀ entries, d = .dict entries → Dict.HasTextKeys entries ∧ (entries.map (·.1)).Nodup)
    {k : Key} (hk : IsStep k) {x : Data} :
    Tree.child? k d = some x ↔ (k, x) ∈ Tree.children d := by
  cases d with
  | list items => exact Branch.get?_list_iff hk
  | dict entries => exact Dict.get?_iff (h entries rfl).1 (h entries rfl).2 hk
  | _ => simp [Tree.child?, Tree.children, Tree.branch?, branch?]

/-- What a node leaves to the children under its steps, it leaves to all that paths of steps lead
to. -/
theorem Data.of_at?_of_child {P : Data → Prop}
    (hP : ∀ {d x : Data} {k : Key}, P d → IsStep k → Tree.child? k d = some x → P x) {d : Data}
    (h : P d) {path : List Key} (hsteps : ∀ k ∈ path, IsStep k) {x : Data}
    (hat : Tree.at? path d = some x) : P x := by
  induction path generalizing d with
  | nil =>
    obtain rfl := Option.some.inj hat
    exact h
  | cons k path ih =>
    obtain ⟨hk, hrest⟩ := List.forall_mem_cons.mp hsteps
    rw [Tree.at?_cons] at hat
    obtain ⟨child, hchild, hbelow⟩ := Option.bind_eq_some_iff.mp hat
    exact ih (hP h hk hchild) hrest hbelow

namespace Data.IsWellFormed

/-- The children of well-formed data are well-formed, and their keys are steps. -/
theorem child {d : Data} (h : d.IsWellFormed) {k : Key} {x : Data}
    (hmem : (k, x) ∈ Tree.children d) : IsStep k ∧ x.IsWellFormed := by
  cases h with
  | @list items hitems =>
    obtain ⟨i, rfl, hget⟩ := Branch.mem_children_list.mp (show (k, x) ∈ (Branch.list items).children
      from hmem)
    exact ⟨Int.natCast_nonneg i, hitems x (List.mem_of_getElem? hget)⟩
  | @dict entries htext hnodup hentries =>
    have hmem : (k, x) ∈ entries := hmem
    exact ⟨htext.isStep hmem, hentries (k, x) hmem⟩
  | _ => simp [Tree.children, Tree.branch?, Data.branch?] at hmem

theorem nodup_keys {d : Data} (h : d.IsWellFormed) : ((Tree.children d).map (·.1)).Nodup := by
  cases h with
  | list _ => exact Branch.nodup_keys_list _
  | dict _ hnodup _ => exact hnodup
  | _ => exact List.nodup_nil

theorem keys_of_dict {entries : Dict Data} (h : (Data.dict entries).IsWellFormed) :
    entries.HasTextKeys ∧ (entries.map (·.1)).Nodup := by
  cases h with
  | dict htext hnodup _ => exact ⟨htext, hnodup⟩

theorem get?_iff_of_dict {entries : Dict Data} (h : (Data.dict entries).IsWellFormed) {k : Key}
    (hk : IsStep k) {x : Data} : entries.get? k = some x ↔ (k, x) ∈ entries :=
  Dict.get?_iff h.keys_of_dict.1 h.keys_of_dict.2 hk

theorem child?_iff {d : Data} (h : d.IsWellFormed) {k : Key} (hk : IsStep k) {x : Data} :
    Tree.child? k d = some x ↔ (k, x) ∈ Tree.children d := by
  apply Data.child?_iff _ hk
  rintro entries rfl
  exact h.keys_of_dict

/-- A path goes on below the child that its first key names. -/
theorem at?_cons_iff {d : Data} (h : d.IsWellFormed) {k : Key} (hk : IsStep k) {path : List Key}
    {y : Data} : Tree.at? (k :: path) d = some y ↔
      ∃ x, (k, x) ∈ Tree.children d ∧ Tree.at? path x = some y := by
  rw [Tree.at?_cons, Option.bind_eq_some_iff]
  simp only [h.child?_iff hk]

/-- What a path of steps leads to is well-formed. -/
theorem of_at? {d : Data} (h : d.IsWellFormed) {path : List Key} (hsteps : ∀ k ∈ path, IsStep k)
    {x : Data} (hat : Tree.at? path d = some x) : x.IsWellFormed :=
  Data.of_at?_of_child (fun hd hk hchild => (hd.child ((hd.child?_iff hk).mp hchild)).2) h hsteps hat

end Data.IsWellFormed

/-! Changes -/

namespace Branch
variable {α : Type}

theorem get?_replace_self {b : Branch α} {k : Key} {x : α} (h : b.get? k = some x) (y : α) :
    (b.replace k y).get? k = some y := by
  cases b with
  | list items =>
    obtain ⟨i, hi, hget⟩ := Option.bind_eq_some_iff.mp h
    obtain ⟨hlt, -⟩ := List.getElem?_eq_some_iff.mp hget
    simp [replace, get?, hi, hlt]
  | dict entries => exact Dict.get?_insert_self k y entries

theorem get?_replace_ne {k l : Key} (hk : IsStep k) (hl : IsStep l) (hne : k ≠ l) (b : Branch α)
    (y : α) : (b.replace k y).get? l = b.get? l := by
  cases b with
  | list items =>
    cases k with
    | text s => rfl
    | bool b => exact absurd hk id
    | int n =>
      obtain ⟨i, rfl⟩ := Int.eq_ofNat_of_zero_le hk
      rw [replace_list_natCast]
      cases l with
      | text s => rfl
      | bool b => exact absurd hl id
      | int m =>
        obtain ⟨j, rfl⟩ := Int.eq_ofNat_of_zero_le hl
        have hij : i ≠ j := by
          rintro rfl
          exact hne rfl
        rw [get?_list_natCast, get?_list_natCast, List.getElem?_set_ne hij]
  | dict entries => exact Dict.get?_insert_ne (Key.same_eq_false hk hl hne) y entries

end Branch

/-- The tree after a change of the subtree at the end of a path. -/
def Tree.modify? {α : Type} [Tree α] (f : α → Option α) : List Key → α → Option α
  | [], t => f t
  | k :: path, t => do
    let b ← branch? t
    return ofBranch (b.replace k (← modify? f path (← b.get? k)))

/-- The tree with another subtree at the end of a path. -/
def Tree.put? {α : Type} [Tree α] (x : α) (path : List Key) (t : α) : Option α :=
  modify? (fun _ => some x) path t

/-- An edit changes the container at the end of its path. -/
theorem Tree.change?_eq_modify? {α : Type} [Tree α] (c : Change α) (path : List Key) (t : α) :
    change? c path t =
      modify? (fun t => ((branch? t).bind (Branch.change? c)).map ofBranch) path t := by
  induction path generalizing t with
  | nil =>
    cases hb : branch? t with
    | none => simp [change?, modify?, hb]
    | some b => cases hc : b.change? c <;> simp [change?, modify?, hb, hc]
  | cons k path ih => simp only [change?, modify?, ih]

theorem Data.branch?_ofBranch (b : Branch Data) :
    Tree.branch? (Tree.ofBranch b : Data) = some b := by
  cases b <;> rfl

/-- A change at the end of a path: what it made stands there, and off the path all is as before. -/
theorem Data.exists_modify? {f : Data → Option Data} {path : List Key} {d x y : Data}
    (hsteps : ∀ k ∈ path, IsStep k) (hat : Tree.at? path d = some x) (hf : f x = some y) :
    ∃ d', Tree.modify? f path d = some d' ∧
      (∀ rest, Tree.at? (path ++ rest) d' = Tree.at? rest y) ∧
      ∀ other, (∀ k ∈ other, IsStep k) → ¬ other <+: path → ¬ path <+: other →
        Tree.at? other d' = Tree.at? other d := by
  -- Only the child under the first key changes; the induction is over the path below it.
  induction path generalizing d with
  | nil =>
    obtain rfl := Option.some.inj hat
    exact ⟨y, hf, fun _ => rfl, fun other _ _ hother => absurd List.nil_prefix hother⟩
  | cons k path ih =>
    obtain ⟨hk, hrest⟩ := List.forall_mem_cons.mp hsteps
    rw [Tree.at?_cons] at hat
    obtain ⟨child, hchild, hbelow⟩ := Option.bind_eq_some_iff.mp hat
    obtain ⟨b, hb, hget⟩ := Option.bind_eq_some_iff.mp hchild
    obtain ⟨child', hmodify, hinside, houtside⟩ := ih hrest hbelow
    have hbranch := Tree.child?_of_branch? (branch?_ofBranch (b.replace k child'))
    refine ⟨Tree.ofBranch (b.replace k child'), by simp [Tree.modify?, hb, hget, hmodify], ?_, ?_⟩
    · intro rest
      rw [List.cons_append, Tree.at?_cons, hbranch, Branch.get?_replace_self hget,
        Option.bind_some, hinside]
    · rintro (_ | ⟨l, other⟩) hother hside hside'
      · exact absurd List.nil_prefix hside
      obtain ⟨hl, hmore⟩ := List.forall_mem_cons.mp hother
      rw [Tree.at?_cons, Tree.at?_cons, hbranch, Tree.child?_of_branch? hb]
      by_cases heq : l = k
      · subst heq
        have hsame := houtside other hmore (by simpa using hside) (by simpa using hside')
        rw [Branch.get?_replace_self hget, hget, Option.bind_some, Option.bind_some, hsame]
      · rw [Branch.get?_replace_ne hk hl (Ne.symm heq)]

/-- An edit of the container at the end of a path. -/
theorem Data.exists_edit {c : Change Data} {path : List Key} {d : Data} {b b' : Branch Data}
    (hsteps : ∀ k ∈ path, IsStep k) (hat : Tree.at? path d = some (Tree.ofBranch b))
    (hchange : b.change? c = some b') :
    ∃ d', Data.edit ⟨path, c⟩ d = .ok d' ∧
      (∀ rest, Tree.at? (path ++ rest) d' = Tree.at? rest (Tree.ofBranch b')) ∧
      ∀ other, (∀ k ∈ other, IsStep k) → ¬ other <+: path → ¬ path <+: other →
        Tree.at? other d' = Tree.at? other d := by
  obtain ⟨d', hmodify, hrest⟩ := Data.exists_modify?
    (f := fun t => ((Tree.branch? t).bind (Branch.change? c)).map Tree.ofBranch) hsteps hat
    (by rw [branch?_ofBranch, Option.bind_some, hchange, Option.map_some])
  exact ⟨d', by rw [Data.edit, Tree.edit?, Tree.change?_eq_modify?, hmodify], hrest⟩

end JsonAssert
