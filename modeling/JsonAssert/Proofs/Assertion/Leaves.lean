import JsonAssert.Proofs.Assertion.Generation
import JsonAssert.Proofs.Assertion.Paths

/-! Leaves and their paths. In well-formed data every leaf has a path of its own, the path leads to
it, and the leaves together with their paths are all there is to know of a value. -/
namespace JsonAssert
open Script

/-! Literals -/

theorem Data.IsWellFormed.isFiniteLeaf {l : Leaf} (h : l.data.IsWellFormed) : IsFiniteLeaf l := by
  cases l with
  | number x =>
    cases h with
    | number hx => exact hx
  | _ => trivial

theorem Leaf.children_data (l : Leaf) : Tree.children l.data = [] := by
  cases l <;> rfl

theorem Leaf.at?_cons_data (l : Leaf) (k : Key) (path : List Key) :
    Tree.at? (k :: path) l.data = none := by
  rw [Tree.at?_cons]
  cases l with
  | emptyList => simp [data, Tree.child?, Tree.branch?, Data.branch?, Branch.get?]
  | emptyDict => rfl
  | _ => rfl

theorem Leaf.data_injective : Function.Injective Leaf.data := by
  intro l m h
  cases l <;> cases m <;> simp_all [data]

/-- A literal at the end of a path of steps. -/
def IsLeafAt (path : List Key) (l : Leaf) (d : Data) : Prop :=
  (∀ k ∈ path, IsStep k) ∧ Tree.at? path d = some l.data

namespace IsLeafAt

/-- No path goes on behind a leaf. -/
theorem eq_of_isPrefix {path other : List Key} {l : Leaf} {d x : Data} (h : IsLeafAt path l d)
    (hother : Tree.at? other d = some x) (hbefore : path <+: other) : path = other := by
  obtain ⟨rest, rfl⟩ := hbefore
  cases rest with
  | nil => rw [List.append_nil]
  | cons k rest =>
    rw [Tree.at?_append, h.2, Option.bind_some, Leaf.at?_cons_data] at hother
    simp at hother

theorem isFiniteLeaf {path : List Key} {l : Leaf} {d : Data} (h : IsLeafAt path l d)
    (hd : d.IsWellFormed) : IsFiniteLeaf l :=
  (hd.of_at? h.1 h.2).isFiniteLeaf

end IsLeafAt

/-! Values -/

namespace Value

theorem data_injective : Function.Injective data := by
  intro v w h
  have hvalues := congrArg Data.toValue h
  rw [toValue_data, toValue_data] at hvalues
  exact Except.ok.inj hvalues

theorem children_data (v : Value) :
    Tree.children v.data = (Tree.children v).map fun e => (e.1, e.2.data) := by
  cases v with
  | list items =>
    rw [data, dataOfItems_eq_map]
    show (Branch.list (items.map data)).children =
      (Branch.list items).children.map fun e => (e.1, e.2.data)
    simp only [Branch.children, List.zipIdx_map, List.map_map]
    rfl
  | dict entries =>
    rw [data, dataOfEntries_eq_map]
    rfl
  | _ => rfl

theorem mem_children_data {v : Value} {k : Key} {d : Data} :
    (k, d) ∈ Tree.children v.data ↔ ∃ child, (k, child) ∈ Tree.children v ∧ child.data = d := by
  rw [children_data]
  simp [List.mem_map]

theorem isWellFormed_child {v : Value} (h : v.data.IsWellFormed) {e : Key × Value}
    (he : e ∈ Tree.children v) : IsStep e.1 ∧ e.2.data.IsWellFormed :=
  h.child (mem_children_data.mpr ⟨e.2, he, rfl⟩)

/-- A value has a literal exactly when it stands for the data of one. -/
theorem leaf_eq_ok_iff {v : Value} {l : Leaf} : v.leaf = .ok l ↔ v.data = l.data := by
  have hdata : l.value.data = l.data := by cases l <;> rfl
  have hleaf : l.value.leaf = .ok l := by cases l <;> rfl
  constructor
  · intro h
    rw [eq_value_of_leaf h, hdata]
  · intro h
    rw [data_injective (h.trans hdata.symm), hleaf]

theorem size_le_sizeOfItems {items : List Value} {v : Value} (h : v ∈ items) :
    v.size ≤ sizeOfItems items := by
  induction items with
  | nil => simp at h
  | cons w items ih =>
    rw [sizeOfItems]
    rcases List.mem_cons.mp h with rfl | hmore
    · exact Nat.le_add_right _ _
    · exact (ih hmore).trans (Nat.le_add_left _ _)

/-- Induction over the nodes of a value: what holds of a node whenever it holds of all its children
holds of the value. -/
@[elab_as_elim]
theorem induction_children {motive : Value → Prop} (v : Value)
    (node : ∀ v, (∀ e ∈ Tree.children v, motive e.2) → motive v) : motive v := by
  induction hsize : v.size using Nat.strong_induction_on generalizing v with
  | _ size ih =>
    subst hsize
    apply node
    intro e he
    apply ih e.2.size _ e.2 rfl
    have hle := size_le_sizeOfItems (List.mem_map_of_mem (f := (·.2)) he)
    have hchildren := v.size_children
    omega

theorem children_ne_nil {v : Value} {e : NoLiteral} (h : v.leaf = .error e) :
    Tree.children v ≠ [] := by
  cases v with
  | list items =>
    cases items with
    | nil => simp [leaf] at h
    | cons v items => simp [Tree.children, Tree.branch?, branch?, Branch.children]
  | dict entries =>
    cases entries with
    | nil => simp [leaf] at h
    | cons e entries => simp [Tree.children, Tree.branch?, branch?, Branch.children]
  | _ => simp [leaf] at h

theorem leaves_ne_nil (v : Value) : v.leaves ≠ [] := by
  induction v using induction_children with
  | node v ih =>
    cases hleaf : v.leaf with
    | ok l =>
      rw [leaves_of_leaf hleaf]
      exact List.cons_ne_nil _ _
    | error e =>
      obtain ⟨child, children, hchildren⟩ := List.exists_cons_of_ne_nil (children_ne_nil hleaf)
      have hchild := ih child (by simp [hchildren])
      rw [leaves_of_branch hleaf, hchildren, List.flatMap_cons]
      simp [leavesAt, hchild]

/-! Paths -/

theorem mem_leavesAt {e : Key × Value} {path : List Key} {l : Leaf} :
    (path, l) ∈ leavesAt e ↔ ∃ rest, path = e.1 :: rest ∧ (rest, l) ∈ e.2.leaves := by
  constructor
  · intro h
    obtain ⟨⟨rest, l'⟩, hrest, heq⟩ := List.mem_map.mp h
    obtain ⟨rfl, rfl⟩ : e.1 :: rest = path ∧ l' = l := by simpa using heq
    exact ⟨rest, rfl, hrest⟩
  · rintro ⟨rest, rfl, hrest⟩
    exact List.mem_map.mpr ⟨(rest, l), hrest, rfl⟩

/-- The leaves of a value are the literals that paths of steps lead to in its data. -/
theorem mem_leaves_iff {v : Value} (h : v.data.IsWellFormed) {path : List Key} {l : Leaf} :
    (path, l) ∈ v.leaves ↔ IsLeafAt path l v.data := by
  induction v using induction_children generalizing path with
  | node v ih =>
    cases hleaf : v.leaf with
    | ok l' =>
      have hdata := leaf_eq_ok_iff.mp hleaf
      rw [leaves_of_leaf hleaf, List.mem_singleton, Prod.mk.injEq]
      constructor
      · rintro ⟨rfl, rfl⟩
        exact ⟨List.forall_mem_nil _, congrArg some hdata⟩
      · rintro ⟨hsteps, hat⟩
        cases path with
        | nil =>
          have hl := leaf_eq_ok_iff.mpr (Option.some.inj hat)
          exact ⟨rfl, Except.ok.inj (hl.symm.trans hleaf)⟩
        | cons k rest =>
          obtain ⟨x, hx, -⟩ := (h.at?_cons_iff (hsteps k List.mem_cons_self)).mp hat
          rw [hdata, Leaf.children_data] at hx
          simp at hx
    | error e =>
      rw [leaves_of_branch hleaf, List.mem_flatMap]
      constructor
      · rintro ⟨⟨k, child⟩, hchild, hbelow⟩
        obtain ⟨rest, rfl, hrest⟩ := mem_leavesAt.mp hbelow
        obtain ⟨hk, hwell⟩ := isWellFormed_child h hchild
        have hmem := mem_children_data.mpr ⟨child, hchild, rfl⟩
        obtain ⟨hsteps, hat⟩ := (ih _ hchild hwell).mp hrest
        exact ⟨List.forall_mem_cons.mpr ⟨hk, hsteps⟩, (h.at?_cons_iff hk).mpr ⟨_, hmem, hat⟩⟩
      · rintro ⟨hsteps, hat⟩
        cases path with
        | nil =>
          have hl := leaf_eq_ok_iff.mpr (Option.some.inj hat)
          rw [hleaf] at hl
          simp at hl
        | cons k rest =>
          obtain ⟨hk, hrest⟩ := List.forall_mem_cons.mp hsteps
          obtain ⟨x, hx, hbelow⟩ := (h.at?_cons_iff hk).mp hat
          obtain ⟨child, hchild, rfl⟩ := mem_children_data.mp hx
          have hmem := (ih _ hchild (isWellFormed_child h hchild).2).mpr ⟨hrest, hbelow⟩
          exact ⟨(k, child), hchild, mem_leavesAt.mpr ⟨rest, rfl, hmem⟩⟩

theorem nodup_keys {v : Value} (h : v.data.IsWellFormed) :
    ((Tree.children v).map (·.1)).Nodup := by
  have hkeys := h.nodup_keys
  rwa [children_data, List.map_map] at hkeys

/-- No two leaves have one path. -/
theorem nodup_paths {v : Value} (h : v.data.IsWellFormed) : (v.leaves.map (·.1)).Nodup := by
  induction v using induction_children with
  | node v ih =>
    cases hleaf : v.leaf with
    | ok l =>
      rw [leaves_of_leaf hleaf]
      exact List.nodup_singleton _
    | error e =>
      have hpaths (child : Key × Value) : (leavesAt child).map (·.1) =
          (child.2.leaves.map (·.1)).map (child.1 :: ·) := by
        simp [leavesAt, Function.comp_def]
      rw [leaves_of_branch hleaf, List.map_flatMap, List.nodup_flatMap]
      refine ⟨?_, ?_⟩
      · intro child hchild
        rw [hpaths]
        exact (ih child hchild (isWellFormed_child h hchild).2).map List.cons_injective
      · apply (List.pairwise_map.mp (nodup_keys h)).imp
        intro child child' hne path hpath hpath'
        simp only [hpaths, List.mem_map] at hpath hpath'
        obtain ⟨rest, -, rfl⟩ := hpath
        obtain ⟨rest', -, heq⟩ := hpath'
        exact hne (List.cons.inj heq).1.symm

/-! Leaves determine the value -/

/-- What lies below one key is told by this key from all that follows. -/
theorem append_leavesAt_inj {k : Key} {v w : Value} {rest rest' : List (List Key × Leaf)}
    (hrest : ∀ p ∈ rest, p.1.head? ≠ some k) (hrest' : ∀ p ∈ rest', p.1.head? ≠ some k)
    (h : leavesAt (k, v) ++ rest = leavesAt (k, w) ++ rest') :
    v.leaves = w.leaves ∧ rest = rest' := by
  have hkey (v : Value) : ∀ p ∈ leavesAt (k, v), p.1.head? = some k := by
    rintro ⟨path, l⟩ hp
    obtain ⟨below, rfl, -⟩ := mem_leavesAt.mp hp
    rfl
  have hbelow {v : Value} {rest : List (List Key × Leaf)} (hrest : ∀ p ∈ rest, p.1.head? ≠ some k) :
      (leavesAt (k, v) ++ rest).filter (·.1.head? = some k) = leavesAt (k, v) := by
    have hall := List.filter_eq_self.mpr fun p hp => decide_eq_true (hkey v p hp)
    have hnone := List.filter_eq_nil_iff.mpr fun p hp => mt of_decide_eq_true (hrest p hp)
    rw [List.filter_append, hall, hnone, List.append_nil]
  have hsame : leavesAt (k, v) = leavesAt (k, w) := by
    rw [← hbelow hrest, h, hbelow hrest']
  rw [hsame] at h
  have hcons : Function.Injective fun p : List Key × Leaf => (k :: p.1, p.2) := by
    intro p q hpq
    simpa [Prod.ext_iff] using hpq
  exact ⟨List.map_injective_iff.mpr hcons hsame, List.append_cancel_left h⟩

theorem head_ne_of_nodup {k : Key} {entries : List (Key × Value)}
    (h : k ∉ entries.map (·.1)) : ∀ p ∈ entries.flatMap leavesAt, p.1.head? ≠ some k := by
  rintro ⟨path, l⟩ hp hk
  obtain ⟨e, he, hbelow⟩ := List.mem_flatMap.mp hp
  obtain ⟨rest, rfl, -⟩ := mem_leavesAt.mp hbelow
  obtain rfl : e.1 = k := by simpa using hk
  exact h (List.mem_map_of_mem he)

/-- Entries with different keys are known from what lies below them, if each of them is. -/
theorem flatMap_leavesAt_inj {entries entries' : List (Key × Value)}
    (hnodup : (entries.map (·.1)).Nodup) (hnodup' : (entries'.map (·.1)).Nodup)
    (hinj : ∀ e ∈ entries, ∀ e' ∈ entries', e.2.leaves = e'.2.leaves → e.2 = e'.2)
    (h : entries.flatMap leavesAt = entries'.flatMap leavesAt) : entries = entries' := by
  have hstart (e : Key × Value) : ∃ path l more, leavesAt e = (e.1 :: path, l) :: more := by
    obtain ⟨p, more, hp⟩ := List.exists_cons_of_ne_nil e.2.leaves_ne_nil
    exact ⟨p.1, p.2, more.map fun p => (e.1 :: p.1, p.2), by rw [leavesAt, hp, List.map_cons]⟩
  induction entries generalizing entries' with
  | nil =>
    cases entries' with
    | nil => rfl
    | cons e' entries' =>
      obtain ⟨path, l, more, he'⟩ := hstart e'
      simp [he'] at h
  | cons e entries ih =>
    obtain ⟨path, l, more, he⟩ := hstart e
    cases entries' with
    | nil => simp [he] at h
    | cons e' entries' =>
      obtain ⟨path', l', more', he'⟩ := hstart e'
      obtain ⟨k, v⟩ := e
      obtain ⟨k', v'⟩ := e'
      -- The first leaf on either side starts with the first key.
      obtain rfl : k = k' := by
        rw [List.flatMap_cons, List.flatMap_cons, he, he'] at h
        simp only [List.cons_append, List.cons.injEq, Prod.mk.injEq] at h
        exact h.1.1.1
      obtain ⟨hk, hrest⟩ := List.nodup_cons.mp hnodup
      obtain ⟨hk', hrest'⟩ := List.nodup_cons.mp hnodup'
      rw [List.flatMap_cons, List.flatMap_cons] at h
      obtain ⟨hleaves, hmore⟩ := append_leavesAt_inj (head_ne_of_nodup hk) (head_ne_of_nodup hk') h
      have hv : v = v' := hinj _ List.mem_cons_self _ List.mem_cons_self hleaves
      have hentries := ih hrest hrest' (fun e he e' he' => hinj e (List.mem_cons_of_mem _ he) e'
        (List.mem_cons_of_mem _ he')) hmore
      rw [hv, hentries]

theorem children_list_ne_dict {items : List Value} {entries : List (Key × Value)}
    (h : (dict entries).data.IsWellFormed) (hne : Tree.children (dict entries) ≠ []) :
    Tree.children (list items) ≠ Tree.children (dict entries) := by
  obtain ⟨⟨k, v⟩, rest, hcons⟩ := List.exists_cons_of_ne_nil hne
  obtain rfl : entries = (k, v) :: rest := hcons
  intro heq
  have hmem : (k, v) ∈ (Branch.list items).children := by
    show (k, v) ∈ Tree.children (list items)
    rw [heq]
    exact List.mem_cons_self
  obtain ⟨i, rfl, -⟩ := Branch.mem_children_list.mp hmem
  rw [data, dataOfEntries_eq_map] at h
  cases h with
  | dict htext _ _ =>
    obtain ⟨s, hs⟩ := htext (.int i, v.data) (by simp)
    simp at hs

/-- What has children is known from them and their keys, which tell a list from a dictionary. -/
theorem eq_of_children {v w : Value} (hv : v.data.IsWellFormed) (hw : w.data.IsWellFormed)
    (hne : Tree.children v ≠ []) (h : Tree.children v = Tree.children w) : v = w := by
  have hne' : Tree.children w ≠ [] := h ▸ hne
  cases v with
  | list items =>
    cases w with
    | list items' =>
      have hitems := congrArg (List.map (·.2)) h
      rw [show items = items' by simpa [Tree.children, Tree.branch?, branch?] using hitems]
    | dict entries' => exact absurd h (children_list_ne_dict hw hne')
    | _ => exact absurd rfl hne'
  | dict entries =>
    cases w with
    | list items' => exact absurd h.symm (children_list_ne_dict hv hne)
    | dict entries' => exact congrArg dict h
    | _ => exact absurd rfl hne'
  | _ => exact absurd rfl hne

/-- The leaves with their paths determine the value. -/
theorem leaves_injective {v w : Value} (hv : v.data.IsWellFormed) (hw : w.data.IsWellFormed)
    (h : v.leaves = w.leaves) : v = w := by
  induction v using induction_children generalizing w with
  | node v ih =>
    cases hleaf : v.leaf with
    | ok l =>
      rw [leaves_of_leaf hleaf] at h
      have hmem : ([], l) ∈ w.leaves := by simp [← h]
      have hdata := ((mem_leaves_iff hw).mp hmem).2
      exact data_injective ((leaf_eq_ok_iff.mp hleaf).trans (Option.some.inj hdata).symm)
    | error e =>
      cases hleaf' : w.leaf with
      | ok l =>
        rw [leaves_of_leaf hleaf'] at h
        have hmem : ([], l) ∈ v.leaves := by simp [h]
        have hdata := ((mem_leaves_iff hv).mp hmem).2
        exact data_injective ((Option.some.inj hdata).trans (leaf_eq_ok_iff.mp hleaf').symm)
      | error e' =>
        rw [leaves_of_branch hleaf, leaves_of_branch hleaf'] at h
        apply eq_of_children hv hw (children_ne_nil hleaf)
        apply flatMap_leavesAt_inj (nodup_keys hv) (nodup_keys hw) _ h
        intro child hchild child' hchild'
        exact ih child hchild (isWellFormed_child hv hchild).2 (isWellFormed_child hw hchild').2

end Value
end JsonAssert
