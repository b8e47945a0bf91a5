import JsonAssert.Proofs.Assertion.Paths
import JsonAssert.Proofs.Data.Merging
import JsonAssert.Proofs.Value.Structure

/-! Relations that compare two trees node by node. Such a relation holds between two trees when it
holds of the nodes at the end of every path, so it is an equivalence if it is one on nodes. -/
namespace JsonAssert
open Script

/-! Optional results -/

section
variable {α β γ δ : Type} {R : α → β → Prop} {S : γ → δ → Prop} {o : Option α} {o' : Option β}

theorem Option.isSome_eq_of_rel (h : Option.Rel R o o') : o.isSome = o'.isSome := by
  cases h <;> rfl

theorem Option.rel_iff : Option.Rel R o o' ↔
    o.isSome = o'.isSome ∧ ∀ x y, o = some x → o' = some y → R x y := by
  refine ⟨fun h => ⟨isSome_eq_of_rel h, ?_⟩, ?_⟩
  · rintro x y rfl rfl
    exact Option.rel_some_some.mp h
  · rintro ⟨hsome, h⟩
    cases o <;> cases o' <;> simp_all

theorem Option.rel_some_iff {x : α} : Option.Rel R (some x) o' ↔ ∃ y, o' = some y ∧ R x y := by
  constructor
  · rintro (h | _)
    exact ⟨_, rfl, h⟩
  · rintro ⟨y, rfl, h⟩
    exact .some h

theorem Option.rel_bind {f : α → Option γ} {g : β → Option δ} (h : Option.Rel R o o')
    (hsome : ∀ x y, o = some x → o' = some y → R x y → Option.Rel S (f x) (g y)) :
    Option.Rel S (o.bind f) (o'.bind g) := by
  cases h with
  | some hxy => exact hsome _ _ rfl rfl hxy
  | none => exact .none

theorem Option.rel_symm {N : α → α → Prop} (hN : ∀ x y, N x y → N y x) {o o' : Option α}
    (h : Option.Rel N o o') : Option.Rel N o' o := by
  cases h with
  | some hxy => exact .some (hN _ _ hxy)
  | none => exact .none

theorem Option.rel_trans {N : α → α → Prop} (hN : ∀ x y z, N x y → N y z → N x z)
    {o o' o'' : Option α} (h : Option.Rel N o o') (h' : Option.Rel N o' o'') :
    Option.Rel N o o'' := by
  cases h with
  | some hxy =>
    cases h' with
    | some hyz => exact .some (hN _ _ _ hxy hyz)
  | none => exact h'

end

/-! Places of containers -/

namespace Dict
variable {α β : Type}

theorem get?_map_values (f : α → β) (k : Key) (d : Dict α) :
    get? k (d.map fun e => (e.1, f e.2)) = (get? k d).map f := by
  induction d with
  | nil => rfl
  | cons e d ih =>
    rw [List.map_cons, get?_cons, get?_cons, ih]
    split_ifs <;> rfl

/-- One entry for each of its texts. -/
structure IsObject (d : Dict α) : Prop where
  text : d.HasTextKeys
  nodup : (d.map (·.1)).Nodup

namespace IsObject
variable {d : Dict α} {xs : Dict α} {ys : Dict β}

theorem get?_iff (h : d.IsObject) {k : Key} (hk : IsStep k) {x : α} :
    d.get? k = some x ↔ (k, x) ∈ d :=
  Dict.get?_iff h.text h.nodup hk

theorem get?_of_mem (h : d.IsObject) {e : Key × α} (he : e ∈ d) : d.get? e.1 = some e.2 :=
  (h.get?_iff (h.text.isStep he)).mpr he

theorem mem_keys_iff (h : d.IsObject) {k : Key} :
    k ∈ d.map (·.1) ↔ IsStep k ∧ (d.get? k).isSome = true := by
  constructor
  · intro hk
    obtain ⟨e, he, rfl⟩ := List.mem_map.mp hk
    exact ⟨h.text.isStep he, by rw [h.get?_of_mem he]; rfl⟩
  · rintro ⟨hk, hsome⟩
    obtain ⟨x, hget⟩ := Option.isSome_iff_exists.mp hsome
    exact List.mem_map_of_mem (f := (·.1)) ((h.get?_iff hk).mp hget)

/-- Dictionaries match in every place if they are equally long and the entries of one match. -/
theorem rel_get?_iff {R : α → β → Prop} (hx : xs.IsObject) (hy : ys.IsObject) :
    (∀ k, IsStep k → Option.Rel R (xs.get? k) (ys.get? k)) ↔
      xs.length = ys.length ∧ ∀ e ∈ xs, ∃ y, ys.get? e.1 = some y ∧ R e.2 y := by
  constructor
  · intro h
    have hkeys (k : Key) : k ∈ xs.map (·.1) ↔ k ∈ ys.map (·.1) := by
      rw [hx.mem_keys_iff, hy.mem_keys_iff]
      exact and_congr_right fun hk => by rw [Option.isSome_eq_of_rel (h k hk)]
    have hperm := (List.perm_ext_iff_of_nodup hx.nodup hy.nodup).mpr hkeys
    refine ⟨by simpa using hperm.length_eq, fun e he => ?_⟩
    have hplace := h e.1 (hx.text.isStep he)
    rw [hx.get?_of_mem he] at hplace
    exact Option.rel_some_iff.mp hplace
  · rintro ⟨hlength, hentries⟩ k hk
    have hsubset : xs.map (·.1) ⊆ ys.map (·.1) := by
      intro l hl
      obtain ⟨e, he, rfl⟩ := List.mem_map.mp hl
      obtain ⟨y, hget, -⟩ := hentries e he
      exact hy.mem_keys_iff.mpr ⟨hx.text.isStep he, by rw [hget]; rfl⟩
    -- As many keys, all of them in the other one: there are no further keys.
    have hperm : (xs.map (·.1)).Perm (ys.map (·.1)) :=
      (List.subperm_of_subset hx.nodup hsubset).perm_of_length_le (by simp [hlength])
    cases hget : xs.get? k with
    | some x => exact Option.rel_some_iff.mpr (hentries (k, x) ((hx.get?_iff hk).mp hget))
    | none =>
      have hnone : ys.get? k = none := by
        by_contra hsome
        have hmem := hy.mem_keys_iff.mpr ⟨hk, Option.isSome_iff_ne_none.mpr hsome⟩
        have hkey := (hx.mem_keys_iff.mp (hperm.mem_iff.mpr hmem)).2
        rw [hget] at hkey
        cases hkey
      rw [hnone]
      exact .none

/-- Another value under a key that is there. -/
theorem insert (h : d.IsObject) {k : Key} (hk : k ∈ d.map (·.1)) (v : α) :
    (d.insert k v).IsObject := by
  obtain ⟨e, he, rfl⟩ := List.mem_map.mp hk
  obtain ⟨s, hs⟩ := h.text e he
  have hkeys : (d.insert e.1 v).map (·.1) = d.map (·.1) := by
    rw [hs] at hk ⊢
    rw [map_fst_insert_text h.text, if_pos hk]
  refine ⟨fun e' he' => ?_, hkeys ▸ h.nodup⟩
  have hmem : e'.1 ∈ d.map (·.1) := hkeys ▸ List.mem_map_of_mem he'
  obtain ⟨e'', he'', hkey⟩ := List.mem_map.mp hmem
  exact hkey ▸ h.text e'' he''

end IsObject
end Dict

namespace Branch
variable {α β : Type} {R : α → β → Prop} {xs : List α} {ys : List β}

theorem forall₂_iff_getElem? : List.Forall₂ R xs ys ↔ ∀ i : ℕ, Option.Rel R xs[i]? ys[i]? := by
  induction xs generalizing ys with
  | nil =>
    cases ys with
    | nil => simp
    | cons y ys => exact ⟨fun h => (by cases h), fun h => (by cases h 0)⟩
  | cons x xs ih =>
    cases ys with
    | nil => exact ⟨fun h => (by cases h), fun h => (by cases h 0)⟩
    | cons y ys =>
      rw [List.forall₂_cons, ih, ← Option.rel_some_some (r := R)]
      exact Nat.and_forall_add_one (p := fun i => Option.Rel R (x :: xs)[i]? (y :: ys)[i]?)

/-- Lists match in every place if they match element by element. -/
theorem rel_get?_list_iff :
    (∀ k, IsStep k → Option.Rel R ((list xs).get? k) ((list ys).get? k)) ↔
      List.Forall₂ R xs ys := by
  rw [forall₂_iff_getElem?]
  constructor
  · intro h i
    simpa only [get?_list_natCast] using h (.int i) (Int.natCast_nonneg i)
  · intro h k hk
    cases k with
    | text s => exact .none
    | bool b => exact absurd hk id
    | int n =>
      obtain ⟨i, rfl⟩ := Int.eq_ofNat_of_zero_le hk
      rw [get?_list_natCast, get?_list_natCast]
      exact h i

end Branch

namespace Data

/-! Data that can be compared -/

def IsComparableNode : Data → Prop
  | .number n => n ≠ .float .nan
  | .dict entries => Dict.IsObject entries
  | .other _ => False
  | _ => True

/-- JSON data with texts for keys. Every number has a value, which may be infinite. -/
def IsComparable (d : Data) : Prop := ∀ x ∈ d.nodes, x.IsComparableNode

theorem isComparable_iff {d : Data} :
    d.IsComparable ↔ d.IsComparableNode ∧ ∀ e ∈ Tree.children d, e.2.IsComparable := by
  rw [IsComparable, nodes_eq]
  simp only [List.forall_mem_cons, List.forall_mem_flatMap]
  rfl

theorem isComparable_number {n : Number} : (number n).IsComparable ↔ n ≠ .float .nan := by
  rw [isComparable_iff]
  exact and_iff_left (List.forall_mem_nil _)

theorem isComparable_list {items : List Data} :
    (list items).IsComparable ↔ ∀ x ∈ items, x.IsComparable := by
  rw [isComparable_iff]
  constructor
  · rintro ⟨-, h⟩ x hx
    rw [← map_snd_children_list items] at hx
    obtain ⟨e, he, rfl⟩ := List.mem_map.mp hx
    exact h e he
  · intro h
    refine ⟨trivial, fun e he => h e.2 ?_⟩
    rw [← map_snd_children_list items]
    exact List.mem_map_of_mem he

theorem isComparable_dict {entries : Dict Data} :
    (dict entries).IsComparable ↔ entries.IsObject ∧ ∀ e ∈ entries, e.2.IsComparable :=
  isComparable_iff

namespace IsComparable
variable {d x : Data}

theorem node (h : d.IsComparable) : d.IsComparableNode := h d d.mem_nodes_self

theorem foreign?_eq_none (h : d.IsComparable) : d.foreign? = none := by
  rw [foreign?_eq_none_iff]
  intro x hx
  cases x with
  | other typeName => exact absurd (h _ hx) id
  | _ => rfl

theorem child?_iff (h : d.IsComparable) {k : Key} (hk : IsStep k) :
    Tree.child? k d = some x ↔ (k, x) ∈ Tree.children d := by
  apply Data.child?_iff _ hk
  rintro entries rfl
  obtain ⟨hobject, -⟩ := isComparable_dict.mp h
  exact ⟨hobject.text, hobject.nodup⟩

theorem of_child? (h : d.IsComparable) {k : Key} (hk : IsStep k)
    (hchild : Tree.child? k d = some x) : x.IsComparable :=
  (isComparable_iff.mp h).2 (k, x) ((h.child?_iff hk).mp hchild)

theorem of_at? (h : d.IsComparable) {path : List Key} (hsteps : ∀ k ∈ path, IsStep k)
    (hat : Tree.at? path d = some x) : x.IsComparable :=
  of_at?_of_child (fun hd hk hchild => hd.of_child? hk hchild) h hsteps hat

/-- Comparable data in place of a child. -/
theorem replace {b : Branch Data} (h : (Tree.ofBranch b : Data).IsComparable) {k : Key}
    (hk : IsStep k) (hget : b.get? k = some d) (hx : x.IsComparable) :
    (Tree.ofBranch (b.replace k x) : Data).IsComparable := by
  cases b with
  | list items =>
    have hitems := isComparable_list.mp h
    obtain ⟨i, rfl, -⟩ := Branch.mem_children_list.mp ((Branch.get?_list_iff hk).mp hget)
    rw [Branch.replace_list_natCast]
    refine isComparable_list.mpr fun y hy => ?_
    rcases List.mem_or_eq_of_mem_set hy with hold | rfl
    · exact hitems y hold
    · exact hx
  | dict entries =>
    obtain ⟨hobject, hentries⟩ := isComparable_dict.mp h
    have hkey : k ∈ entries.map (·.1) :=
      List.mem_map_of_mem (f := (·.1)) ((hobject.get?_iff hk).mp hget)
    refine isComparable_dict.mpr ⟨hobject.insert hkey x, fun e he => ?_⟩
    rcases Dict.mem_insert he with hold | ⟨hvalue, -⟩
    · exact hentries e hold
    · exact hvalue ▸ hx

end IsComparable

/-! Relations -/

/-- One relation holds of two trees if another one holds of their roots, and itself of their
children in every place. -/
def IsNodewise (N R : Data → Data → Prop) : Prop :=
  ∀ a b : Data, a.IsComparable → b.IsComparable →
    (R a b ↔ N a b ∧ ∀ k, IsStep k → Option.Rel R (Tree.child? k a) (Tree.child? k b))

namespace IsNodewise
variable {N R : Data → Data → Prop} {a b : Data}

theorem rel_at? (h : IsNodewise N R) (ha : a.IsComparable) (hb : b.IsComparable) (hab : R a b)
    {path : List Key} (hsteps : ∀ k ∈ path, IsStep k) :
    Option.Rel N (Tree.at? path a) (Tree.at? path b) := by
  obtain ⟨hnode, hchildren⟩ := (h a b ha hb).mp hab
  induction path generalizing a b with
  | nil => exact .some hnode
  | cons k path ih =>
    obtain ⟨hk, hrest⟩ := List.forall_mem_cons.mp hsteps
    rw [Tree.at?_cons, Tree.at?_cons]
    refine Option.rel_bind (hchildren k hk) fun x y hx hy hxy => ?_
    have hcx := ha.of_child? hk hx
    have hcy := hb.of_child? hk hy
    obtain ⟨hnode', hchildren'⟩ := (h x y hcx hcy).mp hxy
    exact ih hcx hcy hxy hrest hnode' hchildren'

/-- What the relation says of two trees is what it says of the nodes at the end of every path. -/
theorem iff_forall_path (h : IsNodewise N R) (ha : a.IsComparable) (hb : b.IsComparable) :
    R a b ↔ ∀ path : List Key, (∀ k ∈ path, IsStep k) →
      Option.Rel N (Tree.at? path a) (Tree.at? path b) := by
  refine ⟨fun hab path hsteps => h.rel_at? ha hb hab hsteps, fun hpaths => ?_⟩
  induction a using induction_children generalizing b with
  | node a ih =>
    refine (h a b ha hb).mpr ⟨Option.rel_some_some.mp (hpaths [] (by simp)), fun k hk => ?_⟩
    -- The paths through a child are the paths that begin with its key.
    have hbelow (path : List Key) (hrest : ∀ l ∈ path, IsStep l) :=
      hpaths (k :: path) (List.forall_mem_cons.mpr ⟨hk, hrest⟩)
    simp only [Tree.at?_cons] at hbelow
    refine Option.rel_iff.mpr ⟨?_, fun x y hx hy => ?_⟩
    · simpa [Tree.at?] using Option.isSome_eq_of_rel (hbelow [] (by simp))
    · apply ih (k, x) ((ha.child?_iff hk).mp hx) (ha.of_child? hk hx) (hb.of_child? hk hy)
      intro path hrest
      have hpath := hbelow path hrest
      rwa [hx, hy] at hpath

theorem rel_self (h : IsNodewise N R) (hN : ∀ d : Data, d.IsComparable → N d d)
    (ha : a.IsComparable) : R a a := by
  refine (h.iff_forall_path ha ha).mpr fun path hsteps => ?_
  cases hat : Tree.at? path a with
  | none => exact .none
  | some x => exact .some (hN x (ha.of_at? hsteps hat))

/-- If nodes are compared by an equivalence then so are trees. -/
theorem equivalence (h : IsNodewise N R) (hrefl : ∀ d : Data, d.IsComparable → N d d)
    (hsymm : ∀ a b, N a b → N b a) (htrans : ∀ a b c, N a b → N b c → N a c) :
    Equivalence fun a b : {d : Data // d.IsComparable} => R a.1 b.1 where
  refl a := h.rel_self hrefl a.2
  symm {a b} hab :=
    (h.iff_forall_path b.2 a.2).mpr fun _ hsteps =>
      Option.rel_symm hsymm (h.rel_at? a.2 b.2 hab hsteps)
  trans {a b c} hab hbc :=
    (h.iff_forall_path a.2 c.2).mpr fun _ hsteps =>
      Option.rel_trans htrans (h.rel_at? a.2 b.2 hab hsteps) (h.rel_at? b.2 c.2 hbc hsteps)

end IsNodewise
end Data
end JsonAssert
