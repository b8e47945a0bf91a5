import JsonAssert.Proofs.Assertion.Emission
import JsonAssert.Proofs.Assertion.Paths
import JsonAssert.Proofs.Data.Nodewise
import JsonAssert.Proofs.Value.Structural

/-! Data and its value under the same edits. A map that keeps containers goes past every change at
the end of a path, and so the value of the edited data is the edited value, after one edit and after
any number of them. -/
namespace JsonAssert

/-! Maps that keep containers -/

namespace Dict
variable {α β : Type}

theorem insert_map_values (f : α → β) (k : Key) (x : α) (d : Dict α) :
    insert k (f x) (d.map fun e => (e.1, f e.2)) = (insert k x d).map fun e => (e.1, f e.2) := by
  induction d with
  | nil => rfl
  | cons e d ih =>
    rw [List.map_cons, insert, insert, ih]
    split_ifs <;> rfl

theorem erase_map_values (f : α → β) (k : Key) (d : Dict α) :
    erase k (d.map fun e => (e.1, f e.2)) = (erase k d).map fun e => (e.1, f e.2) := by
  rw [erase, List.filter_map]
  rfl

end Dict

namespace Branch
variable {α β : Type}

/-- The container with its children mapped. -/
def map (f : α → β) : Branch α → Branch β
  | .list items => .list (items.map f)
  | .dict entries => .dict (entries.map fun e => (e.1, f e.2))

theorem get?_map (f : α → β) (k : Key) (b : Branch α) : (b.map f).get? k = (b.get? k).map f := by
  cases b with
  | list items =>
    rw [map, get?, get?, List.length_map]
    cases position? items.length k <;> simp
  | dict entries => exact Dict.get?_map_values f k entries

theorem replace_map (f : α → β) (k : Key) (x : α) (b : Branch α) :
    (b.map f).replace k (f x) = (b.replace k x).map f := by
  cases b with
  | list items =>
    rw [map, replace, replace, List.length_map]
    cases position? items.length k with
    | none => rfl
    | some i => simp [map, List.map_set]
  | dict entries => exact congrArg dict (Dict.insert_map_values f k x entries)

theorem change?_map (f : α → β) (c : Change α) (b : Branch α) :
    (b.map f).change? (c.map f) = (b.change? c).map (map f) := by
  cases c with
  | append x => cases b <;> simp [map, Change.map, change?]
  | set k x =>
    cases b with
    | list items => rfl
    | dict entries => exact congrArg (some ∘ dict) (Dict.insert_map_values f k x entries)
  | delete k =>
    cases b with
    | list items => rfl
    | dict entries =>
      simp only [map, Change.map, change?, Dict.get?_map_values, Dict.erase_map_values,
        Option.isSome_map]
      split_ifs <;> rfl

end Branch

namespace Tree
variable {α β : Type} [Tree α] [Tree β] {f : α → β}

/-- Containers are mapped to those with the same keys, and nothing else is mapped to one. -/
structure KeepsContainers (f : α → β) : Prop where
  branch? : ∀ t, branch? (f t) = (branch? t).map (Branch.map f)
  ofBranch : ∀ b, ofBranch (b.map f) = f (ofBranch b)

/-- What changes mapped subtrees as it changes the subtrees, changes mapped trees as it changes the
trees. -/
theorem KeepsContainers.modify? (h : KeepsContainers f) {g : α → Option α} {g' : β → Option β}
    (hg : ∀ t, g' (f t) = (g t).map f) (path : List Key) (t : α) :
    Tree.modify? g' path (f t) = (Tree.modify? g path t).map f := by
  -- On both sides only the child under the first key changes, so the path is what shortens.
  induction path generalizing t with
  | nil => exact hg t
  | cons k path ih =>
    rw [Tree.modify?, Tree.modify?, h.branch?]
    cases Tree.branch? t with
    | none => rfl
    | some b =>
      simp only [Option.map_some, Option.bind_eq_bind, Option.bind_some, Branch.get?_map]
      cases b.get? k with
      | none => rfl
      | some child =>
        simp only [Option.map_some, Option.bind_some, ih]
        cases Tree.modify? g path child with
        | none => rfl
        | some child' =>
          simp [Branch.replace_map, h.ofBranch]

theorem KeepsContainers.change? (h : KeepsContainers f) (c : Change α) (path : List Key) (t : α) :
    Tree.change? (c.map f) path (f t) = (Tree.change? c path t).map f := by
  rw [Tree.change?_eq_modify?, Tree.change?_eq_modify?]
  refine h.modify? (fun t => ?_) path t
  rw [h.branch?]
  cases Tree.branch? t with
  | none => rfl
  | some b =>
    simp only [Option.map_some, Option.bind_some, Branch.change?_map]
    cases b.change? c with
    | none => rfl
    | some b' => simp [h.ofBranch]

/-- A subtree is changed where there is one that allows it. -/
theorem isSome_modify?_iff {g : α → Option α} {path : List Key} {t : α} :
    (modify? g path t).isSome ↔ ∃ x, at? path t = some x ∧ (g x).isSome := by
  induction path generalizing t with
  | nil => simp [Tree.modify?, at?]
  | cons k path ih =>
    rw [Tree.modify?, at?_cons, child?]
    cases Tree.branch? t with
    | none => simp
    | some b =>
      cases hget : b.get? k with
      | none => simp [hget]
      | some child =>
        have hchild := ih (t := child)
        simp only [Option.bind_eq_bind, Option.bind_some, hget, ← hchild]
        cases Tree.modify? g path child <;> simp

end Tree

/-- What a change makes of a subtree stands in its place. -/
theorem Data.exists_at?_of_modify? {f : Data → Option Data} {path : List Key} {d d' : Data}
    (h : Tree.modify? f path d = some d') :
    ∃ x x', Tree.at? path d = some x ∧ Tree.at? path d' = some x' ∧ f x = some x' := by
  induction path generalizing d d' with
  | nil => exact ⟨d, d', rfl, rfl, h⟩
  | cons k path ih =>
    simp only [Tree.modify?, Option.bind_eq_bind, Option.bind_eq_some_iff] at h
    obtain ⟨b, hb, child, hchild, child', hmodify, hd'⟩ := h
    obtain ⟨x, x', hx, hx', hf⟩ := ih hmodify
    obtain rfl := Option.some.inj hd'
    refine ⟨x, x', ?_, ?_, hf⟩
    · rw [Tree.at?_cons, Tree.child?_of_branch? hb, hchild, Option.bind_some, hx]
    · rw [Tree.at?_cons, Tree.child?_of_branch? (branch?_ofBranch _),
        Branch.get?_replace_self hchild, Option.bind_some, hx']

theorem keepsContainers_data : Tree.KeepsContainers Value.data where
  branch? v := by
    cases v with
    | list items =>
      rw [Value.data, Value.dataOfItems_eq_map]
      rfl
    | dict entries =>
      rw [Value.data, Value.dataOfEntries_eq_map]
      rfl
    | _ => rfl
  ofBranch b := by
    cases b with
    | list items => exact congrArg Data.list (Value.dataOfItems_eq_map items).symm
    | dict entries => exact congrArg Data.dict (Value.dataOfEntries_eq_map entries).symm

/-! Edits -/

/-- What a change puts into the tree. -/
def Change.value? {α : Type} : Change α → Option α
  | .append x => some x
  | .set _ x => some x
  | .delete _ => none

theorem Change.toValue_of_json {c : Change Data} (h : ∀ x, c.value? = some x → x.foreign? = none) :
    ∃ c', c.toValue = .ok c' ∧ c'.map Value.data = c := by
  cases c with
  | append x =>
    have hx := h x rfl
    refine ⟨.append x.asValue, ?_, congrArg Change.append (Data.data_asValue hx)⟩
    rw [toValue, Data.toValue_of_json hx]
    rfl
  | set k x =>
    have hx := h x rfl
    refine ⟨.set k x.asValue, ?_, congrArg (Change.set k) (Data.data_asValue hx)⟩
    rw [toValue, Data.toValue_of_json hx]
    rfl
  | delete k => exact ⟨.delete k, rfl, rfl⟩

theorem Change.toValue_of_foreign {c : Change Data} {x : Data} {cause : NotJson}
    (hvalue : c.value? = some x) (h : x.foreign? = some cause) : c.toValue = .error cause := by
  have hx := (Data.toValue_eq_error_iff x cause).mpr h
  cases c with
  | append y =>
    obtain rfl := Option.some.inj hvalue
    rw [toValue, hx]
    rfl
  | set k y =>
    obtain rfl := Option.some.inj hvalue
    rw [toValue, hx]
    rfl
  | delete k => cases hvalue

/-- What a change makes of a container: lists grow at their end, and dictionaries have entries set,
or deleted if the key is there. -/
def Change.Makes : Change Data → Data → Data → Prop
  | .append x, d, d' => ∃ items, d = .list items ∧ d' = .list (items ++ [x])
  | .set k x, d, d' => ∃ entries, d = .dict entries ∧ d' = .dict (Dict.insert k x entries)
  | .delete k, d, d' => ∃ entries x, d = .dict entries ∧ Dict.get? k entries = some x ∧
      d' = .dict (Dict.erase k entries)

namespace Edit

/-- Nothing that is put into the tree is foreign to JSON. -/
def IsJson (e : Edit Data) : Prop := ∀ x, e.change.value? = some x → x.foreign? = none

/-- The path leads to a container that allows the change. -/
def IsValid (e : Edit Data) (d : Data) : Prop :=
  ∃ x x', Tree.at? e.path d = some x ∧ e.change.Makes x x'

end Edit

theorem Change.makes_iff {c : Change Data} {d d' : Data} :
    ((Tree.branch? d).bind (Branch.change? c)).map Tree.ofBranch = some d' ↔ c.Makes d d' := by
  cases c with
  | append x =>
    cases d <;> simp [Makes, Tree.branch?, Data.branch?, Branch.change?, Tree.ofBranch,
      Data.ofBranch, eq_comm]
  | set k x =>
    cases d <;> simp [Makes, Tree.branch?, Data.branch?, Branch.change?, Tree.ofBranch,
      Data.ofBranch, eq_comm]
  | delete k =>
    cases d with
    | dict entries =>
      cases hget : Dict.get? k entries <;>
        simp [Makes, Tree.branch?, Data.branch?, Branch.change?, Tree.ofBranch, Data.ofBranch,
          hget, eq_comm]
    | _ => simp [Makes, Tree.branch?, Data.branch?, Branch.change?]

theorem Data.edit_eq_ok_iff {e : Edit Data} {d d' : Data} :
    d.edit e = .ok d' ↔ Tree.modify?
      (fun x => ((Tree.branch? x).bind (Branch.change? e.change)).map Tree.ofBranch) e.path d =
        some d' := by
  rw [edit, Tree.edit?, Tree.change?_eq_modify?]
  cases Tree.modify? _ e.path d <;> simp

/-- Edits of data succeed where they are valid. -/
theorem Data.exists_edit_iff {e : Edit Data} {d : Data} :
    (∃ d', d.edit e = .ok d') ↔ e.IsValid d := by
  simp only [edit_eq_ok_iff, ← Option.isSome_iff_exists, Tree.isSome_modify?_iff]
  simp only [Option.isSome_iff_exists, Change.makes_iff, Edit.IsValid, exists_and_left]

/-- Where an edit leads to, its change is made. -/
theorem Data.makes_of_edit {e : Edit Data} {d d' : Data} (h : d.edit e = .ok d') :
    ∃ x x', Tree.at? e.path d = some x ∧ Tree.at? e.path d' = some x' ∧ e.change.Makes x x' := by
  obtain ⟨x, x', hx, hx', hmade⟩ := exists_at?_of_modify? (edit_eq_ok_iff.mp h)
  exact ⟨x, x', hx, hx', Change.makes_iff.mp hmade⟩

/-- An edit of a value is that of its data. -/
theorem edit_data {e : Edit Data} (h : e.IsJson) (v : Value) :
    v.data.edit e = (v.edit e).map Value.data := by
  obtain ⟨c', hc', hdata⟩ := Change.toValue_of_json h
  have hchange := keepsContainers_data.change? c' e.path v
  rw [hdata] at hchange
  rw [Data.edit, Value.edit, hc']
  simp only [Tree.edit?, hchange]
  cases Tree.change? c' e.path v <;> rfl

theorem edit_of_foreign {e : Edit Data} {x : Data} {cause : NotJson}
    (hvalue : e.change.value? = some x) (h : x.foreign? = some cause) (v : Value) :
    v.edit e = .error (.notJson cause) := by
  rw [Value.edit, Change.toValue_of_foreign hvalue h]

/-! Edits in place -/

/-- What is there after an edit in place. One that fails changes nothing. -/
def inPlace {α : Type} (edit : Edit Data → α → Except EditError α) (x : α) (e : Edit Data) : α :=
  match edit e x with
  | .ok y => y
  | .error _ => x

/-- The tree is the value of the data, with its order of keys and elements. Edits do the same to
both; they succeed where they are valid, and then what they change is changed. The text that is
generated for the data, or for its elements as records, is that of the leaves of the tree. -/
structure Mirrors (d : Data) (v : Value) : Prop where
  value : d.toValue = .ok v
  edit : ∀ e : Edit Data, e.IsJson → d.edit e = (v.edit e).map Value.data
  valid : ∀ e : Edit Data, (∃ d', d.edit e = .ok d') ↔ e.IsValid d
  change : ∀ (e : Edit Data) (d' : Data), d.edit e = .ok d' → ∃ x x',
    Tree.at? e.path d = some x ∧ Tree.at? e.path d' = some x' ∧ e.change.Makes x x'
  text : ∀ root, (generateAssertions [d] false root).outcome =
    .ok (unlines (Value.lines (root, v)))
  records : ∀ items, d = .list items → ∃ values, v = .list values ∧
    ∀ isList root, (generateAssertions items isList root).outcome =
      .ok (unlines ((valueTargets values isList root).flatMap Value.lines))

theorem mirrors_data (v : Value) : Mirrors v.data v where
  value := toValue_data v
  edit e he := edit_data he v
  valid e := Data.exists_edit_iff
  change e d' := Data.makes_of_edit
  text root := by
    have hgenerate := generateAssertions_data [v] false root
    rwa [List.map_singleton, valueTargets, if_neg (by decide), List.map_singleton,
      List.flatMap_singleton] at hgenerate
  records items hitems := by
    cases v with
    | list values =>
      rw [Value.data, Value.dataOfItems_eq_map] at hitems
      obtain rfl := Data.list.inj hitems
      exact ⟨values, rfl, generateAssertions_data values⟩
    | _ => cases hitems

/-- An edit in place of a value is that of its data. -/
theorem inPlace_data {e : Edit Data} (h : e.IsJson) (v : Value) :
    inPlace Data.edit v.data e = (inPlace Value.edit v e).data := by
  unfold inPlace
  rw [edit_data h]
  cases v.edit e <;> rfl

theorem forall₂_mirrors {edits : List (Edit Data)} (h : ∀ e ∈ edits, e.IsJson) (v : Value) :
    List.Forall₂ Mirrors (edits.scanl (inPlace Data.edit) v.data)
      (edits.scanl (inPlace Value.edit) v) := by
  induction edits generalizing v with
  | nil => exact .cons (mirrors_data v) .nil
  | cons e edits ih =>
    obtain ⟨he, hedits⟩ := List.forall_mem_cons.mp h
    rw [List.scanl_cons, List.scanl_cons, inPlace_data he]
    exact .cons (mirrors_data v) (ih hedits _)

theorem exists_foreign {d : Data} {typeName : String} (h : Data.other typeName ∈ d.nodes) :
    ∃ cause, d.foreign? = some cause := by
  cases hforeign : d.foreign? with
  | none => cases Data.foreign?_eq_none_iff.mp hforeign _ h
  | some cause => exact ⟨cause, rfl⟩

/-- Whatever edits by JSON data are made of data and of its value, the value stays that of the data
after each of them. Nothing else gets into a value: the edit fails and changes nothing. -/
theorem value_follows_edits {d : Data} {v : Value} (h : d.toValue = .ok v) :
    (∀ edits : List (Edit Data), (∀ e ∈ edits, e.IsJson) →
      List.Forall₂ Mirrors (edits.scanl (inPlace Data.edit) d)
        (edits.scanl (inPlace Value.edit) v)) ∧
      ∀ (v' : Value) (e : Edit Data) (x : Data) (typeName : String),
        e.change.value? = some x → .other typeName ∈ x.nodes →
        ∃ cause, x.foreign? = some cause ∧ v'.edit e = .error (.notJson cause) ∧
          inPlace Value.edit v' e = v' := by
  obtain rfl := Data.toValue_eq_ok_iff.mp h
  refine ⟨fun edits hedits => forall₂_mirrors hedits v, ?_⟩
  intro v' e x typeName hvalue hmem
  obtain ⟨cause, hcause⟩ := exists_foreign hmem
  have hedit := edit_of_foreign hvalue hcause v'
  exact ⟨cause, hcause, hedit, by rw [inPlace, hedit]⟩

/-- An edit below what an earlier one put in, and a key that comes back behind the others. -/
theorem value_follows_edits_keyAgain :
    let v : Value := .dict [(.text "a", .bool true)]
    let edits : List (Edit Data) := [⟨[], .set (.text "b") (.list [])⟩,
      ⟨[.text "b"], .append (.dict [])⟩, ⟨[.text "b", .int 0], .set (.text "c") .null⟩,
      ⟨[], .delete (.text "a")⟩, ⟨[], .set (.text "a") (.text "d")⟩]
    v.data.toValue = .ok v ∧ (∀ e ∈ edits, e.IsJson) ∧
      edits.foldl (inPlace Value.edit) v =
        .dict [(.text "b", .list [.dict [(.text "c", .null)]]), (.text "a", .text "d")] ∧
      (generateAssertions [edits.foldl (inPlace Data.edit) v.data] false "r").outcome =
        .ok "assert r[\"b\"][0][\"c\"] is None\nassert r[\"a\"] == \"d\"\n" ∧
      v.edit ⟨[], .set (.text "b") (.list [.null, .other "set"])⟩ = .error (.notJson ⟨"set"⟩) := by
  intro v edits
  have hjson : ∀ e ∈ edits, e.IsJson := by
    simp only [edits, List.forall_mem_cons, Edit.IsJson, Change.value?]
    simp [Data.foreign?, Data.nodes, Data.nodesOfItems, Data.nodesOfEntries, Data.notJson?]
  obtain ⟨hfollows, hrefuses⟩ := value_follows_edits (toValue_data v)
  have hmirrors := hfollows edits hjson
  have hlast : Mirrors (edits.foldl (inPlace Data.edit) v.data)
      (edits.foldl (inPlace Value.edit) v) :=
    (List.forall₂_iff_get.mp hmirrors).2 5 (by decide) (by decide)
  have hdata : edits.foldl (inPlace Data.edit) v.data = (Value.dict
      [(.text "b", .list [.dict [(.text "c", .null)]]), (.text "a", .text "d")]).data := by rfl
  have hvalue := hlast.value
  rw [hdata, toValue_data] at hvalue
  have hedited := (Except.ok.inj hvalue).symm
  obtain ⟨cause, hcause, hrefused, -⟩ := hrefuses v
    ⟨[], .set (.text "b") (.list [.null, .other "set"])⟩ _ "set" rfl
    (by simp [Data.nodes, Data.nodesOfItems])
  obtain rfl : ⟨"set"⟩ = cause := Option.some.inj hcause
  refine ⟨toValue_data v, hjson, hedited, ?_, hrefused⟩
  rw [hlast.text, hedited]
  rfl

end JsonAssert
