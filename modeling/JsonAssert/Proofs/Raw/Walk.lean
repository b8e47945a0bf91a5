import Mathlib
import JsonAssert.Raw.Generation

/-! Lines are emitted recursively: a container leaves them to what is in it, and every other value
has one line. The first text or key that cannot be written ends it, those of a dictionary being
looked at before what they lead to. The walk comes to the same lines and to the same complaint. -/
namespace JsonAssert.Raw

/-- The lines in front of a complaint, or all of them if there is none. -/
structure Emission where
  lines : List String
  complaint? : Option Unwritable

namespace Emission

def line (text : String) : Emission := ⟨[text], none⟩

def failed (u : Unwritable) : Emission := ⟨[], some u⟩

/-- One after the other, but a complaint is the end of it all. -/
def andThen (x y : Emission) : Emission :=
  match x.complaint? with
  | some _ => x
  | none => ⟨x.lines ++ y.lines, y.complaint?⟩

def all (xs : List Emission) : Emission := xs.foldr andThen ⟨[], none⟩

/-- The lines as they are logged, and how it ends. -/
def traced (x : Emission) : Traced Unwritable (List String) :=
  ⟨x.lines.map (⟨.generator, ·⟩), match x.complaint? with
    | some u => .error u
    | none => .ok x.lines⟩

@[simp] theorem all_nil : all [] = ⟨[], none⟩ := rfl

@[simp] theorem all_cons (x : Emission) (xs : List Emission) :
    all (x :: xs) = x.andThen (all xs) := rfl

@[simp] theorem failed_andThen (u : Unwritable) (y : Emission) :
    (failed u).andThen y = failed u := rfl

theorem andThen_assoc (x y z : Emission) : (x.andThen y).andThen z = x.andThen (y.andThen z) := by
  obtain ⟨lines, _ | u⟩ := x
  · obtain ⟨lines', _ | u'⟩ := y <;> simp [andThen]
  · rfl

theorem all_append (xs ys : List Emission) : all (xs ++ ys) = (all xs).andThen (all ys) := by
  induction xs with
  | nil => rfl
  | cons x xs ih => rw [List.cons_append, all_cons, all_cons, ih, andThen_assoc]

theorem andThen_complaint?_eq_none_iff {x y : Emission} :
    (x.andThen y).complaint? = none ↔ x.complaint? = none ∧ y.complaint? = none := by
  obtain ⟨lines, _ | u⟩ := x <;> simp [andThen]

/-- There is a complaint if there is one of any part. -/
theorem all_complaint?_eq_none_iff {xs : List Emission} :
    (all xs).complaint? = none ↔ ∀ x ∈ xs, x.complaint? = none := by
  induction xs with
  | nil => simp
  | cons x xs ih => rw [all_cons, andThen_complaint?_eq_none_iff, ih, List.forall_mem_cons]

/-- Without complaints no lines are lost. -/
theorem lines_all {xs : List Emission} (h : ∀ x ∈ xs, x.complaint? = none) :
    (all xs).lines = xs.flatMap lines := by
  induction xs with
  | nil => rfl
  | cons x xs ih =>
    obtain ⟨hx, hxs⟩ := List.forall_mem_cons.mp h
    rw [all_cons, andThen, hx, ih hxs, List.flatMap_cons]

end Emission

mutual
/-- The lines of a value that an expression leads to. -/
def emission (target : String) : Value → Emission
  | .null => .line (Leaf.null.assertion target)
  | .bool b => .line ((Leaf.bool b).assertion target)
  | .number n => .line ((Leaf.number n).assertion target)
  | .text t =>
    match t.string with
    | .error u => .failed u
    | .ok s => .line ((Leaf.text s).assertion target)
  | .list items =>
    if items.isEmpty then .line (Leaf.emptyList.assertion target)
    else emissionOfItems target 0 items
  | .dict entries =>
    if entries.isEmpty then .line (Leaf.emptyDict.assertion target)
    else
      match entryTargets target entries with
      | .error u => .failed u
      | .ok _ => emissionOfEntries target entries

def emissionOfItems (target : String) (index : ℕ) : List Value → Emission
  | [] => ⟨[], none⟩
  | v :: items =>
    (emission (JsonAssert.subscripted target (.int index)) v).andThen
      (emissionOfItems target (index + 1) items)

def emissionOfEntries (target : String) : List (Key × Value) → Emission
  | [] => ⟨[], none⟩
  | (k, v) :: entries =>
    match subscripted target k with
    | .error u => .failed u
    | .ok expression => (emission expression v).andThen (emissionOfEntries target entries)
end

/-- The lines of some values, one after the other. -/
def emissionOf (entries : List (String × Value)) : Emission :=
  .all (entries.map fun e => emission e.1 e.2)

/-- The lines of a value, as far as they go. -/
def lines (entry : String × Value) : List String := (emission entry.1 entry.2).lines

theorem emissionOf_cons (e : String × Value) (entries : List (String × Value)) :
    emissionOf (e :: entries) = (emission e.1 e.2).andThen (emissionOf entries) := rfl

theorem emissionOf_append (xs ys : List (String × Value)) :
    emissionOf (xs ++ ys) = (emissionOf xs).andThen (emissionOf ys) := by
  rw [emissionOf, List.map_append, Emission.all_append]
  rfl

theorem lines_emissionOf {entries : List (String × Value)}
    (h : (emissionOf entries).complaint? = none) :
    (emissionOf entries).lines = entries.flatMap lines := by
  rw [emissionOf, Emission.all_complaint?_eq_none_iff] at h
  rw [emissionOf, Emission.lines_all h, List.flatMap_map]
  rfl

theorem emissionOfItems_eq (target : String) (items : List Value) (index : ℕ) :
    emissionOfItems target index items = emissionOf
      ((items.zipIdx index).map fun (v, i) => (JsonAssert.subscripted target (.int i), v)) := by
  induction items generalizing index with
  | nil => rfl
  | cons v items ih =>
    rw [emissionOfItems, ih, List.zipIdx_cons, List.map_cons, emissionOf_cons]

theorem emissionOfEntries_eq {target : String} {entries : List (Key × Value)}
    {children : List (String × Value)} (h : entryTargets target entries = .ok children) :
    emissionOfEntries target entries = emissionOf children := by
  induction entries generalizing children with
  | nil =>
    cases h
    rfl
  | cons e entries ih =>
    obtain ⟨more, expression, hmore, hkey, rfl⟩ := entryTargets_cons_eq_ok h
    rw [emissionOfEntries, hkey, emissionOf_cons, ih hmore]

/-- A round of the walk, and what is emitted after it. -/
theorem emission_eq (target : String) (v : Value) :
    emission target v =
      match round target v with
      | .error u => .failed u
      | .ok (.line text) => .line text
      | .ok (.below children) => emissionOf children := by
  cases v with
  | text t =>
    rw [emission, round]
    cases t.string <;> rfl
  | list items =>
    cases items with
    | nil => rfl
    | cons v items => exact emissionOfItems_eq target (v :: items) 0
  | dict entries =>
    cases entries with
    | nil => rfl
    | cons e entries =>
      rw [round_dict_cons, emission, if_neg (by simp)]
      cases hchildren : entryTargets target (e :: entries) with
      | error u => rfl
      | ok children => exact emissionOfEntries_eq hchildren
  | other x => exact x.elim
  | _ => rfl

/-- The walk logs the lines that are emitted for the values on its list. -/
theorem walk_eq (todo : List (String × Value)) : walk todo = (emissionOf todo).traced := by
  induction todo using walk.induct with
  | case1 =>
    rw [walk]
    rfl
  | case2 target v rest u hround =>
    rw [walk_cons, emissionOf_cons, emission_eq, hround]
    rfl
  | case3 target v rest text hround ih =>
    rw [walk_cons, emissionOf_cons, emission_eq, hround]
    simp only [ih]
    cases hrest : (emissionOf rest).complaint? <;>
      simp [Emission.traced, Emission.andThen, Emission.line, Traced.record, Except.map, hrest]
  | case4 target v rest children hround ih =>
    rw [walk_cons, emissionOf_cons, emission_eq, hround, ← emissionOf_append]
    exact ih

/-! What can be written -/

/-- Every text and every key can be written, wherever it is. -/
inductive IsWritable {ε : Type} : Data ε → Prop
  | null : IsWritable .null
  | bool (b : Bool) : IsWritable (.bool b)
  | number (n : Number) : IsWritable (.number n)
  | text {t : Text} {s : String} : t.string = .ok s → IsWritable (.text t)
  | list {items : List (Data ε)} : (∀ d ∈ items, IsWritable d) → IsWritable (.list items)
  | dict {entries : List (Key × Data ε)} : (∀ e ∈ entries, ∃ s, e.1.subscript = .ok s) →
      (∀ e ∈ entries, IsWritable e.2) → IsWritable (.dict entries)
  | other (x : ε) : IsWritable (.other x)

/-- Induction over data: what holds of a container whenever it holds of all that is in it holds of
all data. -/
@[elab_as_elim]
theorem Data.induction_contents {ε : Type} {motive : Data ε → Prop} (null : motive .null)
    (bool : ∀ b, motive (.bool b)) (number : ∀ n, motive (.number n))
    (text : ∀ t, motive (.text t)) (other : ∀ x, motive (.other x))
    (list : ∀ items, (∀ d ∈ items, motive d) → motive (.list items))
    (dict : ∀ entries, (∀ e ∈ entries, motive e.2) → motive (.dict entries)) (d : Data ε) :
    motive d :=
  @Data.rec ε motive (fun items => ∀ d ∈ items, motive d)
    (fun entries => ∀ e ∈ entries, motive e.2) (fun e => motive e.2) null bool number text list
    dict other (List.forall_mem_nil _) (fun _ _ hd hitems => List.forall_mem_cons.mpr ⟨hd, hitems⟩)
    (List.forall_mem_nil _) (fun _ _ he hentries => List.forall_mem_cons.mpr ⟨he, hentries⟩)
    (fun _ _ h => h) d

theorem isWritable_text_iff {ε : Type} {t : Text} :
    IsWritable (.text t : Data ε) ↔ ∃ s, t.string = .ok s :=
  ⟨fun h => by cases h with | text hs => exact ⟨_, hs⟩, fun ⟨_, hs⟩ => .text hs⟩

theorem isWritable_list_iff {ε : Type} {items : List (Data ε)} :
    IsWritable (.list items) ↔ ∀ d ∈ items, IsWritable d :=
  ⟨fun h => by cases h with | list hitems => exact hitems, .list⟩

theorem isWritable_dict_iff {ε : Type} {entries : List (Key × Data ε)} :
    IsWritable (.dict entries) ↔
      (∀ e ∈ entries, ∃ s, e.1.subscript = .ok s) ∧ ∀ e ∈ entries, IsWritable e.2 :=
  ⟨fun h => by cases h with | dict hkeys hvalues => exact ⟨hkeys, hvalues⟩,
    fun ⟨hkeys, hvalues⟩ => .dict hkeys hvalues⟩

theorem map_snd_entryTargets {target : String} {entries : List (Key × Value)}
    {children : List (String × Value)} (h : entryTargets target entries = .ok children) :
    children.map (·.2) = entries.map (·.2) := by
  induction entries generalizing children with
  | nil =>
    cases h
    rfl
  | cons e entries ih =>
    obtain ⟨more, expression, hmore, -, rfl⟩ := entryTargets_cons_eq_ok h
    rw [List.map_cons, List.map_cons, ih hmore]

/-- Children have expressions exactly if all keys can be written. -/
theorem exists_entryTargets_iff (target : String) (entries : List (Key × Value)) :
    (∃ children, entryTargets target entries = .ok children) ↔
      ∀ e ∈ entries, ∃ s, e.1.subscript = .ok s := by
  induction entries with
  | nil => simp [entryTargets]
  | cons e entries ih =>
    obtain ⟨k, v⟩ := e
    rw [List.forall_mem_cons, ← ih, entryTargets, subscripted]
    cases entryTargets target entries <;> cases k.subscript <;>
      simp [bind, Except.bind, pure, Except.pure, Except.map]

theorem emissionOf_complaint?_eq_none_iff {entries : List (String × Value)} {values : List Value}
    (hvalues : entries.map (·.2) = values)
    (h : ∀ v ∈ values, ∀ target, (emission target v).complaint? = none ↔ IsWritable v) :
    (emissionOf entries).complaint? = none ↔ ∀ v ∈ values, IsWritable v := by
  subst hvalues
  rw [emissionOf, Emission.all_complaint?_eq_none_iff, List.forall_mem_map, List.forall_mem_map]
  exact forall₂_congr fun e he => h e.2 (List.mem_map_of_mem he) e.1

/-- There is nothing to complain of in a value exactly if all of it can be written. -/
theorem emission_complaint?_eq_none_iff (v : Value) (target : String) :
    (emission target v).complaint? = none ↔ IsWritable v := by
  induction v using Data.induction_contents generalizing target with
  | null => exact iff_of_true rfl .null
  | bool b => exact iff_of_true rfl (.bool b)
  | number n => exact iff_of_true rfl (.number n)
  | other x => exact x.elim
  | text t =>
    rw [emission, isWritable_text_iff]
    cases t.string <;> simp [Emission.failed, Emission.line]
  | list items ih =>
    rw [isWritable_list_iff]
    cases items with
    | nil => exact iff_of_true rfl (List.forall_mem_nil _)
    | cons v items =>
      rw [emission_eq, round_list_cons]
      exact emissionOf_complaint?_eq_none_iff (map_snd_targets _ true target) ih
  | dict entries ih =>
    rw [isWritable_dict_iff]
    cases entries with
    | nil => exact iff_of_true rfl ⟨List.forall_mem_nil _, List.forall_mem_nil _⟩
    | cons e entries =>
      rw [emission_eq, round_dict_cons, ← exists_entryTargets_iff target]
      cases hchildren : entryTargets target (e :: entries) with
      | error u => simp [Except.map, Emission.failed]
      | ok children =>
        have hvalues := emissionOf_complaint?_eq_none_iff (map_snd_entryTargets hchildren)
          (List.forall_mem_map.mpr ih)
        rw [List.forall_mem_map] at hvalues
        simpa [Except.map] using hvalues

end JsonAssert.Raw
