import JsonAssert.Proofs.Assertion.Paths
import JsonAssert.Proofs.Value.Structure

/-! Conversion in place. Every node is attached to the tree before its children are looked at, so the
tree grows under containers that are not finished; in the end it is the value of the data all the
same. -/
namespace JsonAssert

/-! Growing containers -/

namespace Branch
variable {α : Type}

/-- One more child: behind the last element of a list, or under its key. -/
def grow (k : Key) (x : α) : Branch α → Branch α
  | .list items => .list (items ++ [x])
  | .dict entries => .dict (entries.insert k x)

/-- The next element of a list has the length for its key; a dictionary takes any key. -/
def IsNext (k : Key) : Branch α → Prop
  | .list items => k = .int items.length
  | .dict _ => True

theorem get?_grow {b : Branch α} {k : Key} (h : b.IsNext k) (x : α) :
    (b.grow k x).get? k = some x := by
  cases b with
  | list items =>
    obtain rfl : k = .int items.length := h
    rw [grow, get?_list_natCast, List.getElem?_concat_length]
  | dict entries => exact Dict.get?_insert_self k x entries

theorem replace_grow {b : Branch α} {k : Key} (h : b.IsNext k) (x y : α) :
    (b.grow k x).replace k y = b.grow k y := by
  cases b with
  | list items =>
    obtain rfl : k = .int items.length := h
    rw [grow, replace_list_natCast, List.set_append_right _ _ le_rfl]
    simp [grow]
  | dict entries => exact congrArg dict (Dict.insert_insert k x y entries)

/-- Children are added to a container one by one. -/
inductive Grows : Branch α → List (Key × α) → Branch α → Prop
  | none (b : Branch α) : Grows b [] b
  | more {b b' : Branch α} {k : Key} {x : α} {children : List (Key × α)} : b.IsNext k →
      Grows (b.grow k x) children b' → Grows b ((k, x) :: children) b'

theorem grows_list (items more : List α) :
    Grows (.list items) ((more.zipIdx items.length).map fun e => (.int e.2, e.1))
      (.list (items ++ more)) := by
  induction more generalizing items with
  | nil =>
    rw [List.append_nil]
    exact .none _
  | cons x more ih =>
    have hrest := ih (items ++ [x])
    rw [List.length_append, List.append_assoc] at hrest
    exact .more rfl hrest

theorem grows_dict (entries more : Dict α) :
    Grows (.dict entries) more (.dict (more.foldl (fun d (k, v) => d.insert k v) entries)) := by
  induction more generalizing entries with
  | nil => exact .none _
  | cons e more ih => exact .more trivial (ih _)

end Branch

/-! Places -/

theorem Tree.modify?_append {α : Type} [Tree α] (f : α → Option α) (path rest : List Key) (t : α) :
    modify? f (path ++ rest) t = modify? (modify? f rest) path t := by
  induction path generalizing t with
  | nil => rfl
  | cons k path ih => simp only [List.cons_append, modify?, ih]

theorem Value.branch?_ofBranch (b : Branch Value) :
    Tree.branch? (Tree.ofBranch b : Value) = some b := by
  cases b <;> rfl

/-- A change of the child that was added last is a change of what is added. -/
theorem Value.modify?_grow {b : Branch Value} {k : Key} (hnext : b.IsNext k) (v : Value)
    (f : Value → Option Value) :
    Tree.modify? f [k] (Tree.ofBranch (b.grow k v) : Value) =
      (f v).map fun w => Tree.ofBranch (b.grow k w) := by
  simp only [Tree.modify?, branch?_ofBranch, Branch.get?_grow hnext, bind, Option.bind_some]
  cases f v with
  | none => rfl
  | some w =>
    simp only [Option.bind_some, Branch.replace_grow hnext]
    rfl

/-- Where a value belongs in the tree that is built: it is the whole, or a child of the container at
the end of a path. -/
inductive Place where
  | whole
  | child (parent : List Key) (k : Key)

namespace Place

def path : Place → List Key
  | whole => []
  | child parent k => parent ++ [k]

/-- The tree with a value where it belongs; an element is put behind those that its list has. -/
def attach (v : Value) (built : Option Value) : Place → Option Value
  | whole => some v
  | child parent k => built.bind <| Tree.modify?
      (fun t => (Tree.branch? t).map fun b => Tree.ofBranch (b.grow k v)) parent

/-- What is attached here can be changed here later on, as if the change had come first. -/
def IsOpen (place : Place) (built : Option Value) : Prop :=
  ∀ v f, (place.attach v built).bind (Tree.modify? f place.path) =
    (f v).bind fun w => place.attach w built

theorem isOpen_whole (built : Option Value) : whole.IsOpen built :=
  fun v f => (Option.bind_fun_some (f v)).symm

/-- A child is attached to the container that was attached before. -/
theorem IsOpen.attach_child {place : Place} {built : Option Value} (h : place.IsOpen built)
    (b : Branch Value) (k : Key) (v : Value) :
    (child place.path k).attach v (place.attach (Tree.ofBranch b) built) =
      place.attach (Tree.ofBranch (b.grow k v)) built := by
  rw [attach, h, Value.branch?_ofBranch]
  rfl

theorem IsOpen.child {place : Place} {built : Option Value} (h : place.IsOpen built)
    {b : Branch Value} {k : Key} (hnext : b.IsNext k) :
    (child place.path k).IsOpen (place.attach (Tree.ofBranch b) built) := by
  intro v f
  have hpath : Tree.modify? f (Place.child place.path k).path =
      Tree.modify? (Tree.modify? f [k]) place.path :=
    funext (Tree.modify?_append f place.path [k])
  simp only [h.attach_child]
  rw [hpath, h, Value.modify?_grow hnext]
  cases f v <;> rfl

end Place

/-! The loop -/

namespace Data

/-- No dictionary has two entries for one place. -/
def IsKeyed (d : Data) : Prop := ∀ entries, .dict entries ∈ d.nodes → Dict.Distinct entries

theorem IsKeyed.child {d : Data} (h : d.IsKeyed) {e : Key × Data} (he : e ∈ Tree.children d) :
    e.2.IsKeyed :=
  fun entries hentries => h entries (mem_nodes_of_child he hentries)

end Data

namespace Conversion

/-- A node as it is attached: a container has nothing in it yet. -/
def opened : Data → Except NotJson Value
  | .null => .ok .null
  | .bool b => .ok (.bool b)
  | .number n => .ok (.number n)
  | .text s => .ok (.text s)
  | .list _ => .ok (.list [])
  | .dict _ => .ok (.dict [])
  | .other typeName => .error ⟨typeName⟩

/-- One round of the loop: the node comes into the tree where it belongs. -/
def attachNode (entry : Place × Data) (built : Option Value) : Except NotJson (Option Value) :=
  (opened entry.2).map fun v => entry.1.attach v built

/-- The children of a node, which are attached to it later on. -/
def pending (entry : Place × Data) : List (Place × Data) :=
  (Tree.children entry.2).map fun e => (.child entry.1.path e.1, e.2)

/-- In an open place the loop comes to have the whole value of the data, and goes on from there. -/
def Attaches (d : Data) : Prop :=
  ∀ (place : Place) (built : Option Value) (rest taken : List (Place × Data))
    (r : Except NotJson (Option Value)), place.IsOpen built →
    WorkedOff attachNode pending rest (place.attach d.asValue built) taken r →
    ∃ more, WorkedOff attachNode pending ((place, d) :: rest) built (more ++ taken) r

theorem attaches_leaf {d : Data} (hopened : opened d = .ok d.asValue)
    (hchildren : Tree.children d = []) : Attaches d := by
  intro place built rest taken r _ h
  have hvisit : attachNode (place, d) built = .ok (place.attach d.asValue built) := by
    rw [attachNode, hopened]
    rfl
  have hpending : pending (place, d) = [] := by
    rw [pending, hchildren, List.map_nil]
  refine ⟨[(place, d)], .next hvisit ?_⟩
  rwa [hpending]

/-- A container grows by one child after the other, each with all that is below it. -/
theorem attaches_children {place : Place} {built : Option Value} (hopen : place.IsOpen built)
    {children : List (Key × Data)} (hchildren : ∀ e ∈ children, Attaches e.2)
    {b b' : Branch Value} (hgrows : b.Grows (children.map fun e => (e.1, e.2.asValue)) b')
    {rest taken : List (Place × Data)} {r : Except NotJson (Option Value)}
    (h : WorkedOff attachNode pending rest (place.attach (Tree.ofBranch b') built) taken r) :
    ∃ more, WorkedOff attachNode pending
      ((children.map fun e => (Place.child place.path e.1, e.2)) ++ rest)
      (place.attach (Tree.ofBranch b) built) (more ++ taken) r := by
  induction children generalizing b with
  | nil =>
    cases hgrows
    exact ⟨[], h⟩
  | cons e children ih =>
    rw [List.map_cons] at hgrows
    cases hgrows with
    | more hnext hgrows =>
      -- The loop is known from its end on, so the later children come first here.
      obtain ⟨more, hmore⟩ := ih (fun x hx => hchildren x (List.mem_cons_of_mem _ hx)) hgrows
      rw [← hopen.attach_child] at hmore
      obtain ⟨first, hfirst⟩ := hchildren e List.mem_cons_self _ _ _ _ _ (hopen.child hnext) hmore
      rw [← List.append_assoc] at hfirst
      exact ⟨first ++ more, hfirst⟩

theorem attaches_branch {d : Data} {b b' : Branch Value}
    (hopened : opened d = .ok (Tree.ofBranch b)) (hvalue : d.asValue = Tree.ofBranch b')
    (hgrows : b.Grows ((Tree.children d).map fun e => (e.1, e.2.asValue)) b')
    (hchildren : ∀ e ∈ Tree.children d, Attaches e.2) : Attaches d := by
  intro place built rest taken r hopen h
  rw [hvalue] at h
  have hvisit : attachNode (place, d) built = .ok (place.attach (Tree.ofBranch b) built) := by
    rw [attachNode, hopened]
    rfl
  obtain ⟨more, hmore⟩ := attaches_children hopen hchildren hgrows h
  exact ⟨(place, d) :: more, .next hvisit hmore⟩

theorem attaches {d : Data} (hjson : d.foreign? = none) (hkeyed : d.IsKeyed) : Attaches d := by
  induction d using Data.induction_children with
  | node d ih =>
    have hchildren : ∀ e ∈ Tree.children d, Attaches e.2 :=
      fun e he => ih e he (Data.foreign?_child hjson he) (hkeyed.child he)
    cases d with
    | list items =>
      have hmap : (Tree.children (Data.list items)).map (fun e => (e.1, e.2.asValue)) =
          ((items.map Data.asValue).zipIdx 0).map fun e => (Key.int e.2, e.1) := by
        rw [List.zipIdx_map, List.map_map]
        exact List.map_map
      have hgrows := Branch.grows_list [] (items.map Data.asValue)
      rw [List.length_nil, ← hmap] at hgrows
      refine attaches_branch rfl ?_ hgrows hchildren
      rw [Data.asValue, Data.valuesOfItems_eq_map]
      rfl
    | dict entries =>
      have hdistinct : Dict.Distinct (entries.map fun e => (e.1, e.2.asValue)) :=
        List.pairwise_map.mpr (hkeyed entries (Data.mem_nodes_self _))
      have hgrows := Branch.grows_dict [] (entries.map fun e => (e.1, e.2.asValue))
      rw [Dict.foldl_insert_of_distinct hdistinct] at hgrows
      refine attaches_branch rfl ?_ hgrows hchildren
      rw [Data.asValue, Data.valuesOfEntries_eq_map]
      rfl
    | other typeName =>
      have hforeign := Data.foreign?_eq_none_iff.mp hjson _ (Data.mem_nodes_self _)
      cases hforeign
    | _ => exact attaches_leaf rfl rfl

end Conversion
end JsonAssert
