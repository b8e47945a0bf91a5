import JsonAssert.Proofs.Value.Conversion
import JsonAssert.Proofs.Worklist

/-! The nodes of data in document order, and the value that has the same nodes. -/
namespace JsonAssert
namespace Data

mutual
/-- The nodes of the data, each before its children and these in their order. -/
def nodes : Data → List Data
  | .list items => .list items :: nodesOfItems items
  | .dict entries => .dict entries :: nodesOfEntries entries
  | d => [d]

def nodesOfItems : List Data → List Data
  | [] => []
  | d :: items => d.nodes ++ nodesOfItems items

def nodesOfEntries : List (Key × Data) → List Data
  | [] => []
  | (_, d) :: entries => d.nodes ++ nodesOfEntries entries
end

theorem nodesOfItems_eq (items : List Data) : nodesOfItems items = items.flatMap nodes := by
  induction items with
  | nil => rfl
  | cons d items ih => rw [nodesOfItems, ih, List.flatMap_cons]

theorem nodesOfEntries_eq (entries : List (Key × Data)) :
    nodesOfEntries entries = entries.flatMap fun e => e.2.nodes := by
  induction entries with
  | nil => rfl
  | cons e entries ih => rw [nodesOfEntries, ih, List.flatMap_cons]

theorem map_snd_children_list (items : List Data) :
    (Tree.children (Data.list items)).map (·.2) = items :=
  Branch.map_snd_children_list items

theorem nodes_eq (d : Data) : d.nodes = d :: (Tree.children d).flatMap fun e => e.2.nodes := by
  have hflat (children : List (Key × Data)) :
      children.flatMap (fun e => e.2.nodes) = (children.map (·.2)).flatMap nodes :=
    (List.flatMap_map ..).symm
  cases d with
  | list items => rw [nodes, nodesOfItems_eq, hflat, map_snd_children_list]
  | dict entries =>
    rw [nodes, nodesOfEntries_eq]
    rfl
  | _ => rfl

theorem mem_nodes_self (d : Data) : d ∈ d.nodes := by
  rw [nodes_eq]
  exact List.mem_cons_self

theorem mem_nodes_of_child {d x : Data} {e : Key × Data} (he : e ∈ Tree.children d)
    (hx : x ∈ e.2.nodes) : x ∈ d.nodes := by
  rw [nodes_eq]
  exact List.mem_cons_of_mem _ (List.mem_flatMap.mpr ⟨e, he, hx⟩)

theorem size_children (d : Data) : sizeOfItems ((Tree.children d).map (·.2)) + 1 = d.size := by
  cases d with
  | list items => rw [map_snd_children_list, size]
  | dict entries => exact congrArg (· + 1) (sizeOfEntries_eq entries).symm
  | _ => rfl

theorem sizeOfItems_eq_sum (items : List Data) : sizeOfItems items = (items.map size).sum := by
  induction items with
  | nil => rfl
  | cons d items ih => rw [sizeOfItems, ih, List.map_cons, List.sum_cons]

theorem sum_size_children_lt (d : Data) :
    (((Tree.children d).map (·.2)).map size).sum < d.size := by
  rw [← d.size_children, sizeOfItems_eq_sum]
  exact Nat.lt_succ_self _

/-- Induction over the nodes of data: what holds of a node whenever it holds of all its children
holds of the data. -/
@[elab_as_elim]
theorem induction_children {motive : Data → Prop} (d : Data)
    (node : ∀ d, (∀ e ∈ Tree.children d, motive e.2) → motive d) : motive d := by
  induction hsize : d.size using Nat.strong_induction_on generalizing d with
  | _ size ih =>
    subst hsize
    apply node
    intro e he
    apply ih e.2.size _ e.2 rfl
    have hmem := List.mem_map_of_mem (f := size) (List.mem_map_of_mem (f := (·.2)) he)
    exact (List.single_le_sum (by simp) _ hmem).trans_lt d.sum_size_children_lt

/-! Foreign objects -/

/-- What is wrong with a node that is no JSON data. -/
def notJson? : Data → Option NotJson
  | .other typeName => some ⟨typeName⟩
  | _ => none

/-- What is wrong with the first foreign object in document order. -/
def foreign? (d : Data) : Option NotJson := d.nodes.findSome? notJson?

theorem foreign?_eq_none_iff {d : Data} :
    d.foreign? = none ↔ ∀ x ∈ d.nodes, x.notJson? = none :=
  List.findSome?_eq_none_iff

theorem foreign?_child {d : Data} (h : d.foreign? = none) {e : Key × Data}
    (he : e ∈ Tree.children d) : e.2.foreign? = none :=
  foreign?_eq_none_iff.mpr fun x hx => foreign?_eq_none_iff.mp h x (mem_nodes_of_child he hx)

/-! The value -/

mutual
/-- The value with the same nodes. A foreign object, which has no value, counts as null. -/
def asValue : Data → Value
  | .null => .null
  | .bool b => .bool b
  | .number n => .number n
  | .text s => .text s
  | .list items => .list (valuesOfItems items)
  | .dict entries => .dict (valuesOfEntries entries)
  | .other _ => .null

def valuesOfItems : List Data → List Value
  | [] => []
  | d :: items => d.asValue :: valuesOfItems items

def valuesOfEntries : List (Key × Data) → List (Key × Value)
  | [] => []
  | (k, d) :: entries => (k, d.asValue) :: valuesOfEntries entries
end

theorem valuesOfItems_eq_map (items : List Data) : valuesOfItems items = items.map asValue := by
  induction items with
  | nil => rfl
  | cons d items ih => rw [valuesOfItems, ih, List.map_cons]

theorem valuesOfEntries_eq_map (entries : List (Key × Data)) :
    valuesOfEntries entries = entries.map fun e => (e.1, e.2.asValue) := by
  induction entries with
  | nil => rfl
  | cons e entries ih =>
    rw [List.map_cons, ← ih]
    rfl

/-- Without foreign objects nothing is lost in the value. -/
theorem data_asValue {d : Data} (h : d.foreign? = none) : d.asValue.data = d := by
  induction d using induction_children with
  | node d ih =>
    have hchild (e : Key × Data) (he : e ∈ Tree.children d) : e.2.asValue.data = e.2 :=
      ih e he (foreign?_child h he)
    cases d with
    | list items =>
      have hitems : ∀ x ∈ items, x.asValue.data = x := by
        intro x hx
        rw [← map_snd_children_list items] at hx
        obtain ⟨e, he, rfl⟩ := List.mem_map.mp hx
        exact hchild e he
      rw [asValue, Value.data, Value.dataOfItems_eq_map, valuesOfItems_eq_map, List.map_map]
      exact congrArg list ((List.map_congr_left hitems).trans (List.map_id _))
    | dict entries =>
      rw [asValue, Value.data, Value.dataOfEntries_eq_map, valuesOfEntries_eq_map, List.map_map]
      refine congrArg dict ((List.map_congr_left ?_).trans (List.map_id _))
      intro e he
      exact Prod.ext rfl (hchild e he)
    | other typeName =>
      have hforeign := foreign?_eq_none_iff.mp h _ (mem_nodes_self _)
      cases hforeign
    | _ => rfl

end Data
end JsonAssert
