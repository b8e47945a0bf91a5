import JsonAssert.Proofs.Data.Json
import JsonAssert.Value.Conversion

/-! Conversion gives the tree of the same shape: the values are the data without foreign objects, and
the worklist takes a tree apart and puts it together again. -/
namespace JsonAssert
open Conversion

namespace Value

mutual
/-- A value as data. -/
def data : Value → Data
  | .null => .null
  | .bool b => .bool b
  | .number n => .number n
  | .text s => .text s
  | .list items => .list (dataOfItems items)
  | .dict entries => .dict (dataOfEntries entries)

def dataOfItems : List Value → List Data
  | [] => []
  | v :: items => v.data :: dataOfItems items

def dataOfEntries : List (Key × Value) → List (Key × Data)
  | [] => []
  | (k, v) :: entries => (k, v.data) :: dataOfEntries entries
end

theorem dataOfItems_eq_map (items : List Value) : dataOfItems items = items.map data := by
  induction items with
  | nil => rfl
  | cons v items ih => rw [dataOfItems, ih, List.map_cons]

theorem dataOfEntries_eq_map (entries : List (Key × Value)) :
    dataOfEntries entries = entries.map fun e => (e.1, e.2.data) := by
  induction entries with
  | nil => rfl
  | cons e entries ih =>
    rw [List.map_cons, ← ih]
    rfl

/-- A value without its children. -/
def shell : Value → Shell
  | .list items => .list items.length
  | .dict entries => .dict (entries.map (·.1))
  | v => .leaf v

def subvalues (v : Value) : List Value := (Tree.children v).map (·.2)

theorem subvalues_list (items : List Value) : (list items).subvalues = items :=
  Branch.map_snd_children_list items

theorem subvalues_dict (entries : List (Key × Value)) :
    (dict entries).subvalues = entries.map (·.2) := rfl

theorem takeApart_data (v : Value) : takeApart v.data = .ok (v.shell, v.subvalues.map data) := by
  cases v with
  | list items =>
    rw [subvalues_list, data, takeApart, dataOfItems_eq_map, List.length_map]
    rfl
  | dict entries =>
    rw [subvalues_dict, data, takeApart, dataOfEntries_eq_map, List.map_map, List.map_map,
      List.map_map]
    rfl
  | _ => rfl

theorem putTogether_shell (v : Value) (values : List Value) :
    putTogether v.shell (v.subvalues ++ values) = v :: values := by
  cases v with
  | list items =>
    rw [subvalues_list, shell, putTogether, List.take_left, List.drop_left]
  | dict entries =>
    have hzip : (entries.map (·.1)).zip (entries.map (·.2) ++ values) = entries := by
      have happend : (entries.map Prod.fst ++ []).zip (entries.map Prod.snd ++ values) =
          (entries.map Prod.fst).zip (entries.map Prod.snd) ++ [].zip values :=
        List.zip_append (by simp)
      rw [List.append_nil, List.zip_nil_left, List.append_nil] at happend
      exact happend.trans (List.zip_of_prod rfl rfl).symm
    have hdrop : (entries.map (·.2) ++ values).drop (entries.map (·.1)).length = values := by
      simp
    rw [subvalues_dict, shell, putTogether, hzip, hdrop]
  | _ => rfl

end Value

/-- The nodes of some values are taken off the front of the list, and give back the values. -/
theorem shells_append (vs : List Value) :
    ∃ nodes, (∀ rest, shells (vs.map Value.data ++ rest) = (shells rest).map (nodes ++ ·)) ∧
      ∀ values, nodes.foldr putTogether values = vs ++ values := by
  induction hsize : Value.sizeOfItems vs using Nat.strong_induction_on generalizing vs with
  | _ size ih =>
    subst hsize
    cases vs with
    | nil =>
      refine ⟨[], fun rest => ?_, fun _ => rfl⟩
      rw [List.map_nil, List.nil_append]
      cases shells rest <;> rfl
    | cons v vs =>
      have hsmaller : Value.sizeOfItems (v.subvalues ++ vs) < Value.sizeOfItems (v :: vs) := by
        have hchildren : Value.sizeOfItems v.subvalues + 1 = v.size := v.size_children
        simp only [Value.sizeOfItems_append, Value.sizeOfItems]
        omega
      obtain ⟨nodes, hshells, hvalues⟩ := ih _ hsmaller _ rfl
      refine ⟨v.shell :: nodes, ?_, ?_⟩
      · intro rest
        have hrest := hshells rest
        rw [List.map_append, List.append_assoc] at hrest
        rw [List.map_cons, List.cons_append, shells_cons, v.takeApart_data]
        simp only [hrest]
        cases shells rest <;> rfl
      · intro values
        rw [List.foldr_cons, hvalues, List.append_assoc, v.putTogether_shell]
        rfl

/-- Values are converted to themselves. -/
theorem toValue_data (v : Value) : v.data.toValue = .ok v := by
  obtain ⟨nodes, hshells, hvalues⟩ := shells_append [v]
  have hnodes : shells [v.data] = .ok nodes := by
    have hall := hshells []
    rw [shells] at hall
    simpa [Except.map] using hall
  rw [Data.toValue, hnodes]
  simp only [hvalues]
  rfl

/-- A list whose elements are values as data is a list of values as data. -/
theorem exists_values {items : List Data} (h : ∀ d ∈ items, ∃ v : Value, v.data = d) :
    ∃ values : List Value, values.map Value.data = items := by
  have hrange : items ∈ Set.range (List.map Value.data) := by
    rw [Set.range_list_map]
    exact h
  exact hrange

/-- Well-formed data is a value as data. -/
theorem Data.IsWellFormed.exists_value {d : Data} (h : d.IsWellFormed) :
    ∃ v : Value, v.data = d := by
  induction h with
  | null => exact ⟨.null, rfl⟩
  | bool b => exact ⟨.bool b, rfl⟩
  | @number n _ => exact ⟨.number n, rfl⟩
  | text s => exact ⟨.text s, rfl⟩
  | list _ ih =>
    obtain ⟨values, rfl⟩ := exists_values ih
    exact ⟨.list values, by rw [Value.data, Value.dataOfItems_eq_map]⟩
  | @dict entries _ _ _ ih =>
    choose! f hf using ih
    refine ⟨.dict (entries.map fun e => (e.1, f e)), ?_⟩
    have hentries : ∀ e ∈ entries, (e.1, (f e).data) = e := by
      intro e he
      rw [hf e he]
    rw [Value.data, Value.dataOfEntries_eq_map, List.map_map]
    exact congrArg _ ((List.map_congr_left hentries).trans (List.map_id _))

end JsonAssert
