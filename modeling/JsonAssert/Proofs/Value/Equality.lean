import JsonAssert.Proofs.Data.Equality
import JsonAssert.Proofs.Value.Structural
import JsonAssert.Value.Equality

/-! Equality of values is equality of their data, except that a truth value is no number. -/
namespace JsonAssert
open Script

namespace Value

theorem sameItems_iff {xs ys : List Value} :
    sameItems xs ys = true ↔ List.Forall₂ (fun x y => x.same y = true) xs ys := by
  induction xs generalizing ys with
  | nil => cases ys <;> simp [sameItems]
  | cons x xs ih => cases ys <;> simp [sameItems, ih]

theorem sameEntries_iff {xs : List (Key × Value)} {ys : Dict Value} :
    sameEntries xs ys = true ↔ ∀ e ∈ xs, ∃ y, ys.get? e.1 = some y ∧ e.2.same y = true := by
  induction xs with
  | nil => simp [sameEntries]
  | cons e xs ih =>
    rw [sameEntries, Bool.and_eq_true, ih, List.forall_mem_cons]
    cases ys.get? e.1 <;> simp

end Value

namespace Data

/-- The values of the data are equal. -/
def SameTree (a b : Data) : Prop :=
  ∃ v w, a.toValue = .ok v ∧ b.toValue = .ok w ∧ v.same w = true

theorem asValue_same_iff_match {a b : Data} (ha : Tree.branch? a = none)
    (hnode : a.IsComparableNode) (hnode' : b.IsComparableNode) :
    a.asValue.same b.asValue = true ↔ a.Match b := by
  cases a with
  | null => cases b <;> simp_all [IsComparableNode, asValue, Value.same, Match, label?]
  | bool x => cases b <;> simp [asValue, Value.same, Match, label?, eq_comm (a := x)]
  | number m => cases b <;> simp [asValue, Value.same, Match, label?, Number.same_iff]
  | text s => cases b <;> simp [asValue, Value.same, Match, label?, eq_comm (a := s)]
  | other typeName => exact absurd hnode id
  | list items => cases ha
  | dict entries => cases ha

theorem asValue_same_list_iff {xs ys : List Data} :
    (list xs).asValue.same (list ys).asValue = true ↔
      List.Forall₂ (fun x y => x.asValue.same y.asValue = true) xs ys := by
  rw [asValue, asValue, Value.same, Value.sameItems_iff, valuesOfItems_eq_map, valuesOfItems_eq_map,
    List.forall₂_map_left_iff, List.forall₂_map_right_iff]

theorem asValue_same_dict_iff {xs ys : Dict Data} :
    (dict xs).asValue.same (dict ys).asValue = true ↔
      xs.length = ys.length ∧
        ∀ e ∈ xs, ∃ y, ys.get? e.1 = some y ∧ e.2.asValue.same y.asValue = true := by
  rw [asValue, asValue, Value.same, Bool.and_eq_true, Value.sameEntries_iff,
    valuesOfEntries_eq_map, valuesOfEntries_eq_map, List.forall_mem_map]
  simp [Dict.get?_map_values]

theorem isNodewise_asValue_same : IsNodewise Match fun a b => a.asValue.same b.asValue = true := by
  intro a b ha hb
  cases a with
  | list xs =>
    cases b with
    | list ys =>
      exact (asValue_same_list_iff.trans Branch.rel_get?_list_iff.symm).trans
        (and_iff_right ⟨.list, rfl, rfl⟩).symm
    | _ => simp [asValue, Value.same, Match, label?]
  | dict xs =>
    cases b with
    | dict ys =>
      obtain ⟨hx, -⟩ := isComparable_dict.mp ha
      obtain ⟨hy, -⟩ := isComparable_dict.mp hb
      have hplaces := hx.rel_get?_iff (R := fun x y => x.asValue.same y.asValue = true) hy
      exact (asValue_same_dict_iff.trans hplaces.symm).trans (and_iff_right ⟨.dict, rfl, rfl⟩).symm
    | _ => simp [asValue, Value.same, Match, label?]
  | _ =>
    exact (asValue_same_iff_match rfl ha.node hb.node).trans
      (and_iff_left_of_imp fun h k _ => (agree_of_match h).rel_child? rfl k).symm

theorem sameTree_iff {a b : Data} (ha : a.IsComparable) (hb : b.IsComparable) :
    a.SameTree b ↔ a.asValue.same b.asValue = true := by
  rw [SameTree, toValue_of_json ha.foreign?_eq_none, toValue_of_json hb.foreign?_eq_none]
  constructor
  · rintro ⟨v, w, hv, hw, h⟩
    cases hv
    cases hw
    exact h
  · intro h
    exact ⟨_, _, rfl, rfl, h⟩

theorem sameTree_iff_forall_path {a b : Data} (ha : a.IsComparable) (hb : b.IsComparable) :
    a.SameTree b ↔ ∀ path : List Key, (∀ k ∈ path, IsStep k) →
      Option.Rel Match (Tree.at? path a) (Tree.at? path b) :=
  (sameTree_iff ha hb).trans (isNodewise_asValue_same.iff_forall_path ha hb)

theorem equivalence_sameTree :
    Equivalence fun a b : {d : Data // d.IsComparable} => a.1.SameTree b.1 := by
  have hequivalence :=
    isNodewise_asValue_same.equivalence (fun _ => match_self) match_symm match_trans
  simpa only [← sameTree_iff (Subtype.property _) (Subtype.property _)] using hequivalence

/-- The trees are equal when the data is, and no truth value stands where the other has a number. -/
theorem sameTree_iff_same {a b : Data} (ha : a.IsComparable) (hb : b.IsComparable) :
    a.SameTree b ↔ a.same b = true ∧
      ∀ path, (∀ k ∈ path, IsStep k) →
        ∀ x y, Tree.at? path a = some x → Tree.at? path b = some y → ¬ x.Clash y := by
  have hnodes (path : List Key) : Option.Rel Match (Tree.at? path a) (Tree.at? path b) ↔
      Option.Rel Agree (Tree.at? path a) (Tree.at? path b) ∧
        ∀ x y, Tree.at? path a = some x → Tree.at? path b = some y → ¬ x.Clash y := by
    simp only [Option.rel_iff, match_iff, imp_and, forall_and, and_assoc]
  rw [sameTree_iff_forall_path ha hb, isNodewise_same.iff_forall_path ha hb]
  simp only [hnodes, imp_and, forall_and]

/-- A number that is put in the place of a truth value makes a difference for the tree alone. -/
theorem exists_put_number {d : Data} (hd : d.IsComparable) {path : List Key}
    (hsteps : ∀ k ∈ path, IsStep k) {b : Bool} {n : Number}
    (hat : Tree.at? path d = some (.bool b)) (hn : (bool b).same (number n) = true) :
    ∃ d', Tree.put? (number n) path d = some d' ∧ d'.IsComparable ∧ d.same d' = true ∧
      ¬ d.SameTree d' := by
  have hnumber : (number n).IsComparable := by
    have hsame : (Number.int b.toInt).same n = true := hn
    obtain ⟨v, -, hv⟩ := Number.same_iff.mp hsame
    rw [isComparable_number]
    rintro rfl
    cases hv
  obtain ⟨d', hput, hd', hsame⟩ := exists_put_same hd hnumber hsteps hat hn
  refine ⟨d', hput, hd', hsame, fun htree => ?_⟩
  obtain ⟨d'', hput', hinside, -⟩ := exists_modify? (f := fun _ => some (number n)) hsteps hat rfl
  obtain rfl := Option.some.inj (hput.symm.trans hput')
  have hend := hinside []
  rw [List.append_nil] at hend
  exact ((sameTree_iff_same hd hd').mp htree).2 path hsteps _ _ hat hend (.left b n)

end Data

/-- Equality of values is an equivalence on data that can be compared. It refines equality of the
data, which compares the nodes in every place, exactly where a truth value stands against a number;
and wherever one stands, a number in its place leaves the data equal but not the tree. -/
theorem value_equality_refines_data_equality :
    (Equivalence fun a b : {d : Data // d.IsComparable} => a.1.SameTree b.1) ∧
    (∀ a b : Data, a.IsComparable → b.IsComparable →
      (a.same b = true ↔ ∀ path, (∀ k ∈ path, IsStep k) →
        Option.Rel Data.Agree (Tree.at? path a) (Tree.at? path b)) ∧
      (a.SameTree b ↔ a.same b = true ∧ ∀ path, (∀ k ∈ path, IsStep k) →
        ∀ x y, Tree.at? path a = some x → Tree.at? path b = some y → ¬ x.Clash y)) ∧
    ∀ (d : Data) (path : List Key) (b : Bool) (n : Number), d.IsComparable →
      (∀ k ∈ path, IsStep k) → Tree.at? path d = some (.bool b) →
      (Data.bool b).same (.number n) = true →
      ∃ d', Tree.put? (.number n) path d = some d' ∧ d'.IsComparable ∧ d.same d' = true ∧
        ¬ d.SameTree d' :=
  ⟨Data.equivalence_sameTree,
    fun _ _ ha hb => ⟨Data.isNodewise_same.iff_forall_path ha hb, Data.sameTree_iff_same ha hb⟩,
    fun _ _ _ _ hd hsteps hat hn => Data.exists_put_number hd hsteps hat hn⟩

/-- An entry elsewhere and an integer for a float leave the tree as it is; a number for a truth value
does not. -/
theorem value_equality_refines_data_equality_nested :
    let one : Number := .float (.finite false (2 ^ 52) 1022 (by decide))
    let d : Data := .dict [(.text "x", .number (.int 1)), (.text "y", .list [.bool true])]
    let e : Data := .dict [(.text "y", .list [.bool true]), (.text "x", .number one)]
    let d' : Data := .dict [(.text "x", .number (.int 1)), (.text "y", .list [.number one])]
    d.IsComparable ∧ e.IsComparable ∧ d.same e = true ∧ d.SameTree e ∧
      Tree.put? (.number one) [.text "y", .int 0] d = some d' ∧ d.same d' = true ∧
      ¬ d.SameTree d' := by
  intro one d e d'
  have hone : (Data.number one).IsComparable := Data.isComparable_number.mpr (by simp [one])
  have hint : (Data.number (.int 1)).IsComparable := Data.isComparable_number.mpr (by simp)
  have hlist : (Data.list [.bool true]).IsComparable := by
    simp [Data.isComparable_list, Data.isComparable_iff (d := .bool true), Data.IsComparableNode,
      Tree.children, Tree.branch?, Data.branch?]
  have hd : d.IsComparable := Data.isComparable_dict.mpr
    ⟨⟨by simp [Dict.HasTextKeys], by simp⟩, by simp [hint, hlist]⟩
  have he : e.IsComparable := Data.isComparable_dict.mpr
    ⟨⟨by simp [Dict.HasTextKeys], by simp⟩, by simp [hone, hlist]⟩
  obtain ⟨-, hrefines, hdifferent⟩ := value_equality_refines_data_equality
  have htree : d.SameTree e := by
    rw [Data.sameTree_iff hd he]
    decide +kernel
  obtain ⟨d'', hput, -, hsame, hne⟩ := hdifferent d [.text "y", .int 0] true one hd
    (by simp [IsStep]) rfl (by decide +kernel)
  obtain rfl : d' = d'' := Option.some.inj hput
  exact ⟨hd, he, ((hrefines d e hd he).2.mp htree).1, htree, hput, hsame, hne⟩

end JsonAssert
