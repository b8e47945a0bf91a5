import JsonAssert.Proofs.Value.Building

/-! Conversion is structural: the worklist visits the nodes in document order, and what comes out is
the value of the data or the first foreign object, as for a conversion in place. -/
namespace JsonAssert
open Conversion

namespace Conversion

/-- One round of the worklist: a node is taken apart and put behind those from before. -/
def takeOff (d : Data) (nodes : List Shell) : Except NotJson (List Shell) :=
  (takeApart d).map fun apart => nodes ++ [apart.1]

def below (d : Data) : List Data := (Tree.children d).map (·.2)

theorem takeApart_eq_error_iff (d : Data) (e : NotJson) :
    takeApart d = .error e ↔ d.notJson? = some e := by
  cases d <;> simp [takeApart, Data.notJson?]

theorem below_of_takeApart {d : Data} {shell : Shell} {children : List Data}
    (h : takeApart d = .ok (shell, children)) : below d = children := by
  cases d with
  | list items =>
    cases h
    exact Data.map_snd_children_list _
  | other typeName => cases h
  | _ =>
    cases h
    rfl

theorem takeOff_eq_error_iff (d : Data) (nodes : List Shell) (e : NotJson) :
    takeOff d nodes = .error e ↔ d.notJson? = some e := by
  rw [← takeApart_eq_error_iff, takeOff]
  cases takeApart d <;> simp [Except.map]

theorem attachNode_eq_error_iff (entry : Place × Data) (built : Option Value) (e : NotJson) :
    attachNode entry built = .error e ↔ entry.2.notJson? = some e := by
  obtain ⟨place, d⟩ := entry
  cases d <;> simp [attachNode, opened, Except.map, Data.notJson?]

/-- The list of nodes is the outcome of the rounds. -/
theorem workedOff_shells {todo : List Data} {nodes : List Shell} {taken : List Data}
    {r : Except NotJson (List Shell)} (h : WorkedOff takeOff below todo nodes taken r) :
    r = (shells todo).map (nodes ++ ·) := by
  induction h with
  | done nodes =>
    rw [shells, Except.map, List.append_nil]
  | failed todo hvisit =>
    rw [takeOff_eq_error_iff, ← takeApart_eq_error_iff] at hvisit
    rw [shells_cons, hvisit]
    rfl
  | @next d nodes _ todo taken r hvisit _ ih =>
    cases hapart : takeApart d with
    | error e =>
      rw [takeOff, hapart] at hvisit
      cases hvisit
    | ok apart =>
      rw [takeOff, hapart] at hvisit
      cases hvisit
      rw [ih, below_of_takeApart hapart, shells_cons, hapart]
      simp only
      cases shells (apart.2 ++ todo) <;> simp [Except.map]

theorem sum_size_below_lt (d : Data) : ((below d).map Data.size).sum < d.size :=
  d.sum_size_children_lt

theorem sum_size_pending_lt (entry : Place × Data) :
    ((pending entry).map fun e => e.2.size).sum < entry.2.size := by
  have hsizes : ((pending entry).map fun e => e.2.size) = (below entry.2).map Data.size := by
    simp [pending, below, List.map_map, Function.comp_def]
  rw [hsizes]
  exact sum_size_below_lt entry.2

theorem standFor_below : WorkedOff.StandFor below id Data.nodes := by
  intro d
  rw [below, List.flatMap_map]
  exact d.nodes_eq

theorem standFor_pending : WorkedOff.StandFor pending (·.2) Data.nodes := by
  intro entry
  rw [pending, List.flatMap_map]
  exact entry.2.nodes_eq

end Conversion

namespace Data

/-- The nodes up to the first foreign object, or all of them. -/
def reached (d : Data) : List Data := WorkedOff.upTo notJson? d.nodes

/-- The rounds end with the list of nodes or its fault. -/
theorem workedOff_reached (d : Data) : WorkedOff takeOff below [d] [] d.reached (shells [d]) := by
  obtain ⟨visited, r, hvisited⟩ := exists_workedOff size sum_size_below_lt [d] []
  have hnodes := hvisited.map_eq_upTo standFor_below takeOff_eq_error_iff
  rw [List.flatMap_singleton, List.map_id] at hnodes
  obtain rfl : visited = d.reached := hnodes
  have hr : r = shells [d] := by
    rw [workedOff_shells hvisited]
    cases shells [d] <;> rfl
  exact hr ▸ hvisited

theorem toValue_eq_error_iff (d : Data) (e : NotJson) :
    d.toValue = .error e ↔ d.foreign? = some e := by
  have hshells : d.toValue = .error e ↔ shells [d] = .error e := by
    rw [toValue]
    cases shells [d] <;> simp
  have hfault := d.workedOff_reached.eq_error_iff standFor_below takeOff_eq_error_iff e
  rw [List.flatMap_singleton] at hfault
  exact hshells.trans hfault

theorem toValue_of_json {d : Data} (h : d.foreign? = none) : d.toValue = .ok d.asValue := by
  rw [← toValue_data d.asValue, data_asValue h]

theorem toValue_eq_ok_iff {d : Data} {v : Value} : d.toValue = .ok v ↔ v.data = d := by
  constructor
  · intro h
    cases hforeign : d.foreign? with
    | none =>
      rw [toValue_of_json hforeign] at h
      rw [← Except.ok.inj h, data_asValue hforeign]
    | some e =>
      rw [(toValue_eq_error_iff d e).mpr hforeign] at h
      cases h
  · rintro rfl
    exact toValue_data v

/-- The loop that attaches in place comes to the same end as the worklist. -/
theorem exists_attached {d : Data} (hkeyed : d.IsKeyed) :
    ∃ taken, WorkedOff attachNode pending [(.whole, d)] none taken (d.toValue.map some) := by
  cases hforeign : d.foreign? with
  | none =>
    rw [toValue_of_json hforeign]
    obtain ⟨taken, htaken⟩ := attaches hforeign hkeyed .whole none [] [] _ (Place.isOpen_whole none)
      (.done _)
    exact ⟨taken ++ [], htaken⟩
  | some e =>
    -- Work ends in any case, and the first foreign object alone decides that it ends with a fault.
    obtain ⟨taken, r, htaken⟩ := exists_workedOff (fun entry => entry.2.size) sum_size_pending_lt
      [(Place.whole, d)] none
    have hr := htaken.eq_error_iff standFor_pending attachNode_eq_error_iff e
    rw [List.flatMap_singleton] at hr
    rw [(toValue_eq_error_iff d e).mpr hforeign]
    obtain rfl := hr.mpr hforeign
    exact ⟨taken, htaken⟩

theorem exists_attached_reached {d : Data} (hkeyed : d.IsKeyed) :
    ∃ taken, WorkedOff attachNode pending [(.whole, d)] none taken (d.toValue.map some) ∧
      taken.map (·.2) = d.reached := by
  obtain ⟨taken, htaken⟩ := exists_attached hkeyed
  have hnodes := htaken.map_eq_upTo standFor_pending attachNode_eq_error_iff
  rw [List.flatMap_singleton] at hnodes
  exact ⟨taken, htaken, hnodes⟩

theorem foreign?_of_first {d : Data} {before after : List Data} {typeName : String}
    (hnodes : d.nodes = before ++ .other typeName :: after)
    (hbefore : ∀ x ∈ before, x.notJson? = none) : d.foreign? = some ⟨typeName⟩ := by
  rw [foreign?, hnodes, List.findSome?_append, List.findSome?_eq_none_iff.mpr hbefore]
  rfl

theorem reached_of_first {d : Data} {before after : List Data} {typeName : String}
    (hnodes : d.nodes = before ++ .other typeName :: after)
    (hbefore : ∀ x ∈ before, x.notJson? = none) : d.reached = before ++ [.other typeName] := by
  rw [reached, hnodes]
  exact WorkedOff.upTo_append_cons hbefore rfl

/-- Conversion is structural. The worklist and the loop that attaches in place visit the same nodes:
each one once and in document order, up to the first foreign object. Without any, the value has the
shape of the data; otherwise the first is complained of. -/
theorem toValue_structural (d : Data) :
    WorkedOff takeOff below [d] [] d.reached (shells [d]) ∧
    (d.IsKeyed → ∃ taken,
      WorkedOff attachNode pending [(.whole, d)] none taken (d.toValue.map some) ∧
      taken.map (·.2) = d.reached) ∧
    ((∀ x ∈ d.nodes, x.notJson? = none) → d.reached = d.nodes ∧ d.toValue = .ok d.asValue) ∧
    ∀ before typeName after, d.nodes = before ++ .other typeName :: after →
      (∀ x ∈ before, x.notJson? = none) →
      d.reached = before ++ [.other typeName] ∧
        d.toValue.mapError NotJson.message = .error ("not a JSON value: " ++ typeName) := by
  refine ⟨d.workedOff_reached, exists_attached_reached, ?_, ?_⟩
  · intro hjson
    exact ⟨WorkedOff.upTo_of_forall_none hjson, toValue_of_json (foreign?_eq_none_iff.mpr hjson)⟩
  · intro before typeName after hnodes hbefore
    refine ⟨reached_of_first hnodes hbefore, ?_⟩
    rw [(toValue_eq_error_iff d _).mpr (foreign?_of_first hnodes hbefore)]
    rfl

/-- Two foreign objects, of which the first in document order is deeper down. -/
theorem toValue_structural_nested :
    let inner : Data := .list [.bool true, .other "set"]
    let d : Data := .dict [(.text "a", inner), (.int 1, .other "object")]
    d.IsKeyed ∧ d.toValue.mapError NotJson.message = .error "not a JSON value: set" ∧
      ∃ taken, WorkedOff attachNode pending [(.whole, d)] none taken (d.toValue.map some) ∧
        taken.map (·.2) = [d, inner, .bool true, .other "set"] := by
  intro inner d
  have hkeyed : d.IsKeyed := by
    intro entries hentries
    obtain rfl : entries = [(.text "a", inner), (.int 1, .other "object")] := by
      simpa [d, inner, nodes, nodesOfEntries, nodesOfItems] using hentries
    simp [Dict.Distinct, Key.same, Key.canonical, Key.index?]
  obtain ⟨-, hplaces, -, hfirst⟩ := toValue_structural d
  obtain ⟨taken, htaken, hnodes⟩ := hplaces hkeyed
  obtain ⟨hreached, herror⟩ := hfirst [d, inner, .bool true] "set" [.other "object"] rfl
    (by simp [d, inner, notJson?])
  exact ⟨hkeyed, herror, taken, htaken, hnodes.trans hreached⟩

end Data
end JsonAssert
