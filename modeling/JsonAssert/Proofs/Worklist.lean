import Mathlib

/-! Worklists. The first entry is taken off and visited, and the entries below it come into its
place, so a tree is gone through in document order and every node of it is visited once. -/
namespace JsonAssert

variable {α β σ ε : Type}

/-- Entries are worked off from a state on. The lists are of what there is to do and of what has been
taken off in the end, in this order; a fault of a visit ends it all. -/
inductive WorkedOff (visit : α → σ → Except ε σ) (below : α → List α) :
    List α → σ → List α → Except ε σ → Prop
  | done (s : σ) : WorkedOff visit below [] s [] (.ok s)
  | failed {a : α} {s : σ} {e : ε} (todo : List α) : visit a s = .error e →
      WorkedOff visit below (a :: todo) s [a] (.error e)
  | next {a : α} {s s' : σ} {todo taken : List α} {r : Except ε σ} : visit a s = .ok s' →
      WorkedOff visit below (below a ++ todo) s' taken r →
      WorkedOff visit below (a :: todo) s (a :: taken) r

variable {visit : α → σ → Except ε σ} {below : α → List α}

/-- Where every entry has more in it than all that come into its place, work ends. -/
theorem exists_workedOff (size : α → ℕ) (hsize : ∀ a, ((below a).map size).sum < size a)
    (todo : List α) (s : σ) : ∃ taken r, WorkedOff visit below todo s taken r := by
  induction htotal : (todo.map size).sum using Nat.strong_induction_on generalizing todo s with
  | _ total ih =>
    subst htotal
    cases todo with
    | nil => exact ⟨[], .ok s, .done s⟩
    | cons a todo =>
      cases hvisit : visit a s with
      | error e => exact ⟨[a], .error e, .failed todo hvisit⟩
      | ok s' =>
        have hless : ((below a ++ todo).map size).sum < ((a :: todo).map size).sum := by
          have ha := hsize a
          simp only [List.map_append, List.sum_append, List.map_cons, List.sum_cons]
          omega
        obtain ⟨taken, r, hrest⟩ := ih _ hless (below a ++ todo) s' rfl
        exact ⟨a :: taken, r, .next hvisit hrest⟩

namespace WorkedOff
variable {todo taken : List α} {s : σ} {r : Except ε σ}

/-- The entries stand for nodes of trees, and those below an entry for the children of its node. -/
def StandFor (below : α → List α) (node : α → β) (nodes : β → List β) : Prop :=
  ∀ a, nodes (node a) = node a :: (below a).flatMap fun b => nodes (node b)

variable {node : α → β} {nodes : β → List β}

/-- If nothing goes wrong, none is left out. -/
theorem map_eq (hnodes : StandFor below node nodes) {s' : σ}
    (h : WorkedOff visit below todo s taken (.ok s')) :
    taken.map node = todo.flatMap fun a => nodes (node a) := by
  generalize hr : (.ok s' : Except ε σ) = r at h
  induction h with
  | done s => rfl
  | failed todo _ => cases hr
  | next _ _ ih =>
    rw [List.flatMap_cons, hnodes, List.map_cons, ih hr, List.flatMap_append, List.cons_append]

/-! Faults of nodes -/

/-- The members of the list up to the first with a fault. -/
def upTo (fault : β → Option ε) : List β → List β
  | [] => []
  | b :: more => b :: if (fault b).isSome then [] else upTo fault more

theorem upTo_of_forall_none {fault : β → Option ε} {l : List β} (h : ∀ b ∈ l, fault b = none) :
    upTo fault l = l := by
  induction l with
  | nil => rfl
  | cons b l ih =>
    obtain ⟨hb, hl⟩ := List.forall_mem_cons.mp h
    rw [upTo, hb, if_neg (by simp), ih hl]

theorem upTo_append_cons {fault : β → Option ε} {before after : List β} {b : β} {e : ε}
    (hbefore : ∀ x ∈ before, fault x = none) (hb : fault b = some e) :
    upTo fault (before ++ b :: after) = before ++ [b] := by
  induction before with
  | nil => rw [List.nil_append, upTo, hb, if_pos (by simp), List.nil_append]
  | cons x before ih =>
    obtain ⟨hx, hmore⟩ := List.forall_mem_cons.mp hbefore
    rw [List.cons_append, upTo, hx, if_neg (by simp), ih hmore, List.cons_append]

variable {fault : β → Option ε}

theorem fault_eq_none (hfault : ∀ a s e, visit a s = .error e ↔ fault (node a) = some e) {a : α}
    {s s' : σ} (h : visit a s = .ok s') : fault (node a) = none := by
  apply Option.eq_none_iff_forall_ne_some.mpr
  intro e he
  rw [(hfault a s e).mpr he] at h
  cases h

/-- Where it depends on the node alone whether a visit goes wrong, the nodes up to the first with a
fault are taken off. -/
theorem map_eq_upTo (hnodes : StandFor below node nodes)
    (hfault : ∀ a s e, visit a s = .error e ↔ fault (node a) = some e)
    (h : WorkedOff visit below todo s taken r) :
    taken.map node = upTo fault (todo.flatMap fun a => nodes (node a)) := by
  induction h with
  | done s => rfl
  | @failed a s e todo hvisit =>
    rw [List.flatMap_cons, hnodes, List.cons_append, upTo, (hfault a s e).mp hvisit,
      if_pos Option.isSome_some]
    rfl
  | @next a s s' todo taken r hvisit _ ih =>
    rw [List.flatMap_cons, hnodes, List.cons_append, upTo, fault_eq_none hfault hvisit,
      if_neg (by simp), List.map_cons, ih, List.flatMap_append]

/-- The fault is that of the first node that has one. -/
theorem eq_error_iff (hnodes : StandFor below node nodes)
    (hfault : ∀ a s e, visit a s = .error e ↔ fault (node a) = some e)
    (h : WorkedOff visit below todo s taken r) (e : ε) :
    r = .error e ↔ (todo.flatMap fun a => nodes (node a)).findSome? fault = some e := by
  induction h with
  | done s => simp
  | @failed a s e' todo hvisit =>
    rw [List.flatMap_cons, hnodes, List.cons_append, List.findSome?_cons,
      (hfault a s e').mp hvisit, Except.error.injEq, Option.some.injEq]
  | @next a s s' todo taken r hvisit _ ih =>
    rw [List.flatMap_cons, hnodes, List.cons_append, List.findSome?_cons,
      fault_eq_none hfault hvisit, ih, List.flatMap_append]

end WorkedOff
end JsonAssert
