import JsonAssert.Data.Equality
import JsonAssert.Proofs.Data.Nodewise
import JsonAssert.Proofs.Number.Equality

/-! Equality of data compares nodes by what they are apart from their children, in every place of the
two trees. -/
namespace JsonAssert.Data
open Script

/-! Nodes -/

/-- What a node is, apart from its children. -/
inductive Label where
  | null
  | bool (b : Bool)
  | number (v : WithBotTop ℚ)
  | text (s : String)
  | list
  | dict

/-- Truth values count as numbers. -/
def Label.counted : Label → Label
  | .bool b => .number (b.toInt : ℚ)
  | l => l

/-- Labels that count as the same are the same, unless only one of them is a truth value. -/
theorem Label.eq_of_counted_eq {l m : Label} (h : l.counted = m.counted)
    (hleft : ∀ b v, l = .bool b → m ≠ .number v) (hright : ∀ b v, m = .bool b → l ≠ .number v) :
    l = m := by
  cases l with
  | bool b =>
    cases m with
    | bool c =>
      have hvalue : (b.toInt : ℚ) = c.toInt := WithBotTop.coe_injective (Label.number.inj h)
      have hint : b.toInt = c.toInt := Int.cast_injective hvalue
      revert hint
      cases b <;> cases c <;> simp
    | number v => exact absurd rfl (hleft b v rfl)
    | _ => cases h
  | number v =>
    cases m with
    | bool c => exact absurd rfl (hright c v rfl)
    | _ => exact h
  | _ =>
    cases m with
    | bool c => cases h
    | _ => exact h

def label? : Data → Option Label
  | .null => some .null
  | .bool b => some (.bool b)
  | .number n => n.value?.map .number
  | .text s => some (.text s)
  | .list _ => some .list
  | .dict _ => some .dict
  | .other _ => none

/-- Two nodes are equal, but for what is below them. -/
def Match (x y : Data) : Prop := ∃ l, x.label? = some l ∧ y.label? = some l

/-- Two nodes are equal, but for what is below them, where truth values count as numbers. -/
def Agree (x y : Data) : Prop :=
  ∃ l, x.label?.map Label.counted = some l ∧ y.label?.map Label.counted = some l

/-- A truth value stands against a number. -/
inductive Clash : Data → Data → Prop
  | left (b : Bool) (n : Number) : Clash (.bool b) (.number n)
  | right (n : Number) (b : Bool) : Clash (.number n) (.bool b)

theorem match_self {d : Data} (h : d.IsComparable) : d.Match d := by
  have hnode := h d d.mem_nodes_self
  cases d with
  | number n =>
    obtain ⟨v, hv⟩ := Option.ne_none_iff_exists'.mp (mt Number.value?_eq_none_iff.mp hnode)
    exact ⟨.number v, by rw [label?, hv]; rfl, by rw [label?, hv]; rfl⟩
  | other typeName => exact absurd hnode id
  | _ => exact ⟨_, rfl, rfl⟩

theorem match_symm (x y : Data) : x.Match y → y.Match x :=
  fun ⟨l, hx, hy⟩ => ⟨l, hy, hx⟩

theorem match_trans (x y z : Data) : x.Match y → y.Match z → x.Match z := by
  rintro ⟨l, hx, hy⟩ ⟨l', hy', hz⟩
  obtain rfl := Option.some.inj (hy.symm.trans hy')
  exact ⟨l, hx, hz⟩

theorem agree_of_match {x y : Data} : x.Match y → x.Agree y :=
  fun ⟨l, hx, hy⟩ => ⟨l.counted, by rw [hx]; rfl, by rw [hy]; rfl⟩

theorem bool_of_label? {d : Data} {b : Bool} (h : d.label? = some (.bool b)) : d = .bool b := by
  cases d with
  | bool c =>
    obtain rfl := Label.bool.inj (Option.some.inj h)
    rfl
  | number n =>
    obtain ⟨v, -, hl⟩ := Option.map_eq_some_iff.mp h
    cases hl
  | _ => cases h

theorem number_of_label? {d : Data} {v : WithBotTop ℚ} (h : d.label? = some (.number v)) :
    ∃ n, d = .number n := by
  cases d with
  | number n => exact ⟨n, rfl⟩
  | _ => cases h

theorem not_clash_of_match {x y : Data} (h : x.Match y) : ¬ x.Clash y := by
  rintro (⟨b, n⟩ | ⟨n, b⟩)
  · obtain ⟨l, hb, hn⟩ := h
    obtain rfl := Option.some.inj hb
    cases bool_of_label? hn
  · obtain ⟨l, hn, hb⟩ := h
    obtain rfl := Option.some.inj hb
    cases bool_of_label? hn

/-- Nodes that agree match unless they clash. -/
theorem match_iff {x y : Data} : x.Match y ↔ x.Agree y ∧ ¬ x.Clash y := by
  refine ⟨fun h => ⟨agree_of_match h, not_clash_of_match h⟩, ?_⟩
  rintro ⟨⟨_, hx, hy⟩, hclash⟩
  obtain ⟨l, hl, rfl⟩ := Option.map_eq_some_iff.mp hx
  obtain ⟨m, hm, hcounted⟩ := Option.map_eq_some_iff.mp hy
  have heq : l = m := by
    refine Label.eq_of_counted_eq hcounted.symm ?_ ?_
    · rintro b v rfl rfl
      obtain ⟨n, rfl⟩ := number_of_label? hm
      exact hclash (bool_of_label? hl ▸ .left b n)
    · rintro b v rfl rfl
      obtain ⟨n, rfl⟩ := number_of_label? hl
      exact hclash (bool_of_label? hm ▸ .right n b)
  exact ⟨l, hl, heq ▸ hm⟩

/-! Leaves -/

theorem counted_of_number? {d : Data} {n : Number} (h : d.number? = some n) :
    d.label?.map Label.counted = n.value?.map .number := by
  cases d with
  | bool b =>
    obtain rfl := Option.some.inj h
    rfl
  | number m =>
    obtain rfl := Option.some.inj h
    rw [label?, Option.map_map]
    rfl
  | _ => cases h

theorem agree_iff_same {x y : Data} {m n : Number} (hx : x.number? = some m)
    (hy : y.number? = some n) : x.Agree y ↔ m.same n = true := by
  rw [Agree, counted_of_number? hx, counted_of_number? hy, Number.same_iff]
  constructor
  · rintro ⟨l, hm, hn⟩
    obtain ⟨v, hv, rfl⟩ := Option.map_eq_some_iff.mp hm
    obtain ⟨w, hw, hl⟩ := Option.map_eq_some_iff.mp hn
    obtain rfl := Label.number.inj hl
    exact ⟨w, hv, hw⟩
  · rintro ⟨v, hm, hn⟩
    exact ⟨.number v, by rw [hm]; rfl, by rw [hn]; rfl⟩

theorem same_iff_agree {a : Data} (ha : Tree.branch? a = none) (hnode : a.IsComparableNode)
    (b : Data) : a.same b = true ↔ a.Agree b := by
  have hnumber {m : Number} (hm : a.number? = some m) :
      b.number?.any m.same = true ↔ a.Agree b := by
    cases hb : b.number? with
    | some n => simpa using (agree_iff_same hm hb).symm
    | none =>
      rw [Agree, counted_of_number? hm]
      cases b <;> simp_all [number?, label?, Label.counted]
  cases a with
  | null => cases b <;> simp [same, Agree, label?, Label.counted]
  | bool x => exact hnumber rfl
  | number n => exact hnumber rfl
  | text s => cases b <;> simp [same, Agree, label?, Label.counted, eq_comm (a := s)]
  | other typeName => exact absurd hnode id
  | list items => cases ha
  | dict entries => cases ha

/-! Containers -/

theorem sameItems_iff {xs ys : List Data} :
    sameItems xs ys = true ↔ List.Forall₂ (fun x y => x.same y = true) xs ys := by
  induction xs generalizing ys with
  | nil => cases ys <;> simp [sameItems]
  | cons x xs ih => cases ys <;> simp [sameItems, ih]

theorem sameEntries_iff {xs : List (Key × Data)} {ys : Dict Data} :
    sameEntries xs ys = true ↔ ∀ e ∈ xs, ∃ y, ys.get? e.1 = some y ∧ e.2.same y = true := by
  induction xs with
  | nil => simp [sameEntries]
  | cons e xs ih =>
    rw [sameEntries, Bool.and_eq_true, ih, List.forall_mem_cons]
    cases ys.get? e.1 <;> simp

/-- Leaves agree with leaves alone, and no path leads further. -/
theorem Agree.rel_child? {R : Data → Data → Prop} {a b : Data} (h : a.Agree b)
    (ha : Tree.branch? a = none) (k : Key) : Option.Rel R (Tree.child? k a) (Tree.child? k b) := by
  have hb : Tree.branch? b = none := by
    obtain ⟨l, hx, hy⟩ := h
    cases b with
    | list ys =>
      obtain rfl := Option.some.inj hy
      cases a <;> simp_all [label?, Label.counted, Tree.branch?, branch?]
    | dict ys =>
      obtain rfl := Option.some.inj hy
      cases a <;> simp_all [label?, Label.counted, Tree.branch?, branch?]
    | _ => rfl
  rw [Tree.child?, Tree.child?, ha, hb]
  exact .none

theorem same_list_iff {xs ys : List Data} :
    (list xs).same (list ys) = true ↔ List.Forall₂ (fun x y => x.same y = true) xs ys := by
  rw [same, sameItems_iff]

theorem same_dict_iff {xs ys : Dict Data} :
    (dict xs).same (dict ys) = true ↔
      xs.length = ys.length ∧ ∀ e ∈ xs, ∃ y, ys.get? e.1 = some y ∧ e.2.same y = true := by
  rw [same, Bool.and_eq_true, beq_iff_eq, sameEntries_iff]

theorem isNodewise_same : IsNodewise Agree fun a b => a.same b = true := by
  intro a b ha hb
  cases a with
  | list xs =>
    cases b with
    | list ys =>
      exact (same_list_iff.trans Branch.rel_get?_list_iff.symm).trans
        (and_iff_right ⟨.list, rfl, rfl⟩).symm
    | _ => simp [same, Agree, label?, Label.counted]
  | dict xs =>
    cases b with
    | dict ys =>
      obtain ⟨hx, -⟩ := isComparable_dict.mp ha
      obtain ⟨hy, -⟩ := isComparable_dict.mp hb
      have hplaces := hx.rel_get?_iff (R := fun x y => x.same y = true) hy
      exact (same_dict_iff.trans hplaces.symm).trans (and_iff_right ⟨.dict, rfl, rfl⟩).symm
    | _ => simp [same, Agree, label?, Label.counted]
  | _ =>
    exact (same_iff_agree rfl ha.node b).trans
      (and_iff_left_of_imp fun h k _ => h.rel_child? rfl k).symm

/-! Changes -/

theorem eq_ofBranch {d : Data} {b : Branch Data} (h : Tree.branch? d = some b) :
    d = Tree.ofBranch b := by
  cases d with
  | list items =>
    obtain rfl := Option.some.inj h
    rfl
  | dict entries =>
    obtain rfl := Option.some.inj h
    rfl
  | _ => cases h

theorem agree_replace {b : Branch Data} {k : Key} (hk : IsStep k) {x : Data}
    (hget : b.get? k = some x) (y : Data) :
    (Tree.ofBranch b : Data).Agree (Tree.ofBranch (b.replace k y)) := by
  cases b with
  | list items =>
    obtain ⟨i, rfl, -⟩ := Branch.mem_children_list.mp ((Branch.get?_list_iff hk).mp hget)
    rw [Branch.replace_list_natCast]
    exact ⟨.list, rfl, rfl⟩
  | dict entries => exact ⟨.dict, rfl, rfl⟩

theorem same_self {d : Data} (h : d.IsComparable) : d.same d = true :=
  isNodewise_same.rel_self (fun _ hx => agree_of_match (match_self hx)) h

/-- Data stays equal when a part of it is replaced by something equal. -/
theorem exists_put_same {d x y : Data} (hd : d.IsComparable) (hy : y.IsComparable)
    {path : List Key} (hsteps : ∀ k ∈ path, IsStep k) (hat : Tree.at? path d = some x)
    (hxy : x.same y = true) :
    ∃ d', Tree.put? y path d = some d' ∧ d'.IsComparable ∧ d.same d' = true := by
  induction path generalizing d with
  | nil =>
    obtain rfl := Option.some.inj hat
    exact ⟨y, rfl, hy, hxy⟩
  | cons k path ih =>
    obtain ⟨hk, hrest⟩ := List.forall_mem_cons.mp hsteps
    rw [Tree.at?_cons] at hat
    obtain ⟨child, hchild, hbelow⟩ := Option.bind_eq_some_iff.mp hat
    obtain ⟨b, hb, hget⟩ := Option.bind_eq_some_iff.mp hchild
    obtain ⟨child', hput, hcomparable, hsame⟩ := ih (hd.of_child? hk hchild) hrest hbelow
    obtain rfl := eq_ofBranch hb
    rw [Tree.put?] at hput
    have hd' := hd.replace hk hget hcomparable
    refine ⟨_, by simp [Tree.put?, Tree.modify?, hb, hget, hput], hd', ?_⟩
    refine (isNodewise_same _ _ hd hd').mpr ⟨agree_replace hk hget child', fun l hl => ?_⟩
    rw [Tree.child?_of_branch? hb, Tree.child?_of_branch? (branch?_ofBranch _)]
    by_cases hkey : l = k
    · subst hkey
      rw [hget, Branch.get?_replace_self hget]
      exact .some hsame
    · rw [Branch.get?_replace_ne hk hl (Ne.symm hkey)]
      cases hother : b.get? l with
      | none => exact .none
      | some z =>
        have hz : z.IsComparable := hd.of_child? hl ((Tree.child?_of_branch? hb l).trans hother)
        exact .some (same_self hz)

end JsonAssert.Data
