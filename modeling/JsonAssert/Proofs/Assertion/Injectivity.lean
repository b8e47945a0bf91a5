import JsonAssert.Proofs.Assertion.Leaves
import JsonAssert.Proofs.Assertion.Lines

/-! Generated text loses nothing: the text divides into its lines whatever the root is, each line
gives back the path and the literal of its leaf, and the leaves give back the records. -/
namespace JsonAssert
open Script

/-! Lines -/

namespace Script

/-- A path and a literal can be read off the text that stands behind the root. -/
theorem body_inj {path path' : List Key} {l l' : Leaf} (hpath : ∀ k ∈ path, IsStep k)
    (hpath' : ∀ k ∈ path', IsStep k) (hl : IsFiniteLeaf l) (hl' : IsFiniteLeaf l')
    (h : body path l = body path' l') : path = path' ∧ l = l' := by
  have hread := subscripts_body hpath l (Nat.le_max_left path.length path'.length)
  rw [h, subscripts_body hpath' l' (Nat.le_max_right _ _), Option.some.injEq,
    Prod.mk.injEq] at hread
  obtain ⟨rfl, htail⟩ := hread
  have hrelation := relation?_append (relationOf l) l.literal.toList
  rw [← htail, relation?_append, Option.some.injEq, Prod.mk.injEq] at hrelation
  have hliteral := literal?_literal hl
  rw [← hrelation.2, literal?_literal hl'] at hliteral
  exact ⟨rfl, (Option.some.inj hliteral).symm⟩

/-- Two leaves of one root have different lines. -/
theorem assertion_inj {root : String} {path path' : List Key} {l l' : Leaf}
    (hpath : ∀ k ∈ path, IsStep k) (hpath' : ∀ k ∈ path', IsStep k) (hl : IsFiniteLeaf l)
    (hl' : IsFiniteLeaf l')
    (h : l.assertion (path.foldl subscripted root) = l'.assertion (path'.foldl subscripted root)) :
    path = path' ∧ l = l' := by
  have hchars := congrArg String.toList h
  rw [toList_assertion, toList_assertion, List.append_cancel_left_eq,
    List.append_cancel_left_eq] at hchars
  exact body_inj hpath hpath' hl hl' hchars

/-- A leaf whose line can be read: its path consists of steps, and its number is finite. -/
def IsReadable (p : List Key × Leaf) : Prop := (∀ k ∈ p.1, IsStep k) ∧ IsFiniteLeaf p.2

end Script

/-- The text of some leaves, each with a line of its own. -/
def codeOf (root : String) (leaves : List (List Key × Leaf)) : String :=
  unlines (leaves.map fun p => p.2.assertion (p.1.foldl subscripted root))

theorem toList_codeOf_cons (root : String) (p : List Key × Leaf)
    (leaves : List (List Key × Leaf)) :
    (codeOf root (p :: leaves)).toList =
      ("assert ".toList ++ root.toList) ++ (body p.1 p.2 ++ '\n' :: (codeOf root leaves).toList) := by
  rw [codeOf, List.map_cons, toList_unlines_cons, toList_assertion]
  simp only [codeOf, List.append_assoc]

/-- No line feed stands behind the root in a line, so the first one ends it. -/
theorem codeOf_injective {root : String} {leaves leaves' : List (List Key × Leaf)}
    (hleaves : ∀ p ∈ leaves, IsReadable p) (hleaves' : ∀ p ∈ leaves', IsReadable p)
    (h : codeOf root leaves = codeOf root leaves') : leaves = leaves' := by
  have hne (p : List Key × Leaf) (leaves : List (List Key × Leaf)) :
      codeOf root (p :: leaves) ≠ codeOf root [] := by
    intro hnil
    have hchars := congrArg String.toList hnil
    rw [toList_codeOf_cons] at hchars
    simp [codeOf, unlines] at hchars
  induction leaves generalizing leaves' with
  | nil =>
    cases leaves' with
    | nil => rfl
    | cons p' leaves' => exact absurd h.symm (hne p' leaves')
  | cons p leaves ih =>
    cases leaves' with
    | nil => exact absurd h (hne p leaves)
    | cons p' leaves' =>
      obtain ⟨⟨hpath, hl⟩, hmore⟩ := List.forall_mem_cons.mp hleaves
      obtain ⟨⟨hpath', hl'⟩, hmore'⟩ := List.forall_mem_cons.mp hleaves'
      have hchars := congrArg String.toList h
      rw [toList_codeOf_cons, toList_codeOf_cons, List.append_cancel_left_eq] at hchars
      have hsplit := congrArg (List.splitOn '\n') hchars
      rw [List.splitOn_append_cons_self_of_not_mem (lineFeed_not_mem (isPrinted_body p.1 p.2)),
        List.splitOn_append_cons_self_of_not_mem (lineFeed_not_mem (isPrinted_body p'.1 p'.2))]
        at hsplit
      have hbody := (List.cons.inj hsplit).1
      rw [hbody, List.append_cancel_left_eq, List.cons.injEq] at hchars
      obtain ⟨hkeys, hliteral⟩ := body_inj hpath hpath' hl hl' hbody
      rw [Prod.ext hkeys hliteral, ih hmore hmore' (String.toList_inj.mp hchars.2)]

/-! Records -/

namespace Value

theorem isReadable_of_mem_leaves {v : Value} (h : v.data.IsWellFormed) :
    ∀ p ∈ v.leaves, IsReadable p := by
  intro p hp
  have hleaf := (mem_leaves_iff h).mp hp
  exact ⟨hleaf.1, hleaf.isFiniteLeaf h⟩

theorem isReadable_of_mem_flatMap {v : Value} (h : v.data.IsWellFormed) :
    ∀ p ∈ (Tree.children v).flatMap leavesAt, IsReadable p := by
  intro p hp
  obtain ⟨e, he, hbelow⟩ := List.mem_flatMap.mp hp
  obtain ⟨hk, hwell⟩ := isWellFormed_child h he
  obtain ⟨rest, hrest, hmem⟩ := mem_leavesAt.mp hbelow
  obtain ⟨hsteps, hl⟩ := isReadable_of_mem_leaves hwell _ hmem
  refine ⟨?_, hl⟩
  rw [hrest]
  exact List.forall_mem_cons.mpr ⟨hk, hsteps⟩

end Value

/-- The leaves of records, whose paths start with an index where the records are a list. -/
def leavesOfRecords (records : List Value) (isList : Bool) : List (List Key × Leaf) :=
  if isList then (Tree.children (Value.list records)).flatMap Value.leavesAt
  else records.flatMap Value.leaves

theorem generateAssertions_eq_codeOf (records : List Value) (isList : Bool) (root : String) :
    (generateAssertions (records.map Value.data) isList root).outcome =
      .ok (codeOf root (leavesOfRecords records isList)) := by
  rw [generateAssertions_data, codeOf, leavesOfRecords]
  cases isList with
  | true => rw [valueTargets_list, Value.flatMap_lines, if_pos rfl]
  | false =>
    have hfalse : ¬ false = true := Bool.false_ne_true
    rw [valueTargets, if_neg hfalse, if_neg hfalse, List.map_flatMap, List.flatMap_map]
    rfl

/-- Records that make up a document: any number of them in a list, and one without. -/
structure IsRecords (records : List Data) (isList : Bool) : Prop where
  isWellFormed : ∀ d ∈ records, d.IsWellFormed
  single : isList = false → records.length = 1

namespace IsRecords
variable {records : List Value} {isList : Bool}

theorem list (h : IsRecords (records.map Value.data) isList) :
    (Value.list records).data.IsWellFormed := by
  rw [Value.data, Value.dataOfItems_eq_map]
  exact .list h.isWellFormed

theorem isReadable (h : IsRecords (records.map Value.data) isList) :
    ∀ p ∈ leavesOfRecords records isList, IsReadable p := by
  cases isList with
  | true => exact Value.isReadable_of_mem_flatMap h.list
  | false =>
    intro p hp
    obtain ⟨v, hv, hmem⟩ := List.mem_flatMap.mp hp
    exact Value.isReadable_of_mem_leaves (h.isWellFormed _ (List.mem_map_of_mem hv)) p hmem

end IsRecords

theorem leavesOfRecords_injective {records records' : List Value} {isList : Bool}
    (h : IsRecords (records.map Value.data) isList)
    (h' : IsRecords (records'.map Value.data) isList)
    (heq : leavesOfRecords records isList = leavesOfRecords records' isList) :
    records = records' := by
  cases isList with
  | true =>
    have hchildren : Tree.children (Value.list records) = Tree.children (Value.list records') := by
      apply Value.flatMap_leavesAt_inj (Value.nodup_keys h.list) (Value.nodup_keys h'.list) _ heq
      intro e he e' he'
      exact Value.leaves_injective (Value.isWellFormed_child h.list he).2
        (Value.isWellFormed_child h'.list he').2
    have hitems := congrArg (List.map (·.2)) hchildren
    simpa [Tree.children, Tree.branch?, Value.branch?] using hitems
  | false =>
    obtain ⟨v, rfl⟩ := List.length_eq_one_iff.mp (by simpa using h.single rfl)
    obtain ⟨w, rfl⟩ := List.length_eq_one_iff.mp (by simpa using h'.single rfl)
    have hleaves : v.leaves = w.leaves := by simpa [leavesOfRecords] using heq
    rw [Value.leaves_injective (h.isWellFormed v.data (by simp)) (h'.isWellFormed w.data (by simp))
      hleaves]

/-- Records have assertions, and two documents have the same text only if they are the same records,
in the same order and with every key, literal and empty container alike. -/
theorem generated_text_injective {A B : List Data} {isList : Bool} (hA : IsRecords A isList)
    (hB : IsRecords B isList) (root : String) :
    ∃ a b, (generateAssertions A isList root).outcome = .ok a ∧
      (generateAssertions B isList root).outcome = .ok b ∧ (a = b → A = B) := by
  obtain ⟨records, rfl⟩ := exists_values fun d hd => (hA.isWellFormed d hd).exists_value
  obtain ⟨records', rfl⟩ := exists_values fun d hd => (hB.isWellFormed d hd).exists_value
  refine ⟨_, _, generateAssertions_eq_codeOf records isList root,
    generateAssertions_eq_codeOf records' isList root, ?_⟩
  intro hcode
  have hleaves := codeOf_injective hA.isReadable hB.isReadable hcode
  rw [leavesOfRecords_injective hA hB hleaves]

/-- A dictionary with a digit for its key and a list of lists, and with zeros of either sign, behind
a root that holds a line feed. -/
theorem generated_text_injective_digitKey :
    let A : List Data := [.dict [(.text "0", .number (.float (.zero true)))], .list []]
    let B : List Data := [.list [.number (.float (.zero false))], .dict []]
    IsRecords A true ∧ IsRecords B true ∧
      ∃ a b, (generateAssertions A true "a\nb").outcome = .ok a ∧
        (generateAssertions B true "a\nb").outcome = .ok b ∧ a ≠ b := by
  intro A B
  have hzero (negative : Bool) :
      (Data.number (.float (.zero negative))).IsWellFormed :=
    .number (by cases negative <;> rfl)
  have hdict : (Data.dict [(.text "0", .number (.float (.zero true)))]).IsWellFormed :=
    .dict (List.forall_mem_singleton.mpr ⟨"0", rfl⟩) (List.nodup_singleton _)
      (List.forall_mem_singleton.mpr (hzero true))
  have hlist : (Data.list [.number (.float (.zero false))]).IsWellFormed :=
    .list (List.forall_mem_singleton.mpr (hzero false))
  have hemptyList : (Data.list []).IsWellFormed := .list (List.forall_mem_nil _)
  have hemptyDict : (Data.dict []).IsWellFormed :=
    .dict (List.forall_mem_nil _) List.nodup_nil (List.forall_mem_nil _)
  have hA : IsRecords A true := ⟨by simp [A, hdict, hemptyList], by simp⟩
  have hB : IsRecords B true := ⟨by simp [B, hlist, hemptyDict], by simp⟩
  obtain ⟨a, b, ha, hb, hinj⟩ := generated_text_injective hA hB "a\nb"
  exact ⟨hA, hB, a, b, ha, hb, fun heq => absurd (hinj heq) (by simp [A, B])⟩

end JsonAssert
