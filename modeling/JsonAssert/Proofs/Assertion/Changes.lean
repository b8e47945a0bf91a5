import JsonAssert.Proofs.Assertion.Injectivity
import JsonAssert.Proofs.Assertion.Validity

/-! Generated assertions locate changes. Where a leaf is replaced, its own line fails and no other;
where an entry is deleted, the lines of the leaves below it fail and no others. -/
namespace JsonAssert
open Script

/-! Lines that fail -/

/-- Null and the truth values exclude all other data; the other leaves exclude what they do not
equal. -/
def Leaf.Excludes : Leaf → Data → Prop
  | .null, d => d ≠ .null
  | .bool b, d => d ≠ .bool b
  | l, d => d.same l.data = false

/-- A line that is one assertion about a name, and not true when the name stands for some data: what
it says is false, or its subscripts lead nowhere. -/
def Script.Fails (name : String) (d : Data) (line : List Char) : Prop :=
  ∃ st, statement? line = some st ∧ st.name = name ∧ st.holds? d ≠ some true

/-- Some of the lines fail, and all the others are true. -/
def FailExactly (root : String) (d : Data) (lines : List (List Char))
    (failing : List Char → Prop) : Prop :=
  ∀ line ∈ lines, (failing line → Fails root d line) ∧ (¬ failing line → IsValid root d line)

/-- The line that is generated for a leaf. -/
def lineOf (root : String) (path : List Key) (l : Leaf) : List Char :=
  (l.assertion (path.foldl subscripted root)).toList

namespace Script

theorem holds?_of_excludes {l : Leaf} {d : Data} (h : l.Excludes d) :
    (relationOf l).holds? d l ≠ some true := by
  cases l with
  | null =>
    have hne : d ≠ .null := h
    cases d <;> simp_all [relationOf, Relation.holds?, identical?]
  | bool b =>
    cases d with
    | bool c =>
      have hne : b ≠ c := by
        rintro rfl
        exact h rfl
      simp [relationOf, Relation.holds?, identical?, hne]
    | _ => simp [relationOf, Relation.holds?, identical?]
  | _ =>
    have hsame : d.same _ = false := h
    simp [relationOf, Relation.holds?, hsame]

/-- The line of a leaf fails where its path leads nowhere, or to what the leaf excludes. -/
theorem fails_lineOf {root : String} (hroot : IsName root) {path : List Key}
    (hpath : ∀ k ∈ path, IsStep k) {l : Leaf} (hl : IsFiniteLeaf l) {d : Data}
    (h : ∀ x, Tree.at? path d = some x → l.Excludes x) : Fails root d (lineOf root path l) := by
  refine ⟨_, statement?_assertion hroot hpath hl, rfl, ?_⟩
  cases hat : Tree.at? path d with
  | none => simp [Statement.holds?, hat]
  | some x =>
    simp only [Statement.holds?, hat]
    exact holds?_of_excludes (h x hat)

end Script

/-! Deletions -/

namespace Data

theorem at?_erase_self (entries : Dict Data) (k : Key) (path : List Key) :
    Tree.at? (k :: path) (dict (entries.erase k)) = none := by
  rw [Tree.at?_cons]
  show (Dict.get? k (entries.erase k)).bind _ = none
  rw [Dict.get?_erase_self, Option.bind_none]

theorem at?_erase_ne (entries : Dict Data) {k l : Key} (hk : IsStep k) (hl : IsStep l)
    (hne : k ≠ l) (path : List Key) :
    Tree.at? (l :: path) (dict (entries.erase k)) = Tree.at? (l :: path) (dict entries) := by
  rw [Tree.at?_cons, Tree.at?_cons]
  show (Dict.get? l (entries.erase k)).bind _ = (Dict.get? l entries).bind _
  rw [Dict.get?_erase_ne (Key.same_eq_false hk hl hne)]

/-- A deletion of an entry: nothing is found below its key, and every other leaf is where it was. -/
theorem exists_delete {d : Data} (h : d.IsWellFormed) {path : List Key} {entries : Dict Data}
    {k : Key} {x : Data} (hpath : ∀ l ∈ path, IsStep l)
    (hat : Tree.at? path d = some (.dict entries)) (hmem : (k, x) ∈ entries) :
    ∃ d', edit ⟨path, .delete k⟩ d = .ok d' ∧
      (∀ below, Tree.at? (path ++ k :: below) d' = none) ∧
      ∀ other l, IsLeafAt other l d → (¬ ∃ below, other = path ++ k :: below) →
        Tree.at? other d' = some l.data := by
  have hdict := h.of_at? hpath hat
  have hmem' : (k, x) ∈ Tree.children (dict entries) := hmem
  have hk := (hdict.child hmem').1
  have hget : entries.get? k = some x := (hdict.get?_iff_of_dict hk).mpr hmem
  have hchange : (Branch.dict entries).change? (.delete k) = some (.dict (entries.erase k)) := by
    simp [Branch.change?, hget]
  obtain ⟨d', hedit, hinside, houtside⟩ := exists_edit hpath hat hchange
  refine ⟨d', hedit, ?_, ?_⟩
  · intro below
    rw [hinside]
    exact at?_erase_self entries k below
  · intro other l hother hnone
    rw [← hother.2]
    -- The dictionary itself is no leaf, so a leaf lies behind another of its keys, or off the path.
    by_cases hbehind : path <+: other
    · obtain ⟨rest, rfl⟩ := hbehind
      cases rest with
      | nil =>
        rw [List.append_nil] at hother
        have hdata : l.data = dict entries := Option.some.inj (hother.2.symm.trans hat)
        rw [← hdata, l.children_data] at hmem'
        simp at hmem'
      | cons l rest =>
        have hne : k ≠ l := by
          rintro rfl
          exact hnone ⟨rest, rfl⟩
        rw [hinside, Tree.at?_append, hat, Option.bind_some]
        exact at?_erase_ne entries hk (hother.1 l (by simp)) hne rest
    · apply houtside other hother.1 _ hbehind
      intro hbefore
      exact hbehind (hother.eq_of_isPrefix hat hbefore ▸ List.prefix_rfl)

end Data

/-! Documents -/

/-- The lines of a document are those of all its leaves, except that the empty list has none. -/
theorem mem_documentLines_iff {v : Value} (h : v.data.IsWellFormed) {root : String}
    {line : List Char} :
    line ∈ (Value.documentLines (root, v)).map String.toList ↔
      v.data ≠ .list [] ∧ ∃ path l, IsLeafAt path l v.data ∧ line = lineOf root path l := by
  have hlines : line ∈ (Value.lines (root, v)).map String.toList ↔
      ∃ path l, IsLeafAt path l v.data ∧ line = lineOf root path l := by
    simp only [Value.lines, List.map_map, List.mem_map, Prod.exists, Value.mem_leaves_iff h]
    simp only [lineOf, Function.comp_apply, eq_comm]
  unfold Value.documentLines
  split
  · next hempty =>
    have hdata : v.data = .list [] := by rw [show v = .list [] from hempty]; rfl
    simp [hdata]
  · next hother =>
    have hne : v.data ≠ .list [] := by
      intro hdata
      exact hother (Value.data_injective (hdata.trans (show _ = (Value.list []).data from rfl)))
    rw [hlines]
    exact (and_iff_right hne).symm

/-- Every leaf has a line of its own. -/
theorem nodup_documentLines {v : Value} (h : v.data.IsWellFormed) (root : String) :
    ((Value.documentLines (root, v)).map String.toList).Nodup := by
  have hlines : (Value.lines (root, v)).Nodup := by
    apply (List.Nodup.of_map _ (Value.nodup_paths h)).map_on
    intro p hp q hq heq
    obtain ⟨hpath, hl⟩ := Value.isReadable_of_mem_leaves h p hp
    obtain ⟨hpath', hl'⟩ := Value.isReadable_of_mem_leaves h q hq
    obtain ⟨hkeys, hliteral⟩ := assertion_inj hpath hpath' hl hl' heq
    exact Prod.ext hkeys hliteral
  apply List.Nodup.map fun a b => String.toList_inj.mp
  unfold Value.documentLines
  split
  · exact List.nodup_nil
  · exact hlines

/-! Changes -/

/-- Wherever a leaf is replaced by what it excludes, its own line fails and no other. -/
def LocateLeaves (root : String) (d : Data) (lines : List (List Char)) : Prop :=
  ∀ path l w, IsLeafAt path l d → l.Excludes w →
    lineOf root path l ∈ lines ∧ ∃ d', Tree.put? w path d = some d' ∧
      FailExactly root d' lines (· = lineOf root path l)

/-- Wherever an entry is deleted, the lines of the leaves below it fail and no others. -/
def LocateEntries (root : String) (d : Data) (lines : List (List Char)) : Prop :=
  ∀ path entries k x, (∀ l ∈ path, IsStep l) → Tree.at? path d = some (.dict entries) →
    (k, x) ∈ entries → ∃ d', Data.edit ⟨path, .delete k⟩ d = .ok d' ∧
      FailExactly root d' lines fun line => ∃ below l,
        IsLeafAt (path ++ k :: below) l d ∧ line = lineOf root (path ++ k :: below) l

theorem locateLeaves {d : Data} (h : d.IsWellFormed) {root : String} (hroot : IsName root)
    {lines : List (List Char)} (hlines : ∀ line, line ∈ lines ↔
      ∃ path l, IsLeafAt path l d ∧ line = lineOf root path l) : LocateLeaves root d lines := by
  intro path l w hleaf hw
  refine ⟨(hlines _).mpr ⟨path, l, hleaf, rfl⟩, ?_⟩
  obtain ⟨d', hput, hinside, houtside⟩ :=
    Data.exists_modify? (f := fun _ => some w) hleaf.1 hleaf.2 rfl
  refine ⟨d', hput, ?_⟩
  intro line hline
  constructor
  · rintro rfl
    apply fails_lineOf hroot hleaf.1 (hleaf.isFiniteLeaf h)
    intro x hx
    have hat := hinside []
    rw [List.append_nil, hx] at hat
    obtain rfl := Option.some.inj hat
    exact hw
  · intro hne
    obtain ⟨other, m, hother, rfl⟩ := (hlines line).mp hline
    -- No other leaf is on the path: a path ends at its leaf, and one leaf stands there.
    have hapart : path ≠ other := by
      rintro rfl
      have hdata : l.data = m.data := Option.some.inj (hleaf.2.symm.trans hother.2)
      exact hne (by rw [Leaf.data_injective hdata])
    apply isValid_assertion hroot hother.1 (hother.isFiniteLeaf h)
    rw [houtside other hother.1 _ _, hother.2]
    · exact fun hbefore => hapart (hother.eq_of_isPrefix hleaf.2 hbefore).symm
    · exact fun hbefore => hapart (hleaf.eq_of_isPrefix hother.2 hbefore)

theorem locateEntries {d : Data} (h : d.IsWellFormed) {root : String} (hroot : IsName root)
    {lines : List (List Char)} (hlines : ∀ line ∈ lines,
      ∃ path l, IsLeafAt path l d ∧ line = lineOf root path l) : LocateEntries root d lines := by
  intro path entries k x hpath hat hmem
  obtain ⟨d', hedit, hbelow, helse⟩ := Data.exists_delete h hpath hat hmem
  refine ⟨d', hedit, ?_⟩
  intro line hline
  constructor
  · rintro ⟨below, l, hleaf, rfl⟩
    apply fails_lineOf hroot hleaf.1 (hleaf.isFiniteLeaf h)
    intro x hx
    rw [hbelow] at hx
    simp at hx
  · intro hnone
    obtain ⟨other, l, hother, rfl⟩ := hlines line hline
    apply isValid_assertion hroot hother.1 (hother.isFiniteLeaf h)
    apply helse other l hother
    rintro ⟨below, rfl⟩
    exact hnone ⟨below, l, hother, rfl⟩

/-- For an empty list there is no line, so none that fails when it is replaced. -/
theorem emptyList_not_located :
    (decode (.text "[]")).outcome = .ok [] ∧
      ¬ ∃ code lines d, (generateFrom (.text "[]") "result").outcome = .ok code ∧
        code.toList.splitOn '\n' = lines ++ [[]] ∧
        Source.document? (.text "[]") [] = some d ∧ LocateLeaves "result" d lines := by
  have hcode : (generateFrom (.text "[]") "result").outcome = .ok "" := rfl
  have hdocument : Source.document? (.text "[]") [] = some (.list []) := rfl
  refine ⟨rfl, ?_⟩
  rintro ⟨code, lines, d, hgenerate, hlines, hd, hlocate⟩
  rw [hcode, Except.ok.injEq] at hgenerate
  rw [hdocument, Option.some.injEq] at hd
  subst hgenerate hd
  have hleaf : IsLeafAt [] .emptyList (.list []) := ⟨List.forall_mem_nil _, rfl⟩
  have hmem := (hlocate [] .emptyList .null hleaf rfl).1
  have hnone : lines = [] := by simpa using hlines
  simp [hnone] at hmem

/-- The lines that are generated from a source that decodes are one for each leaf. They locate every
change of a leaf, unless the document is the empty list, and every deletion of an entry. -/
theorem generated_lines_locate_changes {source : Source} {records : List Record} {root : String}
    (hroot : IsName root) (hdecode : (decode source).outcome = .ok records) :
    ∃ code lines d, (generateFrom source root).outcome = .ok code ∧
      code.toList.splitOn '\n' = lines ++ [[]] ∧ source.document? records = some d ∧
      lines.Nodup ∧ (d ≠ .list [] → LocateLeaves root d lines) ∧ LocateEntries root d lines := by
  obtain ⟨d, hparse, hrecords⟩ := exists_document hdecode
  obtain ⟨v, rfl, hcode⟩ := exists_documentLines hparse hrecords root
  have hjson := Source.isJson_of_parse hparse
  have hwell := hjson.isWellFormed
  have hprinted : ∀ line ∈ Value.documentLines (root, v), IsPrinted line.toList := by
    intro line hline
    exact Value.isPrinted_of_mem_lines hroot (Value.mem_lines_of_mem_documentLines hline)
  refine ⟨_, _, v.data, hcode, splitOn_unlines hprinted,
    Source.document?_of_parse hparse hrecords, nodup_documentLines hwell root, ?_, ?_⟩
  · intro hne
    apply locateLeaves hwell hroot
    intro line
    rw [mem_documentLines_iff hwell]
    exact and_iff_right hne
  · apply locateEntries hwell hroot
    intro line hline
    exact ((mem_documentLines_iff hwell).mp hline).2

/-- One in the place of a truth value, and a deletion of all that a list hangs from. -/
theorem generated_lines_locate_changes_truthValue :
    let record : Record := [(.text "a", .list [.bool true, .dict []])]
    let source := Source.text (.ofList (Data.dict record).written)
    IsName "result" ∧ (decode source).outcome = .ok [record] ∧
      ∃ code lines, (generateFrom source "result").outcome = .ok code ∧
        code.toList.splitOn '\n' = lines ++ [[]] ∧ lines.Nodup ∧
        (∃ d, Tree.put? (.number (.int 1)) [.text "a", .int 0] (.dict record) = some d ∧
          FailExactly "result" d lines (· = lineOf "result" [.text "a", .int 0] (.bool true))) ∧
        ∃ d, Data.edit ⟨[], .delete (.text "a")⟩ (.dict record) = .ok d ∧
          FailExactly "result" d lines fun line => ∃ below l,
            IsLeafAt (.text "a" :: below) l (.dict record) ∧
              line = lineOf "result" (.text "a" :: below) l := by
  intro record source
  have hempty : (Data.dict []).IsJson 1022 :=
    .dict (List.forall_mem_nil _) List.nodup_nil (List.forall_mem_nil _)
  have hitems : (Data.list [.bool true, .dict []]).IsJson 1023 :=
    .list (by simp [Data.IsJson.bool, hempty])
  have hjson : (Data.dict record).IsJson Json.maxDepth :=
    .dict (List.forall_mem_singleton.mpr ⟨"a", rfl⟩) (List.nodup_singleton _)
      (List.forall_mem_singleton.mpr hitems)
  have hparse : source.parse = .ok (.dict record) := by
    rw [Source.parse_text, String.toList_ofList]
    exact hjson.parse_written
  have hdecode : (decode source).outcome = .ok [record] := outcome_decode_of_parse hparse
  have hroot : IsName "result" := by decide
  obtain ⟨code, lines, d, hcode, hlines, hd, hnodup, hleaves, hentries⟩ :=
    generated_lines_locate_changes hroot hdecode
  obtain rfl : d = .dict record :=
    Option.some.inj (hd.symm.trans (Source.document?_of_parse hparse rfl))
  have hleaf : IsLeafAt [.text "a", .int 0] (.bool true) (.dict record) :=
    ⟨by simp [IsStep], rfl⟩
  have hone : Leaf.Excludes (.bool true) (.number (.int 1)) := Data.noConfusion
  exact ⟨hroot, hdecode, code, lines, hcode, hlines, hnodup,
    (hleaves (by simp) _ _ _ hleaf hone).2,
    hentries [] _ _ _ (List.forall_mem_nil _) rfl List.mem_cons_self⟩

end JsonAssert
