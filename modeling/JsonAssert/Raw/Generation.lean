import JsonAssert.Assertion.Generation
import JsonAssert.Raw.Data

/-! Assertions for data from elsewhere. A walk may come upon a text or a key that cannot be written,
and then it ends, with the lines that it has logged by then. -/
namespace JsonAssert.Raw

/-- The entries of a dictionary with the expressions that lead to them. Keys are written from the
last one back, so of several that cannot be written the last is complained of. -/
def entryTargets (target : String) :
    List (Key × Value) → Except Unwritable (List (String × Value))
  | [] => .ok []
  | (k, v) :: entries => do
    let more ← entryTargets target entries
    return (← subscripted target k, v) :: more

theorem entryTargets_cons_eq_ok {target : String} {k : Key} {v : Value}
    {entries : List (Key × Value)} {children : List (String × Value)}
    (h : entryTargets target ((k, v) :: entries) = .ok children) :
    ∃ more expression, entryTargets target entries = .ok more ∧
      subscripted target k = .ok expression ∧ children = (expression, v) :: more := by
  rw [entryTargets] at h
  cases hmore : entryTargets target entries with
  | error u =>
    rw [hmore] at h
    cases h
  | ok more =>
    cases hkey : subscripted target k with
    | error u =>
      rw [hmore, hkey] at h
      cases h
    | ok expression =>
      rw [hmore, hkey] at h
      exact ⟨more, expression, rfl, rfl, (Except.ok.inj h).symm⟩

/-- What a round of the walk makes of a value: a line, or the values below it, with the expressions
that lead to them. -/
inductive Round where
  | line (text : String)
  | below (children : List (String × Value))

def round (target : String) : Value → Except Unwritable Round
  | .null => .ok (.line (Leaf.null.assertion target))
  | .bool b => .ok (.line ((Leaf.bool b).assertion target))
  | .number n => .ok (.line ((Leaf.number n).assertion target))
  | .text t => t.string.map fun s => .line ((Leaf.text s).assertion target)
  | .list [] => .ok (.line (Leaf.emptyList.assertion target))
  | .dict [] => .ok (.line (Leaf.emptyDict.assertion target))
  | .list items => .ok (.below (targets items true target))
  | .dict entries => (entryTargets target entries).map .below

@[simp] theorem round_list_cons (target : String) (v : Value) (items : List Value) :
    round target (.list (v :: items)) = .ok (.below (targets (v :: items) true target)) := rfl

@[simp] theorem round_dict_cons (target : String) (e : Key × Value) (entries : List (Key × Value)) :
    round target (.dict (e :: entries)) = (entryTargets target (e :: entries)).map .below := rfl

theorem sizeOf_append (xs ys : List Value) : sizeOf (xs ++ ys) + 1 = sizeOf xs + sizeOf ys := by
  induction xs with
  | nil => exact Nat.add_comm _ _
  | cons v xs ih =>
    simp only [List.cons_append, List.cons.sizeOf_spec]
    omega

theorem sizeOf_entryTargets {target : String} {entries : List (Key × Value)}
    {children : List (String × Value)} (h : entryTargets target entries = .ok children) :
    sizeOf (children.map (·.2)) ≤ sizeOf entries := by
  induction entries generalizing children with
  | nil =>
    cases h
    exact Nat.le_refl 1
  | cons e entries ih =>
    obtain ⟨k, v⟩ := e
    obtain ⟨more, expression, hmore, -, rfl⟩ := entryTargets_cons_eq_ok h
    have hle := ih hmore
    simp only [List.map_cons, List.cons.sizeOf_spec, Prod.mk.sizeOf_spec]
    omega

/-- Whatever is below a value is smaller than it, all in all. -/
theorem sizeOf_below {target : String} {v : Value} {children : List (String × Value)}
    (h : round target v = .ok (.below children)) :
    sizeOf (children.map (·.2)) < sizeOf v := by
  cases v with
  | list items =>
    cases items with
    | nil => cases h
    | cons v items =>
      cases h
      rw [map_snd_targets, Data.list.sizeOf_spec]
      exact Nat.lt_add_of_pos_left Nat.one_pos
  | dict entries =>
    cases entries with
    | nil => cases h
    | cons e entries =>
      rw [round_dict_cons] at h
      cases hchildren : entryTargets target (e :: entries) with
      | error u =>
        rw [hchildren] at h
        cases h
      | ok children' =>
        rw [hchildren] at h
        cases h
        have hle := sizeOf_entryTargets hchildren
        rw [Data.dict.sizeOf_spec]
        omega
  | text t =>
    cases hstring : t.string with
    | error u =>
      rw [round, hstring] at h
      cases h
    | ok s =>
      rw [round, hstring] at h
      cases h
  | other x => exact x.elim
  | _ => cases h

/-- The lines of the values on the list, which are logged one by one. -/
def walk : List (String × Value) → Traced Unwritable (List String)
  | [] => pure []
  | (target, v) :: rest =>
    match _h : round target v with
    | .error e => .ofExcept (.error e)
    | .ok (.line text) => do
      .record .generator [text]
      (text :: ·) <$> walk rest
    | .ok (.below children) => walk (children ++ rest)
termination_by todo => sizeOf (todo.map (·.2))
decreasing_by
  · simp only [List.map_cons, List.cons.sizeOf_spec]
    omega
  · have hless := sizeOf_below _h
    have happend := sizeOf_append (children.map (·.2)) (rest.map (·.2))
    simp only [List.map_cons, List.map_append, List.cons.sizeOf_spec]
    omega

theorem walk_cons (target : String) (v : Value) (rest : List (String × Value)) :
    walk ((target, v) :: rest) =
      match round target v with
      | .error e => .ofExcept (.error e)
      | .ok (.line text) => do
        .record .generator [text]
        (text :: ·) <$> walk rest
      | .ok (.below children) => walk (children ++ rest) := by
  rw [walk]
  split <;> next h => rw [h]

inductive Failure where
  | notJson (e : NotJson)
  | unwritable (e : Unwritable)
  deriving DecidableEq, Repr

def Failure.message : Failure → String
  | .notJson e => e.message
  | .unwritable e => e.message

/-- The lines of one record after the other. A record is converted as a whole before it is walked
through, and walked through before the next one is converted. -/
def linesOfRecords : List (String × Data String) → Traced Failure (List String)
  | [] => pure []
  | (target, d) :: rest => do
    let v ← .ofExcept (d.toValue.mapError .notJson)
    let lines ← (walk [(target, v)]).mapError .unwritable
    (lines ++ ·) <$> linesOfRecords rest

def generateAssertions (records : List (Data String)) (isList : Bool) (root : String) :
    Traced Failure String :=
  unlines <$> linesOfRecords (targets records isList root)

end JsonAssert.Raw
