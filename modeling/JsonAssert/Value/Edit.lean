import JsonAssert.Data.Edit
import JsonAssert.Value.Conversion

/-! Edits of values by data, which is converted before anything is changed. -/
namespace JsonAssert

inductive EditError where
  | notJson (e : NotJson)
  | noSuchPlace
  deriving DecidableEq, Repr

def Change.toValue : Change Data → Except NotJson (Change Value)
  | .append d => d.toValue.map .append
  | .set k d => d.toValue.map (.set k)
  | .delete k => .ok (.delete k)

def Data.edit (e : Edit Data) (d : Data) : Except EditError Data :=
  match Tree.edit? e d with
  | some edited => .ok edited
  | none => .error .noSuchPlace

def Value.edit (e : Edit Data) (v : Value) : Except EditError Value :=
  match e.change.toValue with
  | .error cause => .error (.notJson cause)
  | .ok change =>
    match Tree.edit? ⟨e.path, change⟩ v with
    | some edited => .ok edited
    | none => .error .noSuchPlace

end JsonAssert
