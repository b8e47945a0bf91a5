import JsonAssert.Data.Basic
import JsonAssert.Number.Numeral
import JsonAssert.Proofs.Data.Dict

/-! Data that JSON texts stand for, and the wider class of all that is built in the same way from
finite numbers. -/
namespace JsonAssert

/-- The numbers that a JSON text can stand for: integers of 64 bits, and finite floats. -/
inductive Number.IsJson : Number → Prop
  | int {i : ℤ} : -2 ^ (Numeral.integerBits - 1) ≤ i → i < 2 ^ Numeral.integerBits → IsJson (.int i)
  | float {negative : Bool} {significand scale : ℕ}
      (h : Binary64.Canonical significand scale) :
      IsJson (.float (.finite negative significand scale h))

/-- A number with a value: an integer of any size, or a float that is neither infinite nor none. -/
def Number.IsFinite (n : Number) : Prop := n.units?.isSome = true

theorem Number.IsJson.isFinite {n : Number} (h : n.IsJson) : n.IsFinite := by
  cases h with
  | int _ _ => rfl
  | @float negative _ _ _ => cases negative <;> rfl

/-! Text keys -/

namespace Dict
variable {α : Type}

def HasTextKeys (d : Dict α) : Prop := ∀ e ∈ d, ∃ s, e.1 = .text s

theorem distinct_of_nodup {d : Dict α} (htext : d.HasTextKeys) (hnodup : (d.map (·.1)).Nodup) :
    d.Distinct := by
  have hpairwise : d.Pairwise fun e e' => e.1 ≠ e'.1 := List.pairwise_map.mp hnodup
  apply hpairwise.imp_of_mem
  intro e e' he he' hne
  obtain ⟨s, hs⟩ := htext e he
  obtain ⟨t, ht⟩ := htext e' he'
  rw [hs, ht] at hne ⊢
  rw [Key.same_text]
  simpa using hne

theorem nodup_of_distinct {d : Dict α} (h : d.Distinct) : (d.map (·.1)).Nodup := by
  apply List.pairwise_map.mpr
  apply h.imp
  intro e e' hsame heq
  rw [heq, Key.same_refl] at hsame
  exact Bool.noConfusion hsame

end Dict

/-- Data that a JSON text can stand for, with containers that nest at most so deep. -/
inductive Data.IsJson : ℕ → Data → Prop
  | null {depth : ℕ} : IsJson depth .null
  | bool {depth : ℕ} (b : Bool) : IsJson depth (.bool b)
  | number {depth : ℕ} {n : Number} : n.IsJson → IsJson depth (.number n)
  | text {depth : ℕ} (s : String) : IsJson depth (.text s)
  | list {depth : ℕ} {items : List Data} : (∀ d ∈ items, IsJson depth d) →
      IsJson (depth + 1) (.list items)
  | dict {depth : ℕ} {entries : List (Key × Data)} : Dict.HasTextKeys entries →
      (entries.map (·.1)).Nodup → (∀ e ∈ entries, IsJson depth e.2) →
      IsJson (depth + 1) (.dict entries)

/-- Data without foreign objects, built from finite numbers and from dictionaries with one entry for
each of their texts. It may nest as deep as it will. -/
inductive Data.IsWellFormed : Data → Prop
  | null : IsWellFormed .null
  | bool (b : Bool) : IsWellFormed (.bool b)
  | number {n : Number} : n.IsFinite → IsWellFormed (.number n)
  | text (s : String) : IsWellFormed (.text s)
  | list {items : List Data} : (∀ d ∈ items, IsWellFormed d) → IsWellFormed (.list items)
  | dict {entries : List (Key × Data)} : Dict.HasTextKeys entries →
      (entries.map (·.1)).Nodup → (∀ e ∈ entries, IsWellFormed e.2) →
      IsWellFormed (.dict entries)

theorem Data.IsJson.isWellFormed {depth : ℕ} {d : Data} (h : d.IsJson depth) : d.IsWellFormed := by
  induction h with
  | null => exact .null
  | bool b => exact .bool b
  | number hn => exact .number hn.isFinite
  | text s => exact .text s
  | list _ ih => exact .list ih
  | dict htext hnodup _ ih => exact .dict htext hnodup ih

end JsonAssert
