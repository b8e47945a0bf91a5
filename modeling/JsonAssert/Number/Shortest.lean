import JsonAssert.Number.Decimal

/-! The shortest decimal that reads back as a given float, and of the shortest the nearest. -/
namespace JsonAssert.Shortest

-- Powers are those of the core library, whatever else is in scope.
attribute [local instance (2000)] instPowNat

/-- Every float is a finite decimal, since `2 ^ -k` is `5 ^ k * 10 ^ -k`. -/
def exact (significand scale : Nat) : Decimal :=
  ⟨significand * 2 ^ scale * 5 ^ Binary64.unitBits, -Binary64.unitBits⟩

/-- The two neighbours of a decimal that has lost its last `dropped` digits, the nearer one first,
and of two equally near ones the even one. -/
def neighbours (d : Decimal) (dropped : Nat) : List Decimal :=
  let unit := 10 ^ dropped
  let low := d.digits / unit
  let first := Binary64.roundHalfEven d.digits unit
  let second := if first = low then low + 1 else low
  [first, second].map (⟨·, d.exponent + dropped⟩)

/-- Drops as many digits as the float allows, at most `dropped`, and never all. -/
def search (readsBack : Decimal → Bool) (d : Decimal) : Nat → Decimal
  | 0 => d
  | dropped + 1 =>
    if d.digits < 10 ^ (dropped + 1) then search readsBack d dropped
    else
      match (neighbours d (dropped + 1)).find? readsBack with
      | some shorter => shorter
      | none => search readsBack d dropped

/-- The shortest decimal of a finite float that is not zero. The sign plays no part in it. A digit
takes more than three bits, which bounds how many there are to drop. -/
def decimal (significand scale : Nat) : Decimal :=
  let d := exact significand scale
  search (fun c => Binary64.ofDecimal false c == Binary64.pack false significand scale) d
    (d.digits.log2 / 3)

end JsonAssert.Shortest
