/-!
# Shortest digits

Of all decimal numbers that are read back as the same floating-point number, `shortestDigits`
chooses one with the fewest digits, and of these the nearest.  A floating-point number is
`m · 2^q` for whole numbers `m` and `q`; the numbers that are read back as it lie around it, up
to half way to its neighbours.
-/

namespace Stencil.Json

/-- A positive floating-point number as a multiple of a power of two. -/
structure Binary where
  factor : Nat
  exponent : Int
  deriving DecidableEq, Repr, Inhabited

/-- The size of the floating-point number with the given bits, which is finite. -/
def Binary.ofBits (bits : UInt64) : Binary :=
  let fraction : Nat := bits.toNat % Nat.pow 2 52
  let exponent : Nat := bits.toNat / Nat.pow 2 52 % Nat.pow 2 11
  if exponent = 0 then ⟨fraction, -1074⟩
  else ⟨fraction + Nat.pow 2 52, (exponent : Int) - 1075⟩

/-- A positive decimal number as a multiple of a power of ten. -/
structure Decimal where
  factor : Nat
  exponent : Int
  deriving DecidableEq, Repr, Inhabited

/-- The quotient of `n · 2^q` by `10^g`, as a numerator and a denominator. -/
def quotient (n : Nat) (q g : Int) : Nat × Nat :=
  (n * Nat.pow 2 q.toNat * Nat.pow 10 (-g).toNat, Nat.pow 10 g.toNat * Nat.pow 2 (-q).toNat)

/-- The quarter of the distance to the neighbour below is one where the number is a power of two,
since the numbers below are closer together there, and else two. -/
def Binary.lowerQuarters (b : Binary) : Nat :=
  if b.factor = Nat.pow 2 52 && b.exponent > -1074 then 1 else 2

/-- The multiple of `10^g` nearest to a number, if it is read back as the number. -/
def Binary.nearest? (b : Binary) (g : Int) : Option Nat :=
  let (middle, unit) := quotient (4 * b.factor) (b.exponent - 2) g
  let (low, _) := quotient (4 * b.factor - b.lowerQuarters) (b.exponent - 2) g
  let (high, _) := quotient (4 * b.factor + 2) (b.exponent - 2) g
  let isEven := b.factor % 2 = 0
  let fits (k : Nat) : Bool :=
    if isEven then low ≤ k * unit && k * unit ≤ high else low < k * unit && k * unit < high
  let floor := middle / unit
  let below := fits floor && floor != 0
  let above := fits (floor + 1)
  if below && above then
    let twice := 2 * (middle - floor * unit)
    if twice < unit || (twice = unit && floor % 2 = 0) then some floor else some (floor + 1)
  else if below then some floor
  else if above then some (floor + 1)
  else none

/-- The nearest decimal number on the coarsest grid that has one, among grids of `10^g` and
finer ones. -/
def Binary.search (b : Binary) : (steps : Nat) → (g : Int) → Decimal
  | 0, g => ⟨b.factor, g⟩
  | steps + 1, g =>
    match b.nearest? g with
    | some k => ⟨k, g⟩
    | none => search b steps (g - 1)

/-- The decimal number with the fewest digits that is read back as the given number. -/
def shortestDigits (b : Binary) : Decimal := b.search 700 310

end Stencil.Json
