/-!
# Shortest decimal of a binary fraction

A finite 64-bit float is `m * 2 ^ q` and is read back from every real number in
the interval between the midpoints to its two neighbours, the ends included when
`m` is even. Of the decimals with the fewest digits in that interval, the one
nearest to the float is its shortest decimal. All arithmetic is exact.
-/

namespace PegTemplates.Decimal

/-- A decimal `digits * 10 ^ exponent`. -/
structure Scientific where
  /-- Significant digits as one number. -/
  digits : Nat
  /-- Power of ten that the digits are scaled by. -/
  exponent : Int
  deriving DecidableEq, Repr, Inhabited

/-- A positive binary fraction `mantissa * 2 ^ exponent` with the distance to
the neighbour below, in half units: one half unit of the mantissa, or a quarter
where the neighbour belongs to the next smaller power of two. -/
structure Binary where
  /-- Integer mantissa. -/
  mantissa : Nat
  /-- Power of two that the mantissa is scaled by. -/
  exponent : Int
  /-- Set when the neighbour below is nearer than the one above. -/
  narrow : Bool
  deriving DecidableEq, Repr, Inhabited

/-- Binary fraction of the bits of a positive finite 64-bit float. -/
def Binary.ofBits (bits : Nat) : Binary :=
  let field : Nat := bits / Nat.pow 2 52 % Nat.pow 2 11
  let fraction : Nat := bits % Nat.pow 2 52
  if field = 0 then ⟨fraction, -1074, false⟩
  else ⟨Nat.pow 2 52 + fraction, (field : Int) - 1075, fraction = 0 ∧ 1 < field⟩

/-- Both sides of a comparison between `a * 2 ^ q` and `n * 10 ^ e`, as natural
numbers. -/
def commonScale (a : Nat) (q : Int) (n : Nat) (e : Int) : Nat × Nat :=
  (a * Nat.pow 2 q.toNat * Nat.pow 10 (-e).toNat,
    n * Nat.pow 10 e.toNat * Nat.pow 2 (-q).toNat)

/-- Whether a decimal reads back as the binary fraction. The interval is told in
quarters of a unit of the mantissa. -/
def Binary.readsBack (b : Binary) (decimal : Scientific) : Bool :=
  let low := 4 * b.mantissa - if b.narrow then 1 else 2
  let high := 4 * b.mantissa + 2
  let (lowSide, below) := commonScale low (b.exponent - 2) decimal.digits decimal.exponent
  let (highSide, above) := commonScale high (b.exponent - 2) decimal.digits decimal.exponent
  if b.mantissa % 2 = 0 then lowSide ≤ below && above ≤ highSide
  else lowSide < below && above < highSide

/-- The two decimals with the given exponent around a binary fraction, nearer
one first. A tie goes to the even one. -/
def Binary.around (b : Binary) (exponent : Int) : List Scientific :=
  let (value, unit) := commonScale b.mantissa b.exponent 1 exponent
  let floor := value / unit
  let rest := value % unit
  let lower : Scientific := ⟨floor, exponent⟩
  let upper : Scientific := ⟨floor + 1, exponent⟩
  if 2 * rest < unit ∨ (2 * rest = unit ∧ floor % 2 = 0) then [lower, upper] else [upper, lower]

/-- The first decimal that reads back, trying coarse grids before fine ones. -/
def Binary.search (b : Binary) : Nat → Int → Scientific
  | 0, exponent => (b.around exponent).headD ⟨b.mantissa, 0⟩
  | steps + 1, exponent =>
    match (b.around exponent).find? fun decimal => decimal.digits ≠ 0 && b.readsBack decimal with
    | some decimal => decimal
    | none => b.search steps (exponent - 1)

/-- Drops trailing zeros of the digits, `steps` at most. -/
def Scientific.trimmed : Nat → Scientific → Scientific
  | 0, decimal => decimal
  | steps + 1, decimal =>
    if decimal.digits ≠ 0 ∧ decimal.digits % 10 = 0 then
      Scientific.trimmed steps ⟨decimal.digits / 10, decimal.exponent + 1⟩
    else decimal

/-- Shortest decimal of the bits of a positive finite 64-bit float. The grid
starts at a power of ten above the float and gets finer until a point of it
reads back, which seventeen digits always do. -/
def shortest (bits : Nat) : Scientific :=
  let b := Binary.ofBits bits
  let magnitude : Int := (Nat.log2 b.mantissa + b.exponent) * 30103 / 100000 + 1
  (b.search 19 magnitude).trimmed 19

end PegTemplates.Decimal
