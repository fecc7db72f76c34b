import PegTemplates.Decimal.Shortest

/-!
# Text of a float

A float is written by its shortest decimal. Magnitudes from `1e-5` up to below
`1e16` are positional and always show a fractional part; others have one digit
before the point and an exponent that always shows its sign, without padding.
-/

namespace PegTemplates.Decimal

/-- Where positional notation begins and ends: the decimal point may stand at
most `leadingZeros` places before the first digit and at most `positional`
places behind it. -/
structure Style where
  /-- Greatest number of zeros between the point and the first digit. -/
  leadingZeros : Nat
  /-- Greatest number of digits before the point. -/
  positional : Nat

/-- Style of floats in messages. -/
def messageStyle : Style := ⟨4, 16⟩

/-- That many zeros. -/
def zeros (count : Nat) : String := String.ofList (List.replicate count '0')

/-- Text of an exponent with its sign. -/
def signed (exponent : Int) : String :=
  (if exponent < 0 then "-" else "+") ++ toString exponent.natAbs

/-- Text of a positive decimal. -/
def Style.write (style : Style) (decimal : Scientific) : String :=
  let digits := toString decimal.digits
  let point : Int := digits.length + decimal.exponent
  if 0 ≤ decimal.exponent ∧ point ≤ style.positional then
    digits ++ zeros decimal.exponent.toNat ++ ".0"
  else if 0 < point ∧ point ≤ style.positional then
    String.ofList (digits.toList.take point.toNat) ++ "." ++
      String.ofList (digits.toList.drop point.toNat)
  else if -(style.leadingZeros : Int) ≤ point ∧ point ≤ 0 then
    "0." ++ zeros (-point).toNat ++ digits
  else
    let fraction := String.ofList (digits.toList.drop 1)
    String.ofList (digits.toList.take 1) ++ (if fraction.isEmpty then "" else "." ++ fraction) ++
      "e" ++ signed (point - 1)

/-- Text of a finite float. -/
def floatText (value : Float) : String :=
  let bits := value.toBits.toNat
  let sign := if bits < Nat.pow 2 63 then "" else "-"
  let magnitude := bits % Nat.pow 2 63
  sign ++ if magnitude = 0 then "0.0" else messageStyle.write (shortest magnitude)

end PegTemplates.Decimal
