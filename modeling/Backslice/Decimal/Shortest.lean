namespace Backslice

/-- The number `digits · 10 ^ exponent`. -/
structure Decimal where
  digits : Nat
  exponent : Int
  deriving DecidableEq, Repr

/-- The positive number `mantissa · 2 ^ exponent` of a binary format. `narrow` says that the next
number below is half as far away as the next one above. -/
structure Binary where
  mantissa : Nat
  exponent : Int
  narrow : Bool
  deriving DecidableEq, Repr

/-- Where a number halfway between two decimals goes. -/
inductive Tie where
  | up
  | even
  deriving DecidableEq, Repr

/-- Whether a tie goes to the lower decimal, which has these digits. -/
def Tie.isDown : Tie → Nat → Bool
  | .up, _ => false
  | .even, c => c % 2 = 0

namespace Decimal

/-- The same number without trailing zeros in its digits. -/
def strip (digits : Nat) (exponent : Int) : Decimal :=
  if digits = 0 then ⟨0, 0⟩
  else if digits % 10 = 0 then strip (digits / 10) (exponent + 1)
  else ⟨digits, exponent⟩
termination_by digits
decreasing_by omega

end Decimal

namespace Binary

/-- The finite number with these 64 bits, without its sign. -/
def ofBits (bits : UInt64) : Binary :=
  let fraction : Nat := bits.toNat % Nat.pow 2 52
  let power : Nat := bits.toNat / Nat.pow 2 52 % Nat.pow 2 11
  if power = 0 then ⟨fraction, -1074, false⟩
  else ⟨fraction + Nat.pow 2 52, (power : Int) - 1075, fraction = 0 && 1 < power⟩

/-- Numerator of the quotient of the number and `10 ^ g`, per unit of the mantissa. -/
def numerator (v : Binary) (g : Int) : Nat := Nat.pow 2 v.exponent.toNat * Nat.pow 10 (-g).toNat

/-- Denominator of the quotient of the number and `10 ^ g`. -/
def denominator (v : Binary) (g : Int) : Nat := Nat.pow 2 (-v.exponent).toNat * Nat.pow 10 g.toNat

/-- The exponent of the first decimal digit. -/
def magnitude (v : Binary) : Int :=
  (Nat.toDigits 10 (v.mantissa * v.numerator (-342) / v.denominator (-342))).length - 343

/-- Whether `c · 10 ^ g` rounds to the number, ties going to an even mantissa. -/
def admits (v : Binary) (g : Int) (c : Nat) : Bool :=
  let low := (4 * v.mantissa - if v.narrow then 1 else 2) * v.numerator g
  let high := (4 * v.mantissa + 2) * v.numerator g
  let x := 4 * c * v.denominator g
  if v.mantissa % 2 = 0 then low ≤ x && x ≤ high else low < x && x < high

/-- The multiple of `10 ^ g` next to the number that rounds to it, the nearer one if both do. -/
def onGrid? (v : Binary) (tie : Tie) (g : Int) : Option Decimal :=
  let n := v.mantissa * v.numerator g
  let d := v.denominator g
  let c := n / d
  let isDown := 2 * (n % d) < d || (2 * (n % d) = d && tie.isDown c)
  let order := if isDown then [c, c + 1] else [c + 1, c]
  (order.find? (v.admits g)).map fun c => Decimal.strip c g

/-- The fewest decimal digits that round to the number, and of those the nearest. Seventeen always
suffice. -/
def shortest (v : Binary) (tie : Tie) : Decimal :=
  if v.mantissa = 0 then ⟨0, 0⟩
  else
    let lead := v.magnitude
    ((List.range 17).findSome? fun n : Nat => v.onGrid? tie (lead - n)).getD
      (Decimal.strip (v.mantissa * v.numerator (lead - 16) / v.denominator (lead - 16)) (lead - 16))

end Binary

end Backslice
