import Backslice.Decimal.Shortest

namespace Backslice.Decimal

/-- How a format writes a number: which exponents of the first digit it writes positionally,
whether a whole number keeps its point, whether a positive exponent has its sign, where a number
between two equally short decimals goes. -/
structure Layout where
  plain : Int → Bool
  point : Bool
  plus : Bool
  tie : Tie

namespace Layout

def zeros (n : Nat) : List Char := List.replicate n '0'

def positional (l : Layout) (digits : List Char) (exponent lead : Int) : List Char :=
  if 0 ≤ exponent then
    digits ++ zeros exponent.toNat ++ if l.point then ['.', '0'] else []
  else if 0 ≤ lead then
    digits.take (lead.toNat + 1) ++ '.' :: digits.drop (lead.toNat + 1)
  else '0' :: '.' :: zeros (-lead - 1).toNat ++ digits

def scientific (l : Layout) (digits : List Char) (lead : Int) : List Char :=
  let tail := digits.drop 1
  digits.take 1 ++ (if tail.isEmpty then [] else '.' :: tail) ++
    'e' :: (if lead < 0 then ['-'] else if l.plus then ['+'] else []) ++
    Nat.toDigits 10 lead.natAbs

def write (l : Layout) (d : Decimal) : List Char :=
  let digits := Nat.toDigits 10 d.digits
  let lead := d.exponent + digits.length - 1
  if l.plain lead then l.positional digits d.exponent lead else l.scientific digits lead

def float (l : Layout) (x : Float) : String :=
  let bits := x.toBits.toNat
  let sign := if bits / Nat.pow 2 63 = 1 then "-" else ""
  if bits / Nat.pow 2 52 % Nat.pow 2 11 = Nat.pow 2 11 - 1 then
    if bits % Nat.pow 2 52 = 0 then sign ++ "inf" else "NaN"
  else sign ++ String.ofList (l.write ((Binary.ofBits x.toBits).shortest l.tie))

end Layout

end Backslice.Decimal
