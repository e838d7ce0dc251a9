import Backslice.Json.Reader

namespace Backslice.Yaml.Number

def digit? (base : Nat) (c : Char) : Option Nat := (Json.hexDigit? c).filter (· < base)

def natural? (base : Nat) (cs : List Char) : Option Nat :=
  if cs.isEmpty then none else cs.foldlM (fun n c => (digit? base c).map (n * base + ·)) 0

/-- A number in base sixteen, eight or two. -/
def based? : List Char → Option Nat
  | '0' :: 'x' :: cs => natural? 16 cs
  | '0' :: 'o' :: cs => natural? 8 cs
  | '0' :: 'b' :: cs => natural? 2 cs
  | _ => none

def unsign : List Char → List Char
  | '+' :: cs | '-' :: cs => cs
  | cs => cs

/-- Digits after a leading zero are text and no number. -/
def isZeroPadded (cs : List Char) : Bool :=
  match unsign cs with
  | '0' :: c :: cs => (c :: cs).all Char.isDigit
  | _ => false

def unsigned? (cs : List Char) : Option Nat :=
  let digits := match cs with
    | '+' :: cs => cs
    | cs => cs
  based? digits <|> if isZeroPadded cs then none else natural? 10 digits

def signed? (cs : List Char) : Option Int :=
  match cs with
  | '-' :: digits =>
    (based? digits <|> if isZeroPadded cs then none else natural? 10 digits).map fun n => -n
  | _ => (unsigned? cs).map Int.ofNat

/-- What stands after the digits of a decimal number. -/
def exponent? : List Char → Option Int
  | [] => some 0
  | 'e' :: '-' :: cs | 'E' :: '-' :: cs => (natural? 10 cs).map fun n => -n
  | 'e' :: '+' :: cs | 'E' :: '+' :: cs | 'e' :: cs | 'E' :: cs => (natural? 10 cs).map Int.ofNat
  | _ => none

/-- The digits of a decimal number and the power of ten that they are multiplied by. -/
def decimal? (cs : List Char) : Option (Nat × Int) :=
  let whole := cs.takeWhile Char.isDigit
  let (places, rest) : List Char × List Char := match cs.dropWhile Char.isDigit with
    | '.' :: cs => (cs.takeWhile Char.isDigit, cs.dropWhile Char.isDigit)
    | cs => ([], cs)
  if (whole ++ places).isEmpty then none
  else do
    let digits ← natural? 10 (whole ++ places)
    let exponent ← exponent? rest
    return (digits, exponent - places.length)

/-- The number of digits before the point. -/
def magnitude (digits : Nat) (exponent : Int) : Int := (Nat.toDigits 10 digits).length + exponent

/-- The least number that rounds to infinity as a float of 64 bits. -/
def infinite : Nat := Nat.pow 2 1024 - Nat.pow 2 970

def isFinite (digits : Nat) (exponent : Int) : Bool :=
  digits = 0 || magnitude digits exponent < 309 ||
    (magnitude digits exponent = 309 &&
      if 0 ≤ exponent then digits * Nat.pow 10 exponent.toNat < infinite
      else digits < infinite * Nat.pow 10 (-exponent).toNat)

def infinityWords : List String :=
  [".inf", ".Inf", ".INF", "+.inf", "+.Inf", "+.INF", "-.inf", "-.Inf", "-.INF", ".nan", ".NaN",
   ".NAN"]

/-- Whether a text reads as a float: a finite decimal number, infinity, or no number. -/
def isFloat (cs : List Char) : Bool :=
  infinityWords.contains (String.ofList cs) ||
    match decimal? (unsign cs) with
    | some (digits, exponent) => isFinite digits exponent
    | none => false

/-- Whether a text reads as a whole number of at most 128 bits. -/
def isInteger (cs : List Char) : Bool :=
  match signed? cs with
  | some n => -(Nat.pow 2 127 : Nat) ≤ n && n < (Nat.pow 2 128 : Nat)
  | none => false

end Backslice.Yaml.Number
