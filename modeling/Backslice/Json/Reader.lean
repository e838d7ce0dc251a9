import Backslice.Json.Basic

namespace Backslice.Json

/-- Reads a value at the front of the text and leaves the rest. -/
abbrev Reader (α : Type) := List Char → Option (α × List Char)

def skipSpace (cs : List Char) : List Char :=
  cs.dropWhile fun c => c == ' ' || c == '\n' || c == '\t' || c == '\r'

def digitValue (c : Char) : Nat := c.toNat - '0'.toNat

/-- The first twenty digits or so of a number, as many as fit in 64 bits, with the power of ten that
the point and the digits left out stand for. -/
structure Significand where
  digits : Nat
  exponent : Int

namespace Significand

def fits (n : Nat) : Bool := n < Nat.pow 2 64

/-- Once a digit of the whole part does not fit, the later ones only raise the exponent. -/
def whole : Nat → List Char → Significand
  | n, [] => ⟨n, 0⟩
  | n, c :: cs =>
    let next := n * 10 + digitValue c
    if fits next then whole next cs else ⟨n, cs.length + 1⟩

/-- From the first digit of the fraction that does not fit, the digits are left out. -/
def fraction (s : Significand) : List Char → Significand
  | [] => s
  | c :: cs =>
    let next := s.digits * 10 + digitValue c
    if fits next then fraction ⟨next, s.exponent - 1⟩ cs else s

def powerOfTen (n : Nat) : Float := Float.ofScientific 1 false n

/-- The digits as a float, multiplied or divided once by a power of ten, or divided twice if one
power is out of range. Overflow is no number. -/
def toFloat? (s : Significand) : Option Float :=
  let x := s.digits.toUInt64.toFloat
  if s.digits = 0 then some x
  else if 308 < s.exponent then none
  else if 0 ≤ s.exponent then
    let y := x * powerOfTen s.exponent.toNat
    if y.isInf then none else some y
  else if -308 ≤ s.exponent then some (x / powerOfTen (-s.exponent).toNat)
  else some (x / powerOfTen 308 / powerOfTen (min (-s.exponent - 308).toNat 308))

end Significand

def signed (negative : Bool) (x : Float) : Json := .float (if negative then -x else x)

/-- Whole numbers of 64 bits, signed or not, are integers; all others are floats, `-0` too. -/
def wholeNumber (negative : Bool) (digits : List Char) : Option Json :=
  let s := Significand.whole 0 digits
  if s.exponent ≠ 0 then s.toFloat?.map (signed negative)
  else if !negative then some (.int s.digits)
  else if s.digits = 0 || Nat.pow 2 63 < s.digits then s.toFloat?.map (signed true)
  else some (.int (-s.digits))

def digitsOf (cs : List Char) : List Char × List Char := cs.span Char.isDigit

/-- The sign and digits after the exponent mark. -/
def exponentOf (cs : List Char) : Option (Int × List Char) :=
  let (negative, cs) : Bool × List Char := match cs with
    | '+' :: cs => (false, cs)
    | '-' :: cs => (true, cs)
    | cs => (false, cs)
  let (digits, rest) := digitsOf cs
  if digits.isEmpty then none
  else
    let n : Int := digits.foldl (fun n c => n * 10 + digitValue c) 0
    some (if negative then -n else n, rest)

def decimalNumber (negative : Bool) (s : Significand) (rest : List Char) :
    Option (Json × List Char) :=
  match rest with
  | 'e' :: cs | 'E' :: cs => do
    let (e, rest) ← exponentOf cs
    let x ← Significand.toFloat? ⟨s.digits, s.exponent + e⟩
    return (signed negative x, rest)
  | _ => s.toFloat?.map fun x => (signed negative x, rest)

def number? (negative : Bool) (cs : List Char) : Option (Json × List Char) :=
  let (digits, rest) := digitsOf cs
  if digits.isEmpty || (digits.head? == some '0' && 1 < digits.length) then none
  else match rest with
    | '.' :: cs =>
      let (places, rest) := digitsOf cs
      if places.isEmpty then none
      else decimalNumber negative ((Significand.whole 0 digits).fraction places) rest
    | 'e' :: _ | 'E' :: _ => decimalNumber negative (Significand.whole 0 digits) rest
    | _ => (wholeNumber negative digits).map fun v => (v, rest)

def hexDigit? (c : Char) : Option Nat :=
  if c.isDigit then some (c.toNat - '0'.toNat)
  else if 'a' ≤ c && c ≤ 'f' then some (c.toNat - 'a'.toNat + 10)
  else if 'A' ≤ c && c ≤ 'F' then some (c.toNat - 'A'.toNat + 10)
  else none

def hexValue? (cs : List Char) : Option Nat :=
  cs.foldlM (fun n c => (hexDigit? c).map (n * 16 + ·)) 0

def escape? : Char → Option Char
  | '"' => some '"'
  | '\\' => some '\\'
  | '/' => some '/'
  | 'b' => some '\x08'
  | 'f' => some '\x0c'
  | 'n' => some '\n'
  | 'r' => some '\r'
  | 't' => some '\t'
  | _ => none

/-- The characters up to the closing quote. Surrogates are read in pairs only. -/
def quoted : Reader (List Char)
  | '"' :: rest => some ([], rest)
  | '\\' :: 'u' :: a :: b :: c :: d :: rest => do
    let n ← hexValue? [a, b, c, d]
    if 0xD800 ≤ n && n < 0xDC00 then
      match rest with
      | '\\' :: 'u' :: a :: b :: c :: d :: rest =>
        let m ← hexValue? [a, b, c, d]
        if 0xDC00 ≤ m && m < 0xE000 then
          let (cs, rest) ← quoted rest
          return (Char.ofNat (0x10000 + (n - 0xD800) * 0x400 + (m - 0xDC00)) :: cs, rest)
        else none
      | _ => none
    else if 0xDC00 ≤ n && n < 0xE000 then none
    else
      let (cs, rest) ← quoted rest
      return (Char.ofNat n :: cs, rest)
  | '\\' :: e :: rest => do
    let c ← escape? e
    let (cs, rest) ← quoted rest
    return (c :: cs, rest)
  | c :: rest =>
    if c.toNat < 0x20 || c == '\\' then none
    else (quoted rest).map fun (cs, rest) => (c :: cs, rest)
  | [] => none

/-- The items up to the closing bracket; there are no more of them than characters. -/
def items (value : Reader Json) : Nat → Reader (List Json)
  | 0, _ => none
  | bound + 1, cs => do
    let (v, cs) ← value cs
    match skipSpace cs with
    | ',' :: cs =>
      let (vs, cs) ← items value bound cs
      return (v :: vs, cs)
    | ']' :: cs => return ([v], cs)
    | _ => none

def members (value : Reader Json) : Nat → Reader (List (String × Json))
  | 0, _ => none
  | bound + 1, cs =>
    match skipSpace cs with
    | '"' :: cs => do
      let (key, cs) ← quoted cs
      match skipSpace cs with
      | ':' :: cs =>
        let (v, cs) ← value cs
        match skipSpace cs with
        | ',' :: cs =>
          let (ms, cs) ← members value bound cs
          return ((String.ofList key, v) :: ms, cs)
        | '\x7d' :: cs => return ([(String.ofList key, v)], cs)
        | _ => none
      | _ => none
    | _ => none

def keyword? (word : String) (v : Json) (cs : List Char) : Option (Json × List Char) :=
  let w := word.toList
  if w.isPrefixOf cs then some (v, cs.drop w.length) else none

def scalar? : Reader Json
  | '"' :: cs => (quoted cs).map fun (s, rest) => (.str (String.ofList s), rest)
  | '-' :: cs => number? true cs
  | 't' :: cs => keyword? "rue" (.bool true) cs
  | 'f' :: cs => keyword? "alse" (.bool false) cs
  | 'n' :: cs => keyword? "ull" .null cs
  | cs => number? false cs

/-- A value with at most so many levels of nesting. -/
def value : Nat → Reader Json
  | 0, cs => scalar? (skipSpace cs)
  | depth + 1, cs =>
    match skipSpace cs with
    | '[' :: cs =>
      match skipSpace cs with
      | ']' :: rest => some (.arr [], rest)
      | cs => (items (value depth) (cs.length + 1) cs).map fun (vs, rest) => (.arr vs, rest)
    | '\x7b' :: cs =>
      match skipSpace cs with
      | '\x7d' :: rest => some (.obj [], rest)
      | cs => (members (value depth) (cs.length + 1) cs).map fun (ms, rest) => (.object ms, rest)
    | cs => scalar? cs

/-- Documents nest at most 127 deep. -/
def parse? (text : String) : Option Json :=
  match value 127 text.toList with
  | some (v, rest) => if (skipSpace rest).isEmpty then some v else none
  | none => none

end Backslice.Json
