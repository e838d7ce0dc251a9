import Backslice.Code.Ty
import Backslice.Decimal.Layout

namespace Backslice

inductive Constant where
  | int (n : Int)
  | long (n : Int)
  | float (x : Float)
  | double (x : Float)
  | str (s : String)
  | null
  | cls (name : String)
  deriving DecidableEq, Repr, Inhabited

namespace Constant

/-- In code, floats are positional from 0.0001 up to 10 ^ 16 and keep a decimal. -/
def inCode : Decimal.Layout where
  plain e := -4 ≤ e && e < 16
  point := true
  plus := false
  tie := .up

/-- As plain values, floats are always positional. -/
def asValue : Decimal.Layout where
  plain _ := true
  point := false
  plus := false
  tie := .up

def quote (s : String) : String :=
  "\"" ++ String.ofList (s.toList.flatMap fun c => if c = '"' then ['\\', '"'] else [c]) ++ "\""

def text : Constant → String
  | .int n => toString n
  | .long n => toString n ++ "L"
  | .float x => inCode.float x ++ "F"
  | .double x => inCode.float x
  | .str s => quote s
  | .null => "null"
  | .cls name => "class \"" ++ name ++ "\""

/-- The value itself, without quotes or suffix. -/
def literal : Constant → String
  | .int n | .long n => toString n
  | .float x | .double x => asValue.float x
  | .str s => s
  | .null => "null"
  | .cls name => name

/-- The character with this code, taken modulo 2 ^ 32. -/
def charOfCode? (n : Int) : Option Char :=
  let code := (n % 0x100000000).toNat
  if code.isValidChar then some (Char.ofNat code) else none

/-- What the constant says in a slot of the given type, if that is text. -/
def textFor? (c : Constant) (slot : Ty) : Option String :=
  match c, slot with
  | .str s, _ => some s
  | .int n, .char => (charOfCode? n).map Char.toString
  | .int n, .byte => some (toString n)
  | _, _ => none

def int? : Constant → Option Int
  | .int n | .long n => some n
  | _ => none

/-- Equality as the values have it: no float that is not a number equals itself. -/
def same : Constant → Constant → Bool
  | .float x, .float y | .double x, .double y => x == y
  | a, b => a = b

end Constant

end Backslice
