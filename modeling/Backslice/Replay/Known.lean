import Backslice.Code.Stmt
import Backslice.Json.Member

namespace Backslice

/-- A value known without running the code. -/
inductive Known where
  | int (n : Int)
  | str (s : String)
  deriving DecidableEq, Repr, Inhabited

namespace Known

def ofConstant? : Constant → Option Known
  | .str s => some (.str s)
  | c => c.int?.map .int

def int? : Known → Option Int
  | .int n => some n
  | .str _ => none

def str? : Known → Option String
  | .str s => some s
  | .int _ => none

def text : Known → String
  | .int n => toString n
  | .str s => "\"" ++ s ++ "\""

def ofJson? : Json → Option Known
  | .obj [("Int", v)] => v.int64?.map .int
  | .obj [("Str", .str s)] => some (.str s)
  | _ => none

def toJson : Known → Json
  | .int n => .obj [("Int", .int n)]
  | .str s => .obj [("Str", .str s)]

/-- The sum of two integers of 64 bits, if it is one. -/
def add? (a b : Int) : Option Int :=
  let sum := a + b
  if -0x8000000000000000 ≤ sum && sum < 0x8000000000000000 then some sum else none

end Known

inductive Decision where
  | taken | notTaken | unknown
  deriving DecidableEq, Repr, Inhabited

namespace Decision

def ofBool (b : Bool) : Decision := if b then .taken else .notTaken

/-- Strings are compared for equality only. -/
def ofKnown : CmpOp → Known → Known → Decision
  | op, .int a, .int b => ofBool (op.holds a b)
  | .eq, .str a, .str b => ofBool (a = b)
  | .ne, .str a, .str b => ofBool (a ≠ b)
  | _, _, _ => .unknown

end Decision

/-- Ranges of indices, both ends included, in the order they were found. -/
structure Ranges where
  list : List (Nat × Nat)
  deriving DecidableEq, Repr, Inhabited

namespace Ranges

def empty : Ranges := ⟨[]⟩

/-- A range that ends before it starts is left out. -/
def add (r : Ranges) (first last : Nat) : Ranges :=
  if first ≤ last then ⟨r.list ++ [(first, last)]⟩ else r

def contains (r : Ranges) (index : Nat) : Bool :=
  r.list.any fun b => b.1 ≤ index && index ≤ b.2

def isEmpty (r : Ranges) : Bool := r.list.isEmpty

end Ranges

end Backslice
