import Backslice.Table
import Backslice.Decimal.Layout

namespace Backslice

/-- A document. The members of an object stand in key order, each key once. -/
inductive Json where
  | null
  | bool (b : Bool)
  | int (n : Int)
  | float (x : Float)
  | str (s : String)
  | arr (items : List Json)
  | obj (members : List (String × Json))
  deriving Inhabited

namespace Json

/-- The last member of a key counts. -/
def object (members : List (String × Json)) : Json :=
  .obj (members.foldl (fun ms m => Table.insertEntry m.1 m.2 ms) [])

def member? (key : String) : Json → Option Json
  | .obj members => (members.find? fun m => m.1 = key).map (·.2)
  | _ => none

def isNull : Json → Bool
  | .null => true
  | _ => false

mutual
/-- Equality of documents. An integer never equals a float; floats compare as numbers. -/
def same : Json → Json → Bool
  | .null, .null => true
  | .bool a, .bool b => a == b
  | .int a, .int b => a == b
  | .float a, .float b => a == b
  | .str a, .str b => a == b
  | .arr a, .arr b => sameItems a b
  | .obj a, .obj b => sameMembers a b
  | _, _ => false

def sameItems : List Json → List Json → Bool
  | [], [] => true
  | a :: as, b :: bs => same a b && sameItems as bs
  | _, _ => false

def sameMembers : List (String × Json) → List (String × Json) → Bool
  | [], [] => true
  | (k, a) :: as, (l, b) :: bs => k == l && same a b && sameMembers as bs
  | _, _ => false
end

/-- Floats are positional from 0.00001 up to 10 ^ 16 and keep a decimal. -/
def number : Decimal.Layout where
  plain e := -5 ≤ e && e < 16
  point := true
  plus := true
  tie := .even

end Json

end Backslice
