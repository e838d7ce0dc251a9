import Backslice.Json.Basic

namespace Backslice.Json

def str? : Json → Option String
  | .str s => some s
  | _ => none

def list? : Json → Option (List Json)
  | .arr items => some items
  | _ => none

def bool? : Json → Option Bool
  | .bool b => some b
  | _ => none

/-- A number without sign. No integer that is read from text has more than 64 bits. -/
def count? : Json → Option Nat
  | .int n => if 0 ≤ n then some n.toNat else none
  | _ => none

/-- A signed number of 32 bits. -/
def int32? : Json → Option Int
  | .int n => if -0x80000000 ≤ n && n < 0x80000000 then some n else none
  | _ => none

/-- A signed number of 64 bits. -/
def int64? : Json → Option Int
  | .int n => if -0x8000000000000000 ≤ n && n < 0x8000000000000000 then some n else none
  | _ => none

/-- A float; an integer stands for the float next to it. -/
def float? : Json → Option Float
  | .float x => some x
  | .int n => some (if n < 0 then -n.natAbs.toUInt64.toFloat else n.natAbs.toUInt64.toFloat)
  | _ => none

def listOf? {α : Type} (read : Json → Option α) (v : Json) : Option (List α) :=
  v.list? >>= fun items => items.mapM read

def pairOf? {α β : Type} (first : Json → Option α) (second : Json → Option β) :
    Json → Option (α × β)
  | .arr [a, b] => do return (← first a, ← second b)
  | _ => none

/-- A choice without payload: its name, or an object with a null under the name. -/
def choice? {α : Type} (names : List (String × α)) : Json → Option α
  | .str name | .obj [(name, .null)] => names.lookup name
  | _ => none

def texts? : Json → Option (List String) := listOf? str?

/-- The members of a structure: those of an object, or the items of a list in the order of the
names. -/
def members? (names : List String) : Json → Option (List (String × Json))
  | .obj members => some members
  | .arr items => if items.length ≤ names.length then some (names.zip items) else none
  | _ => none

def required? {α : Type} (members : List (String × Json)) (name : String)
    (read : Json → Option α) : Option α :=
  members.lookup name >>= read

/-- A member that may be left out, but not null. -/
def defaulted? {α : Type} (members : List (String × Json)) (name : String) (default : α)
    (read : Json → Option α) : Option α :=
  match members.lookup name with
  | none => some default
  | some v => read v

/-- A member that may be left out or null. -/
def optional? {α : Type} (members : List (String × Json)) (name : String)
    (read : Json → Option α) : Option (Option α) :=
  match members.lookup name with
  | none | some .null => some none
  | some v => (read v).map some

def orNull {α : Type} (toJson : α → Json) : Option α → Json
  | some a => toJson a
  | none => .null

def texts (l : List String) : Json := .arr (l.map .str)

end Backslice.Json
